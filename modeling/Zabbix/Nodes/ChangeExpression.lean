import Zabbix.Lib.Braces
import Zabbix.Nodes.ChangeIds

/-!
# Zabbix.Nodes.ChangeExpression

What `convert_expression` makes of the expression of a trigger.

A trigger refers to its functions by `{functionid}`.  Over the pieces of the
expression (`Braces.pieces`) the loop of the source is one step for each piece
(`convertExpression_eq`): whatever is in braces is written as a number, and what
follows a brace that is not closed is dropped.  What is stored is the expression with its
function identifiers renamed and nothing else changed iff the braces hold identifiers
only and the text fits its column (`storedExpression_eq_iff`).
-/

namespace Zabbix.NodeChange

open Ascii Printf Braces

/-! ## function identifiers in a text -/

/-- A text that stands for an identifier. -/
def IsId (s : List UInt8) : Prop := s ≠ [] ∧ ∀ c ∈ s, JsonText.isDigit c = true

instance (s : List UInt8) : Decidable (IsId s) := inferInstanceAs (Decidable (_ ∧ _))

theorem isId_dec (n : ℕ) : IsId (dec n) := ⟨dec_ne_nil n, fun _ h => isDigit_of_mem_dec h⟩

/-- An identifier exchanged, and another text kept. -/
def renameId (f : ℤ → ℤ) (s : List UInt8) : List UInt8 := if IsId s then dec (f (ofDec s)).toNat else s

/-- The piece with the identifier exchanged that it holds, if it does. -/
def renamePiece (f : ℤ → ℤ) : Piece → Piece
  | .braced s => .braced (renameId f s)
  | .text c => .text c
  | .unclosed s => .unclosed s

/-- The expression with the function identifiers exchanged, and everything else kept. -/
def renameExpression (f : ℤ → ℤ) (e : List UInt8) : List UInt8 := render ((pieces e).map (renamePiece f))

/-- A piece that is converted as it should be: a byte that is stored, or an identifier
whose renaming is one. -/
def PieceFits (pre : ℕ) : Piece → Prop
  | .text c => c ≠ cr
  | .braced s => IsId s ∧ 0 < ofDec s ∧ ofDec s + pre < 2 ^ 64
  | .unclosed s => s = []

instance (pre : ℕ) : DecidablePred (PieceFits pre)
  | .text _ => inferInstanceAs (Decidable (_ ≠ _))
  | .braced _ => inferInstanceAs (Decidable (_ ∧ _))
  | .unclosed _ => inferInstanceAs (Decidable (_ = _))

/-- The expressions that are converted as they should be: what stands in braces is an
identifier, and the renamed expression fits its column. -/
structure ExpressionFits (newId : ℕ) (e : List UInt8) : Prop where
  pieces : ∀ p ∈ pieces e, PieceFits (prefixOf newId (syncOf .functions)) p
  length : (renameExpression (rename newId (syncOf .functions)) e).length ≤ triggerExpressionLen

/-! ## the loop over pieces -/

/-- What the loop writes for pieces, with what `tmp` is before. -/
def convertPieces (pre : UInt64) : UInt64 → List Piece → List UInt8
  | _, [] => []
  | tmp, .text c :: ps => c :: convertPieces pre tmp ps
  | tmp, .braced s :: ps =>
      let tmp := (zbxStr2uint64 s).getD tmp + pre
      lbrace :: (ui64 tmp ++ rbrace :: convertPieces pre tmp ps)
  | tmp, .unclosed _ :: ps => lbrace :: convertPieces pre tmp ps

/-- A piece that is open starts with its brace. -/
theorem convertPieces_read_some (pre tmp : UInt64) (s t : List UInt8) :
    ∃ out, convertPieces pre tmp (read (some s) t) = lbrace :: out := by
  induction t generalizing s with
  | nil => exact ⟨[], rfl⟩
  | cons c t ih =>
      simp only [Braces.read]
      split
      · exact ⟨_, rfl⟩
      · exact ih _

/-- From any state of the loop: the brace that is open is already written. -/
theorem foldl_convertByte (pre : UInt64) (o : Option (List UInt8)) (t : List UInt8) (tmp : UInt64)
    (out : List UInt8) :
    (t.foldl (convertByte pre) ⟨o, tmp, out⟩).newExp =
      out ++ (convertPieces pre tmp (read o t)).drop (if o.isSome then 1 else 0) := by
  fun_induction read o t generalizing tmp out with
  | case1 => simp [convertPieces]
  | case2 s => simp [convertPieces]
  | case3 t ih =>
      obtain ⟨rest, hrest⟩ := convertPieces_read_some pre tmp [] t
      simp [convertByte, ih, hrest]
  | case4 c t hc ih => simp [convertByte, hc, ih, convertPieces]
  | case5 s t ih => simp [convertByte, ih, convertPieces]
  | case6 s c t hc ih => simp [convertByte, hc, ih]

/-- The loop of the source is one step for each piece. -/
theorem convertExpression_eq (pre tmp : UInt64) (e : List UInt8) :
    convertExpression pre tmp e = convertPieces pre tmp (pieces e) := by
  rw [convertExpression, foldl_convertByte]
  rfl

/-! ## what is stored -/

theorem not_mem_dec {c : UInt8} (hc : JsonText.isDigit c = false) (n : ℕ) : c ∉ dec n := fun h => by
  rw [isDigit_of_mem_dec h] at hc
  cases hc

/-- `ZBX_STR2UINT64` of digits. -/
theorem zbxStr2uint64_of_isId {s : List UInt8} (h : IsId s) :
    zbxStr2uint64 s = some (UInt64.ofNat (min (ofDec s) (2 ^ 64 - 1))) := by
  obtain ⟨hne, hdigits⟩ := h
  have htake : s.takeWhile (fun c => JsonText.isDigit c) = s := List.takeWhile_eq_self_iff.mpr hdigits
  cases s with
  | nil => exact absurd rfl hne
  | cons c s =>
      have hbyte : ∀ c : UInt8, JsonText.isDigit c = true → ¬isSpace c = true ∧ c ≠ minus ∧ c ≠ plus :=
        forall_byte (by decide +kernel)
      obtain ⟨hspace, hminus, hplus⟩ := hbyte c (hdigits c List.mem_cons_self)
      rw [zbxStr2uint64, List.dropWhile_cons_of_neg hspace]
      dsimp only
      rw [if_neg hminus, if_neg hplus, scanDigits, htake, Option.map_some]

/-- What `tmp` is after an identifier is the renamed one iff this is no more than 64 bits. -/
theorem tmp_eq_iff {pre v : ℕ} (hpos : 0 < pre) (hlt : pre < 2 ^ 64) :
    (UInt64.ofNat (min v (2 ^ 64 - 1)) + UInt64.ofNat pre).toNat = (if 0 < v then v + pre else v) ↔
      0 < v ∧ v + pre < 2 ^ 64 := by
  have hsum : (UInt64.ofNat (min v (2 ^ 64 - 1)) + UInt64.ofNat pre).toNat =
      (min v (2 ^ 64 - 1) + pre) % 2 ^ 64 := by
    rw [UInt64.toNat_add, UInt64.toNat_ofNat', UInt64.toNat_ofNat', ← Nat.add_mod]
  rw [hsum]
  split <;> omega

theorem toNat_rename (n : ℕ) (sync : Bool) (v : ℕ) :
    (rename n sync v).toNat = if 0 < v then v + prefixOf n sync else v := by
  unfold rename
  split <;> split <;> omega

theorem not_mem_renameId {s : List UInt8} (hs : rbrace ∉ s) (f : ℤ → ℤ) : rbrace ∉ renameId f s := by
  unfold renameId
  split
  · exact not_mem_dec (by decide) _
  · exact hs

section
variable {n : ℕ} {sync : Bool} (hpos : 0 < prefixOf n sync) (hlt : prefixOf n sync < 2 ^ 64)
include hpos hlt

/-- What is written for braces is the renamed text iff they hold an identifier that fits. -/
theorem ui64_eq_renameId_iff (s : List UInt8) (tmp : UInt64) :
    ui64 ((zbxStr2uint64 s).getD tmp + UInt64.ofNat (prefixOf n sync)) = renameId (rename n sync) s ↔
      PieceFits (prefixOf n sync) (.braced s) := by
  by_cases hs : IsId s
  · rw [renameId, if_pos hs, zbxStr2uint64_of_isId hs, toNat_rename, PieceFits, ui64, Option.getD_some]
    constructor
    · intro h
      exact ⟨hs, (tmp_eq_iff hpos hlt).mp (dec_injective h)⟩
    · rintro ⟨-, h⟩
      rw [(tmp_eq_iff hpos hlt).mpr h]
  · rw [renameId, if_neg hs]
    constructor
    · intro h
      exact absurd (h ▸ isId_dec _) hs
    · rintro ⟨h, -⟩
      exact absurd h hs

end

theorem kept_number (n : ℕ) (s : List UInt8) :
    kept (lbrace :: (dec n ++ rbrace :: s)) = lbrace :: (dec n ++ rbrace :: kept s) := by
  have hdec : kept (dec n) = dec n := kept_of_not_mem (not_mem_dec (by decide) n)
  rw [kept_cons (by decide), kept, List.filter_append, List.filter_cons_of_pos (by decide)]
  exact congrArg (fun t => lbrace :: (t ++ rbrace :: kept s)) hdec

/-- A byte in front. -/
theorem take_kept_cons_iff (c : UInt8) (s t : List UInt8) (len : ℕ) :
    (kept (c :: s)).take len = c :: t ↔ c ≠ cr ∧ 0 < len ∧ (kept s).take (len - 1) = t := by
  by_cases hc : c = cr
  · subst hc
    constructor
    · intro h
      have hmem : cr ∈ kept (cr :: s) := List.mem_of_mem_take (h ▸ List.mem_cons_self)
      simp [kept] at hmem
    · rintro ⟨h, -⟩
      exact absurd rfl h
  · rw [kept_cons hc]
    cases len with
    | zero => simp
    | succ len => simp [hc]

/-- **What is stored, piece by piece**: the renamed pieces as a whole, iff all of them fit. -/
theorem take_kept_convertPieces_iff {n : ℕ} {sync : Bool} (hpos : 0 < prefixOf n sync)
    (hlt : prefixOf n sync < 2 ^ 64) {ps : List Piece} (hps : Regular ps) (len : ℕ) (tmp : UInt64) :
    (kept (convertPieces (UInt64.ofNat (prefixOf n sync)) tmp ps)).take len =
        render (ps.map (renamePiece (rename n sync))) ↔
      (∀ p ∈ ps, PieceFits (prefixOf n sync) p) ∧
        (render (ps.map (renamePiece (rename n sync)))).length ≤ len := by
  induction hps generalizing len tmp with
  | nil => simp [convertPieces]
  | text _ ih =>
      rw [convertPieces, List.map_cons, render_cons, List.forall_mem_cons]
      simp only [renamePiece, Piece.render, PieceFits, List.singleton_append, List.length_cons]
      rw [take_kept_cons_iff, ih]
      constructor
      · rintro ⟨hc, hlen, hfits, h⟩
        exact ⟨⟨hc, hfits⟩, by omega⟩
      · rintro ⟨⟨hc, hfits⟩, h⟩
        exact ⟨hc, by omega, hfits, by omega⟩
  | @braced s ps hs _ ih =>
      rw [convertPieces, List.map_cons, render_cons, List.forall_mem_cons, ← ui64_eq_renameId_iff hpos hlt s tmp]
      simp only [renamePiece, Piece.render]
      generalize (zbxStr2uint64 s).getD tmp + UInt64.ofNat (prefixOf n sync) = tmp'
      have hdec : rbrace ∉ dec tmp'.toNat := not_mem_dec (by decide) _
      rw [ui64, kept_number]
      cases len with
      | zero => simp
      | succ len =>
          rw [List.take_succ_cons, List.cons_append, List.append_assoc, List.singleton_append,
            List.cons.injEq, take_braced_iff hdec (not_mem_renameId hs _), ih, List.length_cons,
            List.length_append, List.length_cons]
          constructor
          · rintro ⟨-, hid, hlen, hfits, h⟩
            rw [hid] at hlen h
            exact ⟨⟨hid, hfits⟩, by omega⟩
          · rintro ⟨⟨hid, hfits⟩, h⟩
            rw [← hid] at h
            exact ⟨rfl, hid, by omega, hfits, by omega⟩
  | unclosed =>
      rw [convertPieces, List.map_singleton, render_cons, List.forall_mem_singleton]
      simp only [renamePiece, Piece.render, PieceFits, render_nil, List.append_nil, List.length_cons]
      rw [take_kept_cons_iff, convertPieces, kept_nil, List.take_nil]
      constructor
      · rintro ⟨-, hlen, rfl⟩
        exact ⟨rfl, hlen⟩
      · rintro ⟨rfl, hlen⟩
        exact ⟨by decide, hlen, rfl⟩

/-- What is written where all pieces fit. -/
theorem convertPieces_of_fits {n : ℕ} {sync : Bool} (hpos : 0 < prefixOf n sync)
    (hlt : prefixOf n sync < 2 ^ 64) {ps : List Piece} (hfits : ∀ p ∈ ps, PieceFits (prefixOf n sync) p)
    (tmp : UInt64) :
    convertPieces (UInt64.ofNat (prefixOf n sync)) tmp ps = render (ps.map (renamePiece (rename n sync))) := by
  induction ps generalizing tmp with
  | nil => rfl
  | cons p ps ih =>
      obtain ⟨hp, hps⟩ := List.forall_mem_cons.mp hfits
      rw [List.map_cons, render_cons]
      cases p with
      | text c => rw [convertPieces, ih hps]; rfl
      | braced s =>
          have hid := (ui64_eq_renameId_iff hpos hlt s tmp).mpr hp
          rw [convertPieces, ih hps, hid]
          simp [renamePiece, Piece.render]
      | unclosed s =>
          obtain rfl : s = [] := hp
          rw [convertPieces, ih hps]
          rfl

theorem prefixOf_lt {n : ℕ} (hn : n ≤ 999) (sync : Bool) : prefixOf n sync < 2 ^ 64 := by
  unfold prefixOf
  split <;> omega

/-- An expression that fits is written within its buffer. -/
theorem length_convertExpression_lt {n : ℕ} (hpos : 0 < n) (hn : n ≤ 999) {e : List UInt8}
    (h : ExpressionFits n e) (tmp : UInt64) :
    (convertExpression (UInt64.ofNat (prefixOf n (syncOf .functions))) tmp e).length < expressionBufLen := by
  rw [convertExpression_eq, convertPieces_of_fits (prefixOf_pos hpos _) (prefixOf_lt hn _) h.pieces]
  exact lt_of_le_of_lt h.length (by decide)

/-- **The stored expression is the renamed one iff this fits.** -/
theorem storedExpression_eq_iff {n : ℕ} (hpos : 0 < n) (hn : n ≤ 999) (tmp : UInt64) (e : List UInt8) :
    storedExpression (convertExpression (UInt64.ofNat (prefixOf n (syncOf .functions))) tmp e) =
        renameExpression (rename n (syncOf .functions)) e ↔ ExpressionFits n e := by
  rw [convertExpression_eq, storedExpression, renameExpression,
    take_kept_convertPieces_iff (prefixOf_pos hpos _) (prefixOf_lt hn _) (regular_pieces e)]
  exact ⟨fun h => ⟨h.1, h.2⟩, fun h => ⟨h.pieces, h.length⟩⟩

end Zabbix.NodeChange
