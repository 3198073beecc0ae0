import Zabbix.Lib.Buffer
import Zabbix.Nodes.SyncValues

/-!
# Zabbix.PgBytea

Binary values in PostgreSQL: `zbx_pg_escape_bytea` and `zbx_pg_unescape_bytea` of `libs/zbxcommon/str.c`.

A byte is escaped twice: for the literal of the statement, and for the text of the column that is read
back.

* `pgBytea_roundTrip` — what is written in a literal reads back.
-/

namespace Zabbix

open Ascii SqlLiteral Nodesync

/-! ## The functions -/

/-- The first loop of `zbx_pg_escape_bytea`: the room for a byte. -/
def pgEscapeLen (c : UInt8) : ℕ :=
  if c = 0 ∨ c ≤ 0x1f ∨ 0x7f ≤ c then 5 else if c = squote then 2 else if c = backslash then 4 else 1

/-- What `zbx_pg_escape_bytea` leaves: the text, the size of its buffer, and the return value. -/
structure PgEscaped where
  output : List UInt8
  olen : ℕ
  len : ℕ

/-- `len` of `zbx_pg_escape_bytea` -/
def pgEscapedLen (input : List UInt8) : ℕ := input.foldl (fun len c => len + pgEscapeLen c) 1

/-- `zbx_pg_escape_bytea`, with the buffer -/
def pgEscapeBytea (input : List UInt8) (olen : ℕ) : PgEscaped :=
  let len := pgEscapedLen input
  ⟨zbxPgEscapeBytea input, if olen < len then len else olen, len - 1⟩

/-- `0x30 <= c && c <= 0x39` -/
def isOctal (c : UInt8) : Bool := 48 ≤ c ∧ c ≤ 57

/-- The loop of `zbx_pg_unescape_bytea`, which reads at `i` and writes at `o`. -/
def pgUnescapeLoop (io : List UInt8) (i o : ℕ) : List UInt8 × ℕ :=
  if hnul : Buffer.byteAt io i = 0 then (io, o)
  else
    have hlt : i < io.length := Buffer.lt_length_of_byteAt hnul
    if Buffer.byteAt io i = backslash then
      if Buffer.byteAt io (i + 1) = backslash then pgUnescapeLoop (io.set o (Buffer.byteAt io (i + 1))) (i + 2) (o + 1)
      else if isOctal (Buffer.byteAt io (i + 1)) ∧ isOctal (Buffer.byteAt io (i + 2)) ∧ isOctal (Buffer.byteAt io (i + 3))
      then
        pgUnescapeLoop
          (io.set o
            (((Buffer.byteAt io (i + 1) - 48) <<< 6) + ((Buffer.byteAt io (i + 2) - 48) <<< 3) +
              (Buffer.byteAt io (i + 3) - 48)))
          (i + 4) (o + 1)
      else pgUnescapeLoop io (i + 1) o
    else pgUnescapeLoop (io.set o (Buffer.byteAt io i)) (i + 1) (o + 1)
termination_by io.length - i
decreasing_by
  all_goals
    try rw [List.length_set]
    omega

/-- `zbx_pg_unescape_bytea`: the buffer and the length of what is in it. -/
def zbxPgUnescapeBytea (io : List UInt8) : List UInt8 × ℕ := pgUnescapeLoop io 0 0

/-! ## The literal -/

/-- What stands in a literal for a byte. -/
theorem zbxPgEscapeBytea_cons (c : UInt8) (input : List UInt8) :
    zbxPgEscapeBytea (c :: input) =
      (if c ≤ 0x1f ∨ 0x7f ≤ c then
        [backslash, backslash, ((c >>> 6) &&& 0x7) + 0x30, ((c >>> 3) &&& 0x7) + 0x30, (c &&& 0x7) + 0x30]
      else if c = squote then [backslash, squote]
      else if c = backslash then [backslash, backslash, backslash, backslash]
      else [c]) ++ zbxPgEscapeBytea input := rfl

theorem noBare_zbxPgEscapeBytea (input : List UInt8) : NoBare (zbxPgEscapeBytea input) := by
  induction input with
  | nil => exact .nil
  | cons c input ih =>
      rw [zbxPgEscapeBytea_cons]
      by_cases hoctal : c ≤ 0x1f ∨ 0x7f ≤ c
      · rw [if_pos hoctal]
        have hplain : ∀ c : UInt8, ∀ {s}, NoBare s → NoBare (((c &&& 0x7) + 0x30) :: s) := fun c _ hs =>
          .plain (octal_ne c).1 (octal_ne c).2 hs
        exact .pair (.inr rfl) (hplain _ (hplain _ (hplain _ ih)))
      · rw [if_neg hoctal]
        by_cases hquote : c = squote
        · rw [if_pos hquote]
          exact .pair (.inl rfl) ih
        · rw [if_neg hquote]
          by_cases hback : c = backslash
          · rw [if_pos hback]
            exact .pair (.inr rfl) (.pair (.inr rfl) ih)
          · rw [if_neg hback]
            exact .plain hquote hback ih

/-- The first loop counts what the second one writes, and the NUL. -/
theorem pgEscapedLen_eq (input : List UInt8) : pgEscapedLen input = (zbxPgEscapeBytea input).length + 1 := by
  have hloop : ∀ n, input.foldl (fun len c => len + pgEscapeLen c) n = (zbxPgEscapeBytea input).length + n := by
    induction input with
    | nil => exact fun n => (Nat.zero_add n).symm
    | cons c input ih =>
        intro n
        have hnul : (c = 0 ∨ c ≤ 0x1f ∨ 0x7f ≤ c) ↔ c ≤ 0x1f ∨ 0x7f ≤ c :=
          ⟨fun h => h.elim (fun hc => .inl (by rw [hc]; decide)) id, .inr⟩
        rw [List.foldl_cons, ih, zbxPgEscapeBytea_cons, List.length_append, pgEscapeLen, if_congr hnul rfl rfl]
        repeat' split
        all_goals
          simp only [List.length_cons, List.length_nil]
          omega
  exact hloop 1

/-! ## The text -/

theorem nul_not_mem_pgString (c : UInt8) : (0 : UInt8) ∉ pgString c := by
  revert c
  exact forall_byte (by decide +kernel)

theorem length_pgString_pos (c : UInt8) : 0 < (pgString c).length := by
  rw [pgString]
  split
  · exact Nat.succ_pos _
  · split <;> exact Nat.succ_pos _

theorem byteAt_of_drop {io s : List UInt8} {i : ℕ} (h : io.drop i = s) (k : ℕ) :
    Buffer.byteAt io (i + k) = s[k]?.getD 0 := by
  rw [Buffer.byteAt, ← h, List.getElem?_drop]

/-- The number of the digits is the byte. -/
theorem octalDigits_value (c : UInt8) :
    (((c >>> 6 &&& 7) + 48 - 48) <<< 6) + (((c >>> 3 &&& 7) + 48 - 48) <<< 3) + ((c &&& 7) + 48 - 48) = c := by
  revert c
  exact forall_byte (by decide +kernel)

/-- The digits of a byte are octal digits. -/
theorem isOctal_digit (c : UInt8) : isOctal ((c &&& 7) + 48) = true := by
  revert c
  exact forall_byte (by decide +kernel)

/-- The text of a byte is read at once. -/
theorem pgUnescapeLoop_pgString {io rest : List UInt8} {i o : ℕ} {c : UInt8} (h : io.drop i = pgString c ++ rest) :
    pgUnescapeLoop io i o = pgUnescapeLoop (io.set o c) (i + (pgString c).length) (o + 1) := by
  have hbyte := byteAt_of_drop h
  rw [pgString] at hbyte ⊢
  by_cases hoctal : c ≤ 0x1f ∨ 0x7f ≤ c
  · rw [if_pos hoctal] at hbyte ⊢
    have h0 : Buffer.byteAt io i = backslash := hbyte 0
    have h1 : Buffer.byteAt io (i + 1) = (c >>> 6 &&& 7) + 48 := hbyte 1
    have h2 : Buffer.byteAt io (i + 2) = (c >>> 3 &&& 7) + 48 := hbyte 2
    have h3 : Buffer.byteAt io (i + 3) = (c &&& 7) + 48 := hbyte 3
    rw [pgUnescapeLoop, dif_neg (by rw [h0]; decide), if_pos h0, h1, h2, h3, if_neg (octal_ne _).2,
      if_pos ⟨isOctal_digit _, isOctal_digit _, isOctal_digit _⟩, octalDigits_value]
    rfl
  · rw [if_neg hoctal] at hbyte ⊢
    by_cases hback : c = backslash
    · subst hback
      have h0 : Buffer.byteAt io i = backslash := hbyte 0
      have h1 : Buffer.byteAt io (i + 1) = backslash := hbyte 1
      rw [pgUnescapeLoop, dif_neg (by rw [h0]; decide), if_pos h0, if_pos h1, h1]
      rfl
    · rw [if_neg hback] at hbyte ⊢
      have h0 : Buffer.byteAt io i = c := hbyte 0
      have hnul : c ≠ 0 := fun hc => hoctal (.inl (by rw [hc]; decide))
      rw [pgUnescapeLoop, dif_neg (by rw [h0]; exact hnul), if_neg (by rw [h0]; exact hback), h0]
      rfl

/-- Writing stays behind reading: what is left to read is as it was, and the bytes stand in front of the place that
is written next. -/
theorem pgUnescapeLoop_spec {input tail : List UInt8} {io : List UInt8} {i o : ℕ} (hle : o ≤ i)
    (h : io.drop i = input.flatMap pgString ++ 0 :: tail) :
    (pgUnescapeLoop io i o).1.take (pgUnescapeLoop io i o).2 = io.take o ++ input ∧
      (pgUnescapeLoop io i o).2 = o + input.length := by
  induction input generalizing io i o with
  | nil =>
      have hnul : Buffer.byteAt io i = 0 := byteAt_of_drop h 0
      rw [pgUnescapeLoop, dif_pos hnul, List.append_nil]
      exact ⟨rfl, rfl⟩
  | cons c input ih =>
      rw [List.flatMap_cons, List.append_assoc] at h
      have hpos := length_pgString_pos c
      have hlt : i < io.length := by
        by_contra hge
        rw [List.drop_of_length_le (by omega)] at h
        exact absurd (congrArg List.length h) (by simp)
      have hdrop : (io.set o c).drop (i + (pgString c).length) = input.flatMap pgString ++ 0 :: tail := by
        rw [List.drop_set_of_lt (by omega), ← List.drop_drop, h, List.drop_left]
      obtain ⟨htake, hlength⟩ := ih (show o + 1 ≤ i + (pgString c).length by omega) hdrop
      rw [pgUnescapeLoop_pgString h, htake, hlength, List.length_cons]
      refine ⟨?_, by omega⟩
      have hset : (io.set o c).take (o + 1) = io.take o ++ [c] := by
        rw [List.take_add_one, List.take_set_of_le le_rfl, List.getElem?_set_self (by omega)]
        rfl
      rw [hset, List.append_assoc, List.singleton_append]

/-- **Binary values in PostgreSQL**: the text of a value has the length that was computed for it and fits its buffer;
each quote and each backslash of it stands behind a backslash; and the literal that it is the body of stands for a text
which reads back, in place, as the value with its length. -/
theorem pgBytea_roundTrip (rule : UnescapeRule) (input : List UInt8) (olen : ℕ) :
    let r := pgEscapeBytea input olen
    r.output.length = r.len ∧ r.len + 1 = pgEscapedLen input ∧ r.output.length < r.olen ∧ NoBare r.output ∧
      ∃ text, LiteralBody .postgresql rule r.output text ∧ 0 ∉ text ∧
        ∀ tail, (zbxPgUnescapeBytea (text ++ 0 :: tail)).2 = input.length ∧
          (zbxPgUnescapeBytea (text ++ 0 :: tail)).1.take input.length = input := by
  have hlen := pgEscapedLen_eq input
  dsimp only [pgEscapeBytea]
  refine ⟨by omega, by omega, by split <;> omega, noBare_zbxPgEscapeBytea input, input.flatMap pgString, ?_, ?_, ?_⟩
  · exact literalBody_pgEscape rule input
  · intro h
    obtain ⟨c, -, hc⟩ := List.mem_flatMap.mp h
    exact nul_not_mem_pgString c hc
  · intro tail
    have hdrop : (input.flatMap pgString ++ 0 :: tail).drop 0 = input.flatMap pgString ++ 0 :: tail := List.drop_zero
    obtain ⟨htake, hlength⟩ := pgUnescapeLoop_spec (Nat.le_refl 0) hdrop
    rw [Nat.zero_add] at hlength
    rw [hlength] at htake
    exact ⟨hlength, htake⟩

end Zabbix
