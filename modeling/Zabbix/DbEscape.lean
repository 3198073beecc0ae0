import Zabbix.Lib.SqlLiteral
import Zabbix.Str

/-!
# Zabbix.DbEscape

String escaping of `libs/zbxdbhigh/db.c`.  The backend is a compile-time
choice (`HAVE_MYSQL`, `HAVE_ORACLE`, …), here a parameter.

The loops of the source fill a buffer of a given size; what they compute is
the code of each byte, one after the other, with carriage returns dropped
(`dbDynEscapeString_eq`, `dbDynEscapeStringLen_eq`), and each code reads back
as its byte under the literal rules of the backend (`escapes_escape`).
-/

namespace Zabbix

open Ascii SqlLiteral

/-- The database the binary is built for. -/
inductive Backend
  | mysql
  | oracle
  | postgresql
  | sqlite3
deriving DecidableEq, Repr

namespace Backend

/-- `!defined(HAVE_ORACLE) && !defined(HAVE_SQLITE3)`: a backslash is special
in literals. -/
def escapesBackslash : Backend → Bool
  | mysql | postgresql => true
  | oracle | sqlite3 => false

/-- The bytes that are escaped. -/
def special (b : Backend) (c : UInt8) : Bool := c = squote || (b.escapesBackslash && c = backslash)

theorem special_iff {b : Backend} {c : UInt8} :
    b.special c ↔ c = squote ∨ (b.escapesBackslash ∧ c = backslash) := by
  simp [special]

/-- `ZBX_DB_ESC_CH`, or the byte itself with `HAVE_POSTGRESQL`. -/
def escCh : Backend → UInt8 → UInt8
  | mysql, _ => backslash
  | postgresql, c => c
  | oracle, _ | sqlite3, _ => squote

/-- The code of one byte. -/
def escape (b : Backend) (c : UInt8) : List UInt8 := if b.special c then [b.escCh c, c] else [c]

theorem escape_special {b : Backend} {c : UInt8} (h : b.special c) : b.escape c = [b.escCh c, c] :=
  if_pos h

theorem escape_plain {b : Backend} {c : UInt8} (h : ¬b.special c) : b.escape c = [c] :=
  if_neg h

end Backend

/-! ## the loops -/

/-- The loop of `DBescape_string`, with `len` bytes left in the buffer. -/
def dbEscapeLoop (b : Backend) : (src : List UInt8) → (len : Nat) → List UInt8
  | [], _ => []
  | _ :: _, 0 => []
  | c :: src, len + 1 =>
      if c = cr then dbEscapeLoop b src (len + 1)
      else if b.special c then
        if len + 1 < 2 then [] else b.escCh c :: c :: dbEscapeLoop b src (len + 1 - 2)
      else c :: dbEscapeLoop b src len

/-- `DBescape_string`, for a destination of `len` bytes, at least one. -/
def dbEscapeString (b : Backend) (src : List UInt8) (len : Nat) : List UInt8 :=
  dbEscapeLoop b src (len - 1)

/-- The first loop of `DBdyn_escape_string`: the bytes that `src` takes. -/
def dbDynEscapeLen (b : Backend) : List UInt8 → Nat
  | [] => 0
  | c :: src =>
      if c = cr then dbDynEscapeLen b src
      else if b.special c then dbDynEscapeLen b src + 2
      else dbDynEscapeLen b src + 1

/-- `DBdyn_escape_string`. -/
def dbDynEscapeString (b : Backend) (src : List UInt8) : List UInt8 :=
  dbEscapeString b src (dbDynEscapeLen b src + 1)

/-- The first loop of `DBdyn_escape_string_len`: the bytes that the first
`maxSrcLen` kept bytes of `src` take. -/
def dbDynEscapeLenMax (b : Backend) : (src : List UInt8) → (maxSrcLen : Nat) → Nat
  | [], _ => 0
  | _ :: _, 0 => 0
  | c :: src, maxSrcLen + 1 =>
      if c = cr then dbDynEscapeLenMax b src (maxSrcLen + 1)
      else if b.special c then dbDynEscapeLenMax b src maxSrcLen + 2
      else dbDynEscapeLenMax b src maxSrcLen + 1

/-- `DBdyn_escape_string_len`. -/
def dbDynEscapeStringLen (b : Backend) (src : List UInt8) (maxSrcLen : Nat) : List UInt8 :=
  dbEscapeString b src (dbDynEscapeLenMax b src maxSrcLen + 1)

/-! ## what they compute -/

/-- The bytes of a string that escaping keeps. -/
def kept (src : List UInt8) : List UInt8 := src.filter (· ≠ cr)

@[simp] theorem kept_nil : kept [] = [] := rfl

@[simp] theorem kept_cr (src : List UInt8) : kept (cr :: src) = kept src := rfl

theorem kept_cons {c : UInt8} (hc : c ≠ cr) (src : List UInt8) : kept (c :: src) = c :: kept src := by
  simp [kept, hc]

theorem cr_not_mem_kept (src : List UInt8) : cr ∉ kept src := fun h => of_decide_eq_true (List.mem_filter.mp h).2 rfl

theorem length_kept_le (src : List UInt8) : (kept src).length ≤ src.length :=
  List.length_filter_le _ _

variable (b : Backend)

/-- With room for everything, the loop escapes the whole string. -/
theorem dbEscapeLoop_of_le {src : List UInt8} {len : Nat}
    (h : ((kept src).flatMap b.escape).length ≤ len) :
    dbEscapeLoop b src len = (kept src).flatMap b.escape := by
  induction src generalizing len with
  | nil => rfl
  | cons c src ih =>
      by_cases hc : c = cr
      · subst hc
        rw [kept_cr] at h ⊢
        cases len with
        | zero =>
            rw [List.eq_nil_of_length_eq_zero (Nat.le_zero.mp h)]
            rfl
        | succ len =>
            rw [dbEscapeLoop, if_pos rfl, ih h]
      · rw [kept_cons hc, List.flatMap_cons, List.length_append] at h
        rw [kept_cons hc, List.flatMap_cons]
        by_cases hs : b.special c
        · rw [Backend.escape_special hs] at h ⊢
          simp only [List.length_cons, List.length_nil] at h
          obtain ⟨len, rfl⟩ : ∃ k, len = k + 2 := ⟨len - 2, by omega⟩
          rw [dbEscapeLoop, if_neg hc, if_pos hs, if_neg (by omega), ih (by omega)]
          rfl
        · rw [Backend.escape_plain hs] at h ⊢
          simp only [List.length_cons, List.length_nil] at h
          obtain ⟨len, rfl⟩ : ∃ k, len = k + 1 := ⟨len - 1, by omega⟩
          rw [dbEscapeLoop, if_neg hc, if_neg hs, ih (by omega)]
          rfl

/-- With room for exactly the first `n` kept bytes, the loop escapes those. -/
theorem dbEscapeLoop_take (src : List UInt8) (n : Nat) :
    dbEscapeLoop b src (dbDynEscapeLenMax b src n) = ((kept src).take n).flatMap b.escape := by
  induction src generalizing n with
  | nil => simp [dbEscapeLoop]
  | cons c src ih =>
      cases n with
      | zero => simp [dbDynEscapeLenMax, dbEscapeLoop]
      | succ n =>
          by_cases hc : c = cr
          · subst hc
            have h := ih (n + 1)
            rw [dbDynEscapeLenMax, if_pos rfl, kept_cr, ← h]
            cases hl : dbDynEscapeLenMax b src (n + 1) with
            | zero => cases src <;> rfl
            | succ len => rw [dbEscapeLoop, if_pos rfl]
          · rw [kept_cons hc, List.take_succ_cons, List.flatMap_cons, ← ih n, dbDynEscapeLenMax,
              if_neg hc]
            by_cases hs : b.special c
            · rw [if_pos hs, dbEscapeLoop, if_neg hc, if_pos hs, if_neg (by omega)]
              rw [Backend.escape_special hs]
              rfl
            · rw [if_neg hs, dbEscapeLoop, if_neg hc, if_neg hs, Backend.escape_plain hs]
              rfl

/-- The counting loop counts the escaped bytes. -/
theorem dbDynEscapeLen_eq (src : List UInt8) :
    dbDynEscapeLen b src = ((kept src).flatMap b.escape).length := by
  induction src with
  | nil => rfl
  | cons c src ih =>
      by_cases hc : c = cr
      · subst hc
        rw [dbDynEscapeLen, if_pos rfl, kept_cr, ih]
      · rw [dbDynEscapeLen, if_neg hc, kept_cons hc, List.flatMap_cons, List.length_append, ih]
        by_cases hs : b.special c
        · rw [if_pos hs, Backend.escape_special hs, Nat.add_comm]
          rfl
        · rw [if_neg hs, Backend.escape_plain hs, Nat.add_comm]
          rfl

/-- `DBdyn_escape_string` escapes the kept bytes. -/
theorem dbDynEscapeString_eq (src : List UInt8) :
    dbDynEscapeString b src = (kept src).flatMap b.escape := by
  rw [dbDynEscapeString, dbEscapeString, Nat.add_sub_cancel]
  exact dbEscapeLoop_of_le b (dbDynEscapeLen_eq b src).ge

/-- `DBdyn_escape_string_len` escapes the first `n` kept bytes. -/
theorem dbDynEscapeStringLen_eq (src : List UInt8) (n : Nat) :
    dbDynEscapeStringLen b src n = ((kept src).take n).flatMap b.escape := by
  rw [dbDynEscapeStringLen, dbEscapeString, Nat.add_sub_cancel]
  exact dbEscapeLoop_take b src n

theorem kept_of_not_mem {src : List UInt8} (h : cr ∉ src) : kept src = src := by
  rw [kept, List.filter_eq_self]
  intro c hc
  simpa using ne_of_mem_of_not_mem hc h

/-- Dropping carriage returns shortens the escaped text by their number. -/
theorem length_flatMap_kept (src : List UInt8) :
    ((kept src).flatMap b.escape).length + src.count cr = (src.flatMap b.escape).length := by
  induction src with
  | nil => rfl
  | cons c src ih =>
      by_cases hc : c = cr
      · subst hc
        have he : (b.escape cr).length = 1 := by cases b <;> decide
        rw [kept_cr, List.count_cons_self, List.flatMap_cons, List.length_append]
        omega
      · rw [kept_cons hc, List.count_cons_of_ne hc, List.flatMap_cons, List.flatMap_cons,
          List.length_append, List.length_append]
        omega

theorem length_escape_le (c : UInt8) : (b.escape c).length ≤ 2 := by
  rw [Backend.escape]
  split <;> simp

/-- Escaping at most doubles a string. -/
theorem length_flatMap_escape_le (s : List UInt8) : (s.flatMap b.escape).length ≤ 2 * s.length := by
  induction s with
  | nil => simp
  | cons c s ih =>
      have := length_escape_le b c
      simp only [List.flatMap_cons, List.length_append, List.length_cons]
      omega

theorem length_dbDynEscapeStringLen_le (src : List UInt8) (n : Nat) :
    (dbDynEscapeStringLen b src n).length ≤ 2 * n := by
  have h := length_flatMap_escape_le b ((kept src).take n)
  have ht := List.length_take_le n (kept src)
  rw [dbDynEscapeStringLen_eq]
  omega

/-- Into a destination of more than twice its length a string goes whole. -/
theorem dbEscapeString_of_lt {src : List UInt8} {len : Nat} (h : 2 * src.length < len) :
    dbEscapeString b src len = (kept src).flatMap b.escape := by
  apply dbEscapeLoop_of_le
  have h1 := length_flatMap_escape_le b (kept src)
  have h2 := length_kept_le src
  omega

/-! ## reading back -/

/-- What the backends with backslash escapes read for a backslash and the byte
after it, as far as escaping relies on it: a quote and a backslash stand for
themselves. -/
structure UnescapeRule where
  unescape : UInt8 → List UInt8
  squote : unescape Ascii.squote = [Ascii.squote]
  backslash : unescape Ascii.backslash = [Ascii.backslash]

/-- Every byte behind a backslash stands for itself. -/
def UnescapeRule.itself : UnescapeRule := { unescape := fun c => [c], squote := rfl, backslash := rfl }

/-- The literal rules of the backend. -/
def Backend.dialect (rule : UnescapeRule) : Dialect :=
  { unescape := if b.escapesBackslash then some rule.unescape else none }

/-- **Escaping is read back by the backend.** -/
theorem escapes_escape (rule : UnescapeRule) : Escapes (b.dialect rule) b.escape := by
  intro c s
  by_cases hs : b.special c
  · rw [Backend.escape_special hs]
    rcases Backend.special_iff.mp hs with rfl | ⟨hb, rfl⟩
    · cases b with
      | mysql =>
          refine (body_backslash _ rfl squote s).trans ?_
          rw [rule.squote]
          rfl
      | oracle | postgresql | sqlite3 => exact body_squote_squote _ s
    · cases b with
      | mysql | postgresql =>
          refine (body_backslash _ rfl backslash s).trans ?_
          rw [rule.backslash]
          rfl
      | oracle | sqlite3 => contradiction
  · rw [Backend.escape_plain hs]
    rw [Backend.special_iff, not_or, not_and] at hs
    apply body_cons _ hs.1
    cases b with
    | mysql | postgresql => exact .inr (hs.2 rfl)
    | oracle | sqlite3 => exact .inl rfl

/-- A text is the tokens, and the backend reads it as them: every literal in
it is closed and stands for its string. -/
structure ReadsAs (rule : UnescapeRule) (ts : List Token) (sql : List UInt8) : Prop where
  text : sql = render b.escape ts
  tokens : (b.dialect rule).lex sql = some ts

/-- With tokens that stand apart, the second follows from the first. -/
theorem readsAs_iff (rule : UnescapeRule) {ts : List Token} (h : Separated ts) (sql : List UInt8) :
    ReadsAs b rule ts sql ↔ sql = render b.escape ts := by
  constructor
  · exact ReadsAs.text
  · intro heq
    exact ⟨heq, heq ▸ lex_render (escapes_escape b rule) h⟩

/-! ## the longest prefix -/

/-- The first `k` bytes of a string are escaped into `len` bytes, and more of
them do not fit. -/
structure LongestPrefix (s : List UInt8) (len k : Nat) : Prop where
  fits : ((s.take k).flatMap b.escape).length ≤ len
  longest : ∀ k', k < k' → k' ≤ s.length → len < ((s.take k').flatMap b.escape).length

variable {b}

theorem LongestPrefix.nil (len : Nat) : LongestPrefix b [] len 0 where
  fits := by simp
  longest := by
    intro k' hk' hlen
    rw [List.length_nil] at hlen
    omega

/-- A byte that does not fit. -/
theorem LongestPrefix.zero {c : UInt8} {len : Nat} (h : len < (b.escape c).length) (s : List UInt8) :
    LongestPrefix b (c :: s) len 0 where
  fits := by simp
  longest := by
    intro k' hk' _
    obtain ⟨k', rfl⟩ : ∃ k, k' = k + 1 := ⟨k' - 1, by omega⟩
    rw [List.take_succ_cons, List.flatMap_cons, List.length_append]
    omega

/-- A byte that fits. -/
theorem LongestPrefix.cons {s : List UInt8} {len k : Nat} (h : LongestPrefix b s len k) (c : UInt8) :
    LongestPrefix b (c :: s) (len + (b.escape c).length) (k + 1) where
  fits := by
    have hfits := h.fits
    rw [List.take_succ_cons, List.flatMap_cons, List.length_append]
    omega
  longest := by
    intro k' hk' hlen
    obtain ⟨k', rfl⟩ : ∃ k, k' = k + 1 := ⟨k' - 1, by omega⟩
    rw [List.length_cons] at hlen
    have hlt := h.longest k' (by omega) (by omega)
    rw [List.take_succ_cons, List.flatMap_cons, List.length_append]
    omega

variable (b)

/-- The loop escapes as many of the kept bytes as there is room for. -/
theorem dbEscapeLoop_prefix (src : List UInt8) (len : Nat) :
    ∃ k, dbEscapeLoop b src len = ((kept src).take k).flatMap b.escape ∧
      LongestPrefix b (kept src) len k := by
  induction src generalizing len with
  | nil => exact ⟨0, rfl, .nil len⟩
  | cons c src ih =>
      by_cases hc : c = cr
      · subst hc
        rw [kept_cr]
        obtain ⟨k, heq, hk⟩ := ih len
        refine ⟨k, ?_, hk⟩
        cases len with
        | zero =>
            rw [List.eq_nil_of_length_eq_zero (Nat.le_zero.mp hk.fits)]
            rfl
        | succ len => rw [dbEscapeLoop, if_pos rfl, heq]
      · rw [kept_cons hc]
        by_cases hs : b.special c
        · have he : b.escape c = [b.escCh c, c] := Backend.escape_special hs
          have hlength : (b.escape c).length = 2 := by rw [he]; rfl
          match len with
          | 0 => exact ⟨0, rfl, .zero (by omega) _⟩
          | 1 =>
              refine ⟨0, ?_, .zero (by omega) _⟩
              rw [dbEscapeLoop, if_neg hc, if_pos hs, if_pos (by omega)]
              rfl
          | len + 2 =>
              obtain ⟨k, heq, hk⟩ := ih len
              refine ⟨k + 1, ?_, hlength ▸ hk.cons c⟩
              have hlen : len + 1 + 1 - 2 = len := by omega
              rw [dbEscapeLoop, if_neg hc, if_pos hs, if_neg (by omega), hlen, heq,
                List.take_succ_cons, List.flatMap_cons, he]
              rfl
        · have he : b.escape c = [c] := Backend.escape_plain hs
          have hlength : (b.escape c).length = 1 := by rw [he]; rfl
          cases len with
          | zero => exact ⟨0, rfl, .zero (by omega) _⟩
          | succ len =>
              obtain ⟨k, heq, hk⟩ := ih len
              refine ⟨k + 1, ?_, hlength ▸ hk.cons c⟩
              rw [dbEscapeLoop, if_neg hc, if_neg hs, heq, List.take_succ_cons, List.flatMap_cons, he]
              rfl

/-- The body of a literal: between quotes the backend reads it as the string,
and the literal is closed by the quote behind it. -/
def LiteralBody (rule : UnescapeRule) (body value : List UInt8) : Prop :=
  ∀ rest, rest.head? ≠ some squote → (b.dialect rule).body (body ++ squote :: rest) = some (value, rest)

theorem literalBody_flatMap (rule : UnescapeRule) (s : List UInt8) :
    LiteralBody b rule (s.flatMap b.escape) s :=
  fun rest hrest => body_flatMap (escapes_escape b rule) s rest hrest

/-- **Escaping and reading back**: what the three functions write is the body of
a literal and fits its destination, with the NUL behind it.  The literal stands
for the string without carriage returns, for the first `n` bytes of this, or
for as much of it as fits. -/
theorem escape_readBack (rule : UnescapeRule) (src : CString) :
    (LiteralBody b rule (dbDynEscapeString b src.val) (kept src.val) ∧
      (dbDynEscapeString b src.val).length < dbDynEscapeLen b src.val + 1) ∧
    (∀ n, LiteralBody b rule (dbDynEscapeStringLen b src.val n) ((kept src.val).take n) ∧
      (dbDynEscapeStringLen b src.val n).length < dbDynEscapeLenMax b src.val n + 1) ∧
    ∀ len, ∃ k, LiteralBody b rule (dbEscapeString b src.val (len + 1)) ((kept src.val).take k) ∧
      (dbEscapeString b src.val (len + 1)).length < len + 1 ∧ LongestPrefix b (kept src.val) len k := by
  have hloop : ∀ len, (dbEscapeString b src.val (len + 1)).length < len + 1 := by
    intro len
    obtain ⟨k, heq, hk⟩ := dbEscapeLoop_prefix b src.val len
    rw [dbEscapeString, Nat.add_sub_cancel, heq]
    exact Nat.lt_succ_of_le hk.fits
  refine ⟨⟨?_, hloop _⟩, fun n => ⟨?_, hloop _⟩, fun len => ?_⟩
  · rw [dbDynEscapeString_eq]
    exact literalBody_flatMap b rule _
  · rw [dbDynEscapeStringLen_eq]
    exact literalBody_flatMap b rule _
  · obtain ⟨k, heq, hk⟩ := dbEscapeLoop_prefix b src.val len
    refine ⟨k, ?_, hloop len, hk⟩
    rw [dbEscapeString, Nat.add_sub_cancel, heq]
    exact literalBody_flatMap b rule _

end Zabbix
