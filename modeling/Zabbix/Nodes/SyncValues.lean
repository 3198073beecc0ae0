import Zabbix.Lib.SqlStatement
import Zabbix.Nodes.Sync

/-!
# Zabbix.Nodes.SyncValues

What a database reads of the values that are put into a statement: NULL, the text of a
number, a literal in quotes, and with MySQL digits behind `0x`.

A column of the type `bytea`, which PostgreSQL alone has, takes the string of a literal
for text in which backslashes stand in front of other backslashes and of octal digits.
A column of another type keeps the string as it is.
-/

namespace Zabbix.Nodesync

open Ascii Printf SqlLiteral SqlStatement

/-! ## the database -/

/-- The database of the node that receives: how it reads backslashes in literals, which
columns are of the type `bytea`, and which rows there are. -/
structure NodeDb (schema : NodeSchema) where
  backend : Backend
  rule : UnescapeRule
  bytea : (table column : List UInt8) → Bool
  bytea_blob : ∀ t ∈ schema.tables, ∀ f ∈ t.fields, bytea t.table.val f.name.val = true → f.type = .blob
  there : ZbxTable → UInt64 → Bool

/-- The byte of three octal digits. -/
def octalByte (a b c : UInt8) : Option UInt8 :=
  if (48 ≤ a ∧ a ≤ 51) ∧ (48 ≤ b ∧ b ≤ 55) ∧ 48 ≤ c ∧ c ≤ 55 then
    some (((a - 48) <<< 6) + ((b - 48) <<< 3) + (c - 48))
  else none

/-- What a column of the type `bytea` is given. -/
def byteaInput : List UInt8 → Option (List UInt8)
  | [] => some []
  | [c] => if c = backslash then none else some [c]
  | c :: d :: s =>
      if c ≠ backslash then (byteaInput (d :: s)).map (c :: ·)
      else if d = backslash then (byteaInput s).map (backslash :: ·)
      else
        match s with
        | e :: f :: s => (octalByte d e f).bind fun byte => (byteaInput s).map (byte :: ·)
        | _ => none

attribute [grind =] byteaInput

/-- The value of a hexadecimal digit. -/
def hexDigit (c : UInt8) : Option UInt8 :=
  if 48 ≤ c ∧ c ≤ 57 then some (c - 48)
  else if 97 ≤ c ∧ c ≤ 102 then some (c - 87)
  else if 65 ≤ c ∧ c ≤ 70 then some (c - 55)
  else none

/-- The bytes of hexadecimal digits, two for each. -/
def hexBytes : List UInt8 → Option (List UInt8)
  | [] => some []
  | [_] => none
  | c :: d :: s =>
      (hexDigit c).bind fun hi => (hexDigit d).bind fun lo => (hexBytes s).map (((hi <<< 4) + lo) :: ·)

variable {schema : NodeSchema}

/-- What a column is given by the string of a literal; Oracle has no empty strings. -/
def NodeDb.string (db : NodeDb schema) (table column s : List UInt8) : Option (Option (List UInt8)) :=
  match db.backend with
  | .oracle => some (if s = [] then none else some s)
  | .postgresql => if db.bytea table column then (byteaInput s).map some else some (some s)
  | .mysql | .sqlite3 => some (some s)

/-- What a column is given by a word without quotes.  Digits behind `0x` are a string for
MySQL alone, which puts a zero in front of an odd number of them. -/
def NodeDb.word (db : NodeDb schema) (s : List UInt8) : Option (Option (List UInt8)) :=
  if s = bytes "NULL" then some none
  else
    match (bytes "0x").isPrefixOf? s with
    | some digits =>
        if db.backend = .mysql ∧ digits ≠ [] then
          (hexBytes (if digits.length % 2 = 1 then 48 :: digits else digits)).map some
        else none
    | none => if s ≠ [] ∧ s.all isNumberByte then some (some s) else none

/-- What ends a word. -/
def endsWord (c : UInt8) : Bool := c = comma ∨ c = space ∨ c = rparen

/-- The values in a statement. -/
def NodeDb.read (db : NodeDb schema) : Reader (Option (List UInt8))
  | _, _, [] => none
  | table, column, c :: text =>
      if c = squote then
        ((db.backend.dialect db.rule).body text).bind fun r => (db.string table column r.1).map fun v => (v, r.2)
      else
        (db.word ((c :: text).takeWhile fun c => !endsWord c)).map fun v =>
          (v, (c :: text).dropWhile fun c => !endsWord c)

/-- A word is read up to its end. -/
theorem read_word (db : NodeDb schema) (table column : List UInt8) {s : List UInt8} (hne : s ≠ [])
    (hs : ∀ c ∈ s, c ≠ squote ∧ endsWord c = false) {rest : List UInt8} (h : Ends rest) :
    db.read table column (s ++ rest) = (db.word s).map fun v => (v, rest) := by
  have hword : ∀ c ∈ s, (!endsWord c) = true := fun c hc => by rw [(hs c hc).2]; rfl
  have hrest : ∀ c ∈ rest.head?, (!endsWord c) = false := by
    intro c hc
    have hend : endsWord c = true := decide_eq_true (h c hc)
    rw [hend]
    rfl
  have htake : (s ++ rest).takeWhile (fun c => !endsWord c) = s := by
    rw [List.takeWhile_append_of_pos hword]
    cases rest with
    | nil => simp
    | cons c rest => rw [List.takeWhile_cons_of_neg (by simpa using hrest c rfl), List.append_nil]
  have hdrop : (s ++ rest).dropWhile (fun c => !endsWord c) = rest := by
    rw [List.dropWhile_append_of_pos hword]
    cases rest with
    | nil => rfl
    | cons c rest => rw [List.dropWhile_cons_of_neg (by simpa using hrest c rfl)]
  cases s with
  | nil => contradiction
  | cons c s =>
      rw [List.cons_append] at htake hdrop ⊢
      rw [NodeDb.read, if_neg (hs c (List.mem_cons_self ..)).1, htake, hdrop]

/-- A literal is read up to the quote that closes it. -/
theorem read_literal (db : NodeDb schema) (table column : List UInt8) {body s : List UInt8}
    (hbody : LiteralBody db.backend db.rule body s) {rest : List UInt8} (h : Ends rest) :
    db.read table column (squote :: body ++ [squote] ++ rest) =
      (db.string table column s).map fun v => (v, rest) := by
  have hrest : rest.head? ≠ some squote := by
    intro hq
    have := h squote hq
    revert this
    decide
  rw [List.append_assoc, List.singleton_append, List.cons_append, NodeDb.read, if_pos rfl, hbody rest hrest,
    Option.bind_some]

/-! ## hexadecimal digits -/

theorem zbxBinary2hex_ne_nil {s : List UInt8} (h : s ≠ []) : zbxBinary2hex s ≠ [] := by
  cases s with
  | nil => contradiction
  | cons c s => simp [zbxBinary2hex_cons]

/-- The digits of a byte stand for it, and what a digit is not. -/
theorem hexDigit_byte (c : UInt8) :
    (hexDigit (zbxNum2hex ((c >>> 4) &&& 0xf))).bind (fun hi =>
        (hexDigit (zbxNum2hex (c &&& 0xf))).map fun lo => (hi <<< 4) + lo) = some c ∧
      ((hexDigit c).isSome = true →
        c ≠ 0 ∧ c ≠ newline ∧ c ≠ zbxDmDelimiter ∧ c ≠ capitalN ∧ c ≠ squote ∧ endsWord c = false) := by
  have hall : ∀ c : UInt8,
      (hexDigit (zbxNum2hex ((c >>> 4) &&& 0xf))).bind (fun hi =>
          (hexDigit (zbxNum2hex (c &&& 0xf))).map fun lo => (hi <<< 4) + lo) = some c ∧
        ((hexDigit c).isSome = true →
          c ≠ 0 ∧ c ≠ newline ∧ c ≠ zbxDmDelimiter ∧ c ≠ capitalN ∧ c ≠ squote ∧ endsWord c = false) :=
    forall_byte (by decide +kernel)
  exact hall c

/-- The digits of a byte are digits, and stand for it. -/
theorem hexDigit_digits (c : UInt8) :
    (hexDigit (zbxNum2hex ((c >>> 4) &&& 0xf))).bind (fun hi =>
      (hexDigit (zbxNum2hex (c &&& 0xf))).map fun lo => (hi <<< 4) + lo) = some c :=
  (hexDigit_byte c).1

/-- MySQL reads the digits as the bytes. -/
theorem hexBytes_binary2hex (s : List UInt8) : hexBytes (zbxBinary2hex s) = some s := by
  induction s with
  | nil => rfl
  | cons c s ih =>
      have hc := hexDigit_digits c
      obtain ⟨hi, hhi, hlo⟩ := Option.bind_eq_some_iff.mp hc
      obtain ⟨lo, hlo, heq⟩ := Option.map_eq_some_iff.mp hlo
      rw [zbxBinary2hex_cons, hexBytes, hhi, hlo, ih, Option.bind_some, Option.bind_some, Option.map_some, heq]

/-- A byte of the digits. -/
theorem hexDigit_of_mem {s : List UInt8} {c : UInt8} (h : c ∈ zbxBinary2hex s) : (hexDigit c).isSome = true := by
  induction s with
  | nil => cases h
  | cons d s ih =>
      have hd := hexDigit_digits d
      obtain ⟨hi, hhi, hlo⟩ := Option.bind_eq_some_iff.mp hd
      obtain ⟨lo, hlo, -⟩ := Option.map_eq_some_iff.mp hlo
      rw [zbxBinary2hex_cons, List.mem_cons, List.mem_cons] at h
      rcases h with rfl | rfl | h
      · rw [hhi]
        rfl
      · rw [hlo]
        rfl
      · exact ih h

/-- What a byte of the digits is not. -/
theorem hexDigit_ne {c : UInt8} (h : (hexDigit c).isSome = true) :
    c ≠ 0 ∧ c ≠ newline ∧ c ≠ zbxDmDelimiter ∧ c ≠ capitalN ∧ c ≠ squote ∧ endsWord c = false :=
  (hexDigit_byte c).2 h

/-! ## bytes for PostgreSQL -/

/-- The string of the literal of a byte. -/
def pgString (c : UInt8) : List UInt8 :=
  if c ≤ 0x1f ∨ 0x7f ≤ c then
    [backslash, ((c >>> 6) &&& 0x7) + 0x30, ((c >>> 3) &&& 0x7) + 0x30, (c &&& 0x7) + 0x30]
  else if c = backslash then [backslash, backslash]
  else [c]

/-- The bytes that PostgreSQL keeps in any column. -/
def isPgPlain (c : UInt8) : Bool := 0x1f < c ∧ c < 0x7f ∧ c ≠ backslash

/-- The octal digits of a byte stand for it, and what a digit is not. -/
theorem octalByte_byte (c : UInt8) :
    octalByte (((c >>> 6) &&& 0x7) + 0x30) (((c >>> 3) &&& 0x7) + 0x30) ((c &&& 0x7) + 0x30) = some c ∧
      (c &&& 0x7) + 0x30 ≠ squote ∧ (c &&& 0x7) + 0x30 ≠ backslash := by
  have hall : ∀ c : UInt8,
      octalByte (((c >>> 6) &&& 0x7) + 0x30) (((c >>> 3) &&& 0x7) + 0x30) ((c &&& 0x7) + 0x30) = some c ∧
        (c &&& 0x7) + 0x30 ≠ squote ∧ (c &&& 0x7) + 0x30 ≠ backslash :=
    forall_byte (by decide +kernel)
  exact hall c

/-- The octal digits of a byte are digits, and stand for it. -/
theorem octalByte_digits (c : UInt8) :
    octalByte (((c >>> 6) &&& 0x7) + 0x30) (((c >>> 3) &&& 0x7) + 0x30) ((c &&& 0x7) + 0x30) = some c :=
  (octalByte_byte c).1

/-- An octal digit is neither a quote nor a backslash. -/
theorem octal_ne (c : UInt8) : (c &&& 0x7) + 0x30 ≠ squote ∧ (c &&& 0x7) + 0x30 ≠ backslash :=
  (octalByte_byte c).2

/-- PostgreSQL reads the literal of the bytes as their string. -/
theorem literalBody_pgEscape (rule : UnescapeRule) (s : List UInt8) :
    LiteralBody .postgresql rule (zbxPgEscapeBytea s) (s.flatMap pgString) := by
  intro rest hrest
  have hd : ((Backend.postgresql).dialect rule).unescape = some rule.unescape := rfl
  induction s with
  | nil => exact literalBody_flatMap .postgresql rule [] rest hrest
  | cons c s ih =>
      have hescape : zbxPgEscapeBytea (c :: s) = zbxPgEscapeBytea [c] ++ zbxPgEscapeBytea s := by
        simp [zbxPgEscapeBytea]
      have hbyte : ∀ text, ((Backend.postgresql).dialect rule).body (zbxPgEscapeBytea [c] ++ text) =
          (((Backend.postgresql).dialect rule).body text).map fun r => (pgString c ++ r.1, r.2) := by
        intro text
        have hplain : ∀ d ≠ squote, d ≠ backslash → ∀ text, ((Backend.postgresql).dialect rule).body (d :: text) =
            (((Backend.postgresql).dialect rule).body text).map fun r => (d :: r.1, r.2) :=
          fun d hq hb text => body_cons _ hq (.inr hb) text
        rw [zbxPgEscapeBytea, List.flatMap_singleton, pgString]
        by_cases hcontrol : c ≤ 0x1f ∨ 0x7f ≤ c
        · obtain ⟨hq₁, hb₁⟩ := octal_ne (c >>> 6)
          obtain ⟨hq₂, hb₂⟩ := octal_ne (c >>> 3)
          obtain ⟨hq₃, hb₃⟩ := octal_ne c
          rw [if_pos hcontrol, if_pos hcontrol]
          simp only [List.cons_append, List.nil_append]
          rw [body_backslash _ hd, rule.backslash, hplain _ hq₁ hb₁, hplain _ hq₂ hb₂, hplain _ hq₃ hb₃]
          simp only [Option.map_map]
          rfl
        · rw [if_neg hcontrol, if_neg hcontrol]
          by_cases hq : c = squote
          · subst hq
            rw [if_pos rfl, if_neg (by decide)]
            simp only [List.cons_append, List.nil_append]
            rw [body_backslash _ hd, rule.squote]
            rfl
          · rw [if_neg hq]
            by_cases hb : c = backslash
            · subst hb
              rw [if_pos rfl, if_pos rfl]
              simp only [List.cons_append, List.nil_append]
              rw [body_backslash _ hd, body_backslash _ hd, rule.backslash]
              simp only [Option.map_map]
              rfl
            · rw [if_neg hb, if_neg hb]
              exact hplain c hq hb text
      rw [hescape, List.append_assoc, hbyte, ih, List.flatMap_cons, Option.map_some]

theorem byteaInput_plain {c : UInt8} (h : c ≠ backslash) (s : List UInt8) :
    byteaInput (c :: s) = (byteaInput s).map (c :: ·) := by
  cases s with
  | nil =>
      rw [byteaInput.eq_def]
      exact if_neg h
  | cons d s =>
      rw [byteaInput.eq_def]
      exact if_pos h

theorem byteaInput_backslash (s : List UInt8) :
    byteaInput (backslash :: backslash :: s) = (byteaInput s).map (backslash :: ·) := by
  rw [byteaInput.eq_def]
  exact (if_neg (not_not_intro rfl)).trans (if_pos rfl)

theorem byteaInput_octal {a : UInt8} (h : a ≠ backslash) (b c : UInt8) (s : List UInt8) :
    byteaInput (backslash :: a :: b :: c :: s) =
      (octalByte a b c).bind fun byte => (byteaInput s).map (byte :: ·) := by
  rw [byteaInput.eq_def]
  exact (if_neg (not_not_intro rfl)).trans (if_neg h)

/-- A column of the type `bytea` has the bytes. -/
theorem byteaInput_pgString (s : List UInt8) : byteaInput (s.flatMap pgString) = some s := by
  induction s with
  | nil => rfl
  | cons c s ih =>
      rw [List.flatMap_cons, pgString]
      by_cases hcontrol : c ≤ 0x1f ∨ 0x7f ≤ c
      · have hb := (octal_ne (c >>> 6)).2
        rw [if_pos hcontrol]
        simp only [List.cons_append, List.nil_append]
        rw [byteaInput_octal hb, octalByte_digits, ih]
        rfl
      · rw [if_neg hcontrol]
        by_cases hb : c = backslash
        · subst hb
          rw [if_pos rfl]
          simp only [List.cons_append, List.nil_append]
          rw [byteaInput_backslash, ih]
          rfl
        · rw [if_neg hb, List.singleton_append, byteaInput_plain hb, ih]
          rfl

/-- A column of another type has the string, which is another one unless all of the bytes
are plain. -/
theorem flatMap_pgString (s : List UInt8) : s.flatMap pgString = s ↔ ∀ c ∈ s, isPgPlain c = true := by
  have hle : ∀ c ∈ s, [c].length ≤ (pgString c).length := by
    intro c _
    rw [pgString]
    split
    · simp
    · split <;> simp
  have hbyte : ∀ c, [c] = pgString c ↔ isPgPlain c = true := by
    intro c
    rw [isPgPlain, decide_eq_true_iff, pgString]
    have hcontrol : (c ≤ 0x1f ∨ 0x7f ≤ c) ↔ ¬(0x1f < c ∧ c < 0x7f) := by
      rw [not_and_or, UInt8.not_lt, UInt8.not_lt]
    split
    · simp_all
    · split <;> simp_all
  have hself : s.flatMap (fun c => [c]) = s := List.flatMap_singleton' s
  rw [← forall₂_congr fun c _ => hbyte c, ← flatMap_eq_iff hle, hself]
  exact eq_comm

end Zabbix.Nodesync
