import Zabbix.Expression.Evaluate
import Zabbix.Lib.Precedence

/-!
# Zabbix.Expression.Grammar

The trigger expressions without brackets: numbers with an optional suffix `K`,
`M` or `G`, signs in front of them, and binary operators between them.  An
expression has a text and a value; the value is the standard reading, by
precedence and from the left (`Precedence.evalLeft`), for a given meaning of
the operators.
-/

namespace Zabbix

open Ascii

/-! ## numbers -/

/-- The suffixes and what they multiply by. -/
inductive Suffix
  | K
  | M
  | G
deriving DecidableEq, Repr

namespace Suffix

def char : Suffix → UInt8
  | K => capitalK
  | M => capitalM
  | G => capitalG

def factor : Suffix → ℚ
  | K => 1024
  | M => 1024 ^ 2
  | G => 1024 ^ 3

end Suffix

/-- A number: digits, perhaps a dot and more digits, perhaps a suffix. -/
structure Number where
  int : List (Fin 10)
  frac : Option (List (Fin 10))
  suffix : Option Suffix
  digits : int ≠ [] ∨ frac.getD [] ≠ []

def digitChar (d : Fin 10) : UInt8 := 48 + UInt8.ofNat d.val

/-- The number that a digit sequence denotes. -/
def digitsNat (ds : List (Fin 10)) : ℕ := ds.foldl (fun n d => 10 * n + d.val) 0

namespace Number

/-- The digits and the dot. -/
def mantissa (n : Number) : List UInt8 :=
  n.int.map digitChar ++
    match n.frac with
    | none => []
    | some ds => dot :: ds.map digitChar

def suffixText (n : Number) : List UInt8 := (n.suffix.map Suffix.char).toList

def text (n : Number) : List UInt8 := n.mantissa ++ n.suffixText

def mantissaValue (n : Number) : ℚ :=
  digitsNat n.int + digitsNat (n.frac.getD []) / 10 ^ (n.frac.getD []).length

def value (n : Number) : ℚ := (n.suffix.map Suffix.factor).getD 1 * n.mantissaValue

end Number

/-! ## expressions -/

/-- A number with signs in front of it, `true` for a minus. -/
structure Operand where
  signs : List Bool
  number : Number

namespace Operand

def value (x : Operand) : ℚ := if negative x.signs then -x.number.value else x.number.value

def signedText (x : Operand) : SignedText := { signs := x.signs, body := x.number.text }

end Operand

/-- An expression without brackets. -/
structure TriggerExpression where
  first : Operand
  rest : List (Operator × Operand)

namespace TriggerExpression

def text (e : TriggerExpression) : List UInt8 :=
  signedText e.first.signedText (e.rest.map fun p => (p.1.char, p.2.signedText))

def values (e : TriggerExpression) : List (Operator × ℚ) :=
  e.rest.map fun p => (p.1, p.2.value)

/-- The standard reading, by precedence and from the left. -/
def value (f : Operator → ℚ → ℚ → ℚ) (e : TriggerExpression) : ℚ :=
  Precedence.evalLeft f Operator.all e.first.value e.values

end TriggerExpression

/-! ## number texts -/

theorem isDigit_digitChar (d : Fin 10) : isDigit (digitChar d) = true := by
  revert d
  decide

theorem digitChar_toNat (d : Fin 10) : (digitChar d).toNat - 48 = d.val := by
  revert d
  decide

theorem isSuffix_char (s : Suffix) : isSuffix s.char = true := by
  cases s <;> rfl

theorem isSuffix_iff {c : UInt8} :
    isSuffix c ↔ c = capitalK ∨ c = capitalM ∨ c = capitalG := by
  simp [isSuffix, or_assoc]

/-- A digit or a dot is no suffix. -/
theorem not_isSuffix {c : UInt8} (h : isDigit c ∨ c = dot) : ¬isSuffix c := by
  rw [isSuffix_iff]
  rintro (rfl | rfl | rfl)
  all_goals
    revert h
    decide

/-- The bytes of a number. -/
def IsNumberChar (c : UInt8) : Prop := isDigit c ∨ c = dot ∨ isSuffix c

instance : DecidablePred IsNumberChar := fun _ => inferInstanceAs (Decidable (_ ∨ _ ∨ _))

namespace Number

variable (n : Number)

theorem mantissa_ne_nil : n.mantissa ≠ [] := by
  obtain ⟨int, frac, suffix, digits⟩ := n
  cases frac with
  | none => simpa [mantissa] using digits
  | some ds => simp [mantissa]

theorem text_ne_nil : n.text ≠ [] := by
  simp [text, n.mantissa_ne_nil]

theorem mantissa_chars {c : UInt8} (h : c ∈ n.mantissa) : isDigit c ∨ c = dot := by
  rw [mantissa, List.mem_append] at h
  rcases h with h | h
  · obtain ⟨d, -, rfl⟩ := List.mem_map.mp h
    exact .inl (isDigit_digitChar d)
  · cases hf : n.frac with
    | none =>
        rw [hf] at h
        cases h
    | some ds =>
        rw [hf] at h
        rcases List.mem_cons.mp h with rfl | h
        · exact .inr rfl
        · obtain ⟨d, -, rfl⟩ := List.mem_map.mp h
          exact .inl (isDigit_digitChar d)

theorem text_chars {c : UInt8} (h : c ∈ n.text) : IsNumberChar c := by
  rw [text, List.mem_append] at h
  rcases h with h | h
  · rcases n.mantissa_chars h with hd | hd
    · exact .inl hd
    · exact .inr (.inl hd)
  · rw [suffixText, Option.mem_toList, Option.map_eq_some_iff] at h
    obtain ⟨s, -, rfl⟩ := h
    exact .inr (.inr (isSuffix_char s))

/-- A number without suffix ends with a digit or a dot. -/
theorem endsNumber_text (h : n.suffix = none) : endsNumber n.text.getLast? = true := by
  have hlast : n.text.getLast? = n.mantissa.getLast? := by
    simp [text, suffixText, h]
  rw [hlast, List.getLast?_eq_some_getLast n.mantissa_ne_nil]
  rcases n.mantissa_chars (List.getLast_mem n.mantissa_ne_nil) with hd | hd
  · rw [endsNumber]
    rw [isDigit] at hd
    simp [hd]
  · rw [endsNumber, hd]
    decide

/-! ## reading numbers -/

/-- Digits are passed over. -/
theorem isDoublePrefixLoop_digits {dot : Bool} {s : List UInt8}
    (h : ∀ start, isDoublePrefixLoop start dot s = true) (ds : List (Fin 10)) (start : Bool) :
    isDoublePrefixLoop start dot (ds.map digitChar ++ s) = true := by
  induction ds generalizing start with
  | nil => exact h start
  | cons d ds ih =>
      have hd := isDigit_digitChar d
      have hm : digitChar d ≠ minus := by
        revert d
        decide
      rw [List.map_cons, List.cons_append, isDoublePrefixLoop, if_neg (by simp [hm]), if_pos hd]
      exact ih false

theorem isDoublePrefix_text : isDoublePrefix n.text = true := by
  have hsuffix : ∀ dot start, isDoublePrefixLoop start dot n.suffixText = true := by
    intro dot start
    rw [suffixText]
    cases n.suffix with
    | none => rfl
    | some s => cases s <;> cases start <;> cases dot <;> rfl
  rw [isDoublePrefix, text, mantissa, List.append_assoc]
  apply isDoublePrefixLoop_digits
  intro start
  cases n.frac with
  | none => exact hsuffix false start
  | some ds =>
      have hd := isDoublePrefixLoop_digits (hsuffix true) ds false
      cases start <;> exact hd

theorem digitsValue_map (ds : List (Fin 10)) : digitsValue (ds.map digitChar) = digitsNat ds := by
  rw [digitsValue, digitsNat, List.foldl_map]
  simp only [digitChar_toNat]

theorem span_digits (ds : List (Fin 10)) {s : List UInt8} (h : ∀ c ∈ s.head?, isDigit c = false) :
    (ds.map digitChar ++ s).takeWhile isDigit = ds.map digitChar ∧
      (ds.map digitChar ++ s).dropWhile isDigit = s := by
  have hall : ∀ c ∈ ds.map digitChar, isDigit c = true := by
    intro c hc
    obtain ⟨d, -, rfl⟩ := List.mem_map.mp hc
    exact isDigit_digitChar d
  constructor
  · rw [List.takeWhile_append_of_pos hall]
    cases s with
    | nil => simp
    | cons c s =>
        have hc := h c rfl
        simp [hc]
  · rw [List.dropWhile_append_of_pos hall]
    cases s with
    | nil => rfl
    | cons c s =>
        have hc := h c rfl
        simp [hc]

/-- `atof` reads the digits and the dot. -/
theorem atof_mantissa : atof n.mantissa = n.mantissaValue := by
  have hunsigned : atofUnsigned n.mantissa = n.mantissaValue := by
    rw [atofUnsigned, mantissa, mantissaValue]
    cases n.frac with
    | none =>
        obtain ⟨ht, hd⟩ := span_digits n.int (s := []) (by simp)
        rw [ht, hd, digitsValue_map]
        simp [digitsNat]
    | some ds =>
        have hdot : isDigit dot = false := by decide
        obtain ⟨ht, hd⟩ := span_digits n.int (s := dot :: ds.map digitChar) (by simp [hdot])
        obtain ⟨ht', -⟩ := span_digits ds (s := []) (by simp)
        rw [List.append_nil] at ht'
        simp only [ht, hd, ht', digitsValue_map, if_true, List.length_map, Option.getD_some]
  obtain ⟨c, t, hc⟩ := List.exists_cons_of_ne_nil n.mantissa_ne_nil
  have hm : c ≠ minus := by
    rintro rfl
    rcases n.mantissa_chars (c := minus) (by rw [hc]; exact List.mem_cons_self ..) with h | h
    · exact absurd h (by decide)
    · exact absurd h (by decide)
  rw [hc] at hunsigned ⊢
  rw [atof, if_neg hm, hunsigned]

/-- `str2double` reads a number. -/
theorem str2double_text (before : Option UInt8) :
    ∃ s, str2double before n.text = some (n.value, s) := by
  unfold str2double value text suffixText
  cases hs : n.suffix with
  | some s =>
      rw [Option.map_some, Option.toList_some, List.getLast?_concat, Option.some_or]
      simp only [List.dropLast_concat, n.atof_mantissa, Option.map_some, Option.getD_some]
      cases s with
      | K => exact ⟨_, rfl⟩
      | M =>
          refine ⟨n.mantissa, ?_⟩
          rw [Suffix.char, if_neg (by decide), if_pos rfl, Suffix.factor]
          norm_num
      | G =>
          refine ⟨n.mantissa, ?_⟩
          rw [Suffix.char, if_neg (by decide), if_neg (by decide), if_pos rfl, Suffix.factor]
          norm_num
  | none =>
      have hlast := List.getLast?_eq_some_getLast n.mantissa_ne_nil
      have hchar := n.mantissa_chars (List.getLast_mem n.mantissa_ne_nil)
      have hsuf := mt isSuffix_iff.mpr (not_isSuffix hchar)
      rw [not_or, not_or] at hsuf
      refine ⟨n.mantissa, ?_⟩
      simp [hlast, hsuf, n.atof_mantissa]

end Number

end Zabbix
