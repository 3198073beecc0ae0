import Zabbix.Expression.Standard
import Zabbix.Lib.Printf

/-!
# Zabbix.Expression.Brackets

`evaluate` of `libs/zbxserver/expression.c`, the evaluator of trigger
expressions with brackets.

It goes for the first closing bracket, evaluates the text back to the opening
one with `evaluate_simple`, and puts the value, printed with `%lf`, in their
place.  What it computes is the value of the expression as a tree, in which
what comes out of a bracket is rounded to six decimals (`evaluate_text`).
Every bracket is evaluated, also one behind a `|` that is decided already.
-/

namespace Zabbix

open Ascii Printf

/-! ## printing -/

/-- The millionths of an exact value, as `%lf` rounds. -/
def exactMillionths (v : ℚ) : ℕ := roundHalfEven (v.num.natAbs * 10 ^ 6) v.den

/-- `%lf` of an exact value. -/
def lfExact (v : ℚ) : List UInt8 :=
  sign (v < 0) ++ dec (exactMillionths v / 10 ^ 6) ++ dot :: decimals (exactMillionths v % 10 ^ 6)

/-- The value that is printed. -/
def printedValue (v : ℚ) : ℚ := if v < 0 then -(exactMillionths v / 10 ^ 6) else exactMillionths v / 10 ^ 6

/-- Rounding is off by half at most. -/
theorem abs_roundHalfEven_sub_le (a : ℕ) {b : ℕ} (hb : 0 < b) :
    |(roundHalfEven a b : ℚ) - a / b| ≤ 1 / 2 := by
  have hdiv : (a : ℚ) / b = (a / b : ℕ) + (a % b : ℕ) / b := by
    rw [← Nat.div_add_mod a b]
    have hb' : (b : ℚ) ≠ 0 := by positivity
    have hmod : (b * (a / b) + a % b) % b = a % b := by simp
    have hquot : (b * (a / b) + a % b) / b = a / b := by rw [Nat.div_add_mod]
    rw [hmod, hquot]
    push_cast
    field_simp
  have hpos : (0 : ℚ) < b := by exact_mod_cast hb
  have hlt := Nat.mod_lt a hb
  rw [roundHalfEven, hdiv, abs_le]
  split
  · next h =>
      have hge : b ≤ 2 * (a % b) := by omega
      have hge' : (1 : ℚ) / 2 ≤ (a % b : ℕ) / b := by
        rw [div_le_div_iff₀ (by norm_num) hpos]
        exact_mod_cast (by omega : 1 * b ≤ a % b * 2)
      have hle' : ((a % b : ℕ) : ℚ) / b ≤ 1 := by
        rw [div_le_one hpos]
        exact_mod_cast hlt.le
      push_cast
      constructor <;> linarith
  · next h =>
      have hle' : ((a % b : ℕ) : ℚ) / b ≤ 1 / 2 := by
        rw [div_le_div_iff₀ hpos (by norm_num)]
        exact_mod_cast (by omega : a % b * 2 ≤ 1 * b)
      have hge' : (0 : ℚ) ≤ (a % b : ℕ) / b := by positivity
      constructor <;> linarith

/-- **What is printed** is off by half a millionth at most. -/
theorem abs_printedValue_sub_le (v : ℚ) : |printedValue v - v| ≤ 1 / (2 * 10 ^ 6) := by
  have hround := abs_roundHalfEven_sub_le (v.num.natAbs * 10 ^ 6) v.den_pos
  have habs : (v.num.natAbs : ℚ) / v.den = |v| := by
    rw [Nat.cast_natAbs, ← abs_of_pos (by exact_mod_cast v.den_pos : (0 : ℚ) < v.den), Int.cast_abs, ← abs_div,
      Rat.num_div_den]
  have hscaled : ((v.num.natAbs * 10 ^ 6 : ℕ) : ℚ) / v.den = |v| * 10 ^ 6 := by
    rw [← habs]
    push_cast
    ring
  rw [hscaled, ← exactMillionths, abs_le] at hround
  rw [printedValue, abs_le]
  split
  · next h =>
      rw [abs_of_neg h] at hround
      constructor <;> linarith [hround.1, hround.2]
  · next h =>
      rw [abs_of_nonneg (not_lt.mp h)] at hround
      constructor <;> linarith [hround.1, hround.2]

/-! ## evaluate -/

/-- `delete_spaces` -/
def deleteSpaces (c : List UInt8) : List UInt8 := c.filter (· ≠ space)

/-- The text with a bracket replaced by its value. -/
def replaceBracket (front : List UInt8) (value : ℚ) (behind : List UInt8) : List UInt8 :=
  strscpy (deleteSpaces (front ++ (zbxVsnprintf (maxStringLen - 1) (lfExact value) ++ behind)))

theorem rparen_not_mem_lfExact (v : ℚ) : rparen ∉ lfExact v := by
  have hdec : ∀ n, rparen ∉ dec n := fun n h => absurd (digit_of_mem_dec h).1 (by decide)
  have hdecimals : ∀ n, rparen ∉ decimals n := by
    intro n h
    rcases List.mem_append.mp h with h | h
    · exact absurd (List.eq_of_mem_replicate h) (by decide)
    · exact hdec n h
  have hsign : ∀ neg, rparen ∉ sign neg := by decide
  intro h
  rcases List.mem_append.mp h with h | h
  · rcases List.mem_append.mp h with h | h
    · exact hsign _ h
    · exact hdec _ h
  · rcases List.mem_cons.mp h with h | h
    · exact absurd h (by decide)
    · exact hdecimals _ h

/-- Every round of the loop takes a closing bracket away. -/
theorem count_replaceBracket_lt {tmp before behind front simple : List UInt8}
    (hclose : strchr rparen tmp = some (before, behind)) (hopen : strrchr lparen before = some (front, simple))
    (value : ℚ) : (replaceBracket front value behind).count rparen < tmp.count rparen := by
  obtain rfl := strchr_eq_some hclose
  obtain ⟨rfl, -⟩ := strrchr_eq_some hopen
  have hsub : (replaceBracket front value behind).Sublist
      (front ++ (zbxVsnprintf (maxStringLen - 1) (lfExact value) ++ behind)) :=
    (List.take_sublist _ _).trans List.filter_sublist
  have hvalue : (zbxVsnprintf (maxStringLen - 1) (lfExact value)).count rparen = 0 :=
    List.count_eq_zero.mpr fun h => rparen_not_mem_lfExact value (List.mem_of_mem_take h)
  have hle := hsub.count_le rparen
  simp only [List.count_append, List.count_cons_self, hvalue] at hle ⊢
  omega

/-- The loop of `evaluate`, with the evaluation of the text that is left. -/
def evaluateLoop (maxerrlen : ℕ) (tmp : List UInt8) : EvalOutcome :=
  match _hclose : strchr rparen tmp with
  | none => (evaluateSimple maxerrlen tmp).1
  | some (before, behind) =>
      match _hopen : strrchr lparen before with
      | none =>
          .fail (zbxVsnprintf maxerrlen
            (bytes "Cannot find left bracket [(]. Expression:[" ++ tmp ++ bytes "]"))
      | some (front, simple) =>
          match (evaluateSimple maxerrlen simple).1 with
          | .fail error => .fail error
          | .outOfBounds => .outOfBounds
          | .succeed value => evaluateLoop maxerrlen (replaceBracket front value behind)
termination_by tmp.count rparen
decreasing_by exact count_replaceBracket_lt _hclose _hopen value

/-- `evaluate`; the result is `TRIGGER_VALUE_FALSE` or `TRIGGER_VALUE_TRUE`. -/
def evaluate (maxerrlen : ℕ) (exp : List UInt8) : EvalOutcome :=
  match evaluateLoop maxerrlen (strscpy exp) with
  | .succeed value => .succeed (if cmpDouble value 0 = 0 then 0 else 1)
  | .fail error => .fail error
  | .outOfBounds => .outOfBounds

/-! ## expressions as trees -/

mutual

/-- A number, or an expression in brackets. -/
inductive Factor
  | number (n : Number)
  | bracket (e : NestedExpression)

/-- Factors behind their signs, with operators between them. -/
inductive NestedExpression
  | single (signs : List Bool) (x : Factor)
  | binary (signs : List Bool) (x : Factor) (op : Operator) (rest : NestedExpression)

end

mutual

def Factor.text : Factor → List UInt8
  | .number n => n.text
  | .bracket e => lparen :: (e.text ++ [rparen])

def NestedExpression.text : NestedExpression → List UInt8
  | .single signs x => signs.map signChar ++ x.text
  | .binary signs x op rest => signs.map signChar ++ (x.text ++ op.char :: rest.text)

end

/-- The value of an expression without brackets: a minus adds the opposite, and
the operators of one precedence are read from the right. -/
def flatValue (v : ℚ) (rest : List (Operator × ℚ)) : Option ℚ :=
  Precedence.evalRight Operator.run some Operator.all v (rest.map addOpposite)

/-- A value behind signs. -/
def signedValue (signs : List Bool) (v : ℚ) : ℚ := if negative signs then -v else v

mutual

/-- The value of a factor: that of a bracket is rounded. -/
def Factor.value : Factor → Option ℚ
  | .number n => some n.value
  | .bracket e => (e.operands.bind fun p => flatValue p.1 p.2).map printedValue

/-- The values of the operands. -/
def NestedExpression.operands : NestedExpression → Option (ℚ × List (Operator × ℚ))
  | .single signs x => x.value.map fun v => (signedValue signs v, [])
  | .binary signs x op rest =>
      x.value.bind fun v => rest.operands.map fun p => (signedValue signs v, (op, p.1) :: p.2)

end

/-- **The value of an expression**, unless a divisor is (almost) zero. -/
def NestedExpression.value (e : NestedExpression) : Option ℚ := e.operands.bind fun p => flatValue p.1 p.2

/-! ## side conditions -/

/-- No number with a suffix stands directly before a sign. -/
def Factor.PlainEnd : Factor → Prop
  | .number n => n.suffix = none
  | .bracket _ => True

mutual

def Factor.SuffixesApart : Factor → Prop
  | .number _ => True
  | .bracket e => e.SuffixesApart

/-- No number with a suffix stands directly before a sign, at any depth. -/
def NestedExpression.SuffixesApart : NestedExpression → Prop
  | .single _ x => x.SuffixesApart
  | .binary _ x op rest =>
      x.SuffixesApart ∧ (op = .plus ∨ op = .minus → x.PlainEnd) ∧ rest.SuffixesApart

end

mutual

/-- The room for a factor: a bracket takes that for its text or for its value. -/
def Factor.room : Factor → ℕ
  | .number n => n.text.length
  | .bracket e =>
      max (e.room + 2) (((e.operands.bind fun p => flatValue p.1 p.2).map fun v => (lfExact v).length).getD 0)

/-- The room that the evaluation of an expression takes in a buffer, with one
more byte for each operand. -/
def NestedExpression.room : NestedExpression → ℕ
  | .single signs x => signs.length + 1 + x.room
  | .binary signs x _ rest => signs.length + 1 + x.room + 1 + rest.room

end

/-! ## values as numbers -/

theorem mod_ten_lt (n : ℕ) : n % 10 < 10 := Nat.mod_lt n (by decide)

/-- The last digit of a number. -/
def lastDigit (n : ℕ) : Fin 10 := ⟨n % 10, mod_ten_lt n⟩

/-- The digits of a text. -/
def textDigits (s : List UInt8) : List (Fin 10) := s.map fun c => lastDigit (c.toNat - 48)

/-- The bytes of a text are digits. -/
def IsDigits (s : List UInt8) : Prop := ∀ c ∈ s, 48 ≤ c.toNat ∧ c.toNat ≤ 57

theorem isDigits_dec (n : ℕ) : IsDigits (dec n) := fun _ h => digit_of_mem_dec h

theorem isDigits_decimals (n : ℕ) : IsDigits (decimals n) := by
  intro c h
  rcases List.mem_append.mp h with h | h
  · rw [List.eq_of_mem_replicate h]
    decide
  · exact digit_of_mem_dec h

theorem val_textDigit {c : UInt8} (h : 48 ≤ c.toNat ∧ c.toNat ≤ 57) :
    (lastDigit (c.toNat - 48)).val = c.toNat - 48 :=
  Nat.mod_eq_of_lt (by omega)

theorem map_digitChar_textDigits {s : List UInt8} (h : IsDigits s) : (textDigits s).map digitChar = s := by
  rw [textDigits, List.map_map]
  refine (List.map_congr_left fun c hc => ?_).trans (List.map_id s)
  have hval := val_textDigit (h c hc)
  refine UInt8.toNat_inj.mp ?_
  have hle := (h c hc).2
  have hge := (h c hc).1
  rw [Function.comp_apply, digitChar, hval, UInt8.toNat_add, UInt8.toNat_ofNat']
  simp only [UInt8.reduceToNat, id]
  omega

theorem digitsNat_textDigits {s : List UInt8} (h : IsDigits s) : digitsNat (textDigits s) = ofDec s := by
  rw [digitsNat, textDigits, ofDec, List.foldl_map]
  refine List.foldl_ext _ _ _ fun n c hc => ?_
  rw [val_textDigit (h c hc)]

theorem ofDec_decimals (n : ℕ) : ofDec (decimals n) = n := by
  have hzeros : ∀ k, ofDec (List.replicate k 48 ++ dec n) = ofDec (dec n) := by
    intro k
    induction k with
    | zero => rfl
    | succ k ih => exact ih
  rw [decimals, hzeros, ofDec_dec]

/-- The signs of a value that is printed. -/
def printedSigns (v : ℚ) : List Bool := if v < 0 then [true] else []

/-- The number that is printed of a value. -/
def printedNumber (v : ℚ) : Number where
  int := textDigits (dec (exactMillionths v / 10 ^ 6))
  frac := some (textDigits (decimals (exactMillionths v % 10 ^ 6)))
  suffix := none
  digits := by
    refine .inr fun h => ?_
    have hlen := congrArg List.length h
    rw [Option.getD_some, textDigits, List.length_map,
      length_decimals (Nat.mod_lt _ (by norm_num))] at hlen
    cases hlen

theorem lfExact_eq (v : ℚ) : lfExact v = (printedSigns v).map signChar ++ (printedNumber v).text := by
  have hsigns : sign (v < 0) = (printedSigns v).map signChar := by
    by_cases h : v < 0 <;> simp [sign, printedSigns, signChar, h]
  have hnumber : (printedNumber v).text =
      dec (exactMillionths v / 10 ^ 6) ++ dot :: decimals (exactMillionths v % 10 ^ 6) := by
    simp [Number.text, Number.mantissa, Number.suffixText, printedNumber,
      map_digitChar_textDigits (isDigits_dec _), map_digitChar_textDigits (isDigits_decimals _)]
  rw [lfExact, hsigns, hnumber, List.append_assoc]

theorem value_printedNumber (v : ℚ) : (printedNumber v).value = exactMillionths v / 10 ^ 6 := by
  have hlen : (textDigits (decimals (exactMillionths v % 10 ^ 6))).length = 6 := by
    rw [textDigits, List.length_map, length_decimals (Nat.mod_lt _ (by norm_num))]
  have hmod := Nat.div_add_mod (exactMillionths v) (10 ^ 6)
  rw [Number.value, Number.mantissaValue, printedNumber, Option.map_none, Option.getD_none, one_mul,
    Option.getD_some, hlen, digitsNat_textDigits (isDigits_dec _), digitsNat_textDigits (isDigits_decimals _),
    ofDec_dec, ofDec_decimals]
  have hcast : (exactMillionths v : ℚ) =
      10 ^ 6 * (exactMillionths v / 10 ^ 6 : ℕ) + (exactMillionths v % 10 ^ 6 : ℕ) := by
    exact_mod_cast hmod.symm
  rw [hcast]
  ring

theorem negative_append (s t : List Bool) : negative (s ++ t) = xor (negative s) (negative t) := by
  induction s with
  | nil => simp [negative]
  | cons b s ih =>
      change xor b (negative (s ++ t)) = xor (xor b (negative s)) (negative t)
      rw [ih, Bool.xor_assoc]

/-- A value that is printed behind signs. -/
theorem value_printed (signs : List Bool) (v : ℚ) :
    Operand.value { signs := signs ++ printedSigns v, number := printedNumber v } =
      signedValue signs (printedValue v) := by
  rw [Operand.value, value_printedNumber, negative_append, signedValue, printedValue, printedSigns]
  by_cases hv : v < 0 <;> cases negative signs <;> simp [negative, hv]

/-! ## evaluated brackets -/

mutual

/-- What stands in the place of a factor when its brackets are evaluated. -/
def Factor.reduce : Factor → Option (List Bool × Number)
  | .number n => some ([], n)
  | .bracket e =>
      (e.reduce.bind fun t => flatValue t.first.value t.values).map fun v => (printedSigns v, printedNumber v)

/-- The expression that is left when the brackets are evaluated. -/
def NestedExpression.reduce : NestedExpression → Option TriggerExpression
  | .single signs x => x.reduce.map fun p => { first := ⟨signs ++ p.1, p.2⟩, rest := [] }
  | .binary signs x op rest =>
      x.reduce.bind fun p =>
        rest.reduce.map fun t => { first := ⟨signs ++ p.1, p.2⟩, rest := (op, t.first) :: t.rest }

end

theorem value_append (signs signs' : List Bool) (n : Number) :
    Operand.value ⟨signs ++ signs', n⟩ = signedValue signs (Operand.value ⟨signs', n⟩) := by
  rw [Operand.value, negative_append, signedValue, Operand.value]
  cases negative signs <;> cases negative signs' <;> simp

mutual

theorem Factor.value_eq (x : Factor) : x.value = x.reduce.map fun p => Operand.value ⟨p.1, p.2⟩ := by
  cases x with
  | number n => rfl
  | bracket e =>
      rw [Factor.value, Factor.reduce, NestedExpression.operands_eq e, Option.bind_map, Option.map_map]
      refine congrArg (Option.map · _) (funext fun v => ?_)
      have hprinted := value_printed [] v
      exact hprinted.symm

/-- The operands have the values of what is left. -/
theorem NestedExpression.operands_eq (e : NestedExpression) :
    e.operands = e.reduce.map fun t => (t.first.value, t.values) := by
  cases e with
  | single signs x =>
      rw [NestedExpression.operands, NestedExpression.reduce, Factor.value_eq x, Option.map_map, Option.map_map]
      refine congrArg (Option.map · _) (funext fun p => ?_)
      exact congrArg (Prod.mk · []) (value_append signs p.1 p.2).symm
  | binary signs x op rest =>
      rw [NestedExpression.operands, NestedExpression.reduce, Factor.value_eq x,
        NestedExpression.operands_eq rest, Option.bind_map, Option.map_bind]
      refine congrArg (Option.bind _ ·) (funext fun p => ?_)
      rw [Function.comp_apply, Function.comp_apply, Option.map_map, Option.map_map]
      refine congrArg (Option.map · _) (funext fun t => ?_)
      exact congrArg (Prod.mk · _) (value_append signs p.1 p.2).symm

end

theorem NestedExpression.value_eq (e : NestedExpression) :
    e.value = e.reduce.bind fun t => flatValue t.first.value t.values := by
  rw [NestedExpression.value, NestedExpression.operands_eq, Option.bind_map]
  rfl

theorem Factor.suffix_reduce {x : Factor} (h : x.PlainEnd) {p : List Bool × Number} (hp : x.reduce = some p) :
    p.2.suffix = none := by
  cases x with
  | number n =>
      obtain rfl := Option.some.inj hp
      exact h
  | bracket e =>
      obtain ⟨v, -, rfl⟩ := Option.map_eq_some_iff.mp hp
      rfl

/-- What is left keeps suffixes and signs apart. -/
theorem NestedExpression.suffixesApart_reduce {e : NestedExpression} (h : e.SuffixesApart)
    {t : TriggerExpression} (ht : e.reduce = some t) :
    Zabbix.SuffixesApart t.first.number (t.rest.map fun p => (p.1, p.2.number)) := by
  match e, h, ht with
  | .single signs x, _, ht =>
      obtain ⟨p, -, rfl⟩ := Option.map_eq_some_iff.mp ht
      trivial
  | .binary signs x op rest, h, ht =>
      obtain ⟨p, hp, ht⟩ := Option.bind_eq_some_iff.mp ht
      obtain ⟨t', ht', rfl⟩ := Option.map_eq_some_iff.mp ht
      exact ⟨fun hop => Factor.suffix_reduce (h.2.1 hop) hp, suffixesApart_reduce h.2.2 ht'⟩

/-! ## room -/

/-- The room for an operand. -/
def Operand.room (x : Operand) : ℕ := x.signs.length + 1 + x.number.text.length

/-- The room for an expression without brackets. -/
def TriggerExpression.room (t : TriggerExpression) : ℕ := t.first.room + (t.rest.map fun p => 1 + p.2.room).sum

theorem length_text_le_room (t : TriggerExpression) : t.text.length ≤ t.room := by
  have hoperand : ∀ x : Operand, x.signedText.text.length ≤ x.room := by
    intro x
    simp only [SignedText.text, Operand.signedText, List.length_append, List.length_map, Operand.room]
    omega
  have hrest : ∀ rest : List (Operator × Operand),
      ((rest.map fun p => (p.1.char, p.2.signedText)).flatMap fun p => p.1 :: p.2.text).length ≤
        (rest.map fun p => 1 + p.2.room).sum := by
    intro rest
    induction rest with
    | nil => exact Nat.zero_le _
    | cons p rest ih =>
        have hp := hoperand p.2
        simp only [List.map_cons, List.flatMap_cons, List.length_append, List.length_cons, List.sum_cons] at ih ⊢
        omega
  have hfirst := hoperand t.first
  have hrest := hrest t.rest
  rw [TriggerExpression.text, signedText, TriggerExpression.room, List.length_append]
  omega

theorem length_compress_le_room (t : TriggerExpression) :
    (operandsText t.first.compress (t.rest.map compressPair)).length ≤ t.room := by
  have htext : ∀ (neg : Bool) (n : Number),
      (CompressedOperand.text { neg := neg, number := n }).length ≤ 1 + n.text.length := by
    intro neg n
    cases neg <;> simp [CompressedOperand.text, negPrefix, Nat.add_comm]
  have hpair : ∀ p : Operator × Operand, (compressPair p).2.text.length ≤ p.2.room := by
    intro p
    have hroom : p.2.room = p.2.signs.length + 1 + p.2.number.text.length := rfl
    rw [compressPair]
    split
    · exact (htext _ p.2.number).trans (by omega)
    · exact (htext _ p.2.number).trans (by omega)
  have hrest : ∀ rest : List (Operator × Operand),
      ((rest.map compressPair).flatMap fun p => p.1.char :: p.2.text).length ≤
        (rest.map fun p => 1 + p.2.room).sum := by
    intro rest
    induction rest with
    | nil => exact Nat.zero_le _
    | cons p rest ih =>
        have hp := hpair p
        simp only [List.map_cons, List.flatMap_cons, List.length_append, List.length_cons, List.sum_cons] at ih ⊢
        omega
  have hfirst := htext (negative t.first.signs) t.first.number
  have hrest := hrest t.rest
  rw [operandsText, List.length_append, TriggerExpression.room, Operand.compress, Operand.room]
  omega

mutual

theorem Factor.length_text_le_room (x : Factor) : x.text.length ≤ x.room := by
  cases x with
  | number n => exact le_rfl
  | bracket e =>
      have he := NestedExpression.length_text_le_room e
      rw [Factor.text, Factor.room, List.length_cons, List.length_append, List.length_singleton]
      omega

theorem NestedExpression.length_text_le_room (e : NestedExpression) : e.text.length ≤ e.room := by
  cases e with
  | single signs x =>
      have hx := Factor.length_text_le_room x
      rw [NestedExpression.text, NestedExpression.room, List.length_append, List.length_map]
      omega
  | binary signs x op rest =>
      have hx := Factor.length_text_le_room x
      have hrest := NestedExpression.length_text_le_room rest
      rw [NestedExpression.text, NestedExpression.room, List.length_append, List.length_map, List.length_append,
        List.length_cons]
      omega

end

theorem Factor.room_reduce {x : Factor} {p : List Bool × Number} (hp : x.reduce = some p) :
    p.1.length + p.2.text.length ≤ x.room := by
  cases x with
  | number n =>
      obtain rfl := Option.some.inj hp
      exact (Nat.zero_add _).le
  | bracket e =>
      obtain ⟨v, hv, rfl⟩ := Option.map_eq_some_iff.mp hp
      have hlen := congrArg List.length (lfExact_eq v)
      rw [List.length_append, List.length_map] at hlen
      rw [Factor.room, ← NestedExpression.value, NestedExpression.value_eq, hv, Option.map_some, Option.getD_some,
        hlen]
      exact le_max_right _ _

theorem NestedExpression.room_reduce {e : NestedExpression} {t : TriggerExpression} (ht : e.reduce = some t) :
    t.room ≤ e.room := by
  match e, ht with
  | .single signs x, ht =>
      obtain ⟨p, hp, rfl⟩ := Option.map_eq_some_iff.mp ht
      have hroom := Factor.room_reduce hp
      simp only [TriggerExpression.room, Operand.room, List.length_append, List.map_nil, List.sum_nil,
        NestedExpression.room]
      omega
  | .binary signs x op rest, ht =>
      obtain ⟨p, hp, ht⟩ := Option.bind_eq_some_iff.mp ht
      obtain ⟨t', ht', rfl⟩ := Option.map_eq_some_iff.mp ht
      have hroom := Factor.room_reduce hp
      have hrest := room_reduce ht'
      simp only [TriggerExpression.room, Operand.room, List.length_append, List.map_cons, List.sum_cons,
        NestedExpression.room] at hrest ⊢
      omega

/-! ## expressions without brackets -/

/-- `str2double` sees no empty operand of a compressed text. -/
theorem evaluateSimple_inBounds (maxerrlen : ℕ) (x : CompressedOperand)
    (rest : List (Operator × CompressedOperand)) (hready : CompressedReady x rest)
    (hlen : (operandsText x rest).length < maxStringLen) :
    (evaluateSimple maxerrlen (operandsText x rest)).1 ≠ .outOfBounds := by
  induction hn : rest.length using Nat.strong_induction_on generalizing x rest with
  | _ n ih =>
      cases hfind : Operator.all.find? fun op => op ∈ rest.map Prod.fst with
      | none =>
          have hnil : rest = [] := by
            refine List.eq_nil_iff_forall_not_mem.mpr fun p hp => ?_
            have hall : p.1 ∈ Operator.all := by cases p.1 <;> decide
            exact absurd (List.find?_eq_none.mp hfind p.1 hall) (by simpa using ⟨p.2, hp⟩)
          rw [hnil, evaluateSimple_operand]
          exact EvalOutcome.noConfusion
      | some op =>
          obtain ⟨hin, pre, ops, hall, hpre⟩ := List.find?_eq_some_iff_append.mp hfind
          obtain ⟨before, y, after, rfl, hb⟩ := Precedence.exists_first (of_decide_eq_true hin)
          obtain ⟨hready1, hready2⟩ := hready.of_append
          have hlens := hlen
          rw [operandsText_append, List.length_append, List.length_cons] at hlens
          rw [List.length_append, List.length_cons] at hn
          have hfirst := ih before.length (by omega) x before hready1 (by omega) rfl
          have hsecond := ih after.length (by omega) y after hready2 (by omega) rfl
          have hop : op ≠ .minus := fun he => hready.2 (op, y) (by simp) he
          have hchar : op.char ∈ operandsText x (before ++ (op, y) :: after) := by
            rw [operandsText_append]
            simp
          have hcN : op.char ≠ capitalN := by cases op <;> decide
          have htl : (operandsText x (before ++ (op, y) :: after)).head? = some capitalN →
              op.char ∈ (operandsText x (before ++ (op, y) :: after)).tail := by
            intro hh
            rw [← List.cons_head?_tail hh] at hchar
            exact (List.mem_cons.mp hchar).resolve_left hcN
          rw [evaluateSimple_eq, evaluateSimpleBody]
          simp only [evaluateSimpleBody_compressed hready]
          rw [if_neg fun hc => not_isDoublePrefix hop (htl hc.1) hc.2,
            if_neg fun hc => not_isDoublePrefix hop hchar hc.2,
            findOperator_operandsText hall hb fun o ho => of_decide_eq_false (by simpa using hpre o ho)]
          dsimp only
          rw [strscpy_of_lt (by omega), strscpy_of_lt (by omega), evaluateBinary]
          rcases h1 : evaluateSimple maxerrlen (operandsText x before) with ⟨o1, s1⟩
          rcases h2 : evaluateSimple maxerrlen (operandsText y after) with ⟨o2, s2⟩
          rw [h1] at hfirst
          rw [h2] at hsecond
          cases o1 with
          | outOfBounds => exact absurd rfl hfirst
          | fail error => exact EvalOutcome.noConfusion
          | succeed value1 =>
              dsimp only
              split
              · exact EvalOutcome.noConfusion
              · cases o2 with
                | outOfBounds => exact absurd rfl hsecond
                | fail error => exact EvalOutcome.noConfusion
                | succeed value2 =>
                    dsimp only
                    split <;> exact EvalOutcome.noConfusion

/-- The outcome is the one that there is to be, or else a failure. -/
def EvalOutcome.Agrees (o : EvalOutcome) : Option EvalOutcome → Prop
  | some o' => o = o'
  | none => ∃ error, o = .fail error

/-- **An expression without brackets** evaluates to its value. -/
theorem evaluateSimple_agrees (maxerrlen : ℕ) {t : TriggerExpression}
    (hsuffix : SuffixesApart t.first.number (t.rest.map fun p => (p.1, p.2.number)))
    (hroom : t.room < maxStringLen) :
    (evaluateSimple maxerrlen t.text).1.Agrees ((flatValue t.first.value t.values).map .succeed) := by
  have hready := compressedReady hsuffix
  have htext : evaluateSimple maxerrlen t.text =
      evaluateSimple maxerrlen (operandsText t.first.compress (t.rest.map compressPair)) := by
    apply evaluateSimple_congr
    rw [lrtrimSpaces_of_not_mem (space_not_mem_expression t), compressSigns_expression hsuffix,
      evaluateSimpleBody_compressed hready]
  have hlen := (length_compress_le_room t).trans_lt hroom
  have hin := evaluateSimple_inBounds maxerrlen _ _ hready hlen
  have hmem : ∀ op : Operator, op ∈ Operator.all := by
    intro op
    cases op <;> decide
  have hresult := evaluateSimple_compressed maxerrlen (List.nil_append Operator.all).symm _ _
    (fun p _ => hmem p.1) hready hlen
  rw [values_compress] at hresult
  change _ = flatValue t.first.value t.values at hresult
  rw [htext, ← hresult]
  revert hin
  cases (evaluateSimple maxerrlen (operandsText t.first.compress (t.rest.map compressPair))).1 with
  | succeed value => exact fun _ => rfl
  | fail error => exact fun _ => ⟨error, rfl⟩
  | outOfBounds => exact fun h => absurd rfl h

/-! ## the bytes of an expression -/

/-- A byte that stands in expressions outside brackets. -/
def IsFlatChar (c : UInt8) : Prop := isSign c = true ∨ IsNumberChar c ∨ c ∈ Operator.all.map Operator.char

instance : DecidablePred IsFlatChar := fun _ => inferInstanceAs (Decidable (_ ∨ _ ∨ _))

theorem isFlatChar_operator (op : Operator) : IsFlatChar op.char := by
  cases op <;> decide

theorem isFlatChar_signs {signs : List Bool} {c : UInt8} (h : c ∈ signs.map signChar) : IsFlatChar c := by
  obtain ⟨b, -, rfl⟩ := List.mem_map.mp h
  exact .inl (isSign_signChar b)

/-- What stands in the place of an evaluated factor. -/
theorem isFlatChar_literal {signs : List Bool} {n : Number} {c : UInt8} (h : c ∈ signs.map signChar ++ n.text) :
    IsFlatChar c := by
  rcases List.mem_append.mp h with h | h
  · exact isFlatChar_signs h
  · exact .inr (.inl (n.text_chars h))

theorem isFlatChar_text {t : TriggerExpression} {c : UInt8} (h : c ∈ t.text) : IsFlatChar c := by
  rw [TriggerExpression.text, signedText, List.mem_append, List.flatMap_map, List.mem_flatMap] at h
  rcases h with h | ⟨p, -, h⟩
  · exact isFlatChar_literal h
  · rcases List.mem_cons.mp h with rfl | h
    · exact isFlatChar_operator p.1
    · exact isFlatChar_literal h

mutual

theorem Factor.space_not_mem_text (x : Factor) : space ∉ x.text := by
  cases x with
  | number n => exact fun h => absurd (n.text_chars h) (by decide)
  | bracket e =>
      have he := NestedExpression.space_not_mem_text e
      rw [Factor.text, List.mem_cons, List.mem_append, List.mem_singleton]
      rintro (h | h | h)
      · exact absurd h (by decide)
      · exact he h
      · exact absurd h (by decide)

theorem NestedExpression.space_not_mem_text (e : NestedExpression) : space ∉ e.text := by
  have hsigns : ∀ signs : List Bool, space ∉ signs.map signChar :=
    fun signs h => absurd (isFlatChar_signs h) (by decide)
  cases e with
  | single signs x =>
      rw [NestedExpression.text, List.mem_append, not_or]
      exact ⟨hsigns signs, Factor.space_not_mem_text x⟩
  | binary signs x op rest =>
      have hop : space ≠ op.char := by cases op <;> decide
      rw [NestedExpression.text, List.mem_append, List.mem_append, List.mem_cons]
      rintro (h | h | h | h)
      · exact hsigns signs h
      · exact Factor.space_not_mem_text x h
      · exact hop h
      · exact NestedExpression.space_not_mem_text rest h

end

/-! ## the loop -/

theorem EvalOutcome.Agrees.bind {α : Type} {o : EvalOutcome} {x : Option α} {f : α → EvalOutcome}
    {g : α → Option EvalOutcome} (h : o.Agrees (x.map f)) (hg : ∀ a, x = some a → (f a).Agrees (g a)) :
    o.Agrees (x.bind g) := by
  cases x with
  | none => exact h
  | some a =>
      have ho : o = f a := h
      rw [ho]
      exact hg a rfl

theorem EvalOutcome.Agrees.trans_eq {o : EvalOutcome} {x y : Option EvalOutcome} (h : o.Agrees x) (hxy : x = y) :
    o.Agrees y := hxy ▸ h

/-- The value in the place of its bracket. -/
theorem replaceBracket_eq {pre post : List UInt8} {v : ℚ} (hpre : space ∉ pre) (hpost : space ∉ post)
    (hlen : pre.length + (lfExact v).length + post.length < maxStringLen - 1) :
    replaceBracket pre v post = pre ++ (lfExact v ++ post) := by
  have hv : space ∉ lfExact v := by
    rw [lfExact_eq]
    exact fun h => absurd (isFlatChar_literal h) (by decide)
  have hspaces : ∀ c ∈ pre ++ (lfExact v ++ post), decide (c ≠ space) = true := by
    intro c hc
    rw [decide_eq_true_eq]
    rintro rfl
    simp only [List.mem_append, hpre, hv, hpost, or_self] at hc
  rw [replaceBracket, zbxVsnprintf_of_lt (by omega), deleteSpaces, List.filter_eq_self.mpr hspaces, strscpy_of_lt]
  simp only [List.length_append]
  omega

/-- A bracket without others in it is evaluated and replaced. -/
theorem evaluateLoop_bracket (maxerrlen : ℕ) {pre post : List UInt8} {t : TriggerExpression}
    (hpre : rparen ∉ pre) (hpres : space ∉ pre) (hposts : space ∉ post)
    (hsuffix : SuffixesApart t.first.number (t.rest.map fun p => (p.1, p.2.number)))
    (hroom : t.room < maxStringLen)
    (hlen : ∀ v, flatValue t.first.value t.values = some v →
      pre.length + (lfExact v).length + post.length < maxStringLen - 1) :
    (evaluateLoop maxerrlen (pre ++ (lparen :: (t.text ++ [rparen]) ++ post))).Agrees
      ((flatValue t.first.value t.values).map fun v => evaluateLoop maxerrlen (pre ++ (lfExact v ++ post))) := by
  have hclose : strchr rparen (pre ++ (lparen :: (t.text ++ [rparen]) ++ post)) =
      some (pre ++ lparen :: t.text, post) := by
    have hnot : rparen ∉ pre ++ lparen :: t.text := by
      rw [List.mem_append, List.mem_cons, not_or, not_or]
      exact ⟨hpre, by decide, fun h => absurd (isFlatChar_text h) (by decide)⟩
    rw [← strchr_append_cons hnot post]
    simp
  have hopen : strrchr lparen (pre ++ lparen :: t.text) = some (pre, t.text) :=
    strrchr_append_cons pre fun h => absurd (isFlatChar_text h) (by decide)
  have hagrees := evaluateSimple_agrees maxerrlen hsuffix hroom
  rw [evaluateLoop]
  split
  · next heq => cases hclose.symm.trans heq
  · next before behind heq =>
      obtain ⟨rfl, rfl⟩ := Prod.mk.inj (Option.some.inj (hclose.symm.trans heq))
      split
      · next heq' => cases hopen.symm.trans heq'
      · next front simple heq' =>
          obtain ⟨rfl, rfl⟩ := Prod.mk.inj (Option.some.inj (hopen.symm.trans heq'))
          cases hv : flatValue t.first.value t.values with
          | none =>
              rw [hv] at hagrees
              obtain ⟨error, herror⟩ := hagrees
              rw [herror]
              exact ⟨error, rfl⟩
          | some v =>
              rw [hv] at hagrees
              have hvalue : (evaluateSimple maxerrlen t.text).1 = .succeed v := hagrees
              rw [hvalue]
              exact congrArg (evaluateLoop maxerrlen) (replaceBracket_eq hpres hposts (hlen v hv))

theorem not_mem_concat {c d : UInt8} {s : List UInt8} (h : c ∉ s) (hne : c ≠ d) : c ∉ s ++ [d] := by
  rw [List.mem_append, List.mem_singleton, not_or]
  exact ⟨h, hne⟩

/-- What stands outside brackets may follow. -/
theorem not_mem_append_flat {c : UInt8} {s t : List UInt8} (h : c ∉ s) (ht : ∀ d ∈ t, IsFlatChar d)
    (hc : ¬IsFlatChar c) : c ∉ s ++ t := by
  rw [List.mem_append, not_or]
  exact ⟨h, fun hm => hc (ht c hm)⟩

mutual

/-- The brackets of a factor are evaluated before anything behind it. -/
theorem Factor.evaluateLoop_text (maxerrlen : ℕ) (x : Factor) (hsuffix : x.SuffixesApart) (pre post : List UInt8)
    (hpre : rparen ∉ pre) (hpres : space ∉ pre) (hposts : space ∉ post)
    (hlen : pre.length + x.room + post.length < maxStringLen - 1) :
    (evaluateLoop maxerrlen (pre ++ (x.text ++ post))).Agrees
      (x.reduce.map fun p => evaluateLoop maxerrlen (pre ++ (p.1.map signChar ++ p.2.text ++ post))) := by
  cases x with
  | number n => exact rfl
  | bracket e =>
      have hroom : e.room + 2 ≤ (Factor.bracket e).room := le_max_left _ _
      have hinner := NestedExpression.evaluateLoop_text maxerrlen e hsuffix (pre ++ [lparen]) (rparen :: post)
        (not_mem_concat hpre (by decide)) (not_mem_concat hpres (by decide))
        (List.not_mem_cons_of_ne_of_not_mem (by decide : space ≠ rparen) hposts) (by
          rw [List.length_append, List.length_singleton, List.length_cons]
          omega)
      have htext : pre ++ ((Factor.bracket e).text ++ post) = (pre ++ [lparen]) ++ (e.text ++ rparen :: post) := by
        simp [Factor.text]
      rw [htext, Factor.reduce, Option.map_map, Option.map_bind]
      refine hinner.bind fun t ht => ?_
      have hvalue : ∀ v, flatValue t.first.value t.values = some v → (lfExact v).length ≤ (Factor.bracket e).room := by
        intro v hv
        have hp : (Factor.bracket e).reduce = some (printedSigns v, printedNumber v) := by
          rw [Factor.reduce, ht, Option.bind_some, hv, Option.map_some]
        have hle := Factor.room_reduce hp
        rw [lfExact_eq, List.length_append, List.length_map]
        exact hle
      have hloop := evaluateLoop_bracket maxerrlen (t := t) hpre hpres hposts
        (NestedExpression.suffixesApart_reduce hsuffix ht)
        (by have := NestedExpression.room_reduce ht; omega) fun v hv => by
          have := hvalue v hv
          omega
      have hleft : pre ++ [lparen] ++ (t.text ++ rparen :: post) = pre ++ (lparen :: (t.text ++ [rparen]) ++ post) := by
        simp
      simp only [lfExact_eq] at hloop
      rw [hleft]
      exact hloop

/-- **The brackets of an expression** are evaluated from the left, the inner
ones first. -/
theorem NestedExpression.evaluateLoop_text (maxerrlen : ℕ) (e : NestedExpression) (hsuffix : e.SuffixesApart)
    (pre post : List UInt8) (hpre : rparen ∉ pre) (hpres : space ∉ pre) (hposts : space ∉ post)
    (hlen : pre.length + e.room + post.length < maxStringLen - 1) :
    (evaluateLoop maxerrlen (pre ++ (e.text ++ post))).Agrees
      (e.reduce.map fun t => evaluateLoop maxerrlen (pre ++ (t.text ++ post))) := by
  have hsigns : ∀ signs : List Bool, ∀ d ∈ signs.map signChar, IsFlatChar d := fun _ _ => isFlatChar_signs
  cases e with
  | single signs x =>
      rw [NestedExpression.room] at hlen
      have hx := Factor.evaluateLoop_text maxerrlen x hsuffix (pre ++ signs.map signChar) post
        (not_mem_append_flat hpre (hsigns signs) (by decide))
        (not_mem_append_flat hpres (hsigns signs) (by decide)) hposts (by
          rw [List.length_append, List.length_map]
          omega)
      have htext : pre ++ ((NestedExpression.single signs x).text ++ post) =
          (pre ++ signs.map signChar) ++ (x.text ++ post) := by
        simp [NestedExpression.text]
      rw [htext, NestedExpression.reduce, Option.map_map]
      refine hx.trans_eq (congrArg (Option.map · _) (funext fun p => congrArg (evaluateLoop maxerrlen) ?_))
      simp [TriggerExpression.text, signedText, SignedText.text, Operand.signedText]
  | binary signs x op rest =>
      rw [NestedExpression.room] at hlen
      have hop : ∀ d ∈ [op.char], IsFlatChar d := by simpa using isFlatChar_operator op
      have hrestlen := NestedExpression.length_text_le_room rest
      have hx := Factor.evaluateLoop_text maxerrlen x hsuffix.1 (pre ++ signs.map signChar) (op.char :: (rest.text ++ post))
        (not_mem_append_flat hpre (hsigns signs) (by decide))
        (not_mem_append_flat hpres (hsigns signs) (by decide))
        (by
          rw [List.mem_cons, List.mem_append, not_or, not_or]
          exact ⟨by cases op <;> decide, NestedExpression.space_not_mem_text rest, hposts⟩)
        (by
          rw [List.length_append, List.length_map, List.length_cons, List.length_append]
          omega)
      have htext : pre ++ ((NestedExpression.binary signs x op rest).text ++ post) =
          (pre ++ signs.map signChar) ++ (x.text ++ op.char :: (rest.text ++ post)) := by
        simp [NestedExpression.text]
      rw [htext, NestedExpression.reduce, Option.map_bind]
      refine hx.bind fun p hp => ?_
      have hroom := Factor.room_reduce hp
      have hliteral : ∀ d ∈ signs.map signChar ++ (p.1.map signChar ++ p.2.text) ++ [op.char], IsFlatChar d := by
        intro d hd
        rcases List.mem_append.mp hd with hd | hd
        · rcases List.mem_append.mp hd with hd | hd
          · exact isFlatChar_signs hd
          · exact isFlatChar_literal hd
        · exact hop d hd
      have hrest := NestedExpression.evaluateLoop_text maxerrlen rest hsuffix.2.2
        (pre ++ (signs.map signChar ++ (p.1.map signChar ++ p.2.text) ++ [op.char])) post
        (not_mem_append_flat hpre hliteral (by decide)) (not_mem_append_flat hpres hliteral (by decide)) hposts (by
          simp only [List.length_append, List.length_map, List.length_singleton]
          omega)
      have hleft : pre ++ signs.map signChar ++ (p.1.map signChar ++ p.2.text ++ op.char :: (rest.text ++ post)) =
          pre ++ (signs.map signChar ++ (p.1.map signChar ++ p.2.text) ++ [op.char]) ++ (rest.text ++ post) := by
        simp
      rw [hleft, Function.comp_apply, Option.map_map]
      refine hrest.trans_eq (congrArg (Option.map · _) (funext fun t => congrArg (evaluateLoop maxerrlen) ?_))
      simp [TriggerExpression.text, signedText, SignedText.text, Operand.signedText]

end

/-- A number of one digit. -/
def digitFactor (d : Fin 10) : Factor := .number (digitOperand [] d none).number

/-- `(1/3)*3=1`. -/
def thirds : NestedExpression :=
  .binary [] (.bracket (.binary [] (digitFactor (lastDigit 1)) .divide (.single [] (digitFactor (lastDigit 3))))) .times
    (.binary [] (digitFactor (lastDigit 3)) .equal (.single [] (digitFactor (lastDigit 1))))

end Zabbix
