import Zabbix.Expression.Signs
import Zabbix.Str
import Mathlib.Algebra.Order.Field.Rat

/-!
# Zabbix.Expression.Evaluate

`evaluate_simple` of `libs/zbxserver/expression.c`, the evaluator of
expressions without brackets.  Doubles are exact rationals.

The evaluator compresses the signs, tries to read its text as one number, and
else splits at the first occurrence of the first operator, in order of
precedence from the lowest, that occurs.  It evaluates both parts in the same
way; each call works on a copy and leaves it changed, which the messages show.

The recursion is on fuel; `evaluateSimple_eq` is the equation of the source's
recursive function, without fuel.
-/

namespace Zabbix

open Ascii

/-! ## numbers -/

def isDigit (c : UInt8) : Bool := 48 ≤ c && c ≤ 57

/-- The suffixes of numbers. -/
def isSuffix (c : UInt8) : Bool := c = capitalK || c = capitalM || c = capitalG

/-- The loop of `is_double_prefix`; `start` at the first byte, `dot` when a dot
was seen. -/
def isDoublePrefixLoop : (start dot : Bool) → List UInt8 → Bool
  | _, _, [] => true
  | start, dot, c :: s =>
      if c = minus ∧ start then isDoublePrefixLoop false dot s
      else if isDigit c then isDoublePrefixLoop false dot s
      else if c = Ascii.dot ∧ ¬dot then isDoublePrefixLoop false true s
      else if isSuffix c ∧ s = [] then isDoublePrefixLoop false dot s
      else false

/-- `is_double_prefix`. -/
def isDoublePrefix (c : List UInt8) : Bool := isDoublePrefixLoop true false c

/-- The value of a digit sequence. -/
def digitsValue (ds : List UInt8) : ℕ := ds.foldl (fun n c => 10 * n + (c.toNat - 48)) 0

/-- `atof` on decimal notation without sign: what is not part of it ends it. -/
def atofUnsigned (s : List UInt8) : ℚ :=
  match s.dropWhile isDigit with
  | c :: t =>
      if c = dot then
        digitsValue (s.takeWhile isDigit) +
          digitsValue (t.takeWhile isDigit) / 10 ^ (t.takeWhile isDigit).length
      else digitsValue (s.takeWhile isDigit)
  | [] => digitsValue (s.takeWhile isDigit)

/-- `atof`, on the notation that `is_double_prefix` lets through. -/
def atof (s : List UInt8) : ℚ :=
  match s with
  | c :: t => if c = minus then -atofUnsigned t else atofUnsigned s
  | [] => 0

/-- `str2double`, and what is left of `str`.  For an empty string it looks at
the byte before; `none` when there is none in the buffer. -/
def str2double (before : Option UInt8) (str : List UInt8) : Option (ℚ × List UInt8) :=
  match str.getLast?.or before with
  | none => none
  | some c =>
      some (if c = capitalK then (1024 * atof str.dropLast, str.dropLast)
        else if c = capitalM then (1024 * 1024 * atof str.dropLast, str.dropLast)
        else if c = capitalG then (1024 * 1024 * 1024 * atof str.dropLast, str.dropLast)
        else (atof str, str))

/-- `cmp_double`: equal when less than 0.000001 apart. -/
def cmpDouble (a b : ℚ) : ℕ := if |a - b| < 1 / 1000000 then 0 else 1

/-! ## operators -/

/-- The binary operators, from the lowest precedence to the highest. -/
inductive Operator
  | or
  | and
  | equal
  | notEqual
  | greater
  | less
  | plus
  | minus
  | times
  | divide
deriving DecidableEq, Repr

namespace Operator

def char : Operator → UInt8
  | or => bar
  | and => ampersand
  | equal => equals
  | notEqual => hash
  | greater => Ascii.greater
  | less => Ascii.less
  | plus => Ascii.plus
  | minus => Ascii.minus
  | times => star
  | divide => slash

/-- The order in which `evaluate_simple` looks for them. -/
def all : List Operator :=
  [or, and, equal, notEqual, greater, less, plus, minus, times, divide]

/-- The value of an operator on two values; a divisor is not zero. -/
def apply : Operator → ℚ → ℚ → ℚ
  | or, a, b => if a = 1 then 1 else if b = 1 then 1 else 0
  | and, a, b => if a = 1 ∧ b = 1 then 1 else 0
  | equal, a, b => if cmpDouble a b = 0 then 1 else 0
  | notEqual, a, b => if cmpDouble a b ≠ 0 then 1 else 0
  | greater, a, b => if a > b then 1 else 0
  | less, a, b => if a < b then 1 else 0
  | plus, a, b => a + b
  | minus, a, b => a - b
  | times, a, b => a * b
  | divide, a, b => a / b

end Operator

/-! ## evaluate_simple -/

/-- The outcomes of `evaluate_simple`; `outOfBounds` when `str2double` looks at
the byte before the buffer. -/
inductive EvalOutcome
  | succeed (result : ℚ)
  | fail (error : List UInt8)
  | outOfBounds
deriving DecidableEq

/-- The branch of a binary operator, given how the parts are evaluated. -/
def evaluateBinary (evaluate : List UInt8 → EvalOutcome × List UInt8) (maxerrlen : ℕ)
    (op : Operator) (first second : List UInt8) : EvalOutcome :=
  match evaluate first with
  | (.fail error, _) => .fail error
  | (.outOfBounds, _) => .outOfBounds
  | (.succeed value1, first) =>
      if op = .or ∧ value1 = 1 then .succeed value1
      else
        match evaluate second with
        | (.fail error, _) => .fail error
        | (.outOfBounds, _) => .outOfBounds
        | (.succeed value2, second) =>
            if op = .divide ∧ cmpDouble value2 0 = 0 then
              .fail (zbxVsnprintf maxerrlen
                (bytes "Division by zero. Cannot evaluate expression [" ++ first ++ bytes "/" ++
                  second ++ bytes "]"))
            else .succeed (op.apply value1 value2)

/-- The first operator that occurs, with the text before and behind it. -/
def findOperator (exp : List UInt8) : Option (Operator × List UInt8 × List UInt8) :=
  Operator.all.findSome? fun op => (strchr op.char exp).map fun p => (op, p)

/-- The body of `evaluate_simple`, given how the parts are evaluated: the
outcome and what is left of `exp`. -/
def evaluateSimpleBody (evaluate : List UInt8 → EvalOutcome × List UInt8) (maxerrlen : ℕ)
    (exp : List UInt8) : EvalOutcome × List UInt8 :=
  let exp := compressSigns (lrtrimSpaces exp)
  if exp.head? = some capitalN ∧ isDoublePrefix exp.tail then
    match str2double (some capitalN) exp.tail with
    | none => (.outOfBounds, exp)
    | some (value, s) => (.succeed (-value), capitalN :: s)
  else if exp.head? ≠ some capitalN ∧ isDoublePrefix exp then
    match str2double none exp with
    | none => (.outOfBounds, exp)
    | some (value, s) => (.succeed value, s)
  else
    match findOperator exp with
    | some (op, first, second) =>
        (evaluateBinary evaluate maxerrlen op (strscpy first) (strscpy second),
          first ++ bar :: second)
    | none =>
        (.fail (zbxVsnprintf maxerrlen
          (bytes "Format error or unsupported operator.  Exp: [" ++ exp ++ bytes "]")), exp)

/-- `evaluate_simple`, for at most `fuel` nested calls. -/
def evaluateSimpleFuel (maxerrlen : ℕ) : (fuel : ℕ) → List UInt8 → EvalOutcome × List UInt8
  | 0, exp => (.outOfBounds, exp)
  | fuel + 1, exp => evaluateSimpleBody (evaluateSimpleFuel maxerrlen fuel) maxerrlen exp

/-- `evaluate_simple`: the outcome and what is left of `exp`.  Splitting makes
the parts shorter, once the signs are compressed. -/
def evaluateSimple (maxerrlen : ℕ) (exp : List UInt8) : EvalOutcome × List UInt8 :=
  evaluateSimpleFuel maxerrlen (2 * exp.length + 2) exp

/-! ## the recursion ends -/

/-- The length that every split reduces. -/
def evaluateSize (exp : List UInt8) : ℕ := (compressSigns (lrtrimSpaces exp)).length

theorem evaluateSize_le (exp : List UInt8) : evaluateSize exp ≤ 2 * exp.length := by
  have h1 := length_compressSigns_le (lrtrimSpaces exp)
  have h2 := (sublist_lrtrimSpaces exp).length_le
  rw [evaluateSize]
  omega

/-- A part of a compressed text is not longer when it is compressed again. -/
theorem evaluateSize_le_of_not_mem {s : List UInt8} (h : minus ∉ s) :
    evaluateSize (strscpy s) ≤ s.length := by
  have hsub : (lrtrimSpaces (strscpy s)).Sublist s :=
    (sublist_lrtrimSpaces _).trans (List.take_sublist _ _)
  have hle := length_compressSigns_le_of_not_mem fun hm => h (hsub.subset hm)
  exact le_trans hle hsub.length_le

theorem findOperator_eq_some {exp first second : List UInt8} {op : Operator}
    (h : findOperator exp = some (op, first, second)) : exp = first ++ op.char :: second := by
  obtain ⟨op', -, h'⟩ := List.exists_of_findSome?_eq_some h
  obtain ⟨p, hp, heq⟩ := Option.map_eq_some_iff.mp h'
  cases heq
  exact strchr_eq_some hp

/-- The body looks only at the smaller parts. -/
theorem evaluateSimpleBody_congr (maxerrlen : ℕ) {exp : List UInt8}
    {evaluate evaluate' : List UInt8 → EvalOutcome × List UInt8}
    (h : ∀ part, evaluateSize part < evaluateSize exp → evaluate part = evaluate' part) :
    evaluateSimpleBody evaluate maxerrlen exp = evaluateSimpleBody evaluate' maxerrlen exp := by
  unfold evaluateSimpleBody
  dsimp only
  cases hf : findOperator (compressSigns (lrtrimSpaces exp)) with
  | none => rfl
  | some p =>
      obtain ⟨op, first, second⟩ := p
      have hexp := findOperator_eq_some hf
      have hminus := minus_not_mem_compressSigns (lrtrimSpaces exp)
      rw [hexp, List.mem_append, List.mem_cons, not_or, not_or] at hminus
      have hsize : evaluateSize exp = first.length + second.length + 1 := by
        rw [evaluateSize, hexp, List.length_append, List.length_cons]
        omega
      have hfirst := evaluateSize_le_of_not_mem hminus.1
      have hsecond := evaluateSize_le_of_not_mem hminus.2.2
      have h1 := h (strscpy first) (by omega)
      have h2 := h (strscpy second) (by omega)
      simp only [evaluateBinary, h1, h2]

/-- More fuel than the size changes nothing. -/
theorem evaluateSimpleFuel_eq (maxerrlen : ℕ) {fuel fuel' : ℕ} {exp : List UInt8}
    (h : evaluateSize exp < fuel) (h' : evaluateSize exp < fuel') :
    evaluateSimpleFuel maxerrlen fuel exp = evaluateSimpleFuel maxerrlen fuel' exp := by
  induction fuel generalizing fuel' exp with
  | zero => omega
  | succ fuel ih =>
      obtain ⟨fuel', rfl⟩ : ∃ k, fuel' = k + 1 := ⟨fuel' - 1, by omega⟩
      exact evaluateSimpleBody_congr maxerrlen fun part hpart => ih (by omega) (by omega)

/-- **The equation of `evaluate_simple`**, as the source states it. -/
theorem evaluateSimple_eq (maxerrlen : ℕ) (exp : List UInt8) :
    evaluateSimple maxerrlen exp = evaluateSimpleBody (evaluateSimple maxerrlen) maxerrlen exp := by
  have hsize := evaluateSize_le exp
  apply evaluateSimpleBody_congr
  intro part hpart
  have hpart' := evaluateSize_le part
  exact evaluateSimpleFuel_eq maxerrlen (by omega) (by omega)

end Zabbix
