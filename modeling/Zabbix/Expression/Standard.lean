import Zabbix.Expression.Semantics

/-!
# Zabbix.Expression.Standard

`evaluate_simple` against the standard reading of trigger expressions.

The evaluator drops the subtraction: a minus becomes a plus in front of a
negated operand, which does not change the value (`evalLeft_addOpposite`).
What is left is read from the right, and this is the standard value unless one
of the operators `/`, `<`, `>`, `#`, `=` repeats with nothing of lower
precedence in between.
-/

namespace Zabbix

open Precedence

/-! ## subtraction as addition -/

/-- A subtraction as the addition of the opposite. -/
def addOpposite (p : Operator × ℚ) : Operator × ℚ := if p.1 = .minus then (.plus, -p.2) else p

/-- Products and quotients. -/
def product (v : ℚ) (rest : List (Operator × ℚ)) : ℚ :=
  evalLeft Operator.apply [.times, .divide] v rest

/-- Sums of differences of products. -/
def sum (v : ℚ) (rest : List (Operator × ℚ)) : ℚ :=
  evalLeft Operator.apply [.plus, .minus, .times, .divide] v rest

/-- The operators before the first sign. -/
def headPart (rest : List (Operator × ℚ)) : List (Operator × ℚ) :=
  (segments .minus (segments .plus rest).1).1

/-- What the terms behind the first sign add up to. -/
def tailSum (rest : List (Operator × ℚ)) : ℚ :=
  ((segments .plus rest).2.map fun s =>
      evalLeft Operator.apply [.minus, .times, .divide] s.1 s.2).sum -
    ((segments .minus (segments .plus rest).1).2.map fun s => product s.1 s.2).sum

theorem foldl_plus (v : ℚ) (l : List ℚ) : l.foldl (Operator.apply .plus) v = v + l.sum := by
  induction l generalizing v with
  | nil => simp
  | cons a l ih =>
      rw [List.foldl_cons, ih, List.sum_cons, Operator.apply]
      ring

theorem foldl_minus (v : ℚ) (l : List ℚ) : l.foldl (Operator.apply .minus) v = v - l.sum := by
  induction l generalizing v with
  | nil => simp
  | cons a l ih =>
      rw [List.foldl_cons, ih, List.sum_cons, Operator.apply]
      ring

/-- A sum is its first term and the rest. -/
theorem sum_eq (v : ℚ) (rest : List (Operator × ℚ)) :
    sum v rest = product v (headPart rest) + tailSum rest := by
  rw [sum, evalLeft, foldl_plus, evalLeft, foldl_minus, headPart, tailSum]
  simp only [product]
  ring

theorem headPart_sign {op : Operator} (h : op = .plus ∨ op = .minus) (y : ℚ)
    (rest : List (Operator × ℚ)) : headPart ((op, y) :: rest) = [] := by
  rcases h with rfl | rfl
  · rw [headPart, segments_cons_self, segments_nil]
  · rw [headPart, segments_cons_of_ne (by decide), segments_cons_self]

theorem headPart_other {op : Operator} (h : ¬(op = .plus ∨ op = .minus)) (y : ℚ)
    (rest : List (Operator × ℚ)) : headPart ((op, y) :: rest) = (op, y) :: headPart rest := by
  rw [not_or] at h
  rw [headPart, segments_cons_of_ne h.1, segments_cons_of_ne h.2, headPart]

theorem tailSum_plus (y : ℚ) (rest : List (Operator × ℚ)) :
    tailSum ((.plus, y) :: rest) = product y (headPart rest) + tailSum rest := by
  rw [tailSum, segments_cons_self, segments_nil, tailSum, headPart]
  simp only [List.map_cons, List.sum_cons, List.map_nil, List.sum_nil, product]
  rw [evalLeft, foldl_minus]
  ring

theorem tailSum_minus (y : ℚ) (rest : List (Operator × ℚ)) :
    tailSum ((.minus, y) :: rest) = tailSum rest - product y (headPart rest) := by
  rw [tailSum, segments_cons_of_ne (by decide), segments_cons_self, tailSum, headPart]
  simp only [List.map_cons, List.sum_cons]
  ring

theorem tailSum_other {op : Operator} (h : ¬(op = .plus ∨ op = .minus)) (y : ℚ)
    (rest : List (Operator × ℚ)) : tailSum ((op, y) :: rest) = tailSum rest := by
  rw [not_or] at h
  rw [tailSum, segments_cons_of_ne h.1, segments_cons_of_ne h.2, tailSum]

/-- The first factor may be negated. -/
theorem product_neg (v : ℚ) (rest : List (Operator × ℚ)) : product (-v) rest = -product v rest := by
  have hfold : ∀ op, op = .times ∨ op = .divide → ∀ (a : ℚ) (l : List ℚ),
      l.foldl (Operator.apply op) (-a) = -l.foldl (Operator.apply op) a := by
    intro op hop a l
    induction l generalizing a with
    | nil => rfl
    | cons b l ih =>
        have hneg : Operator.apply op (-a) b = -Operator.apply op a b := by
          rcases hop with rfl | rfl
          · exact neg_mul a b
          · exact neg_div b a
        rw [List.foldl_cons, hneg, ih, List.foldl_cons]
  simp only [product, evalLeft]
  rw [hfold .divide (.inr rfl), hfold .times (.inl rfl)]

theorem headPart_addOpposite (rest : List (Operator × ℚ)) :
    headPart (rest.map addOpposite) = headPart rest := by
  induction rest with
  | nil => rfl
  | cons p rest ih =>
      obtain ⟨op, y⟩ := p
      by_cases hm : op = .minus
      · rw [List.map_cons, addOpposite, if_pos hm, headPart_sign (.inl rfl), headPart_sign (.inr hm)]
      · rw [List.map_cons, addOpposite, if_neg hm]
        by_cases hop : op = .plus ∨ op = .minus
        · rw [headPart_sign hop, headPart_sign hop]
        · rw [headPart_other hop, headPart_other hop, ih]

theorem tailSum_addOpposite (rest : List (Operator × ℚ)) :
    tailSum (rest.map addOpposite) = tailSum rest := by
  induction rest with
  | nil => rfl
  | cons p rest ih =>
      obtain ⟨op, y⟩ := p
      by_cases hm : op = .minus
      · subst hm
        rw [List.map_cons, addOpposite, if_pos rfl, tailSum_plus, tailSum_minus, product_neg,
          headPart_addOpposite, ih]
        ring
      · rw [List.map_cons, addOpposite, if_neg hm]
        by_cases hp : op = .plus
        · rw [hp, tailSum_plus, tailSum_plus, headPart_addOpposite, ih]
        · rw [tailSum_other (by tauto), tailSum_other (by tauto), ih]

/-- Splitting at another operator does not see the difference. -/
theorem segments_addOpposite {op : Operator} (hp : op ≠ .plus) (hm : op ≠ .minus)
    (rest : List (Operator × ℚ)) :
    segments op (rest.map addOpposite) =
      ((segments op rest).1.map addOpposite,
        (segments op rest).2.map fun s => (s.1, s.2.map addOpposite)) := by
  induction rest with
  | nil => rfl
  | cons p rest ih =>
      obtain ⟨o, y⟩ := p
      by_cases ho : o = op
      · subst ho
        rw [List.map_cons, addOpposite, if_neg hm, segments_cons_self, segments_cons_self, ih]
        rfl
      · have hne : (addOpposite (o, y)).1 ≠ op := by
          unfold addOpposite
          split
          · exact Ne.symm hp
          · exact ho
        rw [List.map_cons, segments_cons_of_ne ho, ← Prod.mk.eta (p := addOpposite (o, y)),
          segments_cons_of_ne hne, ih]
        rfl

/-- **Subtracting is adding the opposite**, at every level. -/
theorem evalLeft_addOpposite (v : ℚ) (rest : List (Operator × ℚ)) :
    evalLeft Operator.apply Operator.all v (rest.map addOpposite) =
      evalLeft Operator.apply Operator.all v rest := by
  have hlevel : ∀ op ops, op ≠ .plus → op ≠ .minus →
      (∀ v rest, evalLeft Operator.apply ops v (rest.map addOpposite) =
        evalLeft Operator.apply ops v rest) →
      ∀ v rest, evalLeft Operator.apply (op :: ops) v (rest.map addOpposite) =
        evalLeft Operator.apply (op :: ops) v rest := by
    intro op ops hp hm ih v rest
    rw [evalLeft, evalLeft, segments_addOpposite hp hm, ih, List.map_map]
    congr 1
    exact List.map_congr_left fun s _ => ih s.1 s.2
  have hsum : ∀ v rest, sum v (rest.map addOpposite) = sum v rest := by
    intro v rest
    rw [sum_eq, sum_eq, headPart_addOpposite, tailSum_addOpposite]
  exact hlevel .or _ (by decide) (by decide) (hlevel .and _ (by decide) (by decide)
    (hlevel .equal _ (by decide) (by decide) (hlevel .notEqual _ (by decide) (by decide)
    (hlevel .greater _ (by decide) (by decide) (hlevel .less _ (by decide) (by decide) hsum)))))
    v rest

/-! ## expressions without chains -/

/-- The operators that may repeat: those whose order of evaluation does not
matter, once subtraction is addition. -/
def Operator.repeatable : Operator → Bool
  | or | and | plus | minus | times => true
  | equal | notEqual | greater | less | divide => false

/-- `o` has a lower precedence than `op`. -/
def Operator.lower (op o : Operator) : Bool := Operator.all.idxOf o < Operator.all.idxOf op

/-- None of `/`, `<`, `>`, `#`, `=` comes again before an operator of lower
precedence does. -/
def NoChains : List Operator → Prop
  | [] => True
  | op :: ops =>
      (op.repeatable ∨ op ∉ ops.takeWhile fun o => !op.lower o) ∧ NoChains ops

instance decidableNoChains : ∀ ops, Decidable (NoChains ops)
  | [] => inferInstanceAs (Decidable True)
  | _ :: ops =>
      have := decidableNoChains ops
      inferInstanceAs (Decidable (_ ∧ _))

/-- What becomes of the operators of an expression. -/
def addOpposites (ops : List Operator) : List Operator :=
  ops.map fun o => if o = .minus then .plus else o

theorem noChains_addOpposites {ops : List Operator} (h : NoChains ops) :
    NoChains (addOpposites ops) := by
  induction ops with
  | nil => trivial
  | cons op ops ih =>
      refine ⟨?_, ih h.2⟩
      by_cases hr : op.repeatable
      · left
        dsimp only
        split
        · rfl
        · exact hr
      · right
        have hm : op ≠ .minus := by
          rintro rfl
          exact hr rfl
        have hlow : ∀ o, op.lower (if o = .minus then .plus else o) = op.lower o := by
          intro o
          revert hr
          cases op <;> cases o <;> decide
        have hnot := h.1.resolve_left hr
        simp only [if_neg hm]
        rw [List.takeWhile_map]
        simp only [Function.comp_def, hlow]
        intro hin
        obtain ⟨o, ho, heq⟩ := List.mem_map.mp hin
        by_cases hom : o = .minus
        · rw [if_pos hom] at heq
          rw [← heq] at hr
          exact hr rfl
        · rw [if_neg hom] at heq
          rw [heq] at ho
          exact hnot ho

/-- Between two occurrences of an operator that may not repeat stands one of
lower precedence. -/
theorem NoChains.apart {α : Type} {rest : List (Operator × α)} (h : NoChains (rest.map Prod.fst))
    {op : Operator} (hop : ¬op.repeatable) :
    Apart (fun o => Operator.all.idxOf o < Operator.all.idxOf op) op rest := by
  rintro a x b y c rfl
  induction a with
  | nil =>
      by_contra hno
      have hall : ∀ o ∈ b.map Prod.fst, (!op.lower o) = true := by
        intro o ho
        obtain ⟨p, hp, rfl⟩ := List.mem_map.mp ho
        rw [Bool.not_eq_true', Operator.lower, decide_eq_false_iff_not]
        exact fun hlt => hno ⟨p, hp, hlt⟩
      apply h.1.resolve_left hop
      rw [List.map_append, List.takeWhile_append_of_pos hall, List.map_cons]
      have hself : (!op.lower op) = true := by simp [Operator.lower]
      simp [hself]
  | cons p a ih => exact ih h.2

/-! ## the value of an expression -/

theorem cmpDouble_zero_ne {b : ℚ} (h : 1 / 1000000 ≤ |b|) : cmpDouble b 0 ≠ 0 := by
  rw [cmpDouble, sub_zero, if_neg (not_lt.mpr h)]
  decide

/-- The operators that may repeat, the subtraction apart, are associative. -/
theorem apply_assoc {op : Operator} (h : op.repeatable ∧ op ≠ .minus) (a b c : ℚ) :
    op.apply (op.apply a b) c = op.apply a (op.apply b c) := by
  cases op with
  | plus => exact add_assoc a b c
  | times => exact mul_assoc a b c
  | or => simp only [Operator.apply]; split_ifs <;> simp_all
  | and => simp only [Operator.apply]; split_ifs <;> simp_all
  | minus => exact absurd rfl h.2
  | _ => exact absurd h.1 (by decide)

/-- With a divisor away from zero an operator succeeds. -/
theorem run_some {op : Operator} {a b : ℚ} (h : op = .divide → cmpDouble b 0 ≠ 0) :
    op.run (some a) (some b) = some (op.apply a b) := by
  simp only [Operator.run, Option.bind_some]
  by_cases hor : op = .or ∧ a = 1
  · rw [if_pos hor, hor.1, hor.2]
    rfl
  · rw [if_neg hor, if_neg fun hc => h hc.1 hc.2]

theorem compressPair_value (p : Operator × Operand) :
    ((compressPair p).1, (compressPair p).2.value) = addOpposite (p.1, p.2.value) := by
  obtain ⟨op, signs, n⟩ := p
  cases op with
  | minus =>
      have hx : (decide True ^^ negative signs) = !negative signs := by simp
      cases hn : negative signs <;>
        simp [compressPair, addOpposite, CompressedOperand.value, Operand.value, hn]
  | _ => simp [compressPair, addOpposite, CompressedOperand.value, Operand.value, Operand.compress]

/-- The compressed values of an expression. -/
theorem values_compress (rest : List (Operator × Operand)) :
    (rest.map compressPair).map (fun p => (p.1, p.2.value)) =
      (rest.map fun p => (p.1, p.2.value)).map addOpposite := by
  rw [List.map_map, List.map_map]
  exact List.map_congr_left fun p _ => compressPair_value p

theorem ops_addOpposite (rest : List (Operator × ℚ)) :
    (rest.map addOpposite).map Prod.fst = addOpposites (rest.map Prod.fst) := by
  rw [addOpposites, List.map_map, List.map_map]
  apply List.map_congr_left
  intro p _
  rw [Function.comp_apply, Function.comp_apply, addOpposite]
  split <;> rfl

/-- Without chains, the compressed expression is unchained. -/
theorem unchained_addOpposite {rest : List (Operator × ℚ)} (h : NoChains (rest.map Prod.fst)) :
    Unchained (fun op => op.repeatable ∧ op ≠ .minus) Operator.all (rest.map addOpposite) := by
  have hnodup : Operator.all.Nodup := by decide
  have hmem : ∀ op : Operator, op ∈ Operator.all := by
    intro op
    cases op <;> decide
  apply unchained_of_apart hnodup (List.nil_append Operator.all).symm fun p _ => hmem p.1
  intro op
  by_cases hr : op.repeatable
  · by_cases hm : op = .minus
    · -- no minus is left
      right
      rintro a x b y c heq
      have hin : op ∈ (rest.map addOpposite).map Prod.fst := by simp [heq]
      rw [ops_addOpposite, addOpposites, List.mem_map] at hin
      obtain ⟨o, -, ho⟩ := hin
      rw [hm] at ho
      split at ho
      · cases ho
      · contradiction
    · exact .inl ⟨hr, hm⟩
  · refine .inr (NoChains.apart ?_ hr)
    rw [ops_addOpposite]
    exact noChains_addOpposites h

theorem space_not_mem_expression (e : TriggerExpression) : Ascii.space ∉ e.text := by
  have hoperand : ∀ x : Operand, Ascii.space ∉ x.signedText.text := by
    intro x h
    rw [SignedText.text, List.mem_append] at h
    rcases h with h | h
    · obtain ⟨b, -, hb⟩ := List.mem_map.mp h
      cases b <;> exact absurd hb (by decide)
    · exact absurd (x.number.text_chars h) (by decide)
  have hop : ∀ op : Operator, Ascii.space ≠ op.char := by
    intro op
    cases op <;> decide
  intro h
  rw [TriggerExpression.text, signedText, List.mem_append, List.flatMap_map, List.mem_flatMap] at h
  rcases h with h | ⟨p, -, h⟩
  · exact hoperand _ h
  · rcases List.mem_cons.mp h with he | h
    · exact hop p.1 he
    · exact hoperand _ h

/-- The evaluator sees only the compressed text. -/
theorem evaluateSimple_congr (maxerrlen : ℕ) {s t : List UInt8}
    (h : compressSigns (lrtrimSpaces s) = compressSigns (lrtrimSpaces t)) :
    evaluateSimple maxerrlen s = evaluateSimple maxerrlen t := by
  rw [evaluateSimple_eq, evaluateSimple_eq, evaluateSimpleBody, evaluateSimpleBody, h]

/-- **The value of a trigger expression.**  When its operators do not chain,
no suffix stands before a sign, the compressed text fits the buffers and no
divisor is within 0.000001 of zero, `evaluate_simple` succeeds with the
standard value. -/
theorem evaluateSimple_value (maxerrlen : ℕ) (e : TriggerExpression)
    (hsuffix : SuffixesApart e.first.number (e.rest.map fun p => (p.1, p.2.number)))
    (hchains : NoChains (e.rest.map Prod.fst))
    (hfit : (compressSigns e.text).length < maxStringLen)
    (hdiv : ∀ p ∈ e.rest, p.1 = .divide → 1 / 1000000 ≤ |p.2.value|) :
    (evaluateSimple maxerrlen e.text).1 = .succeed (e.value Operator.apply) := by
  have hready := compressedReady hsuffix
  have hcomp := compressSigns_expression hsuffix
  have hmem : ∀ op : Operator, op ∈ Operator.all := by
    intro op
    cases op <;> decide
  have htext : evaluateSimple maxerrlen e.text =
      evaluateSimple maxerrlen (operandsText e.first.compress (e.rest.map compressPair)) := by
    apply evaluateSimple_congr
    rw [lrtrimSpaces_of_not_mem (space_not_mem_expression e), hcomp,
      evaluateSimpleBody_compressed hready]
  rw [hcomp] at hfit
  have hright := evaluateSimple_compressed maxerrlen (List.nil_append Operator.all).symm _ _
    (fun p _ => hmem p.1) hready hfit
  have hadm : Admissible Operator.apply (fun op b => op = .divide → cmpDouble b 0 ≠ 0)
      Operator.all (e.values.map addOpposite) := by
    have hall : Operator.all = Operator.all.dropLast ++ [.divide] := rfl
    rw [hall]
    apply admissible_of_last
    · intro op hop b hd
      rw [hd] at hop
      exact absurd hop (by decide)
    · intro y hy _
      obtain ⟨q, hq, heq⟩ := List.mem_map.mp hy
      obtain ⟨p, hp, rfl⟩ := List.mem_map.mp hq
      unfold addOpposite at heq
      split at heq
      · cases heq
      · rw [Prod.mk.injEq] at heq
        rw [← heq.2]
        exact cmpDouble_zero_ne (hdiv p hp heq.1)
  have hops : NoChains (e.values.map Prod.fst) := by
    rw [TriggerExpression.values, List.map_map]
    exact hchains
  have hleft : evalRight Operator.run some Operator.all e.first.value (e.values.map addOpposite) =
      some (evalLeft Operator.apply Operator.all e.first.value (e.values.map addOpposite)) :=
    evalRight_eq (fun op h => apply_assoc h) (fun op h b hd => absurd h.1 (by rw [hd]; decide))
      (fun op a b h => run_some h) Operator.all _ _ (unchained_addOpposite hops) hadm
  rw [values_compress] at hright
  have hresult : (evaluateSimple maxerrlen e.text).1.result = some (e.value Operator.apply) := by
    rw [htext, hright, TriggerExpression.value, ← evalLeft_addOpposite]
    exact hleft
  revert hresult
  cases (evaluateSimple maxerrlen e.text).1 with
  | succeed value =>
      intro h
      rw [Option.some.inj h]
  | fail error | outOfBounds =>
      intro h
      cases h

/-- An operand of one digit. -/
def digitOperand (signs : List Bool) (d : Fin 10) (suffix : Option Suffix) : Operand :=
  { signs := signs
    number := { int := [d], frac := none, suffix := suffix, digits := .inl (List.cons_ne_nil _ _) } }

/-- `-3*--8+5-8*-4/2+++1K`. -/
def mixedExpression : TriggerExpression :=
  { first := digitOperand [true] 3 none
    rest :=
      [(.times, digitOperand [true, true] 8 none), (.plus, digitOperand [] 5 none),
        (.minus, digitOperand [] 8 none), (.times, digitOperand [true] 4 none),
        (.divide, digitOperand [] 2 none), (.plus, digitOperand [false, false] 1 (some .K))] }

/-- The mixed expression has the value 1021. -/
theorem evaluateSimple_mixedExpression :
    (evaluateSimple 128 mixedExpression.text).1 = .succeed (mixedExpression.value Operator.apply) ∧
      mixedExpression.value Operator.apply = 1021 := by
  refine ⟨?_, by decide +kernel⟩
  exact evaluateSimple_value 128 mixedExpression
    ⟨fun _ => rfl, fun _ => rfl, fun _ => rfl, fun _ => rfl, fun _ => rfl, fun _ => rfl, trivial⟩
    (by decide) (by decide +kernel) (by decide +kernel)

/-! ## the textbook operators -/

/-- The operators over exact rationals: equality is exact, and every value but
0 is true. -/
def Operator.standard : Operator → ℚ → ℚ → ℚ
  | or, a, b => if a ≠ 0 ∨ b ≠ 0 then 1 else 0
  | and, a, b => if a ≠ 0 ∧ b ≠ 0 then 1 else 0
  | equal, a, b => if a = b then 1 else 0
  | notEqual, a, b => if a ≠ b then 1 else 0
  | op, a, b => op.apply a b

/-- No divisor is zero, and yet `evaluate_simple` does not give the standard
value with the textbook operators. -/
def DepartsFromStandard (e : TriggerExpression) : Prop :=
  (∀ p ∈ e.rest, p.1 = .divide → p.2.value ≠ 0) ∧
    (evaluateSimple 128 e.text).1 ≠ .succeed (e.value Operator.standard)

instance : DecidablePred DepartsFromStandard := fun _ => inferInstanceAs (Decidable (_ ∧ _))

/-- A number `i.000000d`. -/
def tinyOperand (int : Fin 10) (d : Fin 10) : Operand :=
  { signs := []
    number :=
      { int := [int], frac := some [0, 0, 0, 0, 0, 0, d], suffix := none
        digits := .inl (List.cons_ne_nil _ _) } }

/-- The number 1 with leading zeros. -/
def paddedOperand (zeros : ℕ) : Operand :=
  { signs := []
    number :=
      { int := List.replicate zeros 0 ++ [1], frac := none, suffix := none, digits := by simp } }

/-- Equality up to 0.000001 (`1=1.0000001`), 1 as the only true value (`2|0`),
tiny divisors (`1/0.0000001`), quotients from the right (`8/4/2`), suffixes
before a sign (`2K-1`) and texts longer than the buffers. -/
theorem evaluateSimple_departs :
    DepartsFromStandard ⟨digitOperand [] 1 none, [(.equal, tinyOperand 1 1)]⟩ ∧
      DepartsFromStandard ⟨digitOperand [] 2 none, [(.or, digitOperand [] 0 none)]⟩ ∧
      DepartsFromStandard ⟨digitOperand [] 1 none, [(.divide, tinyOperand 0 1)]⟩ ∧
      DepartsFromStandard ⟨digitOperand [] 8 none,
        [(.divide, digitOperand [] 4 none), (.divide, digitOperand [] 2 none)]⟩ ∧
      DepartsFromStandard ⟨digitOperand [] 2 (some .K), [(.minus, digitOperand [] 1 none)]⟩ ∧
      DepartsFromStandard ⟨digitOperand [] 0 none, [(.plus, paddedOperand 2047)]⟩ := by
  decide +kernel

end Zabbix
