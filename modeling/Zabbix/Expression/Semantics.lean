import Zabbix.Expression.Grammar

/-!
# Zabbix.Expression.Semantics

What `evaluate_simple` computes on the texts of trigger expressions.

Once the signs are compressed, a text is operands, each perhaps with the
prefix `N`, and operators other than `-`.  On such a text the evaluator is the
reading from the right (`evaluateSimple_compressed`), which agrees with the
standard reading on expressions whose operators `/`, `<`, `>`, `#` and `=` do
not form chains (`evaluateSimple_value`).
-/

namespace Zabbix

open Ascii

/-! ## compressed expressions -/

/-- An operand of a compressed text. -/
structure CompressedOperand where
  neg : Bool
  number : Number

namespace CompressedOperand

def text (x : CompressedOperand) : List UInt8 := negPrefix x.neg ++ x.number.text

def value (x : CompressedOperand) : ℚ := if x.neg then -x.number.value else x.number.value

end CompressedOperand

/-- A compressed text. -/
def operandsText (x : CompressedOperand) (rest : List (Operator × CompressedOperand)) : List UInt8 :=
  x.text ++ rest.flatMap fun p => p.1.char :: p.2.text

/-- What compressing makes of an operand. -/
def Operand.compress (x : Operand) : CompressedOperand :=
  { neg := negative x.signs, number := x.number }

/-- What compressing makes of an operator and its operand: a minus is a plus
in front of the negated operand. -/
def compressPair (p : Operator × Operand) : Operator × CompressedOperand :=
  if p.1 = .plus ∨ p.1 = .minus then
    (.plus, { neg := xor (p.1 = .minus) (negative p.2.signs), number := p.2.number })
  else (p.1, p.2.compress)

/-- No number with a suffix stands directly before a `+` or a `-`. -/
def SuffixesApart : Number → List (Operator × Number) → Prop
  | _, [] => True
  | n, p :: rest =>
      (p.1 = .plus ∨ p.1 = .minus → n.suffix = none) ∧ SuffixesApart p.2 rest

theorem SuffixesApart.of_append {n m : Number} {before after : List (Operator × Number)}
    {op : Operator} (h : SuffixesApart n (before ++ (op, m) :: after)) :
    SuffixesApart n before ∧ SuffixesApart m after := by
  induction before generalizing n with
  | nil => exact ⟨trivial, h.2⟩
  | cons p before ih => exact ⟨⟨h.1, (ih h.2).1⟩, (ih h.2).2⟩

/-! ## the bytes of a compressed text -/

/-- The bytes of an operand are none of the operators, and no space. -/
theorem CompressedOperand.text_chars {x : CompressedOperand} {c : UInt8} (h : c ∈ x.text) :
    c = capitalN ∨ IsNumberChar c := by
  rw [text, List.mem_append] at h
  rcases h with h | h
  · cases hn : x.neg with
    | false => simp [hn, negPrefix] at h
    | true => exact .inl (by simpa [hn, negPrefix] using h)
  · exact .inr (x.number.text_chars h)

theorem CompressedOperand.text_ne_nil (x : CompressedOperand) : x.text ≠ [] := by
  simp [text, x.number.text_ne_nil]

/-- The operators are no part of an operand. -/
theorem char_not_mem_text (op : Operator) (x : CompressedOperand) : op.char ∉ x.text := by
  intro h
  rcases CompressedOperand.text_chars h with hc | hc
  · cases op <;> exact absurd hc (by decide)
  · cases op <;> exact absurd hc (by decide)

theorem space_not_mem_text (x : CompressedOperand) : space ∉ x.text := by
  intro h
  rcases CompressedOperand.text_chars h with hc | hc <;> exact absurd hc (by decide)

theorem isBody_text (x : CompressedOperand) : IsBody x.text := by
  refine ⟨x.text_ne_nil, ?_⟩
  intro c hc
  rw [Bool.eq_false_iff, Ne, isSign_iff]
  rintro (rfl | rfl)
  · exact char_not_mem_text .plus x hc
  · exact char_not_mem_text .minus x hc

theorem Operator.char_injective {op op' : Operator} (h : op.char = op'.char) : op = op' := by
  cases op <;> cases op' <;> first | rfl | exact absurd h (by decide)

/-- The operators of a text are those of its expression. -/
theorem char_mem_operandsText {op : Operator} {x : CompressedOperand}
    {rest : List (Operator × CompressedOperand)} (h : op.char ∈ operandsText x rest) :
    op ∈ rest.map Prod.fst := by
  rw [operandsText, List.mem_append, List.mem_flatMap] at h
  rcases h with h | ⟨p, hp, h⟩
  · exact absurd h (char_not_mem_text op x)
  · rcases List.mem_cons.mp h with he | h
    · rw [Operator.char_injective he]
      exact List.mem_map_of_mem hp
    · exact absurd h (char_not_mem_text op p.2)

theorem space_not_mem_operandsText (x : CompressedOperand)
    (rest : List (Operator × CompressedOperand)) : space ∉ operandsText x rest := by
  have hop : ∀ op : Operator, space ≠ op.char := by
    intro op
    cases op <;> decide
  intro h
  rw [operandsText, List.mem_append, List.mem_flatMap] at h
  rcases h with h | ⟨p, -, h⟩
  · exact space_not_mem_text x h
  · rcases List.mem_cons.mp h with he | h
    · exact hop p.1 he
    · exact space_not_mem_text p.2 h

theorem operandsText_append (x y : CompressedOperand) (op : Operator)
    (before after : List (Operator × CompressedOperand)) :
    operandsText x (before ++ (op, y) :: after) =
      operandsText x before ++ op.char :: operandsText y after := by
  simp [operandsText]

/-! ## compressing -/

/-- A compressed expression: no minus, and no suffix before a plus. -/
def CompressedReady (x : CompressedOperand) (rest : List (Operator × CompressedOperand)) : Prop :=
  SuffixesApart x.number (rest.map fun p => (p.1, p.2.number)) ∧ ∀ p ∈ rest, p.1 ≠ .minus

theorem CompressedReady.of_append {x y : CompressedOperand} {op : Operator}
    {before after : List (Operator × CompressedOperand)}
    (h : CompressedReady x (before ++ (op, y) :: after)) :
    CompressedReady x before ∧ CompressedReady y after := by
  obtain ⟨hs, hm⟩ := h
  rw [List.map_append, List.map_cons] at hs
  obtain ⟨h1, h2⟩ := hs.of_append
  exact ⟨⟨h1, fun p hp => hm p (by simp [hp])⟩, ⟨h2, fun p hp => hm p (by simp [hp])⟩⟩

theorem isSign_char {op : Operator} (h : isSign op.char) : op = .plus ∨ op = .minus := by
  cases op <;> first | exact .inl rfl | exact .inr rfl | exact absurd h (by decide)

theorem endsNumber_char (op : Operator) : endsNumber (some op.char) = false := by
  cases op <;> decide

theorem getLast?_append_of_ne_nil {s t : List UInt8} (h : t ≠ []) :
    (s ++ t).getLast? = t.getLast? := List.getLast?_append_of_ne_nil s h

/-- Operands and operators without suffixes before signs are read as they are
written. -/
theorem signsReadable {ω : Type} (char : ω → Operator) (operand : ω → SignedText)
    (number : ω → Number) (front : ω → List UInt8)
    (hbody : ∀ o, (operand o).body = front o ++ (number o).text ∧ IsBody (operand o).body)
    {body : List UInt8} {n : Number} {pre : List UInt8} (hb : body = pre ++ n.text)
    (hbody0 : IsBody body) {rest : List ω}
    (h : SuffixesApart n (rest.map fun o => (char o, number o))) :
    SignsReadable body (rest.map fun o => ((char o).char, operand o)) := by
  induction rest generalizing body n pre with
  | nil => exact hbody0
  | cons o rest ih =>
      refine ⟨hbody0, ?_, fun _ => endsNumber_char _, ih (hbody o).1 (hbody o).2 h.2⟩
      intro hsign
      rw [hb, getLast?_append_of_ne_nil n.text_ne_nil]
      exact n.endsNumber_text (h.1 (isSign_char hsign))

/-- A compressed text stays as it is. -/
theorem compressSigns_operandsText {x : CompressedOperand}
    {rest : List (Operator × CompressedOperand)} (h : CompressedReady x rest) :
    compressSigns (operandsText x rest) = operandsText x rest := by
  have hread := signsReadable (ω := Operator × CompressedOperand) Prod.fst
    (fun p => { signs := [], body := p.2.text }) (fun p => p.2.number) (fun p => negPrefix p.2.neg)
    (fun p => ⟨rfl, isBody_text p.2⟩) rfl (isBody_text x) h.1
  have htext : signedText { signs := [], body := x.text }
      (rest.map fun p => (p.1.char, { signs := [], body := p.2.text })) = operandsText x rest := by
    simp [signedText, SignedText.text, operandsText, List.flatMap_map]
  have hcomp : compressedText { signs := [], body := x.text }
      (rest.map fun p => (p.1.char, { signs := [], body := p.2.text })) = operandsText x rest := by
    rw [compressedText, operandsText, List.flatMap_map]
    congr 1
    apply List.flatMap_congr
    intro p hp
    rw [compressedPair]
    split
    · next hsign =>
        have hop := (isSign_char hsign).resolve_right (h.2 p hp)
        rw [hop]
        rfl
    · rfl
  have hc := compressSigns_text (x := { signs := [], body := x.text }) hread
  rwa [htext, hcomp] at hc

/-- The text of an expression compresses to its compressed operands. -/
theorem compressSigns_expression {e : TriggerExpression}
    (h : SuffixesApart e.first.number (e.rest.map fun p => (p.1, p.2.number))) :
    compressSigns e.text = operandsText e.first.compress (e.rest.map compressPair) := by
  have hnumber : ∀ n : Number, IsBody n.text := fun n => isBody_text { neg := false, number := n }
  have hread := signsReadable (ω := Operator × Operand) Prod.fst (fun p => p.2.signedText)
    (fun p => p.2.number) (fun _ => []) (fun p => ⟨rfl, hnumber p.2.number⟩)
    (List.nil_append e.first.number.text).symm (hnumber e.first.number) h
  rw [TriggerExpression.text, compressSigns_text (x := e.first.signedText) hread, compressedText,
    operandsText, List.flatMap_map, List.flatMap_map]
  congr 1
  apply List.flatMap_congr
  intro p _
  obtain ⟨op, x⟩ := p
  cases op <;> rfl

/-- Compressing keeps suffixes and signs apart. -/
theorem SuffixesApart.compress {n : Number} {rest : List (Operator × Operand)}
    (h : SuffixesApart n (rest.map fun p => (p.1, p.2.number))) :
    SuffixesApart n ((rest.map compressPair).map fun p => (p.1, p.2.number)) := by
  induction rest generalizing n with
  | nil => trivial
  | cons p rest ih =>
      obtain ⟨op, y⟩ := p
      have hcp : (compressPair (op, y)).2.number = y.number := by
        unfold compressPair
        split <;> rfl
      refine ⟨?_, ?_⟩
      · intro hop
        apply h.1
        revert hop
        cases op <;> simp [compressPair]
      · dsimp only
        rw [hcp]
        exact ih h.2

theorem compressedReady {e : TriggerExpression}
    (h : SuffixesApart e.first.number (e.rest.map fun p => (p.1, p.2.number))) :
    CompressedReady e.first.compress (e.rest.map compressPair) := by
  refine ⟨h.compress, ?_⟩
  intro p hp
  obtain ⟨q, -, rfl⟩ := List.mem_map.mp hp
  unfold compressPair
  split
  · simp
  · next hq => exact fun hm => hq (.inr hm)

/-! ## reading from the right -/

/-- The branch of an operator, on the results of its parts. -/
def Operator.run (op : Operator) (first second : Option ℚ) : Option ℚ :=
  first.bind fun value1 =>
    if op = .or ∧ value1 = 1 then some value1
    else
      second.bind fun value2 =>
        if op = .divide ∧ cmpDouble value2 0 = 0 then none else some (op.apply value1 value2)

/-- `*result`, when the call succeeds. -/
def EvalOutcome.result : EvalOutcome → Option ℚ
  | succeed value => some value
  | fail _ | outOfBounds => none

theorem result_evaluateBinary (evaluate : List UInt8 → EvalOutcome × List UInt8) (maxerrlen : ℕ)
    (op : Operator) (first second : List UInt8) :
    (evaluateBinary evaluate maxerrlen op first second).result =
      op.run (evaluate first).1.result (evaluate second).1.result := by
  rw [evaluateBinary, Operator.run]
  rcases evaluate first with ⟨o1, s1⟩
  rcases evaluate second with ⟨o2, s2⟩
  cases o1 with
  | fail error | outOfBounds => rfl
  | succeed value1 =>
      by_cases hor : op = .or ∧ value1 = 1
      · simp only [if_pos hor, EvalOutcome.result, Option.bind_some]
      · cases o2 with
        | fail error | outOfBounds => simp only [if_neg hor, EvalOutcome.result, Option.bind_some,
            Option.bind_none]
        | succeed value2 =>
            by_cases hdiv : op = .divide ∧ cmpDouble value2 0 = 0
            · simp only [if_neg hor, if_pos hdiv, EvalOutcome.result, Option.bind_some]
            · simp only [if_neg hor, if_neg hdiv, EvalOutcome.result, Option.bind_some]

theorem isDoublePrefixLoop_chars {start seen : Bool} {s : List UInt8}
    (h : isDoublePrefixLoop start seen s = true) {c : UInt8} (hc : c ∈ s) :
    c = minus ∨ IsNumberChar c := by
  fun_induction isDoublePrefixLoop start seen s with
  | case1 => cases hc
  | case2 start seen a s ha ih =>
      rcases List.mem_cons.mp hc with rfl | hm
      · exact .inl ha.1
      · exact ih h hm
  | case3 start seen a s _ ha ih =>
      rcases List.mem_cons.mp hc with rfl | hm
      · exact .inr (.inl ha)
      · exact ih h hm
  | case4 start seen a s _ _ ha ih =>
      rcases List.mem_cons.mp hc with rfl | hm
      · exact .inr (.inr (.inl ha.1))
      · exact ih h hm
  | case5 start seen a s _ _ _ ha ih =>
      rcases List.mem_cons.mp hc with rfl | hm
      · exact .inr (.inr (.inr ha.1))
      · exact ih h hm
  | case6 => contradiction

/-- A text with an operator other than the minus is no number. -/
theorem not_isDoublePrefix {op : Operator} (hop : op ≠ .minus) {s : List UInt8} (h : op.char ∈ s) :
    ¬isDoublePrefix s := by
  intro hd
  have hc := isDoublePrefixLoop_chars hd h
  revert hc hop
  cases op <;> decide

/-- The body of the evaluator on a compressed text. -/
theorem evaluateSimpleBody_compressed {x : CompressedOperand}
    {rest : List (Operator × CompressedOperand)} (h : CompressedReady x rest) :
    compressSigns (lrtrimSpaces (operandsText x rest)) = operandsText x rest := by
  rw [lrtrimSpaces_of_not_mem (space_not_mem_operandsText x rest), compressSigns_operandsText h]

/-- A single operand evaluates to its value. -/
theorem evaluateSimple_operand (maxerrlen : ℕ) (x : CompressedOperand) :
    (evaluateSimple maxerrlen (operandsText x [])).1 = .succeed x.value := by
  have hready : CompressedReady x [] := ⟨trivial, by simp⟩
  have htext : operandsText x [] = x.text := by simp [operandsText]
  have hN : ¬IsNumberChar capitalN := by decide
  rw [evaluateSimple_eq, evaluateSimpleBody]
  simp only [evaluateSimpleBody_compressed hready]
  rw [htext]
  obtain ⟨neg, n⟩ := x
  obtain ⟨c, t, hc⟩ := List.exists_cons_of_ne_nil n.text_ne_nil
  have hcN : c ≠ capitalN := by
    rintro rfl
    exact hN (n.text_chars (by rw [hc]; exact List.mem_cons_self ..))
  cases neg with
  | true =>
      obtain ⟨s, hs⟩ := n.str2double_text (some capitalN)
      simp [CompressedOperand.text, CompressedOperand.value, negPrefix, n.isDoublePrefix_text, hs]
  | false =>
      obtain ⟨s, hs⟩ := n.str2double_text none
      have hp := n.isDoublePrefix_text
      rw [hc] at hs hp
      simp [CompressedOperand.text, CompressedOperand.value, negPrefix, hc, hcN, hp, hs]

/-- The first operator that is looked for and occurs is found where it occurs
first. -/
theorem findOperator_operandsText {pre ops : List Operator} {op : Operator}
    (hall : Operator.all = pre ++ op :: ops) {x y : CompressedOperand}
    {before after : List (Operator × CompressedOperand)} (hb : op ∉ before.map Prod.fst)
    (hpre : ∀ o ∈ pre, o ∉ (before ++ (op, y) :: after).map Prod.fst) :
    findOperator (operandsText x (before ++ (op, y) :: after)) =
      some (op, operandsText x before, operandsText y after) := by
  have hnone : pre.findSome? (fun o =>
      (strchr o.char (operandsText x (before ++ (op, y) :: after))).map fun p => (o, p)) = none := by
    rw [List.findSome?_eq_none_iff]
    intro o ho
    rw [strchr_of_not_mem fun hm => hpre o ho (char_mem_operandsText hm)]
    rfl
  rw [findOperator, hall, List.findSome?_append, hnone, Option.none_or, List.findSome?_cons,
    operandsText_append, strchr_append_cons fun hm => hb (char_mem_operandsText hm)]
  rfl

/-- **The evaluator reads from the right**: on a compressed text that fits the
buffers, splitting at first occurrences is the right-associating reading. -/
theorem evaluateSimple_compressed (maxerrlen : ℕ) {pre ops : List Operator}
    (hall : Operator.all = pre ++ ops) (x : CompressedOperand)
    (rest : List (Operator × CompressedOperand)) (hops : ∀ p ∈ rest, p.1 ∈ ops)
    (hready : CompressedReady x rest) (hlen : (operandsText x rest).length < maxStringLen) :
    (evaluateSimple maxerrlen (operandsText x rest)).1.result =
      Precedence.evalRight Operator.run some ops x.value (rest.map fun p => (p.1, p.2.value)) := by
  have hnodup : Operator.all.Nodup := by decide
  induction ops generalizing pre x rest with
  | nil =>
      have hnil : rest = [] := by
        cases rest with
        | nil => rfl
        | cons p rest => exact absurd (hops p (List.mem_cons_self ..)) (List.not_mem_nil)
      subst hnil
      rw [evaluateSimple_operand]
      rfl
  | cons op ops ih =>
      have hall' : Operator.all = (pre ++ [op]) ++ ops := by simp [hall]
      have hfst : ∀ l : List (Operator × CompressedOperand),
          (l.map fun p => (p.1, p.2.value)).map Prod.fst = l.map Prod.fst := by
        intro l
        rw [List.map_map]
        rfl
      have htail : ∀ l : List (Operator × CompressedOperand), (∀ p ∈ l, p.1 ∈ op :: ops) →
          op ∉ l.map Prod.fst → ∀ p ∈ l, p.1 ∈ ops := by
        intro l hl hnot p hp
        refine (List.mem_cons.mp (hl p hp)).resolve_left ?_
        rintro rfl
        exact hnot (List.mem_map_of_mem hp)
      induction hn : rest.length using Nat.strong_induction_on generalizing x rest with
      | _ n ihn =>
          by_cases hin : op ∈ rest.map Prod.fst
          · obtain ⟨before, y, after, rfl, hb⟩ := Precedence.exists_first hin
            obtain ⟨hready1, hready2⟩ := hready.of_append
            have hlens := hlen
            rw [operandsText_append, List.length_append, List.length_cons] at hlens
            have hmem1 : ∀ p ∈ before, p.1 ∈ op :: ops := fun p hp => hops p (by simp [hp])
            have hmem2 : ∀ p ∈ after, p.1 ∈ op :: ops := fun p hp => hops p (by simp [hp])
            have hfirst := ih hall' x before (htail before hmem1 hb) hready1 (by omega)
            have hsecond := ihn after.length (by rw [← hn]; simp; omega) y after hmem2 hready2
              (by omega) rfl
            have hpre : ∀ o ∈ pre, o ∉ (before ++ (op, y) :: after).map Prod.fst := by
              intro o ho hm
              obtain ⟨p, hp, rfl⟩ := List.mem_map.mp hm
              rw [hall] at hnodup
              exact (List.nodup_append.mp hnodup).2.2 p.1 ho p.1 (hops p hp) rfl
            have hop : op ≠ .minus := fun he => hready.2 (op, y) (by simp) he
            have hchar : op.char ∈ operandsText x (before ++ (op, y) :: after) := by
              rw [operandsText_append]
              simp
            have hcN : op.char ≠ capitalN := by cases op <;> decide
            have htl : (operandsText x (before ++ (op, y) :: after)).head? = some capitalN →
                op.char ∈ (operandsText x (before ++ (op, y) :: after)).tail := by
              intro hh
              rw [← List.cons_head?_tail hh] at hchar
              exact (List.mem_cons.mp hchar).resolve_left hcN
            rw [evaluateSimple_eq, evaluateSimpleBody]
            simp only [evaluateSimpleBody_compressed hready]
            rw [if_neg fun hc => not_isDoublePrefix hop (htl hc.1) hc.2,
              if_neg fun hc => not_isDoublePrefix hop hchar hc.2,
              findOperator_operandsText hall hb hpre]
            dsimp only
            rw [strscpy_of_lt (by omega), strscpy_of_lt (by omega), result_evaluateBinary, hfirst,
              hsecond, List.map_append, List.map_cons,
              Precedence.evalRight_append_cons _ _ _ _ _ (by rwa [hfst])]
          · rw [Precedence.evalRight_of_not_mem _ _ _ _ (by rwa [hfst])]
            exact ih hall' x rest (htail rest hops hin) hready hlen

end Zabbix
