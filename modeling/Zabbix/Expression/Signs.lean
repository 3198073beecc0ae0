import Zabbix.Lib.Ascii
import Mathlib.Data.List.Basic
import Mathlib.Tactic

/-!
# Zabbix.Expression.Signs

`compress_signs` of `libs/zbxcommon/str.c`, the pass that runs before an
expression is split.  It merges runs of `+` and `-` into one sign and then
rewrites the signs: a sign in front of an operand is dropped or becomes the
prefix `N`, a `-` between operands becomes `+N`.

`mergeSigns_eq` says what the repeated merging passes compute, and
`compressSigns_text` what the whole pass makes of a text that is put together
from operands, signs and operators.
-/

namespace Zabbix

open Ascii

/-! ## the pass -/

/-- One pass of the first loop: adjacent signs are merged pairwise; the first
component is the flag `loop`. -/
def mergePass : List UInt8 → Bool × List UInt8
  | [] => (false, [])
  | [cur] => (false, [cur])
  | cur :: next :: s =>
      if (cur = minus ∧ next = minus) ∨ (cur = plus ∧ next = plus) then
        (true, plus :: (mergePass s).2)
      else if (cur = minus ∧ next = plus) ∨ (cur = plus ∧ next = minus) then
        (true, minus :: (mergePass s).2)
      else ((mergePass (next :: s)).1, cur :: (mergePass (next :: s)).2)

/-- `while (loop == 1)`, for at most `fuel` passes. -/
def mergeLoop : (fuel : Nat) → List UInt8 → List UInt8
  | 0, s => s
  | fuel + 1, s => if (mergePass s).1 then mergeLoop fuel (mergePass s).2 else (mergePass s).2

/-- The first loop: every pass that merges anything makes the text shorter. -/
def mergeSigns (s : List UInt8) : List UInt8 := mergeLoop (s.length + 1) s

/-- `isdigit(prev) || prev == '.'`, for the byte before a sign. -/
def endsNumber (prev : Option UInt8) : Bool :=
  match prev with
  | none => false
  | some c => (48 ≤ c && c ≤ 57) || c = dot

/-- The second loop, with the byte before the current one.  A dropped `+`
makes the loop step over the byte behind it. -/
def rewriteSigns : (prev : Option UInt8) → List UInt8 → List UInt8
  | _, [] => []
  | prev, cur :: s =>
      if cur = plus then
        if endsNumber prev then plus :: rewriteSigns (some plus) s
        else
          match s with
          | [] => []
          | c :: s => c :: rewriteSigns (some c) s
      else if cur = minus then
        if endsNumber prev then plus :: capitalN :: rewriteSigns (some capitalN) s
        else capitalN :: rewriteSigns (some capitalN) s
      else cur :: rewriteSigns (some cur) s

/-- `compress_signs`. -/
def compressSigns (s : List UInt8) : List UInt8 := rewriteSigns none (mergeSigns s)

/-! ## merging -/

def isSign (c : UInt8) : Bool := c = plus || c = minus

/-- The sign of a run of two. -/
def mergeTwo (a b : UInt8) : UInt8 := if a = b then plus else minus

/-- Every run of signs merged into one. -/
def mergeRuns : List UInt8 → List UInt8
  | [] => []
  | a :: s =>
      if isSign a then
        match mergeRuns s with
        | [] => [a]
        | b :: t => if isSign b then mergeTwo a b :: t else a :: b :: t
      else a :: mergeRuns s

theorem isSign_iff {c : UInt8} : isSign c ↔ c = plus ∨ c = minus := by
  simp [isSign]

theorem isSign_mergeTwo (a b : UInt8) : isSign (mergeTwo a b) := by
  rw [isSign_iff, mergeTwo]
  split
  · exact .inl rfl
  · exact .inr rfl

theorem mergeTwo_assoc {a b c : UInt8} (ha : isSign a) (hb : isSign b) (hc : isSign c) :
    mergeTwo (mergeTwo a b) c = mergeTwo a (mergeTwo b c) := by
  rw [isSign_iff] at ha hb hc
  rcases ha with rfl | rfl <;> rcases hb with rfl | rfl <;> rcases hc with rfl | rfl <;> decide

/-- Merging the first two signs of a run does not change what the run merges
into. -/
theorem mergeRuns_mergeTwo {a b : UInt8} (ha : isSign a) (hb : isSign b) (s : List UInt8) :
    mergeRuns (mergeTwo a b :: s) = mergeRuns (a :: b :: s) := by
  simp only [mergeRuns, ha, hb, isSign_mergeTwo, if_true]
  cases mergeRuns s with
  | nil => simp [hb]
  | cons c t =>
      by_cases hc : isSign c
      · simp [hc, isSign_mergeTwo, mergeTwo_assoc ha hb hc]
      · simp [hc, hb]

theorem mergePass_of_signs {a b : UInt8} (ha : isSign a) (hb : isSign b) (s : List UInt8) :
    mergePass (a :: b :: s) = (true, mergeTwo a b :: (mergePass s).2) := by
  rw [isSign_iff] at ha hb
  rcases ha with rfl | rfl <;> rcases hb with rfl | rfl <;> rfl

theorem mergePass_of_not {a b : UInt8} (h : ¬(isSign a ∧ isSign b)) (s : List UInt8) :
    mergePass (a :: b :: s) = ((mergePass (b :: s)).1, a :: (mergePass (b :: s)).2) := by
  rw [isSign_iff, isSign_iff] at h
  rw [mergePass, if_neg (by tauto), if_neg (by tauto)]

/-- A pass does not change what the runs merge into. -/
theorem mergeRuns_mergePass (s : List UInt8) : mergeRuns (mergePass s).2 = mergeRuns s := by
  induction hn : s.length using Nat.strong_induction_on generalizing s with
  | _ n ih =>
      match s with
      | [] => rfl
      | [a] => rfl
      | a :: b :: s =>
          by_cases h : isSign a ∧ isSign b
          · have hs := ih s.length (by simp at hn; omega) s rfl
            rw [mergePass_of_signs h.1 h.2, ← mergeRuns_mergeTwo h.1 h.2]
            simp only [mergeRuns, hs]
          · have hs := ih (b :: s).length (by simp at hn ⊢; omega) (b :: s) rfl
            rw [mergePass_of_not h]
            simp only [mergeRuns] at hs ⊢
            rw [hs]

/-- A pass that merges nothing leaves a text without runs. -/
theorem mergePass_of_false {s : List UInt8} (h : (mergePass s).1 = false) :
    (mergePass s).2 = s ∧ mergeRuns s = s := by
  induction s with
  | nil => exact ⟨rfl, rfl⟩
  | cons a s ih =>
      cases s with
      | nil => exact ⟨rfl, by simp [mergeRuns]⟩
      | cons b s =>
          by_cases hab : isSign a ∧ isSign b
          · rw [mergePass_of_signs hab.1 hab.2] at h
            contradiction
          · rw [mergePass_of_not hab] at h ⊢
            obtain ⟨h1, h2⟩ := ih h
            refine ⟨by rw [h1], ?_⟩
            rw [mergeRuns, h2]
            by_cases ha : isSign a
            · have hb : ¬isSign b := fun hb => hab ⟨ha, hb⟩
              simp [ha, hb]
            · simp [ha]

theorem length_mergePass_le (s : List UInt8) : (mergePass s).2.length ≤ s.length := by
  fun_induction mergePass s <;> simp_all <;> omega

theorem length_mergePass_lt {s : List UInt8} (h : (mergePass s).1 = true) :
    (mergePass s).2.length < s.length := by
  induction s with
  | nil => contradiction
  | cons a s ih =>
      cases s with
      | nil => contradiction
      | cons b s =>
          by_cases hab : isSign a ∧ isSign b
          · have := length_mergePass_le s
            rw [mergePass_of_signs hab.1 hab.2]
            simp only [List.length_cons]
            omega
          · rw [mergePass_of_not hab] at h ⊢
            have := ih h
            simp only [List.length_cons] at this ⊢
            omega

/-- **The first loop merges every run of signs**; the passes that it may take
are enough. -/
theorem mergeSigns_eq (s : List UInt8) : mergeSigns s = mergeRuns s := by
  have hloop : ∀ fuel s, s.length < fuel → mergeLoop fuel s = mergeRuns s := by
    intro fuel
    induction fuel with
    | zero => intro s h; omega
    | succ fuel ih =>
        intro s h
        rw [mergeLoop]
        by_cases hp : (mergePass s).1 = true
        · have hlt := length_mergePass_lt hp
          rw [if_pos hp, ih _ (by omega), mergeRuns_mergePass]
        · obtain ⟨h1, h2⟩ := mergePass_of_false (Bool.eq_false_iff.mpr hp)
          rw [if_neg hp, h1, h2]
  exact hloop _ s (Nat.lt_succ_self _)

/-! ## the size of the result -/

/-- Merged runs leave no two signs side by side. -/
theorem isChain_mergeRuns (s : List UInt8) :
    (mergeRuns s).IsChain fun a b => ¬(isSign a ∧ isSign b) := by
  induction s with
  | nil => exact List.IsChain.nil
  | cons a s ih =>
      rw [mergeRuns]
      by_cases ha : isSign a
      · rw [if_pos ha]
        cases h : mergeRuns s with
        | nil => exact List.IsChain.singleton a
        | cons b t =>
            rw [h] at ih
            by_cases hb : isSign b
            · simp only [hb, if_true]
              cases t with
              | nil => exact List.IsChain.singleton _
              | cons c t =>
                  rw [List.isChain_cons_cons] at ih ⊢
                  exact ⟨fun hc => ih.1 ⟨hb, hc.2⟩, ih.2⟩
            · simp only [hb]
              exact List.isChain_cons_cons.mpr ⟨fun hc => hb hc.2, ih⟩
      · rw [if_neg ha]
        cases h : mergeRuns s with
        | nil => exact List.IsChain.singleton a
        | cons b t =>
            rw [h] at ih
            exact List.isChain_cons_cons.mpr ⟨fun hc => ha hc.1, ih⟩

/-- Every minus is rewritten. -/
theorem minus_not_mem_rewriteSigns (prev : Option UInt8) {s : List UInt8}
    (h : s.IsChain fun a b => ¬(isSign a ∧ isSign b)) : minus ∉ rewriteSigns prev s := by
  have hN : minus ≠ capitalN := by decide
  have hp : minus ≠ plus := by decide
  fun_induction rewriteSigns prev s with
  | case1 => simp
  | case2 prev s hprev ih => simpa [hp] using ih h.tail
  | case3 => simp
  | case4 prev hprev c s ih =>
      -- the byte stepped over is no sign, because a plus stands before it
      have hc : minus ≠ c := by
        rintro rfl
        exact (List.isChain_cons_cons.mp h).1 ⟨rfl, rfl⟩
      simpa [hc] using ih h.tail.tail
  | case5 prev s _ hprev ih => simpa [hp, hN] using ih h.tail
  | case6 prev s _ hprev ih => simpa [hN] using ih h.tail
  | case7 prev cur s hcur hcur' ih => simpa [Ne.symm hcur'] using ih h.tail

theorem minus_not_mem_compressSigns (s : List UInt8) : minus ∉ compressSigns s := by
  rw [compressSigns, mergeSigns_eq]
  exact minus_not_mem_rewriteSigns none (isChain_mergeRuns s)

theorem length_mergeRuns_le (s : List UInt8) : (mergeRuns s).length ≤ s.length := by
  induction s with
  | nil => exact Nat.le_refl _
  | cons a s ih =>
      rw [mergeRuns]
      split
      · split
        · simp
        · next b t h =>
            rw [h] at ih
            split <;> simp only [List.length_cons] at ih ⊢ <;> omega
      · simpa using ih

theorem minus_not_mem_mergeRuns {s : List UInt8} (h : minus ∉ s) : minus ∉ mergeRuns s := by
  have hp : minus ≠ plus := by decide
  induction s with
  | nil => exact h
  | cons a s ih =>
      rw [List.mem_cons, not_or] at h
      have hs := ih h.2
      rw [mergeRuns]
      split
      · next ha =>
          split
          · simpa using h.1
          · next b t hb =>
              rw [hb, List.mem_cons, not_or] at hs
              split
              · next hsign =>
                  have hapl := (isSign_iff.mp ha).resolve_right (Ne.symm h.1)
                  have hbpl := (isSign_iff.mp hsign).resolve_right (Ne.symm hs.1)
                  rw [hapl, hbpl, List.mem_cons, not_or]
                  exact ⟨hp, hs.2⟩
              · simpa [h.1] using hs
      · simpa [h.1] using hs

/-- Each minus adds at most one byte. -/
theorem length_rewriteSigns_le (prev : Option UInt8) (s : List UInt8) :
    (rewriteSigns prev s).length ≤ s.length + s.count minus := by
  fun_induction rewriteSigns prev s with
  | case1 => simp
  | case2 prev s hprev ih =>
      have hc := List.count_le_count_cons (a := minus) (b := plus) (l := s)
      simp only [List.length_cons]
      omega
  | case3 => simp
  | case4 prev hprev c s ih =>
      have hc := List.count_le_count_cons (a := minus) (b := c) (l := s)
      have hp := List.count_le_count_cons (a := minus) (b := plus) (l := c :: s)
      simp only [List.length_cons]
      omega
  | case5 prev s _ hprev ih =>
      rw [List.count_cons_self]
      simp only [List.length_cons]
      omega
  | case6 prev s _ hprev ih =>
      rw [List.count_cons_self]
      simp only [List.length_cons]
      omega
  | case7 prev cur s hcur hcur' ih =>
      rw [List.count_cons_of_ne hcur']
      simp only [List.length_cons]
      omega

theorem length_compressSigns_le (s : List UInt8) : (compressSigns s).length ≤ 2 * s.length := by
  have h1 := length_rewriteSigns_le none (mergeRuns s)
  have h2 := length_mergeRuns_le s
  have h3 := List.count_le_length (a := minus) (l := mergeRuns s)
  rw [compressSigns, mergeSigns_eq]
  omega

/-- Without a minus, nothing is added. -/
theorem length_compressSigns_le_of_not_mem {s : List UInt8} (h : minus ∉ s) :
    (compressSigns s).length ≤ s.length := by
  have h1 := length_rewriteSigns_le none (mergeRuns s)
  have h2 := length_mergeRuns_le s
  have h3 := List.count_eq_zero.mpr (minus_not_mem_mergeRuns h)
  rw [compressSigns, mergeSigns_eq]
  omega

/-! ## texts of operands and operators -/

/-- An operand of an expression text: signs, `true` for a minus, in front of a
body. -/
structure SignedText where
  signs : List Bool
  body : List UInt8

def signChar (minusSign : Bool) : UInt8 := if minusSign then minus else plus

def SignedText.text (x : SignedText) : List UInt8 := x.signs.map signChar ++ x.body

/-- The sign of a run: a minus for an odd number of them. -/
def negative (signs : List Bool) : Bool := signs.foldr xor false

/-- An operand, and operators each with the operand behind it. -/
def signedText (x : SignedText) (rest : List (UInt8 × SignedText)) : List UInt8 :=
  x.text ++ rest.flatMap fun p => p.1 :: p.2.text

/-- The prefix of a negative operand. -/
def negPrefix (neg : Bool) : List UInt8 := if neg then [capitalN] else []

/-- What becomes of an operator and its operand. -/
def compressedPair (p : UInt8 × SignedText) : List UInt8 :=
  if isSign p.1 then plus :: negPrefix (xor (p.1 = minus) (negative p.2.signs)) ++ p.2.body
  else p.1 :: negPrefix (negative p.2.signs) ++ p.2.body

/-- What becomes of the whole text. -/
def compressedText (x : SignedText) (rest : List (UInt8 × SignedText)) : List UInt8 :=
  negPrefix (negative x.signs) ++ x.body ++ rest.flatMap compressedPair

/-- A body has bytes, and no signs among them. -/
def IsBody (body : List UInt8) : Prop := body ≠ [] ∧ ∀ c ∈ body, isSign c = false

/-- Bodies stand between operators, and a sign between two of them comes after
a digit or a dot; the other operators are no part of a number. -/
def SignsReadable : List UInt8 → List (UInt8 × SignedText) → Prop
  | body, [] => IsBody body
  | body, p :: rest =>
      IsBody body ∧ (isSign p.1 = true → endsNumber body.getLast? = true) ∧
        (isSign p.1 = false → endsNumber (some p.1) = false) ∧ SignsReadable p.2.body rest

theorem SignsReadable.isBody {body : List UInt8} {rest : List (UInt8 × SignedText)}
    (h : SignsReadable body rest) : IsBody body := by
  cases rest with
  | nil => exact h
  | cons p rest => exact h.1

theorem isSign_signChar (b : Bool) : isSign (signChar b) := by
  cases b <;> rfl

theorem mergeTwo_signChar (a b : Bool) : mergeTwo (signChar a) (signChar b) = signChar (xor a b) := by
  cases a <;> cases b <;> rfl

/-- Bytes that are no signs are not touched by merging. -/
theorem mergeRuns_append {body : List UInt8} (h : ∀ c ∈ body, isSign c = false) (s : List UInt8) :
    mergeRuns (body ++ s) = body ++ mergeRuns s := by
  induction body with
  | nil => rfl
  | cons c body ih =>
      have hc := h c (List.mem_cons_self ..)
      have hs := ih fun x hx => h x (List.mem_cons_of_mem _ hx)
      simp only [List.cons_append, mergeRuns, hc, hs]
      rfl

/-- A run in front of a body merges into one sign. -/
theorem mergeRuns_signs (signs : List Bool) {body : List UInt8} (hb : IsBody body) (s : List UInt8) :
    mergeRuns (signs.map signChar ++ body ++ s) =
      (if signs = [] then [] else [signChar (negative signs)]) ++ body ++ mergeRuns s := by
  induction signs with
  | nil => exact mergeRuns_append hb.2 s
  | cons b signs ih =>
      have hs := isSign_signChar b
      simp only [List.map_cons, List.cons_append, mergeRuns, hs, if_true, ih]
      cases signs with
      | nil =>
          obtain ⟨c, body, rfl⟩ := List.exists_cons_of_ne_nil hb.1
          have hc := hb.2 c (List.mem_cons_self ..)
          simp [hc, negative]
      | cons b' signs =>
          simp [isSign_signChar, mergeTwo_signChar, negative]

theorem rewriteSigns_cons {c : UInt8} (hc : isSign c = false) (prev : Option UInt8)
    (s : List UInt8) : rewriteSigns prev (c :: s) = c :: rewriteSigns (some c) s := by
  have hne : ¬(c = plus ∨ c = minus) := by
    rw [← isSign_iff, hc]
    decide
  rw [not_or] at hne
  rw [rewriteSigns.eq_def]
  simp only [if_neg hne.1, if_neg hne.2]

/-- A plus behind a number stays. -/
theorem rewriteSigns_plus {prev : Option UInt8} (h : endsNumber prev = true) (s : List UInt8) :
    rewriteSigns prev (plus :: s) = plus :: rewriteSigns (some plus) s := by
  rw [rewriteSigns.eq_def]
  simp only [h, if_true]

/-- A plus elsewhere goes, and the byte behind it is stepped over. -/
theorem rewriteSigns_plus_drop {prev : Option UInt8} (h : endsNumber prev = false) (c : UInt8)
    (s : List UInt8) : rewriteSigns prev (plus :: c :: s) = c :: rewriteSigns (some c) s := by
  rw [rewriteSigns.eq_def]
  simp [h]

theorem rewriteSigns_minus (prev : Option UInt8) (s : List UInt8) :
    rewriteSigns prev (minus :: s) =
      (if endsNumber prev then [plus] else []) ++ capitalN :: rewriteSigns (some capitalN) s := by
  rw [rewriteSigns.eq_def]
  simp only [if_neg (by decide : minus ≠ plus), if_true]
  split <;> rfl

/-- The rewriting copies bytes that are no signs. -/
theorem rewriteSigns_append {body : List UInt8} (h : ∀ c ∈ body, isSign c = false)
    (prev : Option UInt8) (s : List UInt8) :
    rewriteSigns prev (body ++ s) = body ++ rewriteSigns (body.getLast?.or prev) s := by
  induction body generalizing prev with
  | nil => rfl
  | cons c body ih =>
      rw [List.cons_append, rewriteSigns_cons (h c (List.mem_cons_self ..)),
        ih fun x hx => h x (List.mem_cons_of_mem _ hx)]
      cases body with
      | nil => rfl
      | cons d body => simp [List.getLast?_cons]

theorem rewriteSigns_body {body : List UInt8} (hb : IsBody body) (prev : Option UInt8)
    (s : List UInt8) :
    rewriteSigns prev (body ++ s) = body ++ rewriteSigns body.getLast? s := by
  obtain ⟨d, hd⟩ := Option.isSome_iff_exists.mp (List.getLast?_isSome.mpr hb.1)
  rw [rewriteSigns_append hb.2, hd, Option.some_or]

/-- Signs where no number ends: a plus goes, a minus becomes the prefix. -/
theorem rewriteSigns_prefix {prev : Option UInt8} (hprev : endsNumber prev = false)
    (signs : List Bool) {body : List UInt8} (hb : IsBody body) (s : List UInt8) :
    rewriteSigns prev ((if signs = [] then [] else [signChar (negative signs)]) ++ body ++ s) =
      negPrefix (negative signs) ++ body ++ rewriteSigns body.getLast? s := by
  obtain ⟨c, t, rfl⟩ := List.exists_cons_of_ne_nil hb.1
  by_cases h0 : signs = []
  · subst h0
    exact rewriteSigns_body hb prev s
  · rw [if_neg h0]
    cases negative signs with
    | false =>
        have hbody := rewriteSigns_body hb prev s
        have hc := hb.2 c (List.mem_cons_self ..)
        rw [List.cons_append, rewriteSigns_cons hc] at hbody
        exact (rewriteSigns_plus_drop hprev c (t ++ s)).trans hbody
    | true =>
        have hbody := rewriteSigns_body hb (some capitalN) s
        have hm := rewriteSigns_minus prev (c :: t ++ s)
        rw [hprev, hbody] at hm
        exact hm

/-- Signs where a number ends: a plus stays, a minus becomes `+N`. -/
theorem rewriteSigns_infix {prev : Option UInt8} (hprev : endsNumber prev = true) (b : Bool)
    {body : List UInt8} (hb : IsBody body) (s : List UInt8) :
    rewriteSigns prev (signChar b :: body ++ s) =
      plus :: negPrefix b ++ body ++ rewriteSigns body.getLast? s := by
  cases b with
  | false =>
      have hp := rewriteSigns_plus hprev (body ++ s)
      rw [rewriteSigns_body hb] at hp
      exact hp
  | true =>
      have hm := rewriteSigns_minus prev (body ++ s)
      rw [hprev, rewriteSigns_body hb] at hm
      exact hm

/-- The operators and their operands, behind a body. -/
theorem rewriteSigns_rest {body : List UInt8} {rest : List (UInt8 × SignedText)}
    (h : SignsReadable body rest) :
    rewriteSigns body.getLast? (mergeRuns (rest.flatMap fun p => p.1 :: p.2.text)) =
      rest.flatMap compressedPair := by
  induction rest generalizing body with
  | nil => rfl
  | cons p rest ih =>
      obtain ⟨c, signs, body'⟩ := p
      obtain ⟨-, hbetween, hfront, hrest⟩ := h
      have hb' := hrest.isBody
      have hih := ih hrest
      rw [List.flatMap_cons, List.flatMap_cons]
      by_cases hc : isSign c
      · -- the operator joins the run behind it
        have hrun : c :: SignedText.text ⟨signs, body'⟩ =
            ((decide (c = minus)) :: signs).map signChar ++ body' := by
          rcases isSign_iff.mp hc with rfl | rfl <;> rfl
        rw [hrun, mergeRuns_signs _ hb', if_neg (by simp), List.singleton_append,
          rewriteSigns_infix (hbetween hc) _ hb', hih, compressedPair, if_pos hc]
        rfl
      · have hc' : isSign c = false := Bool.eq_false_iff.mpr hc
        have hmerge := mergeRuns_append (by simpa using hc' : ∀ d ∈ [c], isSign d = false)
          (SignedText.text ⟨signs, body'⟩ ++ rest.flatMap fun p => p.1 :: p.2.text)
        rw [List.singleton_append] at hmerge
        rw [List.cons_append, hmerge, List.singleton_append, SignedText.text,
          mergeRuns_signs signs hb', rewriteSigns_cons hc', rewriteSigns_prefix (hfront hc') signs hb', hih,
          compressedPair, if_neg hc]
        rfl

/-- **What `compress_signs` does** to a text of operands, signs and operators:
every operand keeps at most the prefix `N`, and no `-` remains. -/
theorem compressSigns_text {x : SignedText} {rest : List (UInt8 × SignedText)}
    (h : SignsReadable x.body rest) : compressSigns (signedText x rest) = compressedText x rest := by
  rw [compressSigns, mergeSigns_eq, signedText, SignedText.text,
    mergeRuns_signs x.signs h.isBody, rewriteSigns_prefix rfl x.signs h.isBody,
    rewriteSigns_rest h, compressedText]

end Zabbix
