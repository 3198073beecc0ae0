import Zabbix.Lib.Subst
import Zabbix.Str
import Zabbix.Lib.JsonText
import Mathlib.Data.List.GetD

/-!
# Zabbix.Macros.TriggerConstants

The constants of a trigger expression in its description: `extract_numbers` and
`expand_trigger_description_constants` of `libs/zbxserver/expression.c`, with `string_replace`
(`libs/zbxcommon/str.c`).

The scan looks for the end of a reference without a test whether there is one, and goes on behind the
byte that follows a number.  The macros `$1` to `$9` are replaced one after another, so that a `$` of the
description may come to stand before a digit.

* `extractNumbers_eq_some_iff` — when the scan returns, and the numbers that it finds;
* `descriptionRight_iff` — when the description holds the constants in the places of its macros.
-/

namespace Zabbix

open Ascii

/-! ## `string_replace` -/

/-- `strstr`, for the text `c :: sub`, as what stands before and behind the first one. -/
def strstr (c : UInt8) (sub : List UInt8) : List UInt8 → Option (List UInt8 × List UInt8)
  | [] => none
  | a :: s =>
      if (c :: sub).isPrefixOf (a :: s) then some ([], s.drop sub.length)
      else (strstr c sub s).map fun p => (a :: p.1, p.2)

theorem length_strstr {c : UInt8} {sub s : List UInt8} {p : List UInt8 × List UInt8} (h : strstr c sub s = some p) :
    p.2.length < s.length := by
  induction s generalizing p with
  | nil => cases h
  | cons a s ih =>
      rw [strstr] at h
      split at h
      · obtain rfl := Option.some.inj h
        rw [List.length_drop, List.length_cons]
        omega
      · obtain ⟨q, hq, rfl⟩ := Option.map_eq_some_iff.mp h
        exact (ih hq).trans (Nat.lt_succ_self _)

/-- `string_replace`, of a text `c :: sub` that is not empty.  What is put in is not looked at again. -/
def stringReplace (c : UInt8) (sub subStr2 str : List UInt8) : List UInt8 :=
  match _h : strstr c sub str with
  | none => str
  | some (front, behind) => front ++ subStr2 ++ stringReplace c sub subStr2 behind
termination_by str.length
decreasing_by exact length_strstr _h

theorem stringReplace_nil (c : UInt8) (sub subStr2 : List UInt8) : stringReplace c sub subStr2 [] = [] := by
  rw [stringReplace]
  rfl

/-- One that stands in front is replaced. -/
theorem stringReplace_append (c : UInt8) (sub subStr2 s : List UInt8) :
    stringReplace c sub subStr2 (c :: sub ++ s) = subStr2 ++ stringReplace c sub subStr2 s := by
  have hfound : strstr c sub (c :: sub ++ s) = some ([], s) := by
    have hstart : (c :: sub).isPrefixOf (c :: (sub ++ s)) = true := List.isPrefixOf_iff_prefix.mpr ⟨s, rfl⟩
    rw [List.cons_append, strstr, if_pos hstart, List.drop_left]
  rw [stringReplace]
  split
  · next h => rw [hfound] at h; cases h
  · next front behind h =>
    rw [hfound] at h
    obtain ⟨rfl, rfl⟩ := Prod.mk.inj (Option.some.inj h)
    rfl

/-- Where none begins, a byte stays. -/
theorem stringReplace_cons {c : UInt8} {sub : List UInt8} (subStr2 : List UInt8) {a : UInt8} {s : List UInt8}
    (h : ¬c :: sub <+: a :: s) : stringReplace c sub subStr2 (a :: s) = a :: stringReplace c sub subStr2 s := by
  have hstep : strstr c sub (a :: s) = (strstr c sub s).map fun p => (a :: p.1, p.2) := by
    rw [strstr, if_neg fun hp => h (List.isPrefixOf_iff_prefix.mp hp)]
  rw [stringReplace, stringReplace.eq_1 _ _ _ s]
  split
  · next hnone =>
    rw [hstep, Option.map_eq_none_iff] at hnone
    split
    · rfl
    · next hsome => rw [hnone] at hsome; cases hsome
  · next front behind hsome =>
    rw [hstep] at hsome
    obtain ⟨⟨front, behind⟩, hfound, hp⟩ := Option.map_eq_some_iff.mp hsome
    obtain ⟨rfl, rfl⟩ := Prod.mk.inj hp
    split
    · next hnone => rw [hnone] at hfound; cases hfound
    · next hsome' =>
      rw [hfound] at hsome'
      obtain ⟨rfl, rfl⟩ := Prod.mk.inj (Option.some.inj hsome')
      rfl

/-- Nor does one begin in a text without its first byte. -/
theorem stringReplace_of_not_mem {c : UInt8} (sub subStr2 : List UInt8) {front : List UInt8} (h : c ∉ front)
    (s : List UInt8) : stringReplace c sub subStr2 (front ++ s) = front ++ stringReplace c sub subStr2 s := by
  induction front with
  | nil => rfl
  | cons a front ih =>
      obtain ⟨ha, hfront⟩ := List.ne_and_not_mem_of_not_mem_cons h
      rw [List.cons_append, stringReplace_cons _ fun hstart => ha (List.cons_prefix_cons.mp hstart).1, ih hfront,
        List.cons_append]

/-! ## `extract_numbers` -/

/-- `'A' <= *e && *e <= 'Z'` -/
def isCapital (c : UInt8) : Bool := 65 ≤ c ∧ c ≤ 90

/-- The search for the end of a number: the bytes up to it, and those from it on. -/
def numberLoop : (dotFounded : Bool) → List UInt8 → List UInt8 × List UInt8
  | _, [] => ([], [])
  | dotFounded, e :: s =>
      if JsonText.isDigit e then (e :: (numberLoop dotFounded s).1, (numberLoop dotFounded s).2)
      else if e = dot ∧ ¬dotFounded then (e :: (numberLoop true s).1, (numberLoop true s).2)
      else if isCapital e then ([e], s)
      else ([], e :: s)

theorem length_numberLoop (dotFounded : Bool) (s : List UInt8) : (numberLoop dotFounded s).2.length ≤ s.length := by
  induction s generalizing dotFounded with
  | nil => exact le_rfl
  | cons e s ih =>
      rw [numberLoop]
      split
      · exact (ih dotFounded).trans (Nat.le_succ _)
      · split
        · exact (ih true).trans (Nat.le_succ _)
        · split
          · exact Nat.le_succ _
          · exact le_rfl

/-- The loop of `extract_numbers` from `s` on, behind the byte `prev`: the numbers, `none` when the brace that
closes a reference is missing, and the scan goes on from the null pointer. -/
def extractLoop (prev : Option UInt8) : List UInt8 → Option (List (List UInt8))
  | [] => some []
  | c :: s =>
      if ¬JsonText.isDigit c then extractLoop (some c) s
      else if prev = some lbrace then
        match _h : strchr rbrace (c :: s) with
        | none => none
        | some (_, behind) => extractLoop (some rbrace) behind
      else
        match _h : numberLoop false (c :: s) with
        | (number, []) => some [number]
        | (number, e :: rest) => (extractLoop (some e) rest).map (number :: ·)
termination_by s => s.length
decreasing_by
  · exact Nat.lt_succ_self _
  · have hs := congrArg List.length (strchr_eq_some _h)
    simp only [List.length_append, List.length_cons] at hs ⊢
    omega
  · have hle := length_numberLoop false (c :: s)
    rw [_h] at hle
    exact hle

/-- `extract_numbers` -/
def extractNumbers (str : List UInt8) : Option (List (List UInt8)) := extractLoop none str

/-! ## `expand_trigger_description_constants` -/

/-- The `$` of a macro. -/
def macroMark : UInt8 := 36

/-- `expand_trigger_description_constants`, with the expression of the row of the trigger, if there is one:
the description, `none` when the scan does not return. -/
def expandTriggerDescriptionConstants (row : Option (List UInt8)) (data : List UInt8) : Option (List UInt8) :=
  match row with
  | none => some data
  | some expression =>
      (extractNumbers expression).map fun numbers =>
        (List.range 9).foldl
          (fun data i =>
            stringReplace macroMark [48 + UInt8.ofNat i + 1] (if h : i < numbers.length then numbers[i] else []) data)
          data

/-! ## The constants -/

/-- The capital letter in front of a text, if there is one. -/
def suffixLetter (s : List UInt8) : List UInt8 := (s.take 1).filter (isCapital ·)

/-- The dot in front of a text with the digits behind it, if there is one. -/
def fraction : List UInt8 → List UInt8
  | [] => []
  | c :: s => if c = dot then dot :: s.takeWhile (JsonText.isDigit ·) else []

/-- The number in front of a text: digits, a fraction and a letter. -/
def leadingNumber (s : List UInt8) : List UInt8 :=
  let int := s.takeWhile (JsonText.isDigit ·)
  let s := s.dropWhile (JsonText.isDigit ·)
  int ++ (fraction s ++ suffixLetter (s.drop (fraction s).length))

/-- A digit stands in front. -/
def LeadingDigit (s : List UInt8) : Prop := ∃ d ∈ s.head?, JsonText.isDigit d = true

instance (s : List UInt8) : Decidable (LeadingDigit s) := inferInstanceAs (Decidable (∃ d ∈ s.head?, _))

theorem length_leadingNumber {c : UInt8} (hc : JsonText.isDigit c = true) (s : List UInt8) :
    0 < (leadingNumber (c :: s)).length := by
  rw [leadingNumber, List.takeWhile_cons_of_pos hc, List.cons_append, List.length_cons]
  exact Nat.succ_pos _

theorem leadingDigit_cons {c : UInt8} {s : List UInt8} : LeadingDigit (c :: s) ↔ JsonText.isDigit c = true := by
  constructor
  · rintro ⟨d, hd, hdigit⟩
    rwa [Option.some.inj hd]
  · exact fun hc => ⟨c, rfl, hc⟩

/-- The constants of an expression: its numbers outside of references `{functionid}`.  With `skips`, a digit right
behind a number is passed over. -/
def constants (skips : Bool) : List UInt8 → List (List UInt8)
  | [] => []
  | c :: s =>
      if JsonText.isDigit c then
        let number := leadingNumber (c :: s)
        let rest := (c :: s).drop number.length
        number :: constants skips (rest.drop (if skips ∧ LeadingDigit rest then 1 else 0))
      else if c = lbrace ∧ LeadingDigit s then
        match _h : strchr rbrace s with
        | none => constants skips s
        | some (_, behind) => constants skips behind
      else constants skips s
termination_by s => s.length
decreasing_by
  · have hpos := length_leadingNumber ‹_› s
    simp only [List.length_drop, List.length_cons]
    omega
  · exact Nat.lt_succ_self _
  · have hs := congrArg List.length (strchr_eq_some _h)
    simp only [List.length_append, List.length_cons] at hs ⊢
    omega
  · exact Nat.lt_succ_self _

/-- Every reference is closed: behind a brace in front of a digit there is a closing one. -/
def Closed (s : List UInt8) : Prop := ∀ t, lbrace :: t <:+ s → LeadingDigit t → rbrace ∈ t

/-- The numbers of the macros. -/
def macroNumbers : List UInt8 := (List.range 9).map fun i => 48 + UInt8.ofNat i + 1

/-- The constant that a macro stands for. -/
def constantText (numbers : List (List UInt8)) (number : UInt8) : List UInt8 := numbers.getD (number.toNat - 49) []

/-- The description with the constants in the places of its macros. -/
def withConstants (numbers : List (List UInt8)) (data : List UInt8) : List UInt8 :=
  Subst.expand macroMark (constantText numbers) macroNumbers data

/-! ## What is found -/

theorem drop_length_takeWhile (p : UInt8 → Bool) (s : List UInt8) :
    s.drop (s.takeWhile p).length = s.dropWhile p := by
  have h := congrArg (List.drop (s.takeWhile p).length) (List.takeWhile_append_dropWhile (p := p) (l := s))
  rwa [List.drop_left, eq_comm] at h

/-- Behind the dot. -/
theorem numberLoop_true (s : List UInt8) :
    numberLoop true s =
      (s.takeWhile (JsonText.isDigit ·) ++ suffixLetter (s.dropWhile (JsonText.isDigit ·)),
        (s.dropWhile (JsonText.isDigit ·)).drop (suffixLetter (s.dropWhile (JsonText.isDigit ·))).length) := by
  induction s with
  | nil => rfl
  | cons e s ih =>
      rw [numberLoop]
      by_cases he : JsonText.isDigit e = true
      · rw [if_pos he, ih, List.takeWhile_cons_of_pos he, List.dropWhile_cons_of_pos he]
        rfl
      · rw [if_neg he, if_neg (by simp), List.takeWhile_cons_of_neg he, List.dropWhile_cons_of_neg he]
        by_cases hcap : isCapital e = true
        · rw [if_pos hcap]
          simp [suffixLetter, hcap]
        · rw [if_neg hcap]
          simp [suffixLetter, hcap]

/-- The search comes to the end of the number. -/
theorem numberLoop_false (s : List UInt8) :
    numberLoop false s = (leadingNumber s, s.drop (leadingNumber s).length) := by
  induction s with
  | nil => rfl
  | cons e s ih =>
      rw [numberLoop, leadingNumber]
      by_cases he : JsonText.isDigit e = true
      · rw [if_pos he, ih, List.takeWhile_cons_of_pos he, List.dropWhile_cons_of_pos he]
        rfl
      · rw [if_neg he, List.takeWhile_cons_of_neg he, List.dropWhile_cons_of_neg he]
        by_cases hdot : e = dot
        · rw [if_pos ⟨hdot, by simp⟩, numberLoop_true]
          have hdrop := drop_length_takeWhile (JsonText.isDigit ·) s
          simp only [fraction, hdot, if_true, List.nil_append, List.length_cons, List.drop_succ_cons, hdrop,
            List.cons_append, List.length_append, ← List.drop_drop]
        · rw [if_neg fun h => hdot h.1]
          by_cases hcap : isCapital e = true
          · rw [if_pos hcap]
            simp [suffixLetter, fraction, hdot, hcap]
          · rw [if_neg hcap]
            simp [suffixLetter, fraction, hdot, hcap]

/-! ### references -/

theorem closed_nil : Closed [] := fun _ h => absurd h (by simp)

theorem closed_cons {c : UInt8} {s : List UInt8} :
    Closed (c :: s) ↔ (c = lbrace → LeadingDigit s → rbrace ∈ s) ∧ Closed s := by
  constructor
  · intro h
    refine ⟨fun hc hs => ?_, fun t ht => h t (ht.trans (List.suffix_cons c s))⟩
    subst hc
    exact h s List.suffix_rfl hs
  · rintro ⟨hc, hs⟩ t ht
    rcases List.suffix_cons_iff.mp ht with heq | ht
    · obtain ⟨rfl, rfl⟩ := List.cons.inj heq
      exact hc rfl
    · exact hs t ht

theorem closed_cons_of_ne {c : UInt8} {s : List UInt8} (h : c ≠ lbrace) : Closed (c :: s) ↔ Closed s := by
  rw [closed_cons, and_iff_right fun hc => absurd hc h]

theorem closed_append {t : List UInt8} (h : lbrace ∉ t) (s : List UInt8) : Closed (t ++ s) ↔ Closed s := by
  induction t with
  | nil => rfl
  | cons c t ih =>
      obtain ⟨hc, ht⟩ := List.ne_and_not_mem_of_not_mem_cons h
      rw [List.cons_append, closed_cons_of_ne (Ne.symm hc), ih ht]

/-- What stands in front of a closing brace is closed. -/
theorem closed_append_rbrace (front behind : List UInt8) : Closed (front ++ rbrace :: behind) ↔ Closed behind := by
  induction front with
  | nil => exact closed_cons_of_ne (by decide)
  | cons c front ih =>
      rw [List.cons_append, closed_cons, ih, and_iff_right]
      exact fun _ _ => List.mem_append_right _ (List.mem_cons_self ..)

/-- The bytes of a number. -/
theorem mem_leadingNumber {s : List UInt8} {c : UInt8} (h : c ∈ leadingNumber s) :
    JsonText.isDigit c = true ∨ c = dot ∨ isCapital c = true := by
  have hfraction : ∀ s, c ∈ fraction s → JsonText.isDigit c = true ∨ c = dot ∨ isCapital c = true := by
    intro s hc
    cases s with
    | nil => exact absurd hc List.not_mem_nil
    | cons a s =>
        rw [fraction] at hc
        split at hc
        · rcases List.mem_cons.mp hc with rfl | hc
          · exact .inr (.inl rfl)
          · exact .inl (List.mem_takeWhile_imp hc)
        · exact absurd hc List.not_mem_nil
  rcases List.mem_append.mp h with h | h
  · exact .inl (List.mem_takeWhile_imp h)
  · rcases List.mem_append.mp h with h | h
    · exact hfraction _ h
    · exact .inr (.inr (List.mem_filter.mp h).2)

theorem not_mem_leadingNumber {c : UInt8} (h : ¬(JsonText.isDigit c = true ∨ c = dot ∨ isCapital c = true))
    (s : List UInt8) : c ∉ leadingNumber s := fun hc => h (mem_leadingNumber hc)

theorem leadingNumber_append_drop (s : List UInt8) :
    leadingNumber s ++ s.drop (leadingNumber s).length = s := by
  have happend : ∀ (dotFounded : Bool) (s : List UInt8),
      (numberLoop dotFounded s).1 ++ (numberLoop dotFounded s).2 = s := by
    intro dotFounded s
    induction s generalizing dotFounded with
    | nil => rfl
    | cons e s ih =>
        rw [numberLoop]
        split
        · exact congrArg (e :: ·) (ih dotFounded)
        · split
          · exact congrArg (e :: ·) (ih true)
          · split <;> rfl
  have h := happend false s
  rwa [numberLoop_false] at h

/-- A number is followed by what else is in the text. -/
theorem closed_drop_leadingNumber (s : List UInt8) : Closed (s.drop (leadingNumber s).length) ↔ Closed s := by
  have hbrace : lbrace ∉ leadingNumber s := not_mem_leadingNumber (by decide) s
  rw [← closed_append hbrace, leadingNumber_append_drop]

/-! ### the scan -/

theorem constants_cons_of_digit {skips : Bool} {c : UInt8} (hc : JsonText.isDigit c = true) (s : List UInt8) :
    constants skips (c :: s) =
      leadingNumber (c :: s) ::
        constants skips
          (((c :: s).drop (leadingNumber (c :: s)).length).drop
            (if skips ∧ LeadingDigit ((c :: s).drop (leadingNumber (c :: s)).length) then 1 else 0)) := by
  rw [constants, if_pos hc]

theorem constants_cons_of_other {skips : Bool} {c : UInt8} {s : List UInt8} (hc : ¬JsonText.isDigit c = true)
    (hs : ¬(c = lbrace ∧ LeadingDigit s)) : constants skips (c :: s) = constants skips s := by
  rw [constants, if_neg hc, if_neg hs]

theorem constants_reference {skips : Bool} {s front behind : List UInt8} (hs : LeadingDigit s)
    (h : strchr rbrace s = some (front, behind)) : constants skips (lbrace :: s) = constants skips behind := by
  rw [constants, if_neg (by decide), if_pos ⟨rfl, hs⟩]
  split
  · next hnone => rw [h] at hnone; cases hnone
  · next hsome =>
      rw [h] at hsome
      obtain ⟨-, rfl⟩ := Prod.mk.inj (Option.some.inj hsome)
      rfl

/-- What the scan has still to look at: a brace right in front of it counts. -/
def pending (prev : Option UInt8) (s : List UInt8) : List UInt8 := if prev = some lbrace then lbrace :: s else s

theorem pending_some {c : UInt8} {s : List UInt8} (hc : c ≠ lbrace) : pending (some c) s = s :=
  if_neg fun h => hc (Option.some.inj h)

/-- A brace before something else than a digit. -/
theorem pending_cons_of_not_isDigit (skips : Bool) (prev : Option UInt8) {c : UInt8} (s : List UInt8)
    (hc : ¬JsonText.isDigit c = true) :
    (Closed (pending prev (c :: s)) ↔ Closed (pending (some c) s)) ∧
      constants skips (pending prev (c :: s)) = constants skips (pending (some c) s) := by
  have hlead : ¬LeadingDigit (c :: s) := fun hs => hc (leadingDigit_cons.mp hs)
  have hprev : (Closed (pending prev (c :: s)) ↔ Closed (c :: s)) ∧
      constants skips (pending prev (c :: s)) = constants skips (c :: s) := by
    rw [pending]
    split
    · exact ⟨by rw [closed_cons, and_iff_right fun _ hd => absurd hd hlead],
        constants_cons_of_other (by decide) fun hd => hlead hd.2⟩
    · exact ⟨Iff.rfl, rfl⟩
  by_cases hbrace : c = lbrace
  · subst hbrace
    exact hprev
  · rw [hprev.1, hprev.2, pending_some hbrace]
    exact ⟨closed_cons_of_ne hbrace, constants_cons_of_other hc fun hd => hbrace hd.1⟩

/-- The byte behind a number is passed over, if it is a digit. -/
theorem pending_behind_number (e : UInt8) (rest : List UInt8) :
    (Closed (e :: rest) ↔ Closed (pending (some e) rest)) ∧
      constants true ((e :: rest).drop (if true ∧ LeadingDigit (e :: rest) then 1 else 0)) =
        constants true (pending (some e) rest) := by
  by_cases he : JsonText.isDigit e = true
  · have hbrace : e ≠ lbrace := by
      rintro rfl
      exact absurd he (by decide)
    rw [if_pos ⟨rfl, leadingDigit_cons.mpr he⟩, pending_some hbrace]
    exact ⟨closed_cons_of_ne hbrace, rfl⟩
  · rw [if_neg fun h => he (leadingDigit_cons.mp h.2)]
    exact pending_cons_of_not_isDigit true none rest he

/-- The scan returns where every reference is closed, with the constants, but for a digit right behind a number. -/
theorem extractLoop_eq_some_iff (prev : Option UInt8) (s : List UInt8) (numbers : List (List UInt8)) :
    extractLoop prev s = some numbers ↔ Closed (pending prev s) ∧ constants true (pending prev s) = numbers := by
  induction hn : s.length using Nat.strong_induction_on generalizing prev s numbers with
  | _ n ih =>
      subst hn
      cases s with
      | nil =>
          have hempty : Closed (pending prev []) ∧ constants true (pending prev []) = [] := by
            rw [pending]
            split
            · exact ⟨closed_cons.mpr ⟨fun _ h => absurd h (by decide), closed_nil⟩, by decide +kernel⟩
            · exact ⟨closed_nil, by rw [constants]⟩
          rw [extractLoop, hempty.2, and_iff_right hempty.1, Option.some_inj]
      | cons c s =>
          rw [extractLoop]
          by_cases hc : JsonText.isDigit c = true
          · rw [if_neg (not_not.mpr hc)]
            by_cases hprev : prev = some lbrace
            · rw [if_pos hprev, pending, if_pos hprev]
              have hlead : LeadingDigit (c :: s) := leadingDigit_cons.mpr hc
              split
              · next hnone =>
                  refine iff_of_false (by simp) fun h => ?_
                  exact strchr_eq_none_iff.mp hnone ((closed_cons.mp h.1).1 rfl hlead)
              · next front behind hsome =>
                  have hlt : behind.length < (c :: s).length := by
                    have hs := congrArg List.length (strchr_eq_some hsome)
                    simp only [List.length_append, List.length_cons] at hs ⊢
                    omega
                  rw [ih _ hlt _ _ _ rfl, pending_some (by decide), constants_reference hlead hsome, closed_cons,
                    strchr_eq_some hsome, closed_append_rbrace, and_iff_right (a := _ → _)]
                  exact fun _ _ => List.mem_append_right _ (List.mem_cons_self ..)
            · rw [if_neg hprev, pending, if_neg hprev, constants_cons_of_digit hc, ← closed_drop_leadingNumber]
              split
              · next number hnumber =>
                  rw [numberLoop_false] at hnumber
                  obtain ⟨rfl, hrest⟩ := Prod.mk.inj hnumber
                  rw [hrest, List.drop_nil, and_iff_right closed_nil, constants, Option.some_inj]
              · next number e rest hnumber =>
                  have hlt : rest.length < (c :: s).length := by
                    have hle := length_numberLoop false (c :: s)
                    rw [hnumber] at hle
                    exact hle
                  rw [numberLoop_false] at hnumber
                  obtain ⟨rfl, hrest⟩ := Prod.mk.inj hnumber
                  obtain ⟨hclosed, hconstants⟩ := pending_behind_number e rest
                  rw [hrest, hclosed, hconstants, Option.map_eq_some_iff]
                  constructor
                  · rintro ⟨found, hfound, rfl⟩
                    obtain ⟨h, rfl⟩ := (ih _ hlt _ _ _ rfl).mp hfound
                    exact ⟨h, rfl⟩
                  · rintro ⟨h, rfl⟩
                    exact ⟨_, (ih _ hlt _ _ _ rfl).mpr ⟨h, rfl⟩, rfl⟩
          · rw [if_pos hc, ih _ (Nat.lt_succ_self _) _ _ _ rfl]
            obtain ⟨hclosed, hconstants⟩ := pending_cons_of_not_isDigit true prev s hc
            rw [hclosed, hconstants]

theorem extractNumbers_eq_some_iff (s : List UInt8) (numbers : List (List UInt8)) :
    extractNumbers s = some numbers ↔ Closed s ∧ constants true s = numbers :=
  extractLoop_eq_some_iff none s numbers

/-- There is no `$` in a constant. -/
theorem macroMark_not_mem_of_mem_constants {skips : Bool} {s number : List UInt8} (h : number ∈ constants skips s) :
    macroMark ∉ number := by
  fun_induction constants skips s with
  | case1 => exact absurd h List.not_mem_nil
  | case2 c s hc number' rest ih =>
      rcases List.mem_cons.mp h with rfl | h
      · exact not_mem_leadingNumber (by decide) _
      · exact ih h
  | case3 c s hc hs hnone ih => exact ih h
  | case4 c s hc hs front behind hsome ih => exact ih h
  | case5 c s hc hs ih => exact ih h

theorem macroMark_not_mem_constantText (skips : Bool) (s : List UInt8) (number : UInt8) :
    macroMark ∉ constantText (constants skips s) number := by
  rw [constantText]
  by_cases h : number.toNat - 49 < (constants skips s).length
  · rw [List.getD_eq_getElem _ _ h]
    exact macroMark_not_mem_of_mem_constants (List.getElem_mem h)
  · rw [List.getD_eq_default _ _ (Nat.not_lt.mp h)]
    exact List.not_mem_nil

/-! ## The substitution -/

/-- `strstr` finds the macro that is replaced first. -/
theorem expand_of_strstr (text : UInt8 → List UInt8) (number : UInt8) (s : List UInt8) :
    (strstr macroMark [number] s = none → Subst.expand macroMark text [number] s = s) ∧
      ∀ front behind, strstr macroMark [number] s = some (front, behind) →
        Subst.expand macroMark text [number] s =
          front ++ text number ++ Subst.expand macroMark text [number] behind := by
  induction s with
  | nil => exact ⟨fun _ => rfl, fun _ _ h => by cases h⟩
  | cons a s ih =>
      rw [strstr]
      by_cases hprefix : [macroMark, number] <+: a :: s
      · rw [if_pos (List.isPrefixOf_iff_prefix.mpr hprefix)]
        obtain ⟨t, ht⟩ := hprefix
        obtain ⟨rfl, rfl⟩ := List.cons.inj ht
        refine ⟨fun h => absurd h (Option.some_ne_none _), fun front behind h => ?_⟩
        obtain ⟨rfl, rfl⟩ := Prod.mk.inj (Option.some.inj h)
        exact Subst.expand_named (List.mem_singleton_self number) t
      · have hcons : Subst.expand macroMark text [number] (a :: s) = a :: Subst.expand macroMark text [number] s := by
          by_cases ha : a = macroMark
          · subst ha
            refine Subst.expand_mark (Subst.not_mem_singleton_of_head? fun hhead => hprefix ?_)
            cases s with
            | nil => cases hhead
            | cons b t => exact ⟨t, congrArg (macroMark :: · :: t) (Option.some.inj hhead).symm⟩
          · exact Subst.expand_cons_of_ne ha s
        rw [if_neg fun h => hprefix (List.isPrefixOf_iff_prefix.mp h), hcons]
        constructor
        · exact fun h => congrArg (a :: ·) (ih.1 (Option.map_eq_none_iff.mp h))
        · intro front behind h
          obtain ⟨⟨front, behind⟩, hfound, h⟩ := Option.map_eq_some_iff.mp h
          obtain ⟨rfl, rfl⟩ := Prod.mk.inj h
          exact congrArg (a :: ·) (ih.2 front behind hfound)

/-- `string_replace` replaces the macros of a number. -/
theorem stringReplace_eq (text : UInt8 → List UInt8) (number : UInt8) (s : List UInt8) :
    stringReplace macroMark [number] (text number) s = Subst.expand macroMark text [number] s := by
  induction hn : s.length using Nat.strong_induction_on generalizing s with
  | _ n ih =>
      subst hn
      obtain ⟨hnone, hsome⟩ := expand_of_strstr text number s
      rw [stringReplace]
      split
      · next h => exact (hnone h).symm
      · next front behind h => rw [hsome front behind h, ih _ (length_strstr h) _ rfl]

theorem constantText_eq (numbers : List (List UInt8)) {i : ℕ} (hi : i < 9) :
    constantText numbers (48 + UInt8.ofNat i + 1) = if h : i < numbers.length then numbers[i] else [] := by
  have hnumber : ∀ i < 9, (48 + UInt8.ofNat i + 1).toNat - 49 = i := by decide
  rw [constantText, hnumber i hi]
  split
  · next h => exact List.getD_eq_getElem _ _ h
  · next h => exact List.getD_eq_default _ _ (Nat.not_lt.mp h)

/-- The macros are replaced one number after another. -/
theorem expandTriggerDescriptionConstants_eq_some_iff (expression data result : List UInt8) :
    expandTriggerDescriptionConstants (some expression) data = some result ↔
      Closed expression ∧
        macroNumbers.foldl
          (fun data number =>
            Subst.expand macroMark (constantText (constants true expression)) [number] data) data = result := by
  have hloop : ∀ numbers : List (List UInt8), 
      (List.range 9).foldl
        (fun data i =>
          stringReplace macroMark [48 + UInt8.ofNat i + 1] (if h : i < numbers.length then numbers[i] else []) data)
        data =
      macroNumbers.foldl (fun data number => Subst.expand macroMark (constantText numbers) [number] data) data := by
    intro numbers
    rw [macroNumbers, List.foldl_map]
    refine List.foldl_ext _ _ data fun data i hi => ?_
    rw [← constantText_eq numbers (List.mem_range.mp hi), stringReplace_eq]
  rw [expandTriggerDescriptionConstants, Option.map_eq_some_iff]
  simp only [extractNumbers_eq_some_iff, hloop]
  constructor
  · rintro ⟨_, ⟨h, rfl⟩, rfl⟩
    exact ⟨h, rfl⟩
  · rintro ⟨h, rfl⟩
    exact ⟨_, ⟨h, rfl⟩, rfl⟩

/-- The description holds the constants of the expression in the places of its macros. -/
def DescriptionRight (expression data : List UInt8) : Prop :=
  expandTriggerDescriptionConstants (some expression) data = some (withConstants (constants false expression) data)

/-- The description is right where every reference of the expression is closed, the digits that the scan passes
over make no difference to it, and no `$` comes to stand before a number whose turn is still to come. -/
theorem descriptionRight_iff (expression data : List UInt8) :
    DescriptionRight expression data ↔
      Closed expression ∧
        withConstants (constants true expression) data = withConstants (constants false expression) data ∧
        Subst.Undisturbed macroMark (constantText (constants true expression)) [] macroNumbers data := by
  have hmark : macroMark ∉ macroNumbers := by decide
  have hnodup : macroNumbers.Nodup := by decide
  have htext := macroMark_not_mem_constantText true expression
  have htext' := macroMark_not_mem_constantText false expression
  rw [DescriptionRight, expandTriggerDescriptionConstants_eq_some_iff]
  refine and_congr_right fun _ => ?_
  rw [← Subst.foldl_expand_eq_iff htext hmark hnodup]
  constructor
  · intro h
    -- the same marks are left, whatever the constants are
    have hcount := Subst.count_expand htext hmark data
    have hcount' := Subst.count_expand htext' hmark data
    have hseq := (Subst.foldl_expand_eq_iff htext hmark hnodup data).mpr
      ((Subst.count_foldl_expand_eq_iff htext hmark hnodup data).mp (by rw [h, withConstants]; omega))
    exact ⟨hseq.symm.trans h, hseq⟩
  · exact fun h => h.2.trans h.1

/-- With the constants 20 and 30, `$$1` becomes `$20` and then `300`, and with a reference that is not closed nothing
comes back. -/
theorem not_descriptionRight_dollar :
    ¬DescriptionRight (bytes "\x7b12\x7d>20|\x7b13\x7d>30") (bytes "more than $$1") ∧
      ¬DescriptionRight (bytes "\x7b12>20") (bytes "more than $1") := by
  rw [DescriptionRight, DescriptionRight]
  decide +kernel

end Zabbix
