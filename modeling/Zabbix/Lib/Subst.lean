import Mathlib.Tactic

/-!
# Subst

Macros of two symbols, a mark and a name, and the texts that they stand for.  The texts hold no mark.

Macros are replaced all at once, or one name after another in what the names before have left.
The second way finds macros that the first does not: a mark that belongs to none may come to stand
before a name.

* `expand` — the macros of some names are replaced all at once;
* `foldl_expand_eq_iff` — when the names one after another come to the same;
* `count_foldl_expand_eq_iff` — the marks that are left tell whether they do.
-/

namespace Subst

variable {α : Type} [DecidableEq α] (mark : α) (text : α → List α)

/-- The macros of `names` are replaced by their texts. -/
def expand (names : List α) : List α → List α
  | [] => []
  | [a] => [a]
  | a :: b :: s =>
      if a = mark then if b ∈ names then text b ++ expand names s else a :: expand names (b :: s)
      else a :: expand names (b :: s)

/-- How many macros of `names` there are. -/
def macros (names : List α) : List α → ℕ
  | [] => 0
  | a :: s => (if a = mark ∧ ∃ b ∈ s.head?, b ∈ names then 1 else 0) + macros names s

/-- Behind the names that are done, each name has as many macros when its turn comes as in the text. -/
def Undisturbed : (done names : List α) → List α → Prop
  | _, [], _ => True
  | done, name :: names, s =>
      macros mark [name] (expand mark text done s) = macros mark [name] s ∧ Undisturbed (done ++ [name]) names s

instance decidableUndisturbed : ∀ (done names s : List α), Decidable (Undisturbed mark text done names s)
  | _, [], _ => inferInstanceAs (Decidable True)
  | done, name :: names, s =>
      have := decidableUndisturbed (done ++ [name]) names s
      inferInstanceAs (Decidable (_ ∧ _))

variable {mark text} {names : List α} {name : α}

theorem expand_cons_of_ne {a : α} (h : a ≠ mark) (s : List α) :
    expand mark text names (a :: s) = a :: expand mark text names s := by
  cases s with
  | nil => rfl
  | cons b s => rw [expand, if_neg h]

theorem expand_named (h : name ∈ names) (s : List α) :
    expand mark text names (mark :: name :: s) = text name ++ expand mark text names s := by
  rw [expand, if_pos rfl, if_pos h]

/-- A mark before something that is no name of those stays. -/
theorem expand_mark {s : List α} (h : ∀ b ∈ s.head?, b ∉ names) :
    expand mark text names (mark :: s) = mark :: expand mark text names s := by
  cases s with
  | nil => rfl
  | cons b s => rw [expand, if_pos rfl, if_neg (h b rfl)]

/-- What holds no mark stays. -/
theorem expand_append {t : List α} (h : mark ∉ t) (s : List α) :
    expand mark text names (t ++ s) = t ++ expand mark text names s := by
  induction t with
  | nil => rfl
  | cons a t ih =>
      obtain ⟨ha, ht⟩ := List.ne_and_not_mem_of_not_mem_cons h
      rw [List.cons_append, expand_cons_of_ne (Ne.symm ha), ih ht, List.cons_append]

theorem macros_cons_of_ne {a : α} (h : a ≠ mark) (s : List α) :
    macros mark names (a :: s) = macros mark names s := by
  rw [macros, if_neg fun hp => h hp.1, zero_add]

theorem macros_mark_of_mem {s : List α} (hs : s.head? = some name) (h : name ∈ names) :
    macros mark names (mark :: s) = 1 + macros mark names s := by
  rw [macros, if_pos ⟨rfl, name, hs, h⟩]

theorem macros_mark {s : List α} (h : ∀ b ∈ s.head?, b ∉ names) :
    macros mark names (mark :: s) = macros mark names s := by
  rw [macros, if_neg, zero_add]
  rintro ⟨-, b, hb, hmem⟩
  exact h b hb hmem

theorem macros_append {t : List α} (h : mark ∉ t) (s : List α) :
    macros mark names (t ++ s) = macros mark names s := by
  induction t with
  | nil => rfl
  | cons a t ih =>
      obtain ⟨ha, ht⟩ := List.ne_and_not_mem_of_not_mem_cons h
      rw [List.cons_append, macros_cons_of_ne (Ne.symm ha), ih ht]

variable (mark names) in
/-- A text is empty, a mark or another symbol in front of a text, or a macro of the names. -/
theorem macro_induction {P : List α → Prop} (nil : P []) (other : ∀ a s, a ≠ mark → P s → P (a :: s))
    (single : ∀ s, (∀ b ∈ s.head?, b ∉ names) → P s → P (mark :: s))
    (named : ∀ b s, b ∈ names → P s → P (b :: s) → P (mark :: b :: s)) (s : List α) : P s := by
  induction s using List.twoStepInduction with
  | nil => exact nil
  | singleton a =>
      by_cases ha : a = mark
      · subst ha
        exact single [] (fun b hb => by cases hb) nil
      · exact other a [] ha nil
  | cons_cons a b s ih ihb =>
      by_cases ha : a = mark
      · subst ha
        by_cases hb : b ∈ names
        · exact named b s hb ih (ihb b)
        · exact single (b :: s) (fun c hc => by cases hc; exact hb) (ihb b)
      · exact other a (b :: s) ha (ihb b)

@[simp] theorem expand_nil (s : List α) : expand mark text [] s = s := by
  induction s using macro_induction mark [] with
  | nil => rfl
  | other a s ha ih => rw [expand_cons_of_ne ha, ih]
  | single s hs ih => rw [expand_mark hs, ih]
  | named b s hb => exact absurd hb List.not_mem_nil

/-- A symbol other than the mark stays in front. -/
theorem head?_expand {a : α} {s : List α} (ha : a ≠ mark) (h : s.head? = some a) :
    (expand mark text names s).head? = some a := by
  cases s with
  | nil => cases h
  | cons b s =>
      obtain rfl := Option.some.inj h
      rw [expand_cons_of_ne ha, List.head?_cons]

omit [DecidableEq α] in
theorem not_mem_singleton_of_head? {s : List α} (h : s.head? ≠ some name) : ∀ b ∈ s.head?, b ∉ [name] :=
  fun _ hb hbn => h (List.mem_singleton.mp hbn ▸ hb)

omit [DecidableEq α] in
/-- What stands in front of the name that comes next. -/
theorem not_mem_done {done : List α} (hmark : mark ∉ done ++ name :: names) (hnodup : (done ++ name :: names).Nodup) :
    mark ∉ done ∧ name ≠ mark ∧ name ∉ done := by
  refine ⟨fun h => hmark (List.mem_append_left _ h), fun h => hmark ?_, fun h => ?_⟩
  · exact List.mem_append_right _ (h ▸ List.mem_cons_self ..)
  · exact (List.nodup_append.mp hnodup).2.2 name h name (List.mem_cons_self ..) rfl

variable (mark) in
/-- The macros of two lists of names. -/
theorem macros_append_names {names' : List α} (hdisj : names.Disjoint names') (s : List α) :
    macros mark (names ++ names') s = macros mark names s + macros mark names' s := by
  induction s with
  | nil => rfl
  | cons a s ih =>
      by_cases ha : a = mark
      · subst ha
        by_cases hleft : ∃ b ∈ s.head?, b ∈ names
        · obtain ⟨b, hb, hmem⟩ := hleft
          have hright : ∀ c ∈ s.head?, c ∉ names' := fun c hc => Option.mem_unique hb hc ▸ hdisj hmem
          rw [macros_mark_of_mem hb (List.mem_append_left _ hmem), macros_mark_of_mem hb hmem, macros_mark hright, ih,
            add_assoc]
        · have hleft : ∀ b ∈ s.head?, b ∉ names := fun b hb hmem => hleft ⟨b, hb, hmem⟩
          by_cases hright : ∃ b ∈ s.head?, b ∈ names'
          · obtain ⟨b, hb, hmem⟩ := hright
            rw [macros_mark_of_mem hb (List.mem_append_right _ hmem), macros_mark hleft, macros_mark_of_mem hb hmem, ih,
              Nat.add_left_comm]
          · have hright : ∀ b ∈ s.head?, b ∉ names' := fun b hb hmem => hright ⟨b, hb, hmem⟩
            rw [macros_mark hleft, macros_mark hright, macros_mark, ih]
            exact fun b hb hmem => (List.mem_append.mp hmem).elim (hleft b hb) (hright b hb)
      · rw [macros_cons_of_ne ha, macros_cons_of_ne ha, macros_cons_of_ne ha, ih]

section

variable (htext : ∀ a, mark ∉ text a) (hmark : mark ∉ names)
include htext hmark

/-- A macro that is replaced takes its mark with it. -/
theorem count_expand (s : List α) : (expand mark text names s).count mark + macros mark names s = s.count mark := by
  induction s using macro_induction mark names with
  | nil => rfl
  | other a s ha ih =>
      rw [expand_cons_of_ne ha, macros_cons_of_ne ha, List.count_cons_of_ne ha, List.count_cons_of_ne ha, ih]
  | single s hs ih => 
      rw [expand_mark hs, macros_mark hs, List.count_cons_self, List.count_cons_self]
      omega
  | named b s hb ih =>
      have hbmark : b ≠ mark := fun hbm => hmark (hbm ▸ hb)
      rw [expand_named hb, macros_mark_of_mem rfl hb, macros_cons_of_ne hbmark, List.count_append,
        List.count_eq_zero_of_not_mem (htext b), List.count_cons_self, List.count_cons_of_ne hbmark]
      omega

/-- No macro of another name is lost. -/
theorem macros_le_macros_expand {names' : List α} (hmark' : mark ∉ names') (hdisj : names.Disjoint names')
    (s : List α) : macros mark names' s ≤ macros mark names' (expand mark text names s) := by
  induction s using macro_induction mark names with
  | nil => exact le_rfl
  | other a s ha ih =>
      rw [expand_cons_of_ne ha, macros_cons_of_ne ha, macros_cons_of_ne ha]
      exact ih
  | single s hs ih =>
      rw [expand_mark hs]
      by_cases hhead : ∃ b ∈ s.head?, b ∈ names'
      · obtain ⟨b, hb, hmem⟩ := hhead
        have hbmark : b ≠ mark := fun hbm => hmark' (hbm ▸ hmem)
        rw [macros_mark_of_mem hb hmem, macros_mark_of_mem (head?_expand hbmark hb) hmem]
        exact Nat.add_le_add_left ih 1
      · rw [macros_mark fun b hb hmem => hhead ⟨b, hb, hmem⟩, macros]
        omega
  | named b s hb ih =>
      have hbmark : b ≠ mark := fun hbm => hmark (hbm ▸ hb)
      rw [expand_named hb, macros_append (htext b), macros_mark, macros_cons_of_ne hbmark]
      · exact ih
      · intro c hc
        rw [← Option.some.inj hc]
        exact hdisj hb

/-- Where no macro of the name comes about, it can be replaced later than the others. -/
theorem expand_expand (hname : name ≠ mark) (h : name ∉ names) (s : List α)
    (hmacros : macros mark [name] (expand mark text names s) = macros mark [name] s) :
    expand mark text [name] (expand mark text names s) = expand mark text (names ++ [name]) s := by
  induction s using macro_induction mark names with
  | nil => rfl
  | other a s ha ih =>
      rw [expand_cons_of_ne ha, macros_cons_of_ne ha, macros_cons_of_ne ha] at hmacros
      rw [expand_cons_of_ne ha, expand_cons_of_ne ha, expand_cons_of_ne ha, ih hmacros]
  | single s hs ih =>
      have hle := macros_le_macros_expand htext hmark (show mark ∉ [name] by simpa using hname.symm)
        (by simpa using h) s
      rw [expand_mark hs] at hmacros ⊢
      by_cases hhead : s.head? = some name
      · obtain ⟨t, rfl⟩ : ∃ t, s = name :: t := by
          cases s with
          | nil => cases hhead
          | cons b t => exact ⟨t, congrArg (· :: t) (Option.some.inj hhead)⟩
        rw [expand_cons_of_ne hname] at hmacros ⊢
        rw [macros_mark_of_mem rfl (List.mem_singleton_self name),
          macros_mark_of_mem rfl (List.mem_singleton_self name)] at hmacros
        have ih := ih (by rw [expand_cons_of_ne hname]; omega)
        rw [expand_cons_of_ne hname, expand_cons_of_ne hname, expand_cons_of_ne hname] at ih
        rw [expand_named (List.mem_singleton_self name), expand_named (by simp), (List.cons.inj ih).2]
      · rw [macros_mark (not_mem_singleton_of_head? hhead)] at hmacros
        by_cases hnew : (expand mark text names s).head? = some name
        · rw [macros_mark_of_mem hnew (List.mem_singleton_self name)] at hmacros
          omega
        · rw [macros_mark (not_mem_singleton_of_head? hnew)] at hmacros
          rw [expand_mark (not_mem_singleton_of_head? hnew), expand_mark, ih hmacros]
          intro b hb hbn
          rcases List.mem_append.mp hbn with hbn | hbn
          · exact hs b hb hbn
          · exact not_mem_singleton_of_head? hhead b hb hbn
  | named b s hb ih =>
      have hbname : b ≠ name := fun hbn => h (hbn ▸ hb)
      have hbmark : b ≠ mark := fun hbm => hmark (hbm ▸ hb)
      rw [expand_named hb, macros_append (htext b), macros_mark (by simpa using hbname),
        macros_cons_of_ne hbmark] at hmacros
      rw [expand_named hb, expand_append (htext b), ih hmacros, expand_named (List.mem_append_left _ hb)]

end

variable (htext : ∀ a, mark ∉ text a)
include htext

/-- One after another, the names take away a mark for each of their macros, and for those that come about. -/
theorem count_foldl_expand_le (hmark : mark ∉ names) (hnodup : names.Nodup) (s : List α) :
    (names.foldl (fun s name => expand mark text [name] s) s).count mark + macros mark names s ≤ s.count mark := by
  induction names generalizing s with
  | nil =>
      have hnil : macros mark [] s = 0 := by
        have hadd := macros_append_names mark (List.disjoint_nil_left ([] : List α)) s
        rw [List.append_nil] at hadd
        omega
      rw [List.foldl_nil, hnil, add_zero]
  | cons name names ih =>
      obtain ⟨hname, hnames⟩ := List.ne_and_not_mem_of_not_mem_cons hmark
      obtain ⟨hnot, hnodup⟩ := List.nodup_cons.mp hnodup
      have hrest := ih hnames hnodup (expand mark text [name] s)
      have hcount := count_expand htext (show mark ∉ [name] by simpa using hname) s
      have hdisj : [name].Disjoint names := by simpa using hnot
      have hadd : macros mark (name :: names) s = _ := macros_append_names mark hdisj s
      have hle := macros_le_macros_expand htext (by simpa using hname) hnames hdisj s
      rw [List.foldl_cons, hadd]
      omega

/-- The names one after another come to the same as all at once where none of them is disturbed. -/
theorem foldl_expand_of_undisturbed (done : List α) (hmark : mark ∉ done ++ names)
    (hnodup : (done ++ names).Nodup) {s : List α} (h : Undisturbed mark text done names s) :
    names.foldl (fun s name => expand mark text [name] s) (expand mark text done s) =
      expand mark text (done ++ names) s := by
  induction names generalizing done with
  | nil => rw [List.foldl_nil, List.append_nil]
  | cons name names ih =>
      obtain ⟨hstep, hrest⟩ := h
      obtain ⟨hdone, hname, hnot⟩ := not_mem_done hmark hnodup
      rw [List.append_cons] at hmark hnodup ⊢
      rw [List.foldl_cons, expand_expand htext hdone hname hnot s hstep, ih (done ++ [name]) hmark hnodup hrest]

/-- The macros that come about take marks away that are to stay. -/
theorem undisturbed_of_count (done : List α) (hmark : mark ∉ done ++ names) (hnodup : (done ++ names).Nodup)
    {s : List α}
    (h : (names.foldl (fun s name => expand mark text [name] s) (expand mark text done s)).count mark =
      (expand mark text (done ++ names) s).count mark) :
    Undisturbed mark text done names s := by
  induction names generalizing done with
  | nil => trivial
  | cons name names ih =>
      obtain ⟨hdone, hname, hnot⟩ := not_mem_done hmark hnodup
      have hnames : mark ∉ name :: names := fun h => hmark (List.mem_append_right _ h)
      have hnodup' := (List.nodup_append.mp hnodup).2.1
      have hstep : macros mark [name] (expand mark text done s) = macros mark [name] s := by
        have hdisj : done.Disjoint (name :: names) := List.disjoint_of_nodup_append hnodup
        obtain ⟨hdisj1, hdisj2⟩ : done.Disjoint [name] ∧ done.Disjoint names := by simpa using hdisj
        have hsingle : [name].Disjoint names := by simpa using (List.nodup_cons.mp hnodup').1
        obtain ⟨hname', hnames'⟩ := List.ne_and_not_mem_of_not_mem_cons hnames
        -- the marks on both sides, in numbers of macros
        have hfold := count_foldl_expand_le htext hnames hnodup' (expand mark text done s)
        have hall := count_expand htext hmark s
        have hcount := count_expand htext hdone s
        have hadd := macros_append_names mark hdisj s
        have hle := macros_le_macros_expand htext hdone (by simpa using hname') hdisj1 s
        have hle' := macros_le_macros_expand htext hdone hnames' hdisj2 s
        have hsum := macros_append_names mark hsingle s
        have hsum' := macros_append_names mark hsingle (expand mark text done s)
        rw [List.singleton_append] at hsum hsum'
        omega
      refine ⟨hstep, ih (done ++ [name]) (List.append_cons .. ▸ hmark) (List.append_cons .. ▸ hnodup) ?_⟩
      rw [← List.append_cons, ← h, List.foldl_cons, expand_expand htext hdone hname hnot s hstep]

/-- Whether the names one after another come to the same as all at once shows in the marks that are left. -/
theorem count_foldl_expand_eq_iff (hmark : mark ∉ names) (hnodup : names.Nodup) (s : List α) :
    (names.foldl (fun s name => expand mark text [name] s) s).count mark = (expand mark text names s).count mark ↔
      Undisturbed mark text [] names s := by
  have hnil : expand mark text [] s = s := expand_nil s
  constructor
  · intro h
    exact undisturbed_of_count htext [] hmark hnodup (by rwa [hnil])
  · intro h
    have heq := foldl_expand_of_undisturbed htext [] hmark hnodup h
    rw [hnil] at heq
    rw [heq, List.nil_append]

/-- The names one after another come to the same as all at once exactly where none of them is disturbed. -/
theorem foldl_expand_eq_iff (hmark : mark ∉ names) (hnodup : names.Nodup) (s : List α) :
    names.foldl (fun s name => expand mark text [name] s) s = expand mark text names s ↔
      Undisturbed mark text [] names s := by
  constructor
  · exact fun h => (count_foldl_expand_eq_iff htext hmark hnodup s).mp (congrArg (List.count mark) h)
  · intro h
    have heq := foldl_expand_of_undisturbed htext [] hmark hnodup h
    rwa [expand_nil] at heq

end Subst
