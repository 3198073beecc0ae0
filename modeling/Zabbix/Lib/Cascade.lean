import Mathlib.Logic.Relation
import Zabbix.Lib.Outcome

/-!
# Cascade

Deletions that go on to what is linked below.

`child a b` says that `b` is linked to `a`.  A deletion calls itself for what is
linked, one after the other, and breaks off when one of the calls does not
succeed (`untilFail`).

What is linked changes on the way.  As long as all that goes is what lies below
some nodes (`Removes`), nothing else is cut off by it, and deletions one after
the other delete what lies below any of their nodes (`Removes.trans`).
-/

namespace Cascade

open Outcome Relation

variable {α σ ε : Type}

/-! ## one after the other -/

/-- The calls for one after the other, until one does not succeed. -/
def untilFail (call : σ → α → Except ε (Bool × σ)) : List α → σ → Except ε (Bool × σ)
  | [], s => .ok (true, s)
  | a :: rest, s => do
      let r ← call s a
      if r.1 then untilFail call rest r.2 else .ok r

variable {call : σ → α → Except ε (Bool × σ)}

@[simp] theorem untilFail_nil (s : σ) : untilFail call [] s = .ok (true, s) := rfl

/-- A loop that comes to its end comes to that of its first call. -/
theorem untilFail_cons_ok {a : α} {rest : List α} {s : σ} {r : Bool × σ}
    (h : untilFail call (a :: rest) s = .ok r) :
    (∃ s', call s a = .ok (true, s') ∧ untilFail call rest s' = .ok r) ∨ call s a = .ok r ∧ r.1 = false := by
  rw [untilFail] at h
  obtain ⟨r', hcall, h⟩ := bind_eq_ok h
  cases hr : r'.1 with
  | true =>
      rw [hr, if_pos rfl] at h
      exact .inl ⟨r'.2, by rw [hcall, ← hr], h⟩
  | false =>
      rw [hr, if_neg Bool.false_ne_true] at h
      cases h
      exact .inr ⟨hcall, hr⟩

theorem untilFail_cons_true {a : α} {rest : List α} {s s' : σ} (h : call s a = .ok (true, s')) :
    untilFail call (a :: rest) s = untilFail call rest s' := by
  rw [untilFail, h, ok_bind, if_pos rfl]

/-- Calls that return whatever others return. -/
theorem untilFail_mono {call' : σ → α → Except ε (Bool × σ)} (hcall : ∀ s a r, call s a = .ok r → call' s a = .ok r)
    {as : List α} {s : σ} {r : Bool × σ} (h : untilFail call as s = .ok r) : untilFail call' as s = .ok r := by
  induction as generalizing s with
  | nil => exact h
  | cons a rest ih =>
      rcases untilFail_cons_ok h with ⟨s', hfirst, hrest⟩ | ⟨hfirst, hfalse⟩
      · rw [untilFail_cons_true (hcall _ _ _ hfirst)]
        exact ih hrest
      · rw [untilFail, hcall _ _ _ hfirst, ok_bind, hfalse, if_neg Bool.false_ne_true]

/-- Calls break off where one does not succeed. -/
theorem untilFail_false_iff {as : List α} {s s' : σ} : untilFail call as s = .ok (false, s') ↔
    ∃ done a rest s₁, as = done ++ a :: rest ∧ untilFail call done s = .ok (true, s₁) ∧
      call s₁ a = .ok (false, s') := by
  induction as generalizing s with
  | nil => simp
  | cons a rest ih =>
      constructor
      · intro h
        rcases untilFail_cons_ok h with ⟨s₁, hfirst, hrest⟩ | ⟨hfirst, -⟩
        · obtain ⟨done, b, rest, s₂, rfl, hdone, hb⟩ := ih.mp hrest
          exact ⟨a :: done, b, rest, s₂, rfl, by rwa [untilFail_cons_true hfirst], hb⟩
        · exact ⟨[], a, rest, s, rfl, rfl, hfirst⟩
      · rintro ⟨done, b, rest', s₁, has, hdone, hb⟩
        cases done with
        | nil =>
            obtain ⟨rfl, rfl⟩ := List.cons.inj has
            cases hdone
            rw [untilFail, hb, ok_bind, if_neg Bool.false_ne_true]
        | cons a' done =>
            obtain ⟨rfl, rfl⟩ := List.cons.inj has
            rcases untilFail_cons_ok hdone with ⟨s₂, hfirst, hdone⟩ | ⟨-, hfalse⟩
            · rw [untilFail_cons_true hfirst]
              exact ih.mpr ⟨done, b, rest', s₁, rfl, hdone, hb⟩
            · cases hfalse

/-- What every call keeps is kept by all of them. -/
theorem untilFail_invariant {I : σ → Prop} {as : List α} {s : σ} {r : Bool × σ}
    (hcall : ∀ a ∈ as, ∀ s r, call s a = .ok r → I s → I r.2) (h : untilFail call as s = .ok r) (hs : I s) :
    I r.2 := by
  induction as generalizing s with
  | nil =>
      cases h
      exact hs
  | cons a rest ih =>
      have hrest := fun b hb => hcall b (List.mem_cons_of_mem a hb)
      rcases untilFail_cons_ok h with ⟨s', hfirst, h⟩ | ⟨hfirst, -⟩
      · exact ih hrest h (hcall a List.mem_cons_self _ _ hfirst hs)
      · exact hcall a List.mem_cons_self _ _ hfirst hs

/-- Calls that all succeed; `J` knows for which of them that has been. -/
theorem untilFail_true {J : List α → σ → Prop} {as : List α} {s s' : σ} (h : untilFail call as s = .ok (true, s'))
    (hcall : ∀ done, ∀ a ∈ as, ∀ s s', call s a = .ok (true, s') → J done s → J (done ++ [a]) s') (hs : J [] s) :
    J as s' := by
  have hloop : ∀ done rest s, done ++ rest = as → untilFail call rest s = .ok (true, s') → J done s → J as s' := by
    intro done rest
    induction rest generalizing done with
    | nil =>
        intro s hdone h hs
        cases h
        rwa [← hdone, List.append_nil]
    | cons a rest ih =>
        intro s hdone h hs
        have hmem : a ∈ as := by simp [← hdone]
        rcases untilFail_cons_ok h with ⟨s₁, hfirst, h⟩ | ⟨-, hfalse⟩
        · exact ih (done ++ [a]) s₁ (by rw [List.append_assoc, List.singleton_append, hdone]) h
            (hcall done a hmem s s₁ hfirst hs)
        · cases hfalse
  exact hloop [] as s rfl h hs

/-- Calls that all succeed, unless one stops. -/
theorem untilFail_ends {E : ε → Prop} {J : List α → σ → Prop} {as : List α} {s : σ}
    (hcall : ∀ done a rest s, as = done ++ a :: rest → J done s →
      Ends E (fun r => r.1 = true ∧ J (done ++ [a]) r.2) (call s a)) (hs : J [] s) :
    Ends E (fun r => r.1 = true ∧ J as r.2) (untilFail call as s) := by
  have hloop : ∀ done rest s, as = done ++ rest → J done s →
      Ends E (fun r => r.1 = true ∧ J as r.2) (untilFail call rest s) := by
    intro done rest
    induction rest generalizing done with
    | nil =>
        intro s has hs
        rw [List.append_nil] at has
        exact .ok ⟨rfl, has ▸ hs⟩
    | cons a rest ih =>
        intro s has hs
        rw [untilFail]
        refine (hcall done a rest s has hs).bind ?_
        rintro r ⟨htrue, hr⟩
        rw [htrue, if_pos rfl]
        exact ih (done ++ [a]) r.2 (by rw [has, List.append_assoc, List.singleton_append]) hr
  exact hloop [] as s rfl hs

/-- Calls that all return, and succeed. -/
theorem untilFail_succeeds {I : σ → Prop} {as : List α} {s : σ}
    (hcall : ∀ a ∈ as, ∀ s, I s → ∃ s', call s a = .ok (true, s') ∧ I s') (hs : I s) :
    ∃ s', untilFail call as s = .ok (true, s') ∧ I s' := by
  induction as generalizing s with
  | nil => exact ⟨s, rfl, hs⟩
  | cons a rest ih =>
      obtain ⟨s₁, hfirst, hs₁⟩ := hcall a List.mem_cons_self s hs
      rw [untilFail_cons_true hfirst]
      exact ih (fun b hb => hcall b (List.mem_cons_of_mem a hb)) hs₁

/-! ## what lies below -/

variable (child : α → α → Prop)

/-- All that lies below some nodes, these included. -/
def Under (nodes : Set α) : Set α := {b | ∃ a ∈ nodes, ReflTransGen child a b}

/-- What is linked, without what is gone. -/
def Removes (child child' : α → α → Prop) (gone : Set α) : Prop := ∀ a b, child' a b ↔ child a b ∧ b ∉ gone

variable {child} {child' child'' : α → α → Prop} {gone gone' nodes : Set α} {a b : α}

theorem Under.tail (h : a ∈ Under child nodes) (hab : ReflTransGen child a b) : b ∈ Under child nodes := by
  obtain ⟨x, hx, hxa⟩ := h
  exact ⟨x, hx, hxa.trans hab⟩

@[simp] theorem mem_under_singleton : b ∈ Under child {a} ↔ ReflTransGen child a b := by
  simp [Under]

@[simp] theorem under_empty : Under child ∅ = ∅ := by
  simp [Under]

theorem under_union (nodes nodes' : Set α) : Under child (nodes ∪ nodes') = Under child nodes ∪ Under child nodes' := by
  ext b
  simp only [Under, Set.mem_union, or_and_right, exists_or, Set.mem_ofPred_eq]

/-- Nothing that is not below a node that is gone is cut off. -/
theorem Removes.below_iff (h : Removes child child' (Under child nodes)) (hb : b ∉ Under child nodes) :
    ReflTransGen child' a b ↔ ReflTransGen child a b := by
  constructor
  · exact fun hab => ReflTransGen.mono (fun x y hxy => ((h x y).mp hxy).1) a b hab
  · intro hab
    induction hab with
    | refl => exact .refl
    | @tail c d hac hcd ih =>
        have hc : c ∉ Under child nodes := fun hc => hb (Under.tail hc (.single hcd))
        exact (ih hc).tail ((h c d).mpr ⟨hcd, hb⟩)

/-- **Deletions one after the other** delete what lies below any of their nodes. -/
theorem Removes.under_union (h : Removes child child' (Under child nodes)) (nodes' : Set α) :
    Under child nodes ∪ Under child' nodes' = Under child (nodes ∪ nodes') := by
  ext b
  rw [Cascade.under_union, Set.mem_union, Set.mem_union]
  by_cases hb : b ∈ Under child nodes
  · simp [hb]
  · simp only [Under, Set.mem_ofPred_eq, h.below_iff hb]

/-- Nodes that are below others add nothing. -/
theorem under_union_of_not_mem {nodes' rest : Set α} (h : ∀ a, a ∈ rest ↔ a ∈ nodes' ∧ a ∉ Under child nodes) :
    Under child (nodes ∪ rest) = Under child (nodes ∪ nodes') := by
  rw [Cascade.under_union, Cascade.under_union]
  ext b
  simp only [Set.mem_union]
  refine or_congr_right' fun hb => ?_
  constructor
  · rintro ⟨a, ha, hab⟩
    exact ⟨a, ((h a).mp ha).1, hab⟩
  · rintro ⟨a, ha, hab⟩
    exact ⟨a, (h a).mpr ⟨ha, fun hmem => hb (Under.tail hmem hab)⟩, hab⟩

/-- What lies below a node, by what is linked to it. -/
theorem under_children (hnodes : ∀ b, b ∈ nodes ↔ child a b) : Under child nodes ∪ {a} = Under child {a} := by
  ext b
  rw [mem_under_singleton]
  constructor
  · rintro (⟨x, hx, hxb⟩ | rfl)
    · exact .head ((hnodes x).mp hx) hxb
    · exact .refl
  · intro hab
    rcases ReflTransGen.cases_head hab with rfl | ⟨x, hax, hxb⟩
    · exact .inr rfl
    · exact .inl ⟨x, (hnodes x).mpr hax, hxb⟩

/-- Of two nodes that are linked to one, none is below the other. -/
theorem not_below_sibling (hacyclic : ∀ a, ¬TransGen child a a) (hparent : ∀ a a' b, child a b → child a' b → a = a')
    {x : α} (ha : child x a) (hb : child x b) (hne : a ≠ b) : ¬ReflTransGen child a b := by
  intro hab
  rcases ReflTransGen.cases_tail hab with heq | ⟨c, hac, hcb⟩
  · exact hne heq.symm
  · rw [hparent _ _ _ hcb hb] at hac
    exact hacyclic x (.head' ha hac)

/-- Nothing is below both of two nodes that are linked to one. -/
theorem not_below_both (hacyclic : ∀ a, ¬TransGen child a a) (hparent : ∀ a a' b, child a b → child a' b → a = a')
    {x y : α} (ha : child x a) (hb : child x b) (hne : a ≠ b) (hay : ReflTransGen child a y) :
    ¬ReflTransGen child b y := by
  intro hby
  have hunique : Relator.RightUnique (Function.swap child) := fun y a a' h h' => hparent a a' y h h'
  rcases ReflTransGen.total_of_right_unique hunique (reflTransGen_swap.mpr hay) (reflTransGen_swap.mpr hby) with h | h
  · exact not_below_sibling hacyclic hparent hb ha hne.symm (reflTransGen_swap.mp h)
  · exact not_below_sibling hacyclic hparent ha hb hne (reflTransGen_swap.mp h)

/-! ## the order of a deletion -/

/-- The nodes below one, those that are linked to it first, with all that is below a node left out when the node is not
one of `p`. -/
def postorder (kids : α → List α) (p : α → Bool) : (depth : ℕ) → (a : α) → List α
  | 0, _ => []
  | depth + 1, a => if p a then (kids a).flatMap (postorder kids p depth) ++ [a] else []

variable {kids : α → List α} {p : α → Bool}

theorem below_of_mem_postorder (hkids : ∀ a b, b ∈ kids a ↔ child a b) {depth : ℕ} (h : b ∈ postorder kids p depth a) :
    ReflTransGen child a b ∧ p b = true := by
  induction depth generalizing a with
  | zero => cases h
  | succ depth ih =>
      rw [postorder] at h
      split at h
      · next hp =>
          rcases List.mem_append.mp h with h | h
          · obtain ⟨x, hx, hxb⟩ := List.mem_flatMap.mp h
            obtain ⟨hbelow, hpb⟩ := ih hxb
            exact ⟨.head ((hkids a x).mp hx) hbelow, hpb⟩
          · rw [List.mem_singleton.mp h]
            exact ⟨.refl, hp⟩
      · cases h

/-- When none of them is left out, all that is below a node is there. -/
theorem mem_postorder (hkids : ∀ a b, b ∈ kids a ↔ child a b) {height : α → ℕ}
    (hheight : ∀ a b, child a b → height b < height a) {depth : ℕ} (hdepth : height a < depth)
    (hp : ∀ b, ReflTransGen child a b → p b = true) (hab : ReflTransGen child a b) : b ∈ postorder kids p depth a := by
  induction depth generalizing a with
  | zero => omega
  | succ depth ih =>
      rw [postorder, if_pos (hp a .refl)]
      rcases ReflTransGen.cases_head hab with rfl | ⟨x, hax, hxb⟩
      · exact List.mem_append_right _ (List.mem_singleton_self _)
      · refine List.mem_append_left _ (List.mem_flatMap.mpr ⟨x, (hkids a x).mpr hax, ?_⟩)
        have hlt := hheight a x hax
        exact ih (by omega) (fun b hb => hp b (.head hax hb)) hxb

/-- More depth than there is height makes no difference. -/
theorem postorder_depth (hkids : ∀ a b, b ∈ kids a ↔ child a b) {height : α → ℕ}
    (hheight : ∀ a b, child a b → height b < height a) {depth depth' : ℕ} (hdepth : height a < depth)
    (hdepth' : height a < depth') : postorder kids p depth a = postorder kids p depth' a := by
  induction depth generalizing a depth' with
  | zero => omega
  | succ depth ih =>
      cases depth' with
      | zero => omega
      | succ depth' =>
          rw [postorder, postorder]
          have hbelow : (kids a).flatMap (postorder kids p depth) = (kids a).flatMap (postorder kids p depth') := by
            refine List.flatMap_congr fun x hx => ?_
            have hlt := hheight a x ((hkids a x).mp hx)
            exact ih (by omega) (by omega)
          rw [hbelow]

/-! ## rows -/

open Classical in
/-- The rows of a table without those whose key is gone. -/
noncomputable def without {ρ : Type} (gone : Set α) (key : ρ → α) (rows : List ρ) : List ρ :=
  rows.filter fun row => key row ∉ gone

variable {ρ : Type} {key : ρ → α} {rows : List ρ}

@[simp] theorem mem_without {row : ρ} : row ∈ without gone key rows ↔ row ∈ rows ∧ key row ∉ gone := by
  simp [without]

@[simp] theorem without_empty : without ∅ key rows = rows := by
  simp [without]

theorem without_without : without gone' key (without gone key rows) = without (gone ∪ gone') key rows := by
  rw [without, without, without, List.filter_filter]
  refine List.filter_congr fun row _ => ?_
  rw [Bool.eq_iff_iff]
  simp [not_or, and_comm]

theorem without_of_not_mem (h : ∀ row ∈ rows, key row ∉ gone) : without gone key rows = rows := by
  rw [without, List.filter_eq_self]
  simpa using h

/-- The keys of some of the rows that are left. -/
theorem map_filter_without (gone : Set α) (key : ρ → α) (q : ρ → Bool) (rows : List ρ) :
    ((without gone key rows).filter q).map key = without gone id ((rows.filter q).map key) := by
  simp only [without, List.filter_filter, List.filter_map]
  congr 1
  refine List.filter_congr fun row _ => ?_
  exact Bool.and_comm _ _

theorem without_singleton [DecidableEq α] : without {a} key rows = rows.filter fun row => key row ≠ a := by
  rw [without]
  refine List.filter_congr fun row _ => ?_
  simp

end Cascade
