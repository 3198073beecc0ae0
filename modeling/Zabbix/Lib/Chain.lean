import Mathlib.Logic.Function.Basic
import Mathlib.Data.List.Basic

/-!
# Chain

Singly linked lists in a heap.

`Segment h p l q` says that from the pointer `p` the nodes `l`, each with its address, lead to the pointer `q`; a list is
a segment that leads to none.  A segment that leads back to where it starts belongs to no list
(`not_segment_none_of_cycle`), and that is what comes of a node of a list whose pointer is set to the head
(`segment_relink`).
-/

namespace Chain

/-- A node with its pointer to the next one. -/
structure Node (α : Type) where
  next : Option ℕ
  data : α

/-- The nodes by their addresses. -/
abbrev Heap (α : Type) := ℕ → Option (Node α)

variable {α : Type} {h : Heap α} {p q : Option ℕ} {l l' : List (ℕ × α)} {a : ℕ}

/-- The nodes between two pointers, with their addresses. -/
inductive Segment (h : Heap α) : Option ℕ → List (ℕ × α) → Option ℕ → Prop
  | nil (p : Option ℕ) : Segment h p [] p
  | cons {a : ℕ} {n : Node α} {l : List (ℕ × α)} {q : Option ℕ} :
      h a = some n → Segment h n.next l q → Segment h (some a) ((a, n.data) :: l) q

/-- The first node whose data have a property, in a loop with `fuel` rounds: `none` if it does not come to an end, or to
an address where there is nothing. -/
def search (h : Heap α) (found : α → Bool) : (fuel : ℕ) → Option ℕ → Option (Option (ℕ × α))
  | 0, _ => none
  | _ + 1, none => some none
  | fuel + 1, some a =>
      match h a with
      | none => none
      | some n => if found n.data then some (some (a, n.data)) else search h found fuel n.next

/-! ## segments -/

/-- A list goes on behind each of its segments. -/
theorem Segment.behind (hl : Segment h p l q) (hl' : Segment h p l' none) :
    ∃ rest, l' = l ++ rest ∧ Segment h q rest none := by
  induction hl generalizing l' with
  | nil => exact ⟨l', rfl, hl'⟩
  | cons ha _ ih =>
      cases hl' with
      | cons ha' hrest =>
          obtain rfl := Option.some.inj (ha.symm.trans ha')
          obtain ⟨rest, rfl, hbehind⟩ := ih hrest
          exact ⟨rest, rfl, hbehind⟩

theorem Segment.unique (hl : Segment h p l none) (hl' : Segment h p l' none) : l = l' := by
  obtain ⟨rest, rfl, hrest⟩ := hl.behind hl'
  cases hrest
  exact (List.append_nil l).symm

/-- **A cycle has no end.** -/
theorem not_segment_none_of_cycle {x : ℕ × α} (hcycle : Segment h p (x :: l) p) : ¬Segment h p l' none := by
  intro hl'
  obtain ⟨rest, rfl, hrest⟩ := hcycle.behind hl'
  have hlength := congrArg List.length (hrest.unique hl')
  simp only [List.length_append, List.length_cons] at hlength
  omega

theorem Segment.split (hl : Segment h p (l ++ l') q) : ∃ r, Segment h p l r ∧ Segment h r l' q := by
  induction l generalizing p with
  | nil => exact ⟨p, .nil p, hl⟩
  | cons x l ih =>
      cases hl with
      | cons ha hrest =>
          obtain ⟨r, hl, hl'⟩ := ih hrest
          exact ⟨r, .cons ha hl, hl'⟩

/-- The nodes of a list have addresses of their own. -/
theorem Segment.address_ne {x : ℕ × α} (hl : Segment h p (x :: l) none) : ∀ y ∈ l, y.1 ≠ x.1 := by
  intro y hy heq
  obtain ⟨front, rest, rfl⟩ := List.append_of_mem hy
  obtain ⟨r, hfront, hrest⟩ := (List.cons_append ▸ hl : Segment h p ((x :: front) ++ y :: rest) none).split
  have hstart : p = r := by
    cases hfront
    cases hrest
    exact congrArg some heq.symm
  subst hstart
  exact not_segment_none_of_cycle hfront hl

/-- What is not in a segment may change. -/
theorem Segment.update (hl : Segment h p l q) (ha : ∀ x ∈ l, x.1 ≠ a) (v : Option (Node α)) :
    Segment (Function.update h a v) p l q := by
  induction hl with
  | nil => exact .nil _
  | cons hn _ ih =>
      obtain ⟨hne, hrest⟩ := List.forall_mem_cons.mp ha
      exact .cons (by rwa [Function.update_of_ne hne]) (ih hrest)

/-- A node in front of a list. -/
theorem segment_push (hl : Segment h p l q) (ha : ∀ x ∈ l, x.1 ≠ a) (d : α) :
    Segment (Function.update h a (some ⟨p, d⟩)) (some a) ((a, d) :: l) q :=
  .cons (n := ⟨p, d⟩) (Function.update_self ..) (hl.update ha _)

/-- A node that gets a pointer to where the way to it starts is in a cycle. -/
theorem segment_relink (hl : Segment h p l (some a)) (ha : ∀ x ∈ l, x.1 ≠ a) (d : α) :
    Segment (Function.update h a (some ⟨p, d⟩)) (some a) ((a, d) :: l) (some a) := segment_push hl ha d

theorem Segment.mem (hl : Segment h p l q) {x : ℕ × α} (hx : x ∈ l) : ∃ n, h x.1 = some n ∧ n.data = x.2 := by
  induction hl with
  | nil => cases hx
  | cons ha _ ih =>
      rcases List.mem_cons.mp hx with rfl | hx
      · exact ⟨_, ha, rfl⟩
      · exact ih hx

/-! ## searching -/

variable {found : α → Bool} {fuel : ℕ}

/-- A list is searched through to its end. -/
theorem search_of_segment (hl : Segment h p l none) (hfuel : l.length < fuel) :
    search h found fuel p = some (l.find? fun x => found x.2) := by
  induction l generalizing p fuel with
  | nil =>
      obtain ⟨fuel, rfl⟩ := Nat.exists_eq_add_of_lt hfuel
      cases hl
      rw [List.length_nil, Nat.zero_add, search]
      rfl
  | cons x l ih =>
      obtain ⟨fuel, rfl⟩ : ∃ k, fuel = k + 1 := ⟨fuel - 1, by omega⟩
      cases hl with
      | cons ha hrest =>
          rw [search, ha, List.find?_cons]
          dsimp only
          split
          · next hfound => rw [hfound]
          · next hfound =>
            rw [Bool.eq_false_iff.mpr hfound]
            exact ih hrest (by simpa using hfuel)

/-- What comes of a search does not depend on the rounds. -/
theorem search_unique {r : Option (ℕ × α)} (hl : Segment h p l none) (hsearch : search h found fuel p = some r) :
    r = l.find? fun x => found x.2 := by
  have hmore : ∀ more, search h found (fuel + more) p = some r := by
    intro more
    induction fuel generalizing p l with
    | zero => cases hsearch
    | succ fuel ih =>
        rw [Nat.add_right_comm]
        cases p with
        | none => exact hsearch
        | some a =>
            rw [search] at hsearch ⊢
            cases hl with
            | cons ha hrest =>
                rw [ha] at hsearch ⊢
                dsimp only at hsearch ⊢
                split at hsearch
                · next hfound => rwa [if_pos hfound]
                · next hfound =>
                  rw [if_neg hfound]
                  exact ih hrest hsearch
  have hlong := @search_of_segment _ _ _ _ found _ hl (Nat.lt_of_lt_of_le (Nat.lt_succ_self _) (Nat.le_add_left _ fuel))
  exact Option.some.inj ((hmore _).symm.trans hlong)

/-- Only what has an end is searched through. -/
theorem search_eq_none (hsearch : search h found fuel p = some none) :
    ∃ l, Segment h p l none ∧ ∀ x ∈ l, found x.2 = false := by
  induction fuel generalizing p with
  | zero => cases hsearch
  | succ fuel ih =>
      cases p with
      | none => exact ⟨[], .nil none, fun x hx => (List.not_mem_nil hx).elim⟩
      | some a =>
          rw [search] at hsearch
          split at hsearch
          · cases hsearch
          · next n ha =>
            split at hsearch
            · cases hsearch
            · next hfound =>
              obtain ⟨l, hl, hnot⟩ := ih hsearch
              exact ⟨_, .cons ha hl, List.forall_mem_cons.mpr ⟨Bool.eq_false_iff.mpr hfound, hnot⟩⟩

/-- The way to what is found leads through nodes that are not. -/
theorem search_eq_some {x : ℕ × α} (hsearch : search h found fuel p = some (some x)) :
    ∃ l, Segment h p l (some x.1) ∧ ∀ y ∈ l, y.1 ≠ x.1 := by
  have hway : ∃ l n, Segment h p l (some x.1) ∧ h x.1 = some n ∧ found n.data = true ∧ ∀ y ∈ l, found y.2 = false := by
    induction fuel generalizing p with
    | zero => cases hsearch
    | succ fuel ih =>
        cases p with
        | none => cases hsearch
        | some a =>
            rw [search] at hsearch
            split at hsearch
            · cases hsearch
            · next n ha =>
              split at hsearch
              · next hfound =>
                obtain rfl := Option.some.inj (Option.some.inj hsearch)
                exact ⟨[], n, .nil _, ha, hfound, fun y hy => (List.not_mem_nil hy).elim⟩
              · next hfound =>
                obtain ⟨l, n', hl, hx, hfound', hnot⟩ := ih hsearch
                exact ⟨_, n', .cons ha hl, hx, hfound', List.forall_mem_cons.mpr ⟨Bool.eq_false_iff.mpr hfound, hnot⟩⟩
  obtain ⟨l, n, hl, hx, hfound, hnot⟩ := hway
  refine ⟨l, hl, fun y hy heq => ?_⟩
  obtain ⟨n', hy', hdata⟩ := hl.mem hy
  rw [heq, hx] at hy'
  obtain rfl := Option.some.inj hy'
  rw [hdata, hnot y hy] at hfound
  cases hfound

end Chain
