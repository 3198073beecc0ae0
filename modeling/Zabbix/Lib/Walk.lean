import Mathlib.Data.List.TakeWhile
import Mathlib.Logic.Relation
import Mathlib.Tactic

/-!
# Walk

Depth-first walks through a graph that may have cycles.

A walk goes through a stack: it takes the first, and puts what can be reached
from it by one step in front of the rest.  Nothing is marked as visited; instead
only some number of the first that are met are followed.
-/

namespace Walk

variable {α : Type} (children : α → List α)

/-- All that is met when the first `n` are followed, in order. -/
def walk : ℕ → List α → List α
  | 0, stack => stack
  | _ + 1, [] => []
  | n + 1, a :: stack => a :: walk n (children a ++ stack)

@[simp] theorem walk_zero (stack : List α) : walk children 0 stack = stack := by rw [walk]

@[simp] theorem walk_nil (n : ℕ) : walk children n [] = [] := by
  cases n <;> rw [walk]

theorem walk_succ_cons (n : ℕ) (a : α) (stack : List α) :
    walk children (n + 1) (a :: stack) = a :: walk children n (children a ++ stack) := by rw [walk]

/-- The first of the stack is met first. -/
theorem walk_cons (n : ℕ) (a : α) (stack : List α) : ∃ more, walk children n (a :: stack) = a :: more := by
  cases n with
  | zero => exact ⟨stack, walk_zero ..⟩
  | succ n => exact ⟨_, walk_succ_cons ..⟩

/-- All of the stack is met. -/
theorem mem_walk_of_mem {a : α} (n : ℕ) {stack : List α} (h : a ∈ stack) : a ∈ walk children n stack := by
  induction n generalizing stack with
  | zero => rwa [walk_zero]
  | succ n ih =>
      cases stack with
      | nil => cases h
      | cons b stack =>
          rw [walk_succ_cons]
          rcases List.mem_cons.mp h with rfl | h
          · exact List.mem_cons_self
          · exact List.mem_cons_of_mem _ (ih (List.mem_append_right _ h))

/-- **What is met can be reached** from the stack. -/
theorem reachable_of_mem_walk {b : α} {n : ℕ} {stack : List α} (h : b ∈ walk children n stack) :
    ∃ a ∈ stack, Relation.ReflTransGen (fun x y => y ∈ children x) a b := by
  induction n generalizing stack with
  | zero =>
      rw [walk_zero] at h
      exact ⟨b, h, .refl⟩
  | succ n ih =>
      cases stack with
      | nil =>
          rw [walk_nil] at h
          cases h
      | cons c stack =>
          rw [walk_succ_cons] at h
          rcases List.mem_cons.mp h with rfl | h
          · exact ⟨b, List.mem_cons_self, .refl⟩
          · obtain ⟨a, ha, hab⟩ := ih h
            rcases List.mem_append.mp ha with ha | ha
            · exact ⟨c, List.mem_cons_self, .head ha hab⟩
            · exact ⟨a, List.mem_cons_of_mem _ ha, hab⟩

/-- A walk that meets no more than it may follow has followed all of them. -/
theorem mem_walk_of_child {a b : α} {n : ℕ} {stack : List α} (hlen : (walk children n stack).length ≤ n)
    (ha : a ∈ walk children n stack) (hb : b ∈ children a) : b ∈ walk children n stack := by
  induction n generalizing stack with
  | zero =>
      have hnil := List.length_eq_zero_iff.mp (Nat.le_zero.mp hlen)
      rw [hnil] at ha
      cases ha
  | succ n ih =>
      cases stack with
      | nil =>
          rw [walk_nil] at ha
          cases ha
      | cons c stack =>
          rw [walk_succ_cons, List.length_cons] at hlen
          rw [walk_succ_cons] at ha ⊢
          refine List.mem_cons_of_mem _ ?_
          rcases List.mem_cons.mp ha with rfl | ha
          · exact mem_walk_of_mem children n (List.mem_append_left _ hb)
          · exact ih (by omega) ha

/-- **A walk that comes to its end** meets all that can be reached. -/
theorem mem_walk_of_reachable {a b : α} {n : ℕ} {stack : List α} (hlen : (walk children n stack).length ≤ n)
    (ha : a ∈ stack) (hab : Relation.ReflTransGen (fun x y => y ∈ children x) a b) :
    b ∈ walk children n stack := by
  induction hab with
  | refl => exact mem_walk_of_mem children n ha
  | tail _ hchild ih => exact mem_walk_of_child children hlen ih hchild

end Walk
