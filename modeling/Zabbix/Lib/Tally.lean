import Mathlib.Data.List.Perm.Basic
import Mathlib.Order.Bounds.Basic
import Mathlib.Tactic

/-!
# Tally

Values that entries of a table contribute to a sum or to an extreme.

* `perm_keyed_iff`: two ways to take values from the entries come to the same
  as a whole when they do for every entry, as long as the values are kept with
  the key of their entry;
* `isLeast_foldl`, `isGreatest_foldl`: the accumulators that keep an extreme.
-/

namespace Tally

variable {ι κ α : Type}

/-! ## values with the key of their entry -/

/-- The values of every entry, each with the key of the entry. -/
def keyed (key : ι → κ) (values : ι → List α) (entries : List ι) : List (κ × α) :=
  entries.flatMap fun i => (values i).map (key i, ·)

variable {key : ι → κ} {values values' : ι → List α} {entries : List ι}

theorem keyed_cons (i : ι) : keyed key values (i :: entries) = (values i).map (key i, ·) ++ keyed key values entries :=
  rfl

/-- The values that stand under a key. -/
theorem filterMap_keyed [DecidableEq κ] (hkeys : (entries.map key).Nodup) {i : ι} (hi : i ∈ entries) :
    ((keyed key values entries).filterMap fun p => if p.1 = key i then some p.2 else none) = values i := by
  have hown : ∀ (j : ι) (vs : List α), key j = key i →
      ((vs.map (key j, ·)).filterMap fun p => if p.1 = key i then some p.2 else none) = vs := by
    intro j vs hj
    rw [List.filterMap_map]
    simp [hj]
  have hother : ∀ (j : ι) (vs : List α), key j ≠ key i →
      ((vs.map (key j, ·)).filterMap fun p => if p.1 = key i then some p.2 else none) = [] := by
    intro j vs hj
    simp [List.filterMap_map, hj]
  induction entries with
  | nil => simp at hi
  | cons j entries ih =>
      rw [List.map_cons, List.nodup_cons] at hkeys
      rw [keyed_cons, List.filterMap_append]
      rcases List.mem_cons.mp hi with rfl | hi
      · have hnone : ((keyed key values entries).filterMap fun p => if p.1 = key i then some p.2 else none) = [] := by
          rw [keyed, List.filterMap_flatMap, List.flatMap_eq_nil_iff]
          intro j hj
          refine hother j (values j) fun heq => hkeys.1 ?_
          rw [← heq]
          exact List.mem_map_of_mem hj
        rw [hown i _ rfl, hnone, List.append_nil]
      · have hne : key j ≠ key i := by
          intro heq
          rw [heq] at hkeys
          exact hkeys.1 (List.mem_map_of_mem hi)
        rw [hother j _ hne, List.nil_append]
        exact ih hkeys.2 hi

/-- **The values agree as a whole when they agree for every entry.** -/
theorem perm_keyed_iff (hkeys : (entries.map key).Nodup) :
    (keyed key values entries).Perm (keyed key values' entries) ↔ ∀ i ∈ entries, (values i).Perm (values' i) := by
  classical
  constructor
  · intro h i hi
    have := h.filterMap fun p => if p.1 = key i then some p.2 else none
    rwa [filterMap_keyed hkeys hi, filterMap_keyed hkeys hi] at this
  · intro h
    exact List.Perm.flatMap_left entries fun i hi => (h i hi).map _

/-! ## extremes -/

section Extremes

variable [LinearOrder α]

/-- The smallest value so far, and so at the end. -/
theorem isLeast_foldl (least : α) (vs : List α) :
    IsLeast {v | v ∈ least :: vs} (vs.foldl (fun least v => if v < least then v else least) least) := by
  induction vs generalizing least with
  | nil => simp [IsLeast, lowerBounds]
  | cons v vs ih =>
      obtain ⟨hmem, hle⟩ := ih (if v < least then v else least)
      rw [List.foldl_cons]
      have hmin : (if v < least then v else least) ≤ v ∧ (if v < least then v else least) ≤ least := by
        split
        · next h => exact ⟨le_rfl, h.le⟩
        · next h => exact ⟨not_lt.mp h, le_rfl⟩
      refine ⟨?_, ?_⟩
      · rcases List.mem_cons.mp hmem with h | h
        · rw [h]
          split <;> simp
        · exact List.mem_cons_of_mem _ (List.mem_cons_of_mem _ h)
      · intro w hw
        have hfirst := hle List.mem_cons_self
        rcases List.mem_cons.mp hw with rfl | hw
        · exact hfirst.trans hmin.2
        rcases List.mem_cons.mp hw with rfl | hw
        · exact hfirst.trans hmin.1
        · exact hle (List.mem_cons_of_mem _ hw)

theorem isGreatest_foldl (greatest : α) (vs : List α) :
    IsGreatest {v | v ∈ greatest :: vs}
      (vs.foldl (fun greatest v => if greatest < v then v else greatest) greatest) :=
  @isLeast_foldl αᵒᵈ _ greatest vs

end Extremes

end Tally
