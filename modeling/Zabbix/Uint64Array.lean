import Zabbix.Lib.Nearest

/-!
# Zabbix.Uint64Array

Sorted arrays of identifiers (`libs/zbxcommon/misc.c`).
-/

namespace Zabbix

open Nearest

/-- `uint64_array_add`, what becomes of the array. -/
def uint64ArrayAdd (values : List ℕ) (value : ℕ) : List ℕ :=
  let index := nearest id value values
  if values[index]? = some value then values else values.take index ++ value :: values.drop index

/-- `uint64_array_exists` -/
def uint64ArrayExists (values : List ℕ) (value : ℕ) : Bool := values[nearest id value values]? = some value

/-- `uint64_array_rm` -/
def uint64ArrayRm (values rmValues : List ℕ) : List ℕ :=
  rmValues.foldl
    (fun values value =>
      let index := nearest id value values
      if values[index]? = some value then values.eraseIdx index else values)
    values

variable {values : List ℕ}

theorem uint64ArrayExists_iff (h : Sorted id values) {value : ℕ} :
    uint64ArrayExists values value = true ↔ value ∈ values := by
  rw [uint64ArrayExists, decide_eq_true_eq]
  exact ⟨List.mem_of_getElem?, fun hmem => getElem?_nearest h hmem rfl⟩

theorem sorted_uint64ArrayAdd (h : Sorted id values) (value : ℕ) : Sorted id (uint64ArrayAdd values value) := by
  rw [uint64ArrayAdd]
  split
  · exact h
  · next hnew =>
      refine h.insert fun y hy heq => ?_
      obtain rfl : y = value := heq
      exact hnew (getElem?_nearest h hy rfl)

theorem mem_uint64ArrayAdd {value x : ℕ} : x ∈ uint64ArrayAdd values value ↔ x = value ∨ x ∈ values := by
  rw [uint64ArrayAdd]
  split
  · next hold =>
      refine ⟨.inr, ?_⟩
      rintro (rfl | hx)
      · exact List.mem_of_getElem? hold
      · exact hx
  · exact @mem_insert ℕ ℕ _ id values value x

/-- Adding values one after the other. -/
theorem foldl_uint64ArrayAdd (h : Sorted id values) (added : List ℕ) :
    Sorted id (added.foldl uint64ArrayAdd values) ∧
      ∀ x, x ∈ added.foldl uint64ArrayAdd values ↔ x ∈ added ∨ x ∈ values := by
  induction added generalizing values with
  | nil => exact ⟨h, by simp⟩
  | cons value added ih =>
      obtain ⟨hsorted, hmem⟩ := ih (sorted_uint64ArrayAdd h value)
      refine ⟨hsorted, fun x => ?_⟩
      rw [List.foldl_cons, hmem, mem_uint64ArrayAdd, List.mem_cons]
      tauto

/-- The values that are left stay in order. -/
theorem sublist_uint64ArrayRm (values rmValues : List ℕ) : (uint64ArrayRm values rmValues).Sublist values := by
  induction rmValues generalizing values with
  | nil => exact List.Sublist.refl _
  | cons value rmValues ih =>
      refine (ih _).trans ?_
      dsimp only
      split
      · exact List.eraseIdx_sublist ..
      · exact List.Sublist.refl _

/-- **What is removed** are the values of the other array. -/
theorem mem_uint64ArrayRm (h : Sorted id values) (rmValues : List ℕ) {x : ℕ} :
    x ∈ uint64ArrayRm values rmValues ↔ x ∈ values ∧ x ∉ rmValues := by
  induction rmValues generalizing values with
  | nil => simp [uint64ArrayRm]
  | cons value rmValues ih =>
      rw [uint64ArrayRm, List.foldl_cons]
      dsimp only
      split
      · next hold =>
          obtain ⟨hlt, hvalue⟩ := List.getElem?_eq_some_iff.mp hold
          have hrest : Sorted id (values.eraseIdx (nearest id value values)) :=
            List.Pairwise.sublist (List.eraseIdx_sublist ..) h
          have hmem : x ∈ values.eraseIdx (nearest id value values) ↔ x ∈ values ∧ x ≠ value := by
            rw [List.mem_eraseIdx_iff_getElem]
            constructor
            · rintro ⟨i, hi, hne, rfl⟩
              exact ⟨List.getElem_mem hi, fun heq => hne (h.eq_of_key_eq hi hlt (heq.trans hvalue.symm))⟩
            · rintro ⟨hx, hne⟩
              obtain ⟨i, hi, rfl⟩ := List.mem_iff_getElem.mp hx
              refine ⟨i, hi, ?_, rfl⟩
              rintro rfl
              exact hne hvalue
          have hrm := ih hrest
          rw [uint64ArrayRm] at hrm
          rw [hrm, hmem, List.mem_cons]
          tauto
      · next hold =>
          have hne : value ∉ values := fun hmem => hold (getElem?_nearest h hmem rfl)
          have hrm := ih h
          rw [uint64ArrayRm] at hrm
          rw [hrm, List.mem_cons]
          constructor
          · rintro ⟨hx, hrm⟩
            refine ⟨hx, ?_⟩
            rintro (rfl | hx')
            · exact hne hx
            · exact hrm hx'
          · exact fun hx => ⟨hx.1, fun hx' => hx.2 (.inr hx')⟩

end Zabbix
