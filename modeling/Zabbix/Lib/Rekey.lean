import Mathlib.Data.List.Nodup
import Mathlib.Tactic

/-!
# Rekey

Rows with keys, and values that designate a row by its key.  The keys are
exchanged for others, row by row; a value follows when it designates the same
rows afterwards, which is so iff it is exchanged as the keys are, or designates
nothing (`follows_iff`).
-/

namespace Rekey

variable {κ : Type} {keys keys' : List κ} {v v' : κ}

/-- Every row that `v` designates before is a row that `v'` designates after. -/
def Follows (keys keys' : List κ) (v v' : κ) : Prop :=
  ∀ (i : ℕ) (k k' : κ), keys[i]? = some k → keys'[i]? = some k' → v = k → v' = k'

/-- The keys go by `f`, and rows may be added behind. -/
def Renamed (f : κ → κ) (keys keys' : List κ) : Prop := ∃ new, keys' = keys.map f ++ new

/-- A value that is exchanged as the keys are follows. -/
theorem Follows.of_renamed {f : κ → κ} (h : Renamed f keys keys') (v : κ) : Follows keys keys' v (f v) := by
  obtain ⟨new, rfl⟩ := h
  rintro i k k' hk hk' rfl
  have hi : i < (keys.map f).length := by
    rw [List.length_map]
    exact (List.getElem?_eq_some_iff.mp hk).1
  rw [List.getElem?_append_left hi, List.getElem?_map, hk] at hk'
  exact Option.some.inj hk'

/-- A value follows iff it is exchanged as the keys are, or designates nothing. -/
theorem follows_iff {f : κ → κ} (h : Renamed f keys keys') :
    Follows keys keys' v v' ↔ (v ∈ keys → v' = f v) := by
  constructor
  · intro hv hmem
    obtain ⟨i, hi⟩ := List.mem_iff_getElem?.mp hmem
    obtain ⟨new, rfl⟩ := h
    have hlt : i < (keys.map f).length := by
      rw [List.length_map]
      exact (List.getElem?_eq_some_iff.mp hi).1
    refine hv i v (f v) hi ?_ rfl
    rw [List.getElem?_append_left hlt, List.getElem?_map, hi]
    rfl
  · intro hv i k k' hk hk' heq
    have hmem : v ∈ keys := heq ▸ List.mem_of_getElem? hk
    rw [hv hmem]
    exact Follows.of_renamed h v i k k' hk hk' heq

/-- A value that stays as it is follows iff `f` keeps it, or it designates nothing. -/
theorem follows_self_iff {f : κ → κ} (h : Renamed f keys keys') :
    Follows keys keys' v v ↔ (v ∈ keys → v = f v) := follows_iff h

/-- Without rows there is nothing to follow. -/
theorem Follows.nil : Follows [] keys' v v' := fun _ _ _ hk => nomatch hk

end Rekey
