import Mathlib.Algebra.BigOperators.Group.List.Basic
import Mathlib.Algebra.Field.Basic
import Mathlib.Algebra.CharZero.Defs
import Mathlib.Order.Bounds.Basic
import Mathlib.Tactic

/-!
# Summary

Summaries of sequences of values: the extremes and the mean.

A summary of two sequences one after the other comes from those of the two
(`Extremes.append`, `IsMean.append`), it does not depend on the order of the
values (`Extremes.perm`, `IsMean.perm`), and it is determined by the values
(`Extremes.unique`, `IsMean.unique`).

A mean of natural numbers that is computed with a division that rounds down, from
means that have been computed so before, falls behind the mean by less than the
number of values (`FloorMean`).
-/

namespace Summary

/-! ## extremes -/

section extremes

variable {α : Type} [LinearOrder α]

/-- The least and the greatest value of a sequence. -/
def Extremes (lo hi : α) (vs : List α) : Prop :=
  IsLeast { v | v ∈ vs } lo ∧ IsGreatest { v | v ∈ vs } hi

variable {lo hi lo' hi' : α} {vs ws : List α}

theorem extremes_singleton (v : α) : Extremes v v [v] := by
  simp [Extremes]

theorem Extremes.ne_nil (h : Extremes lo hi vs) : vs ≠ [] :=
  List.ne_nil_of_mem h.1.1

theorem Extremes.perm (h : Extremes lo hi vs) (hp : vs.Perm ws) : Extremes lo hi ws := by
  have hset : { v | v ∈ ws } = { v | v ∈ vs } := by
    ext v
    exact hp.symm.mem_iff
  rw [Extremes, hset]
  exact h

/-- The extremes of two sequences. -/
theorem Extremes.append (h : Extremes lo hi vs) (h' : Extremes lo' hi' ws) :
    Extremes (min lo lo') (max hi hi') (vs ++ ws) := by
  have hset : { v | v ∈ vs ++ ws } = { v | v ∈ vs } ∪ { v | v ∈ ws } := by
    ext v
    simp
  rw [Extremes, hset]
  exact ⟨h.1.union h'.1, h.2.union h'.2⟩

theorem Extremes.unique (h : Extremes lo hi vs) (h' : Extremes lo' hi' vs) : lo = lo' ∧ hi = hi' :=
  ⟨h.1.unique h'.1, h.2.unique h'.2⟩

end extremes

/-! ## the mean -/

section mean

variable {𝕜 : Type} [Field 𝕜]

/-- The mean of a sequence of `num` values. -/
def IsMean (num : ℕ) (avg : 𝕜) (vs : List 𝕜) : Prop := num * avg = vs.sum

variable {num num' : ℕ} {avg avg' : 𝕜} {vs ws : List 𝕜}

theorem isMean_singleton (v : 𝕜) : IsMean 1 v [v] := by
  simp [IsMean]

theorem IsMean.perm (h : IsMean num avg vs) (hp : vs.Perm ws) : IsMean num avg ws := by
  rw [IsMean, ← hp.sum_eq]
  exact h

variable [CharZero 𝕜]

/-- The mean of two sequences. -/
theorem IsMean.append (h : IsMean num avg vs) (h' : IsMean num' avg' ws) (hpos : 0 < num + num') :
    IsMean (num + num') ((num * avg + num' * avg') / ((num + num' : ℕ) : 𝕜)) (vs ++ ws) := by
  have hne : ((num + num' : ℕ) : 𝕜) ≠ 0 := Nat.cast_ne_zero.mpr (by omega)
  rw [IsMean, List.sum_append, mul_div_cancel₀ _ hne, h, h']

theorem IsMean.unique (h : IsMean num avg vs) (h' : IsMean num avg' vs) (hpos : 0 < num) :
    avg = avg' := by
  have hne : (num : 𝕜) ≠ 0 := Nat.cast_ne_zero.mpr (by omega)
  exact mul_left_cancel₀ hne (h.trans h'.symm)

end mean

/-! ## the mean, rounded down again and again -/

/-- A number between the values of a sequence of `num` values, which is not above
their mean, and below it by less than `num`. -/
structure FloorMean (num avg : ℕ) (vs : List ℕ) : Prop where
  lower : ∀ lo, (∀ v ∈ vs, lo ≤ v) → lo ≤ avg
  upper : ∀ hi, (∀ v ∈ vs, v ≤ hi) → avg ≤ hi
  le : num * avg ≤ vs.sum
  lt : vs.sum < num * avg + num * num

section floorMean

variable {num num' avg avg' : ℕ} {vs ws : List ℕ}

theorem floorMean_singleton (v : ℕ) : FloorMean 1 v [v] where
  lower := fun _ h => h v List.mem_cons_self
  upper := fun _ h => h v List.mem_cons_self
  le := by simp
  lt := by simp

theorem FloorMean.perm (h : FloorMean num avg vs) (hp : vs.Perm ws) : FloorMean num avg ws where
  lower := fun lo hlo => h.lower lo fun v hv => hlo v (hp.mem_iff.mp hv)
  upper := fun hi hhi => h.upper hi fun v hv => hhi v (hp.mem_iff.mp hv)
  le := hp.sum_eq ▸ h.le
  lt := hp.sum_eq ▸ h.lt

/-- The mean of two sequences, rounded down once more. -/
theorem FloorMean.append (h : FloorMean num avg vs) (h' : FloorMean num' avg' ws) (hnum : 0 < num) (hnum' : 0 < num') :
    FloorMean (num + num') ((num * avg + num' * avg') / (num + num')) (vs ++ ws) where
  lower := by
    intro lo hlo
    have hv := h.lower lo fun v hv => hlo v (List.mem_append_left _ hv)
    have hw := h'.lower lo fun v hv => hlo v (List.mem_append_right _ hv)
    rw [Nat.le_div_iff_mul_le (by omega)]
    calc lo * (num + num') = num * lo + num' * lo := by ring
      _ ≤ num * avg + num' * avg' := by gcongr
  upper := by
    intro hi hhi
    have hv := h.upper hi fun v hv => hhi v (List.mem_append_left _ hv)
    have hw := h'.upper hi fun v hv => hhi v (List.mem_append_right _ hv)
    apply Nat.div_le_of_le_mul
    calc num * avg + num' * avg' ≤ num * hi + num' * hi := by gcongr
      _ = (num + num') * hi := by ring
  le := by
    rw [List.sum_append]
    exact (Nat.mul_div_le _ _).trans (Nat.add_le_add h.le h'.le)
  lt := by
    have hdiv := Nat.lt_mul_div_succ (num * avg + num' * avg') (show 0 < num + num' by omega)
    rw [Nat.mul_succ] at hdiv
    -- the squares leave room for one more rounding
    have hroom : num + num' ≤ num * num' + num * num' := by nlinarith
    have hsquare : (num + num') * (num + num') = num * num + num' * num' + (num * num' + num * num') := by ring
    have hlt := h.lt
    have hlt' := h'.lt
    rw [List.sum_append, hsquare]
    omega

/-- The error, as rationals have it. -/
theorem FloorMean.error (h : FloorMean num avg vs) (hnum : 0 < num) :
    |(vs.sum : ℚ) / num - avg| < num := by
  have hpos : (0 : ℚ) < num := by exact_mod_cast hnum
  have hle : (num : ℚ) * avg ≤ vs.sum := by exact_mod_cast h.le
  have hlt : (vs.sum : ℚ) < num * avg + num * num := by exact_mod_cast h.lt
  rw [abs_lt]
  constructor
  · have : (avg : ℚ) ≤ vs.sum / num := by
      rw [le_div_iff₀ hpos]
      linarith
    linarith
  · have : (vs.sum : ℚ) / num < avg + num := by
      rw [div_lt_iff₀ hpos]
      linarith
    linarith

end floorMean

end Summary
