import Mathlib.Tactic

/-!
# CInt

The `int` of C, of 32 bits, over exact integers: a sum or a product that it cannot hold is
undefined, a number that is cast to it is cut.

* `checked` — the value of an operation, `none` when it overflows;
* `cast` — the value of a cast;
* `inRange_of_cast_meets` — a window whose ends are cast does not meet itself, unless they stay.
-/

namespace CInt

/-- An `int` holds the number. -/
def InRange (n : ℤ) : Prop := -2 ^ 31 ≤ n ∧ n < 2 ^ 31

instance (n : ℤ) : Decidable (InRange n) := inferInstanceAs (Decidable (_ ∧ _))

/-- What an operation on `int`s yields. -/
def checked (n : ℤ) : Option ℤ := if InRange n then some n else none

/-- A cast to `int`. -/
def cast (n : ℤ) : ℤ := Int.bmod n (2 ^ 32)

theorem checked_eq_some_iff {n m : ℤ} : checked n = some m ↔ InRange n ∧ n = m := by
  rw [checked]
  split <;> simp_all

theorem checked_of_inRange {n : ℤ} (h : InRange n) : checked n = some n := if_pos h

theorem checked_of_not_inRange {n : ℤ} (h : ¬InRange n) : checked n = none := if_neg h

/-- A number that an `int` holds stays as it is. -/
theorem cast_of_inRange {n : ℤ} (h : InRange n) : cast n = n := by
  obtain ⟨hlo, hhi⟩ := h
  exact Int.bmod_eq_of_le (by norm_num; omega) (by norm_num; omega)

/-- A cast takes a multiple of `2 ^ 32` away and leaves an `int`. -/
theorem exists_cast (n : ℤ) : ∃ k, n = cast n + 2 ^ 32 * k ∧ InRange (cast n) := by
  refine ⟨Int.bdiv n (2 ^ 32), (Int.bmod_add_bdiv n (2 ^ 32)).symm, ?_, ?_⟩
  · have h := Int.le_bmod (x := n) (m := 2 ^ 32) (by norm_num)
    rw [cast]
    norm_num at h ⊢
    omega
  · have h := Int.bmod_lt (x := n) (m := 2 ^ 32) (by norm_num)
    rw [cast]
    norm_num at h ⊢
    omega

/-- Where a window of less than `2 ^ 32` and the same window with its ends cast have a number in
common, its ends are `int`s. -/
theorem inRange_of_cast_meets {lo hi : ℤ} {x : ℚ} (hlen : hi - lo < 2 ^ 32) (hx : lo ≤ x ∧ x ≤ hi)
    (hcast : cast lo ≤ x ∧ x ≤ cast hi) : InRange lo ∧ InRange hi := by
  obtain ⟨j, hj, hlo⟩ := exists_cast lo
  obtain ⟨k, hk, hhi⟩ := exists_cast hi
  have hwindow : lo ≤ hi := by exact_mod_cast hx.1.trans hx.2
  have hcut : cast lo ≤ cast hi := by exact_mod_cast hcast.1.trans hcast.2
  have hleft : lo ≤ cast hi := by exact_mod_cast hx.1.trans hcast.2
  have hright : cast lo ≤ hi := by exact_mod_cast hcast.1.trans hx.2
  obtain ⟨h1, h2⟩ := hlo
  obtain ⟨h3, h4⟩ := hhi
  obtain rfl : j = k := by omega
  obtain rfl : j = 0 := by omega
  rw [mul_zero, add_zero] at hj hk
  rw [hj, hk]
  exact ⟨⟨h1, h2⟩, ⟨h3, h4⟩⟩

end CInt
