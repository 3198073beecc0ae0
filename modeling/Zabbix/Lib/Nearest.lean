import Mathlib.Order.Defs.LinearOrder
import Mathlib.Data.List.Basic
import Mathlib.Tactic

/-!
# Nearest

Binary search in arrays that are sorted by a key without repetition, for the
entry of a key or else for the place where it belongs, and insertion at that
place.

`nearest` splits a sorted array into the entries below the key and the others
(`nearest_spec`), so an entry of the key, if there is one, is the first of the
others (`getElem?_nearest`), and inserting one there keeps the array sorted
(`Sorted.insert`).
-/

namespace Nearest

variable {κ α : Type} [LinearOrder κ] (key : α → κ)

/-! ## the search -/

/-- Search for `k` between the indices `first` and `last`. -/
def nearestLoop (k : κ) (a : List α) (first last : ℕ) (hle : first ≤ last) (hlt : last < a.length) :
    ℕ :=
  let index := first + (last - first) / 2
  have hindex : index < a.length := by omega
  if key a[index] = k then index
  else if h : last = first then if key a[index] < k then index + 1 else index
  else if key a[index] < k then nearestLoop k a (index + 1) last (by omega) hlt
  else nearestLoop k a first index (by omega) hindex
termination_by last - first

/-- The index of the entry of `k`, or where it belongs. -/
def nearest (k : κ) (a : List α) : ℕ :=
  if h : a.length = 0 then 0 else nearestLoop key k a 0 (a.length - 1) (Nat.zero_le _) (by omega)

/-! ## sorted arrays -/

/-- Sorted by the key, without repetition. -/
def Sorted (a : List α) : Prop := a.Pairwise fun x y => key x < key y

variable {key} {k : κ} {a : List α}

theorem Sorted.key_lt (h : Sorted key a) {i j : ℕ} (hi : i < a.length) (hj : j < a.length)
    (hij : i < j) : key a[i] < key a[j] :=
  List.pairwise_iff_getElem.mp h i j hi hj hij

/-- A key occurs once. -/
theorem Sorted.eq_of_key_eq (h : Sorted key a) {i j : ℕ} (hi : i < a.length) (hj : j < a.length)
    (hk : key a[i] = key a[j]) : i = j := by
  rcases Nat.lt_trichotomy i j with hij | hij | hij
  · exact absurd hk (ne_of_lt (h.key_lt hi hj hij))
  · exact hij
  · exact absurd hk.symm (ne_of_lt (h.key_lt hj hi hij))

theorem Sorted.eq_of_mem (h : Sorted key a) {x y : α} (hx : x ∈ a) (hy : y ∈ a)
    (hk : key x = key y) : x = y := by
  obtain ⟨i, hi, rfl⟩ := List.mem_iff_getElem.mp hx
  obtain ⟨j, hj, rfl⟩ := List.mem_iff_getElem.mp hy
  have hij := h.eq_of_key_eq hi hj hk
  subst hij
  rfl

/-- What the search keeps: entries before `first` are below the key, entries
behind `last` are not. -/
def Bounds (key : α → κ) (k : κ) (a : List α) (lo hi : ℕ) : Prop :=
  (∀ i (h : i < a.length), i < lo → key a[i] < k) ∧ ∀ i (h : i < a.length), hi < i → k ≤ key a[i]

/-- The index splits the array at the key. -/
def Splits (key : α → κ) (k : κ) (a : List α) (index : ℕ) : Prop :=
  index ≤ a.length ∧ (∀ i (h : i < a.length), i < index → key a[i] < k) ∧
    ∀ i (h : i < a.length), index ≤ i → k ≤ key a[i]

theorem nearestLoop_spec (hs : Sorted key a) {first last : ℕ} (hle : first ≤ last)
    (hlt : last < a.length) (hb : Bounds key k a first last) :
    Splits key k a (nearestLoop key k a first last hle hlt) := by
  fun_induction nearestLoop key k a first last hle hlt with
  | case1 first last hle hlt index hindex hk =>
      refine ⟨by omega, ?_, ?_⟩
      · intro i hi hlt'
        rw [← hk]
        exact hs.key_lt hi hindex hlt'
      · intro i hi hle'
        rcases Nat.lt_or_eq_of_le hle' with h | rfl
        · rw [← hk]
          exact le_of_lt (hs.key_lt hindex hi h)
        · exact le_of_eq hk.symm
  | case2 last hlt hle index hindex hk hbelow =>
      refine ⟨by omega, ?_, fun i hi hle' => hb.2 i hi (by omega)⟩
      intro i hi hlt'
      rcases Nat.lt_or_eq_of_le (Nat.le_of_lt_succ hlt') with h | rfl
      · exact hb.1 i hi (by omega)
      · exact hbelow
  | case3 last hlt hle index hindex hk hbelow =>
      refine ⟨by omega, fun i hi hlt' => hb.1 i hi (by omega), ?_⟩
      intro i hi hle'
      rcases Nat.lt_or_eq_of_le hle' with h | rfl
      · exact hb.2 i hi (by omega)
      · exact not_lt.mp hbelow
  | case4 first last hle hlt index hindex hk he hbelow ih =>
      apply ih
      refine ⟨?_, hb.2⟩
      intro i hi hlt'
      rcases Nat.lt_or_eq_of_le (Nat.le_of_lt_succ hlt') with h | rfl
      · exact lt_trans (hs.key_lt hi hindex h) hbelow
      · exact hbelow
  | case5 first last hle hlt index hindex hk he hbelow ih =>
      apply ih
      refine ⟨hb.1, ?_⟩
      intro i hi hlt'
      exact le_of_lt (lt_of_le_of_lt (not_lt.mp hbelow) (hs.key_lt hindex hi hlt'))

/-- **The search finds the place of the key.** -/
theorem nearest_spec (hs : Sorted key a) (k : κ) : Splits key k a (nearest key k a) := by
  rw [nearest]
  split
  · next h => exact ⟨Nat.zero_le _, fun i hi => absurd hi (by omega), fun i hi => absurd hi (by omega)⟩
  · next h =>
      refine nearestLoop_spec hs _ _ ⟨fun i hi h => absurd h (by omega), ?_⟩
      intro i hi hlt
      omega

/-- What stands before the place of a key is below it. -/
theorem lt_of_mem_take (hs : Sorted key a) {x : α} (h : x ∈ a.take (nearest key k a)) : key x < k := by
  obtain ⟨i, hi, rfl⟩ := List.mem_take_iff_getElem.mp h
  exact (nearest_spec hs k).2.1 i (by omega) (by omega)

/-- What stands from the place of a key on is not below it. -/
theorem le_of_mem_drop (hs : Sorted key a) {x : α} (h : x ∈ a.drop (nearest key k a)) : k ≤ key x := by
  obtain ⟨i, hi, rfl⟩ := List.mem_drop_iff_getElem.mp h
  exact (nearest_spec hs k).2.2 _ (by omega) (by omega)

/-- An entry of the key is found. -/
theorem getElem?_nearest (hs : Sorted key a) {x : α} (hx : x ∈ a) (hk : key x = k) :
    a[nearest key k a]? = some x := by
  obtain ⟨hle, hbelow, habove⟩ := nearest_spec hs k
  obtain ⟨i, hi, rfl⟩ := List.mem_iff_getElem.mp hx
  have hge : nearest key k a ≤ i := by
    by_contra hlt
    exact absurd hk (ne_of_lt (hbelow i hi (by omega)))
  rcases Nat.lt_or_eq_of_le hge with h | h
  · have hlt := hs.key_lt (by omega) hi h
    rw [hk] at hlt
    exact absurd (habove _ (by omega) le_rfl) (not_le.mpr hlt)
  · rw [List.getElem?_eq_some_iff]
    exact ⟨by omega, by simp [h]⟩

/-! ## insertion -/

/-- Put an entry at the place of its key. -/
def insert (key : α → κ) (x : α) (a : List α) : List α :=
  a.take (nearest key (key x) a) ++ x :: a.drop (nearest key (key x) a)

theorem mem_insert {x y : α} : y ∈ insert key x a ↔ y = x ∨ y ∈ a := by
  rw [insert, List.mem_append, List.mem_cons]
  constructor
  · rintro (h | rfl | h)
    · exact .inr (List.mem_of_mem_take h)
    · exact .inl rfl
    · exact .inr (List.mem_of_mem_drop h)
  · rintro (rfl | h)
    · exact .inr (.inl rfl)
    · rw [← List.take_append_drop (nearest key (key x) a) a, List.mem_append] at h
      rcases h with h | h
      · exact .inl h
      · exact .inr (.inr h)

/-- **A new key keeps the array sorted.** -/
theorem Sorted.insert (hs : Sorted key a) {x : α} (hx : ∀ y ∈ a, key y ≠ key x) :
    Sorted key (insert key x a) := by
  have hbelow : ∀ y ∈ a.take (nearest key (key x) a), key y < key x := fun y hy => lt_of_mem_take hs hy
  have habove : ∀ y ∈ a.drop (nearest key (key x) a), key x < key y := fun y hy =>
    lt_of_le_of_ne (le_of_mem_drop hs hy) (hx y (List.mem_of_mem_drop hy)).symm
  have hsplit := hs
  rw [Sorted, ← List.take_append_drop (nearest key (key x) a) a, List.pairwise_append] at hsplit
  rw [Sorted, Nearest.insert, List.pairwise_append, List.pairwise_cons]
  refine ⟨hsplit.1, ⟨habove, hsplit.2.1⟩, ?_⟩
  intro y hy z hz
  rcases List.mem_cons.mp hz with rfl | hz
  · exact hbelow y hy
  · exact lt_trans (hbelow y hy) (habove z hz)

/-! ## replacing an entry -/

/-- An entry may be replaced by one of its key. -/
theorem Sorted.set (hs : Sorted key a) {i : ℕ} {x y : α} (hi : a[i]? = some x)
    (hk : key y = key x) : Sorted key (a.set i y) := by
  obtain ⟨hlt, rfl⟩ := List.getElem?_eq_some_iff.mp hi
  have hkeys : ∀ j (hj : j < (a.set i y).length) (hj' : j < a.length),
      key (a.set i y)[j] = key a[j] := by
    intro j hj hj'
    rw [List.getElem_set]
    split
    · next h => subst h; exact hk
    · rfl
  rw [Sorted, List.pairwise_iff_getElem]
  intro j l hj hl hjl
  rw [List.length_set] at hj hl
  rw [hkeys j _ hj, hkeys l _ hl]
  exact hs.key_lt hj hl hjl

/-- Only the entry of the key is replaced. -/
theorem Sorted.mem_set (hs : Sorted key a) {i : ℕ} {x y z : α} (hi : a[i]? = some x) :
    z ∈ a.set i y ↔ z = y ∨ (z ∈ a ∧ key z ≠ key x) := by
  obtain ⟨hlt, rfl⟩ := List.getElem?_eq_some_iff.mp hi
  constructor
  · intro h
    obtain ⟨j, hj, rfl⟩ := List.mem_iff_getElem.mp h
    rw [List.length_set] at hj
    rw [List.getElem_set]
    split
    · exact .inl rfl
    · next hne =>
        refine .inr ⟨List.getElem_mem hj, ?_⟩
        intro hk
        exact hne (hs.eq_of_key_eq hj hlt hk).symm
  · rintro (rfl | ⟨h, hk⟩)
    · exact List.mem_set hlt z
    · obtain ⟨j, hj, rfl⟩ := List.mem_iff_getElem.mp h
      have hne : i ≠ j := by
        rintro rfl
        exact hk rfl
      rw [List.mem_iff_getElem]
      exact ⟨j, by rw [List.length_set]; exact hj, by rw [List.getElem_set, if_neg hne]⟩

end Nearest

/-- The order of 64 bit integers. -/
instance linearOrderUInt64 : LinearOrder UInt64 where
  le_refl _ := UInt64.le_refl _
  le_trans _ _ _ := UInt64.le_trans
  lt_iff_le_not_ge a b := by
    rw [UInt64.lt_iff_toNat_lt, UInt64.le_iff_toNat_le, UInt64.le_iff_toNat_le]
    omega
  le_antisymm _ _ := UInt64.le_antisymm
  le_total _ _ := UInt64.le_total _ _
  toDecidableLE := inferInstance
  toDecidableEq := inferInstance
  toDecidableLT := inferInstance
