import Mathlib.Data.List.TakeWhile
import Mathlib.Tactic

/-!
# Buffer

A buffer of bytes with strings in it that end at a NUL, by address.

A string is cut in place by a NUL over one of its characters.  What was found by `find` can be cut
off and put back: the string in front ends there (`strAt_set`), the one behind is the same
(`strAt_behind`), and putting back leaves the buffer as it was (`set_put_back`).
-/

namespace Buffer

/-- The byte at an address; behind the end there is a NUL. -/
def byteAt (m : List UInt8) (p : ℕ) : UInt8 := m[p]?.getD 0

/-- The string at an address, up to its NUL. -/
def strAt (m : List UInt8) (p : ℕ) : List UInt8 := (m.drop p).takeWhile (· ≠ 0)

/-- `strchr`: the address of the first `c` in the string at `p`, the NUL at its end included. -/
def find (m : List UInt8) (p : ℕ) (c : UInt8) : Option ℕ := ((strAt m p ++ [0]).findIdx? (· == c)).map (p + ·)

/-- `strrchr`: the address of the last `c` in the string at `p`, for another character than NUL. -/
def findLast (m : List UInt8) (p : ℕ) (c : UInt8) : Option ℕ :=
  ((strAt m p).reverse.findIdx? (· == c)).map fun i => p + ((strAt m p).length - 1 - i)

theorem lt_length_of_byteAt {m : List UInt8} {p : ℕ} (h : byteAt m p ≠ 0) : p < m.length := by
  by_contra hlt
  rw [byteAt, List.getElem?_eq_none (by omega)] at h
  exact h rfl

/-- An empty string has its NUL at once. -/
theorem strAt_eq_nil_iff {m : List UInt8} {p : ℕ} : strAt m p = [] ↔ byteAt m p = 0 := by
  rw [strAt, byteAt]
  by_cases hp : p < m.length
  · rw [List.drop_eq_getElem_cons hp, List.getElem?_eq_getElem hp, Option.getD_some]
    by_cases h : m[p] = 0 <;> simp [h, hp]
  · rw [List.drop_eq_nil_of_le (by omega), List.getElem?_eq_none (by omega)]
    simp

theorem nul_not_mem_strAt (m : List UInt8) (p : ℕ) : 0 ∉ strAt m p := fun h => by
  have := List.mem_takeWhile_imp h
  simp at this

/-- The bytes of a string, with its NUL, are those of the buffer. -/
theorem byteAt_add {m : List UInt8} {p i : ℕ} (hi : i ≤ (strAt m p).length) :
    byteAt m (p + i) = ((strAt m p)[i]?).getD 0 := by
  rw [byteAt, ← List.getElem?_drop]
  rw [strAt] at hi ⊢
  generalize m.drop p = s at hi
  induction s generalizing i with
  | nil => rfl
  | cons a s ih =>
      by_cases ha : a = 0
      · subst ha
        rw [List.takeWhile_cons_of_neg (by simp)] at hi ⊢
        obtain rfl : i = 0 := by simpa using hi
        rfl
      · rw [List.takeWhile_cons_of_pos (by simpa using ha)] at hi ⊢
        cases i with
        | zero => rfl
        | succ i => exact ih (by simpa using hi)

/-- What `find` finds is in the string, or its NUL. -/
theorem find_spec {m : List UInt8} {p e : ℕ} {c : UInt8} (h : find m p c = some e) :
    p ≤ e ∧ byteAt m e = c := by
  obtain ⟨i, hi, rfl⟩ := Option.map_eq_some_iff.mp h
  obtain ⟨hlt, hc, -⟩ := List.findIdx?_eq_some_iff_getElem.mp hi
  rw [List.length_append, List.length_singleton] at hlt
  refine ⟨Nat.le_add_right p i, ?_⟩
  rw [byteAt_add (by omega)]
  rw [beq_iff_eq] at hc
  rw [← hc]
  by_cases hlast : i < (strAt m p).length
  · rw [List.getElem_append_left hlast, List.getElem?_eq_getElem hlast, Option.getD_some]
  · rw [List.getElem_append_right (by omega), List.getElem?_eq_none (by omega)]
    simp

/-- Putting back what was there. -/
theorem set_put_back {m : List UInt8} {e : ℕ} {c : UInt8} (h : byteAt m e = c) (a : UInt8) : (m.set e a).set e c = m := by
  rw [List.set_set]
  by_cases he : e < m.length
  · rw [byteAt, List.getElem?_eq_getElem he, Option.getD_some] at h
    rw [← h, List.set_getElem_self]
  · rw [List.set_eq_of_length_le (by omega)]

theorem find_eq_none {m : List UInt8} {p : ℕ} {c : UInt8} (h : find m p c = none) : c ∉ strAt m p := by
  intro hc
  rw [find, Option.map_eq_none_iff, List.findIdx?_eq_none_iff] at h
  have := h c (List.mem_append_left _ hc)
  simp at this

/-- Another character than NUL is found inside of the string. -/
theorem strAt_of_find {m : List UInt8} {p e : ℕ} {c : UInt8} (hc : c ≠ 0) (h : find m p c = some e) :
    ∃ front behind, strAt m p = front ++ c :: behind ∧ c ∉ front ∧ e = p + front.length := by
  obtain ⟨i, hi, rfl⟩ := Option.map_eq_some_iff.mp h
  obtain ⟨hlt, hat, hbefore⟩ := List.findIdx?_eq_some_iff_getElem.mp hi
  rw [beq_iff_eq] at hat
  have hin : i < (strAt m p).length := by
    by_contra hout
    rw [List.getElem_append_right (by omega)] at hat
    simp at hat
    exact hc hat.symm
  rw [List.getElem_append_left hin] at hat
  refine ⟨(strAt m p).take i, (strAt m p).drop (i + 1), ?_, ?_, by rw [List.length_take, Nat.min_eq_left hin.le]⟩
  · rw [← hat, List.getElem_cons_drop, List.take_append_drop]
  · intro hmem
    obtain ⟨k, hk, hkc⟩ := List.mem_take_iff_getElem.mp hmem
    have hlt := hbefore k (by omega)
    rw [List.getElem_append_left (by omega), hkc] at hlt
    simp at hlt

/-- The buffer around a character of a string. -/
theorem drop_of_strAt {m : List UInt8} {p : ℕ} {front behind : List UInt8} {c : UInt8} (h : strAt m p = front ++ c :: behind) :
    ∃ rest, m.drop p = front ++ c :: (behind ++ rest) := by
  have hsplit := List.takeWhile_append_dropWhile (p := (· ≠ (0 : UInt8))) (l := m.drop p)
  rw [strAt] at h
  rw [h] at hsplit
  exact ⟨_, by rw [← hsplit, List.append_assoc, List.cons_append]⟩

theorem takeWhile_front {m : List UInt8} {p : ℕ} {front behind : List UInt8} (h : strAt m p = front ++ behind) :
    ∀ a ∈ front, decide (a ≠ 0) = true := by
  intro a ha
  refine decide_eq_true fun h0 => nul_not_mem_strAt m p ?_
  rw [h, ← h0]
  exact List.mem_append_left _ ha

/-- Cut at a character, the string ends in front of it. -/
theorem strAt_set {m : List UInt8} {p : ℕ} {front behind : List UInt8} {c : UInt8} (h : strAt m p = front ++ c :: behind) :
    strAt (m.set (p + front.length) 0) p = front := by
  obtain ⟨rest, hdrop⟩ := drop_of_strAt h
  rw [strAt, List.drop_set, if_neg (by omega), Nat.add_sub_cancel_left, hdrop, List.set_append_right _ _ le_rfl,
    Nat.sub_self, List.set_cons_zero, List.takeWhile_append_of_pos (takeWhile_front h),
    List.takeWhile_cons_of_neg (by simp), List.append_nil]

/-- The string from a character on. -/
theorem strAt_add {m : List UInt8} {p : ℕ} {front behind : List UInt8} (h : strAt m p = front ++ behind) :
    strAt m (p + front.length) = behind := by
  have hall := takeWhile_front h
  have hsplit := List.takeWhile_append_dropWhile (p := (· ≠ (0 : UInt8))) (l := m.drop p)
  rw [strAt] at h
  rw [h, List.append_assoc] at hsplit
  rw [← hsplit, List.takeWhile_append_of_pos hall, List.append_cancel_left_eq] at h
  rw [strAt, ← List.drop_drop, ← hsplit, List.drop_left, h]

/-- The string behind a character. -/
theorem strAt_behind {m : List UInt8} {p : ℕ} {front behind : List UInt8} {c : UInt8} (h : strAt m p = front ++ c :: behind) :
    strAt m (p + front.length + 1) = behind := by
  obtain ⟨rest, hdrop⟩ := drop_of_strAt h
  have hall := takeWhile_front (show strAt m p = (front ++ [c]) ++ behind by simp [h])
  have hbehind : m.drop (p + front.length + 1) = behind ++ rest := by
    rw [Nat.add_assoc, ← List.drop_drop, hdrop, List.append_cons]
    exact List.drop_left' (by simp)
  rw [strAt, hdrop, List.append_cons front c (behind ++ rest), List.takeWhile_append_of_pos hall, List.append_cons front c behind,
    List.append_cancel_left_eq] at h
  rw [strAt, hbehind, h]

theorem strAt_set_of_lt {m : List UInt8} {e p : ℕ} (h : e < p) (c : UInt8) : strAt (m.set e c) p = strAt m p := by
  rw [strAt, strAt, List.drop_set, if_pos h]

/-- The character that a string is cut at. -/
theorem byteAt_of_strAt {m : List UInt8} {p : ℕ} {front behind : List UInt8} {c : UInt8} (h : strAt m p = front ++ c :: behind) :
    byteAt m (p + front.length) = c := by
  rw [byteAt_add (by rw [h, List.length_append, List.length_cons]; omega), h, List.getElem?_append_right le_rfl,
    Nat.sub_self, List.getElem?_cons_zero, Option.getD_some]

theorem findLast_eq_none {m : List UInt8} {p : ℕ} {c : UInt8} (h : findLast m p c = none) : c ∉ strAt m p := by
  intro hc
  rw [findLast, Option.map_eq_none_iff, List.findIdx?_eq_none_iff] at h
  have := h c (List.mem_reverse.mpr hc)
  simp at this

/-- What `findLast` finds is the last one in the string. -/
theorem strAt_of_findLast {m : List UInt8} {p e : ℕ} {c : UInt8} (h : findLast m p c = some e) :
    ∃ front behind, strAt m p = front ++ c :: behind ∧ c ∉ behind ∧ e = p + front.length := by
  rw [findLast] at h
  generalize strAt m p = s at h ⊢
  obtain ⟨i, hi, rfl⟩ := Option.map_eq_some_iff.mp h
  obtain ⟨hlt, hat, hbefore⟩ := List.findIdx?_eq_some_iff_getElem.mp hi
  rw [List.length_reverse] at hlt
  rw [beq_iff_eq, List.getElem_reverse] at hat
  have hk : s.length - 1 - i < s.length := by omega
  refine ⟨s.take (s.length - 1 - i), s.drop (s.length - 1 - i + 1), ?_, ?_, ?_⟩
  · rw [← hat, List.getElem_cons_drop, List.take_append_drop]
  · intro hmem
    obtain ⟨k, hlast, hkc⟩ := List.mem_drop_iff_getElem.mp hmem
    have hfirst := hbefore (s.length - 1 - (s.length - 1 - i + 1 + k)) (by omega)
    rw [List.getElem_reverse] at hfirst
    simp only [show s.length - 1 - (s.length - 1 - (s.length - 1 - i + 1 + k)) = s.length - 1 - i + 1 + k by omega,
      beq_iff_eq] at hfirst
    exact hfirst hkc
  · rw [List.length_take, Nat.min_eq_left hk.le]

/-- In front of a character that is cut off, the string is the same up to there. -/
theorem strAt_set_behind {m : List UInt8} {p q : ℕ} {front behind rest : List UInt8} {c d : UInt8}
    (h : strAt m p = front ++ d :: (behind ++ c :: rest)) (hq : q = p + front.length + 1) :
    strAt (m.set (q + behind.length) 0) p = front ++ d :: behind := by
  subst hq
  have hassoc : strAt m p = (front ++ d :: behind) ++ c :: rest := by simp [h]
  have hlen : p + front.length + 1 + behind.length = p + (front ++ d :: behind).length := by
    rw [List.length_append, List.length_cons]
    omega
  rw [hlen, strAt_set hassoc]

end Buffer
