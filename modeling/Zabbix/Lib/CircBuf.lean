import Mathlib.Data.List.Basic
import Mathlib.Logic.Function.Basic
import Mathlib.Tactic

/-!
# CircBuf

Circular buffers over a fixed array of `size` cells.  A queue of `num`
elements occupies the cells from `first` on, wrapping at the end of the
array; `contents` is the list those cells denote.

Three operations are provided at the level of the cells:

* writing the cell one past the queue (`contents_update_index`) appends;
* updating the queued cells in turn (`contents_mapCells`) maps;
* sliding the cells between `first` and a hole forward by one
  (`contents_slide`) erases the element at the hole.

Nothing here depends on what the cells hold.
-/

namespace CircBuf

variable {α : Type u} {β : Type v} {size : Nat}

/-! ## physical indexes -/

/-- The physical index of the element `i` places after `first`. -/
def index (first : Fin size) (i : Nat) : Fin size :=
  ⟨(first.val + i) % size, Nat.mod_lt _ first.pos⟩

/-- The cell before `j`, wrapping below zero. -/
def prev (j : Fin size) : Fin size :=
  ⟨(if j.val = 0 then size else j.val) - 1, by
    have := j.isLt
    split <;> omega⟩

/-- The number of steps from `first` forward to `j`. -/
def dist (first j : Fin size) : Nat :=
  if first.val ≤ j.val then j.val - first.val else size + j.val - first.val

/-- Inside one lap the modulus is a comparison and a subtraction. -/
theorem index_val {first : Fin size} {i : Nat} (hi : i ≤ size) :
    (index first i).val =
      if first.val + i < size then first.val + i else first.val + i - size := by
  have hf := first.isLt
  simp only [index]
  split
  · exact Nat.mod_eq_of_lt ‹_›
  · rw [Nat.mod_eq_sub_mod (by omega), Nat.mod_eq_of_lt (by omega)]

@[simp] theorem index_zero (first : Fin size) : index first 0 = first := by
  apply Fin.ext
  simp [index, Nat.mod_eq_of_lt first.isLt]

/-- Walking on from `index first i` is walking further from `first`. -/
theorem index_index (first : Fin size) (i j : Nat) :
    index (index first i) j = index first (i + j) := by
  apply Fin.ext
  simp [index, Nat.mod_add_mod, Nat.add_assoc]

/-- One step back from the successor of a place is that place. -/
theorem prev_index_succ {first : Fin size} {i : Nat} (hi : i + 1 ≤ size) :
    prev (index first (i + 1)) = index first i := by
  have hf := first.isLt
  have hs : (index first (i + 1)).val = _ := index_val hi
  have hz : (index first i).val = _ := index_val (by omega)
  apply Fin.ext
  simp only [prev]
  split_ifs at hs hz ⊢ <;> omega

@[simp] theorem dist_self (first : Fin size) : dist first first = 0 := by
  simp [dist]

theorem dist_index {first : Fin size} {i : Nat} (hi : i < size) :
    dist first (index first i) = i := by
  have hf := first.isLt
  unfold dist
  rw [index_val (by omega)]
  split_ifs <;> omega

/-- The distance from `first` determines the cell. -/
theorem dist_inj {first j k : Fin size} (h : dist first j = dist first k) : j = k := by
  have hf := first.isLt
  have hj := j.isLt
  have hk := k.isLt
  apply Fin.ext
  unfold dist at h
  split_ifs at h <;> omega

theorem dist_prev {first j : Fin size} (h : j ≠ first) :
    dist first (prev j) + 1 = dist first j := by
  have hf := first.isLt
  have hj := j.isLt
  have hne : j.val ≠ first.val := fun he => h (Fin.ext he)
  unfold dist prev
  dsimp only
  split_ifs <;> omega

/-! ## the queue -/

/-- The queue: `num` cells from `first` on, wrapping. -/
def contents (cells : Fin size → α) (first : Fin size) (num : Nat) : List α :=
  (List.range num).map fun i => cells (index first i)

@[simp] theorem length_contents (cells : Fin size → α) (first : Fin size) (num : Nat) :
    (contents cells first num).length = num := by
  simp [contents]

@[simp] theorem contents_zero (cells : Fin size → α) (first : Fin size) :
    contents cells first 0 = [] := rfl

theorem getElem_contents (cells : Fin size → α) (first : Fin size) (num : Nat) (i : Nat)
    (h : i < (contents cells first num).length) :
    (contents cells first num)[i] = cells (index first i) := by
  simp [contents]

/-- Mapping the queue is mapping the cells. -/
theorem map_contents (f : α → β) (cells : Fin size → α) (first : Fin size) (num : Nat) :
    (contents cells first num).map f = contents (f ∘ cells) first num := by
  simp [contents, Function.comp_def]

/-- The first element of the queue, and the others. -/
theorem contents_succ (cells : Fin size → α) (first : Fin size) (num : Nat) :
    contents cells first (num + 1) = cells first :: contents cells (index first 1) num := by
  rw [contents, List.range_succ_eq_map, List.map_cons, List.map_map, index_zero, contents]
  congr 1
  apply List.map_congr_left
  intro i _
  rw [Function.comp_apply, index_index, Nat.add_comm 1 i]

/-- **Push**: writing the cell one past the queue appends the value. -/
theorem contents_update_index (cells : Fin size → α) (first : Fin size) {num : Nat} (x : α)
    (h : num < size) :
    contents (Function.update cells (index first num) x) first (num + 1) =
      contents cells first num ++ [x] := by
  simp only [contents, List.range_succ, List.map_append, List.map_cons, List.map_nil,
    Function.update_self]
  congr 1
  apply List.map_congr_left
  intro i hi
  have hi' : i < num := List.mem_range.mp hi
  apply Function.update_of_ne
  intro he
  have hd := congrArg (dist first) he
  rw [dist_index (by omega), dist_index h] at hd
  omega

/-! ## updating every queued cell -/

/-- Apply `f` to the queued cells in turn, from `first` on. -/
def mapCells (f : α → α) (first : Fin size) : (num : Nat) → (Fin size → α) → Fin size → α
  | 0, cells => cells
  | num + 1, cells =>
      Function.update (mapCells f first num cells) (index first num)
        (f (mapCells f first num cells (index first num)))

/-- Within one lap `mapCells` changes exactly the queued cells. -/
theorem mapCells_index (f : α → α) (first : Fin size) {num i : Nat} (cells : Fin size → α)
    (hnum : num ≤ size) (hi : i < size) :
    mapCells f first num cells (index first i) =
      if i < num then f (cells (index first i)) else cells (index first i) := by
  induction num generalizing i with
  | zero => simp [mapCells]
  | succ num ih =>
      by_cases he : i = num
      · subst he
        rw [mapCells, Function.update_self, ih (by omega) hi, if_neg (by omega),
          if_pos (by omega)]
      · have hne : index first i ≠ index first num := by
          intro h
          have hd := congrArg (dist first) h
          rw [dist_index hi, dist_index (by omega)] at hd
          exact he hd
        rw [mapCells, Function.update_of_ne hne, ih (by omega) hi]
        by_cases h : i < num
        · rw [if_pos h, if_pos (by omega)]
        · rw [if_neg h, if_neg (by omega)]

/-- **Map**: updating the queued cells in turn maps the queue. -/
theorem contents_mapCells (f : α → α) (cells : Fin size → α) (first : Fin size) {num : Nat}
    (hnum : num ≤ size) :
    contents (mapCells f first num cells) first num = (contents cells first num).map f := by
  rw [map_contents]
  apply List.map_congr_left
  intro i hi
  have hi' : i < num := List.mem_range.mp hi
  rw [mapCells_index f first cells hnum (by omega), if_pos hi', Function.comp_apply]

/-! ## sliding over a hole -/

/-- Slide the cells from `first` up to `j` forward by one, walking back from
`j`: each cell takes its predecessor's content until `first` is reached. -/
def slide (first j : Fin size) (cells : Fin size → α) : Fin size → α :=
  if j = first then cells
  else slide first (prev j) (Function.update cells j (cells (prev j)))
termination_by dist first j
decreasing_by
  have hj : j ≠ first := ‹_›
  have := dist_prev hj
  omega

/-- What `slide` leaves in each cell: the cells after `first` up to `j` hold
their predecessor's content, the others are untouched. -/
theorem slide_apply (first j : Fin size) (cells : Fin size → α) (k : Fin size) :
    slide first j cells k =
      if dist first k ≤ dist first j ∧ k ≠ first then cells (prev k) else cells k := by
  induction j, cells using slide.induct first with
  | case1 cells =>
      rw [slide, if_pos rfl, if_neg]
      rintro ⟨hle, hne⟩
      rw [dist_self, Nat.le_zero, ← dist_self first] at hle
      exact hne (dist_inj hle)
  | case2 j cells hj ih =>
      have hd := dist_prev hj
      rw [slide, if_neg hj, ih]
      by_cases hk : dist first k ≤ dist first (prev j) ∧ k ≠ first
      · have hpk := dist_prev hk.2
        have hne : prev k ≠ j := fun he => by rw [he] at hpk; omega
        rw [if_pos hk, if_pos ⟨by omega, hk.2⟩, Function.update_of_ne hne]
      · rw [if_neg hk]
        by_cases hkj : k = j
        · subst hkj
          rw [Function.update_self, if_pos ⟨le_refl _, hj⟩]
        · have hne : dist first k ≠ dist first j := fun he => hkj (dist_inj he)
          rw [Function.update_of_ne hkj, if_neg]
          rintro ⟨hle, hkf⟩
          exact hk ⟨by omega, hkf⟩

/-- **Erase**: sliding the queue over its `k`-th element and advancing `first`
erases exactly that element. -/
theorem contents_slide (cells : Fin size → α) (first : Fin size) {num k : Nat}
    (hk : k < num) (hnum : num ≤ size) :
    contents (slide first (index first k) cells) (index first 1) (num - 1) =
      (contents cells first num).eraseIdx k := by
  apply List.ext_getElem
  · rw [List.length_eraseIdx_of_lt (by simpa using hk)]
    simp
  · intro i hi hi'
    have hlt : i < num - 1 := by simpa using hi
    have hne : index first (i + 1) ≠ first := by
      intro he
      have hd := congrArg (dist first) he
      rw [dist_index (by omega), dist_self] at hd
      omega
    rw [getElem_contents, index_index, Nat.add_comm 1 i, slide_apply,
      dist_index (by omega), dist_index (by omega), List.getElem_eraseIdx]
    by_cases h : i < k
    · rw [if_pos ⟨by omega, hne⟩, dif_pos h, prev_index_succ (by omega), getElem_contents]
    · rw [if_neg (by omega), dif_neg h, getElem_contents]

end CircBuf
