import Zabbix.Uint64Array

/-!
# Zabbix.Uint64Block

The sorted arrays of identifiers in memory (`libs/zbxcommon/misc.c`): a block of
cells, some of them allocated and the first `num` of these in use.  The search
also tells which indexes it has computed.

Each operation does to the cells in use what the operation of
`Zabbix.Uint64Array` does to a list (`contents_uint64ArrayAdd`,
`uint64ArrayExists_eq`, `contents_uint64ArrayRm`), so that a run of calls goes
through the sets of identifiers (`Holds.call`).
-/

namespace Zabbix

open Nearest

/-- The cells at `values`, how many of them are allocated, and how many are in use. -/
structure Uint64Block where
  values : ℕ → ℕ
  alloc : ℕ
  num : ℕ

/-- The cells in use. -/
def Uint64Block.contents (b : Uint64Block) : List ℕ := (List.range b.num).map b.values

/-- `memmove` of `n` cells from `src` to `dst`. -/
def memmoveCells (values : ℕ → ℕ) (dst src n : ℕ) : ℕ → ℕ :=
  fun i => if dst ≤ i ∧ i < dst + n then values (i - dst + src) else values i

/-! ## the search -/

/-- The index that a search returns, and those of the cells it has read. -/
structure Nearestindex where
  index : ℕ
  reads : List ℕ
deriving DecidableEq, Repr

/-- The loop of `get_nearestindex`. -/
def getNearestindexLoop (values : ℕ → ℕ) (value first last : ℕ) (h : first ≤ last) : Nearestindex :=
  let index := first + (last - first) / 2
  if values index = value then ⟨index, [index]⟩
  else if _heq : last = first then
    if values index < value then ⟨index + 1, [index]⟩ else ⟨index, [index]⟩
  else
    let rest :=
      if values index < value then getNearestindexLoop values value (index + 1) last (by omega)
      else getNearestindexLoop values value first index (by omega)
    ⟨rest.index, index :: rest.reads⟩
termination_by last - first

/-- `get_nearestindex` -/
def getNearestindex (values : ℕ → ℕ) (num value : ℕ) : Nearestindex :=
  if num = 0 then ⟨0, []⟩ else getNearestindexLoop values value 0 (num - 1) (Nat.zero_le _)

/-! ## the operations -/

/-- `uint64_array_add`: the index returned, and what becomes of the array; `none`
when the allocated size overflows its `int`. -/
def Uint64Block.uint64ArrayAdd (b : Uint64Block) (value : ℕ) : Option (ℕ × Uint64Block) :=
  let index := (getNearestindex b.values b.num value).index
  if index < b.num ∧ b.values index = value then some (index, b)
  else
    if b.alloc = b.num ∧ 2 ^ 31 ≤ b.alloc + 100 then none
    else
      let alloc := if b.alloc = b.num then b.alloc + 100 else b.alloc
      let values := memmoveCells b.values (index + 1) index (b.num - index)
      some (index, ⟨Function.update values index value, alloc, b.num + 1⟩)

/-- `uint64_array_exists` -/
def Uint64Block.uint64ArrayExists (b : Uint64Block) (value : ℕ) : Bool :=
  let index := (getNearestindex b.values b.num value).index
  decide (index < b.num ∧ b.values index = value)

/-- One value of `uint64_array_rm`. -/
def Uint64Block.rmValue (b : Uint64Block) (value : ℕ) : Uint64Block :=
  let index := (getNearestindex b.values b.num value).index
  if index = b.num ∨ b.values index ≠ value then b
  else { b with values := memmoveCells b.values index (index + 1) (b.num - index - 1), num := b.num - 1 }

/-- `uint64_array_rm` -/
def Uint64Block.uint64ArrayRm (b rmValues : Uint64Block) : Uint64Block :=
  rmValues.contents.foldl rmValue b

/-! ## runs of calls -/

/-- A call on an array; what is removed is an array of its own. -/
inductive Uint64Call
  | add (value : ℕ)
  | lookup (value : ℕ)
  | rm (rmValues : Uint64Block)

/-- What becomes of an array by a call. -/
def Uint64Block.call (b : Uint64Block) : Uint64Call → Option Uint64Block
  | .add value => (b.uint64ArrayAdd value).map Prod.snd
  | .lookup _ => some b
  | .rm rmValues => some (b.uint64ArrayRm rmValues)

/-- What a call is for. -/
def Uint64Call.effect (ids : Finset ℕ) : Uint64Call → Finset ℕ
  | .add value => insert value ids
  | .lookup _ => ids
  | .rm rmValues => ids \ rmValues.contents.toFinset

/-- The array holds a set of identifiers, in order, in cells that are allocated. -/
structure Uint64Block.Holds (b : Uint64Block) (ids : Finset ℕ) : Prop where
  sorted : Sorted id b.contents
  mem_iff : ∀ x, x ∈ b.contents ↔ x ∈ ids
  allocated : b.num ≤ b.alloc ∧ b.alloc < 2 ^ 31

variable {b : Uint64Block} {value : ℕ}

@[simp] theorem Uint64Block.length_contents (b : Uint64Block) : b.contents.length = b.num := by
  simp [contents]

@[simp] theorem Uint64Block.getElem_contents {i : ℕ} (h : i < b.contents.length) : b.contents[i] = b.values i := by
  simp [contents]

theorem Uint64Block.getElem?_contents {i x : ℕ} : b.contents[i]? = some x ↔ i < b.num ∧ b.values i = x := by
  rw [List.getElem?_eq_some_iff]
  simp

/-! ## the search and the list -/

/-- The loop stays between its bounds, whatever the cells hold. -/
theorem getNearestindexLoop_reads (values : ℕ → ℕ) (value : ℕ) {first last : ℕ} (h : first ≤ last) :
    (getNearestindexLoop values value first last h).index ≤ last + 1 ∧
      ∀ i ∈ (getNearestindexLoop values value first last h).reads, i ≤ last := by
  have hindex : first + (last - first) / 2 ≤ last := by omega
  rw [getNearestindexLoop]
  split
  · exact ⟨Nat.le_succ_of_le hindex, by simpa using hindex⟩
  · split
    · split
      · exact ⟨Nat.succ_le_succ hindex, by simpa using hindex⟩
      · exact ⟨Nat.le_succ_of_le hindex, by simpa using hindex⟩
    · simp only [List.forall_mem_cons]
      split
      · obtain ⟨hle, hreads⟩ := getNearestindexLoop_reads values value
          (show first + (last - first) / 2 + 1 ≤ last by omega)
        exact ⟨hle, hindex, hreads⟩
      · obtain ⟨hle, hreads⟩ := getNearestindexLoop_reads values value
          (show first ≤ first + (last - first) / 2 by omega)
        exact ⟨by omega, hindex, fun i hi => le_trans (hreads i hi) hindex⟩
termination_by last - first

theorem getNearestindexLoop_self (values : ℕ → ℕ) (value i : ℕ) :
    getNearestindexLoop values value i i le_rfl = ⟨if values i < value then i + 1 else i, [i]⟩ := by
  rw [getNearestindexLoop]
  by_cases h : values i = value
  · simp [h]
  · by_cases hlt : values i < value <;> simp [h, hlt]

/-- **The search stays in the array**: it reads cells in use, and returns the index
of one or of the cell behind them. -/
theorem getNearestindex_reads (values : ℕ → ℕ) (num value : ℕ) :
    (getNearestindex values num value).index ≤ num ∧ ∀ i ∈ (getNearestindex values num value).reads, i < num := by
  rw [getNearestindex]
  split
  · simp
  · obtain ⟨hle, hreads⟩ := getNearestindexLoop_reads values value (Nat.zero_le (num - 1))
    exact ⟨by omega, fun i hi => Nat.lt_of_le_pred (by omega) (hreads i hi)⟩

theorem getNearestindexLoop_index {first last : ℕ} (h : first ≤ last) (hlast : last < b.contents.length) :
    (getNearestindexLoop b.values value first last h).index = nearestLoop id value b.contents first last h hlast := by
  rw [getNearestindexLoop, nearestLoop]
  simp only [Uint64Block.getElem_contents, id_eq]
  split
  · rfl
  · split
    · split <;> rfl
    · split
      · exact getNearestindexLoop_index _ hlast
      · exact getNearestindexLoop_index _ _
termination_by last - first

/-- It searches the list of the cells in use. -/
theorem getNearestindex_index (b : Uint64Block) (value : ℕ) :
    (getNearestindex b.values b.num value).index = nearest id value b.contents := by
  rw [getNearestindex, nearest]
  simp only [Uint64Block.length_contents]
  split
  · rfl
  · exact getNearestindexLoop_index _ _

/-! ## the operations and the list -/

/-- Moving the cells from an index on up by one makes room for a value. -/
theorem contents_update_memmoveCells {index : ℕ} (h : index ≤ b.num) (value alloc : ℕ) :
    (Uint64Block.mk (Function.update (memmoveCells b.values (index + 1) index (b.num - index)) index value)
      alloc (b.num + 1)).contents = b.contents.take index ++ value :: b.contents.drop index := by
  refine List.ext_getElem (by simp; omega) fun i hi _ => ?_
  simp only [Uint64Block.length_contents] at hi
  rw [Uint64Block.getElem_contents, List.getElem_append]
  simp only [List.length_take, Uint64Block.length_contents, Nat.min_eq_left h]
  rcases Nat.lt_trichotomy i index with hlt | rfl | hgt
  · simp [hlt, Nat.ne_of_lt hlt, memmoveCells, Nat.not_le.mpr (Nat.lt_succ_of_lt hlt)]
  · simp
  · obtain ⟨k, rfl⟩ : ∃ k, i = index + 1 + k := ⟨i - index - 1, by omega⟩
    have hk : index + 1 + k - index = k + 1 := by omega
    have hsrc : k + index = index + k := by omega
    have hin : index + 1 + k < index + 1 + (b.num - index) := by omega
    simp [hk, hsrc, hin, memmoveCells, show ¬index + 1 + k < index by omega,
      show index + 1 + k ≠ index by omega]

/-- Moving the cells behind an index down by one takes the value there away. -/
theorem contents_memmoveCells {index : ℕ} (h : index < b.num) :
    ({ b with values := memmoveCells b.values index (index + 1) (b.num - index - 1), num := b.num - 1 } :
      Uint64Block).contents = b.contents.eraseIdx index := by
  refine List.ext_getElem (by simp [List.length_eraseIdx, h]) fun i hi _ => ?_
  simp only [Uint64Block.length_contents] at hi
  rw [Uint64Block.getElem_contents, List.getElem_eraseIdx]
  rcases Nat.lt_or_ge i index with hlt | hge
  · simp [hlt, memmoveCells, Nat.not_le.mpr hlt]
  · have hsrc : i - index + (index + 1) = i + 1 := by omega
    have hin : i < index + (b.num - index - 1) := by omega
    simp [Nat.not_lt.mpr hge, memmoveCells, hge, hin, hsrc]

/-- The value is found where it stands. -/
theorem found_iff (b : Uint64Block) (value : ℕ) :
    (getNearestindex b.values b.num value).index < b.num ∧
        b.values (getNearestindex b.values b.num value).index = value ↔
      b.contents[nearest id value b.contents]? = some value := by
  rw [getNearestindex_index, Uint64Block.getElem?_contents]

/-- What `uint64_array_add` does: the value is there, or it is put where it belongs. -/
theorem uint64ArrayAdd_cases {index : ℕ} {b' : Uint64Block} (h : b.uint64ArrayAdd value = some (index, b')) :
    index = nearest id value b.contents ∧
      ((b.contents[index]? = some value ∧ b' = b) ∨
        (b.contents[index]? ≠ some value ∧ index ≤ b.num ∧
          b'.contents = b.contents.take index ++ value :: b.contents.drop index ∧
          b'.num = b.num + 1 ∧ b'.alloc = (if b.alloc = b.num then b.alloc + 100 else b.alloc) ∧
          ¬(b.alloc = b.num ∧ 2 ^ 31 ≤ b.alloc + 100))) := by
  have hle := (getNearestindex_reads b.values b.num value).1
  have hindex := getNearestindex_index b value
  rw [Uint64Block.uint64ArrayAdd] at h
  simp only [found_iff] at h
  split at h
  · next hfound =>
      cases h
      exact ⟨hindex, .inl ⟨hindex ▸ hfound, rfl⟩⟩
  · next hnew =>
      split at h
      · cases h
      · next hgrow =>
          cases h
          exact ⟨hindex, .inr ⟨hindex ▸ hnew, hle, contents_update_memmoveCells hle .., rfl, rfl, hgrow⟩⟩

theorem contents_uint64ArrayAdd {index : ℕ} {b' : Uint64Block} (h : b.uint64ArrayAdd value = some (index, b')) :
    b'.contents = uint64ArrayAdd b.contents value := by
  rw [uint64ArrayAdd]
  obtain ⟨rfl, ⟨hfound, rfl⟩ | ⟨hnew, -, hcontents, -⟩⟩ := uint64ArrayAdd_cases h
  · exact (if_pos hfound).symm
  · exact hcontents.trans (if_neg hnew).symm

/-- The index returned is the one of the value. -/
theorem getElem?_uint64ArrayAdd {index : ℕ} {b' : Uint64Block} (h : b.uint64ArrayAdd value = some (index, b')) :
    b'.contents[index]? = some value := by
  obtain ⟨-, ⟨hfound, rfl⟩ | ⟨-, hle, hcontents, -⟩⟩ := uint64ArrayAdd_cases h
  · exact hfound
  · have hlen : (b.contents.take index).length = index := by simp [hle]
    rw [hcontents, List.getElem?_append_right (le_of_eq hlen), hlen]
    simp

theorem uint64ArrayExists_eq (b : Uint64Block) (value : ℕ) :
    b.uint64ArrayExists value = uint64ArrayExists b.contents value := by
  rw [Uint64Block.uint64ArrayExists, uint64ArrayExists]
  exact decide_eq_decide.mpr (found_iff b value)

/-- What `uint64_array_rm` does to the cells in use. -/
theorem contents_uint64ArrayRm (b rmValues : Uint64Block) :
    (b.uint64ArrayRm rmValues).contents = uint64ArrayRm b.contents rmValues.contents := by
  rw [Uint64Block.uint64ArrayRm, uint64ArrayRm]
  generalize rmValues.contents = removed
  induction removed generalizing b with
  | nil => rfl
  | cons value removed ih =>
      rw [List.foldl_cons, List.foldl_cons, ih]
      congr 1
      have hfound := found_iff b value
      have hle := (getNearestindex_reads b.values b.num value).1
      rw [Uint64Block.rmValue]
      by_cases h : b.contents[nearest id value b.contents]? = some value
      · obtain ⟨hlt, hvalue⟩ := hfound.mpr h
        rw [if_neg (by rw [not_or, not_not]; exact ⟨Nat.ne_of_lt hlt, hvalue⟩), if_pos h,
          contents_memmoveCells hlt, getNearestindex_index]
      · rw [if_pos, if_neg h]
        by_contra hnot
        rw [not_or, not_not] at hnot
        exact h (hfound.mp ⟨lt_of_le_of_ne hle hnot.1, hnot.2⟩)

/-! ## the sets of a run -/

variable {ids : Finset ℕ}

theorem holds_empty (values : ℕ → ℕ) {alloc : ℕ} (halloc : alloc < 2 ^ 31) :
    (Uint64Block.mk values alloc 0).Holds ∅ where
  sorted := .nil
  mem_iff := by simp [Uint64Block.contents]
  allocated := ⟨Nat.zero_le _, halloc⟩

/-- The value is added, unless it was there. -/
theorem Uint64Block.Holds.add (hb : b.Holds ids) {index : ℕ} {b' : Uint64Block}
    (h : b.uint64ArrayAdd value = some (index, b')) : b'.Holds (insert value ids) := by
  have hcontents := contents_uint64ArrayAdd h
  refine ⟨hcontents ▸ sorted_uint64ArrayAdd hb.sorted value, fun x => ?_, ?_⟩
  · rw [hcontents, mem_uint64ArrayAdd, hb.mem_iff, Finset.mem_insert]
  · obtain ⟨hnum, halloc⟩ := hb.allocated
    obtain ⟨-, ⟨-, rfl⟩ | ⟨-, -, -, hnum', halloc', hgrow⟩⟩ := uint64ArrayAdd_cases h
    · exact hb.allocated
    · rw [hnum', halloc']
      split <;> omega

/-- A value is not added only where the allocated size overflows. -/
theorem Uint64Block.Holds.add_eq_none (hb : b.Holds ids) (h : b.uint64ArrayAdd value = none) :
    value ∉ ids ∧ b.num = b.alloc ∧ 2 ^ 31 ≤ b.alloc + 100 := by
  rw [Uint64Block.uint64ArrayAdd] at h
  simp only [found_iff] at h
  split at h
  · cases h
  · next hnew =>
      refine ⟨fun hmem => hnew (getElem?_nearest hb.sorted ((hb.mem_iff value).mpr hmem) rfl), ?_⟩
      split at h
      · next hgrow => exact ⟨hgrow.1.symm, hgrow.2⟩
      · cases h

theorem num_rmValue_le (b : Uint64Block) (value : ℕ) :
    (b.rmValue value).num ≤ b.num ∧ (b.rmValue value).alloc = b.alloc := by
  rw [Uint64Block.rmValue]
  split <;> simp

theorem num_uint64ArrayRm_le (b rmValues : Uint64Block) :
    (b.uint64ArrayRm rmValues).num ≤ b.num ∧ (b.uint64ArrayRm rmValues).alloc = b.alloc := by
  rw [Uint64Block.uint64ArrayRm]
  generalize rmValues.contents = removed
  induction removed generalizing b with
  | nil => exact ⟨le_rfl, rfl⟩
  | cons value removed ih =>
      obtain ⟨hnum, halloc⟩ := num_rmValue_le b value
      obtain ⟨hnum', halloc'⟩ := ih (b.rmValue value)
      exact ⟨hnum'.trans hnum, halloc'.trans halloc⟩

/-- The values that are left stay in order. -/
theorem Uint64Block.Holds.contents_rm (hb : b.Holds ids) (rmValues : Uint64Block) :
    (b.uint64ArrayRm rmValues).contents = b.contents.filter (· ∉ rmValues.contents) := by
  have hsorted : (b.uint64ArrayRm rmValues).contents.Pairwise (· < ·) := by
    rw [contents_uint64ArrayRm]
    exact hb.sorted.sublist (sublist_uint64ArrayRm ..)
  refine List.Pairwise.eq_of_mem_iff hsorted (hb.sorted.filter _) fun x => ?_
  rw [contents_uint64ArrayRm, mem_uint64ArrayRm hb.sorted]
  simp

theorem Uint64Block.Holds.rm (hb : b.Holds ids) (rmValues : Uint64Block) :
    (b.uint64ArrayRm rmValues).Holds (ids \ rmValues.contents.toFinset) := by
  refine ⟨?_, fun x => ?_, ?_⟩
  · rw [hb.contents_rm]
    exact hb.sorted.filter _
  · rw [hb.contents_rm]
    simp [hb.mem_iff]
  · obtain ⟨hnum, halloc⟩ := num_uint64ArrayRm_le b rmValues
    rw [halloc]
    exact ⟨hnum.trans hb.allocated.1, hb.allocated.2⟩

theorem Uint64Block.Holds.call (hb : b.Holds ids) {c : Uint64Call} {b' : Uint64Block} (h : b.call c = some b') :
    b'.Holds (c.effect ids) := by
  cases c with
  | add value =>
      obtain ⟨⟨index, b''⟩, hadd, rfl⟩ := Option.map_eq_some_iff.mp h
      exact hb.add hadd
  | lookup value =>
      cases h
      exact hb
  | rm rmValues =>
      cases h
      exact hb.rm rmValues

theorem Uint64Block.Holds.calls (hb : b.Holds ids) {calls : List Uint64Call} {b' : Uint64Block}
    (h : calls.foldlM Uint64Block.call b = some b') : b'.Holds (calls.foldl Uint64Call.effect ids) := by
  induction calls generalizing b ids with
  | nil =>
      cases h
      exact hb
  | cons c calls ih =>
      rw [List.foldlM_cons] at h
      obtain ⟨b'', hcall, hcalls⟩ := Option.bind_eq_some_iff.mp h
      exact ih (hb.call hcall) hcalls

/-- **Sorted sets of identifiers**: after every sequence of calls the array is
strictly sorted and holds what has been added and not removed; the next call
returns the index of the value it adds, which then stands there once, or tells
whether a value is there, or leaves the others in order; and no search leaves
the array.  An add that needs a new cell has no result when the allocated size
overflows. -/
theorem uint64_array_calls (values : ℕ → ℕ) {alloc : ℕ} (halloc : alloc < 2 ^ 31) {calls : List Uint64Call}
    {b : Uint64Block} (hrun : calls.foldlM Uint64Block.call ⟨values, alloc, 0⟩ = some b) :
    let ids := calls.foldl Uint64Call.effect ∅
    b.Holds ids ∧
      (∀ value index b', b.uint64ArrayAdd value = some (index, b') →
        b'.Holds (insert value ids) ∧ b'.contents[index]? = some value ∧ b'.contents.count value = 1 ∧
          (value ∈ ids → b' = b)) ∧
      (∀ value, b.uint64ArrayAdd value = none → value ∉ ids ∧ b.num = b.alloc ∧ 2 ^ 31 ≤ b.alloc + 100) ∧
      (∀ value, b.uint64ArrayExists value = true ↔ value ∈ ids) ∧
      (∀ rmValues, (b.uint64ArrayRm rmValues).contents = b.contents.filter (· ∉ rmValues.contents)) ∧
      ∀ cells num value, (getNearestindex cells num value).index ≤ num ∧
        ∀ i ∈ (getNearestindex cells num value).reads, i < num := by
  intro ids
  have hb : b.Holds ids := (holds_empty values halloc).calls hrun
  refine ⟨hb, fun value index b' h => ?_, fun value => hb.add_eq_none, fun value => ?_, hb.contents_rm,
    getNearestindex_reads⟩
  · have hadd := hb.add h
    have hmem : value ∈ b'.contents := (hadd.mem_iff value).mpr (Finset.mem_insert_self ..)
    refine ⟨hadd, getElem?_uint64ArrayAdd h, List.count_eq_one_of_mem hadd.sorted.nodup hmem, fun hold => ?_⟩
    obtain ⟨rfl, ⟨-, rfl⟩ | ⟨hnew, -⟩⟩ := uint64ArrayAdd_cases h
    · rfl
    · exact absurd (getElem?_nearest hb.sorted ((hb.mem_iff value).mpr hold) rfl) hnew
  · rw [uint64ArrayExists_eq, uint64ArrayExists_iff hb.sorted, hb.mem_iff]

/-- Two values are added to an array that has no cells yet. -/
theorem uint64_array_calls_two :
    ∃ b : Uint64Block, [Uint64Call.add 7, .add 3].foldlM Uint64Block.call ⟨fun _ => 0, 0, 0⟩ = some b ∧
      b.Holds (insert 3 (insert 7 ∅)) := by
  have hrun : ∃ b : Uint64Block,
      [Uint64Call.add 7, .add 3].foldlM Uint64Block.call ⟨fun _ => 0, 0, 0⟩ = some b := by
    simp [Uint64Block.call, Uint64Block.uint64ArrayAdd, getNearestindex, getNearestindexLoop_self]
  obtain ⟨b, hb⟩ := hrun
  exact ⟨b, hb, (uint64_array_calls (fun _ => 0) (by decide) hb).1⟩

end Zabbix
