import Mathlib.Data.List.Basic
import Mathlib.Logic.Function.Basic
import Mathlib.Tactic

/-!
# Mem

Byte memory and the NUL-terminated strings in it.  A memory is a function
from offsets to bytes; `write` stores a byte list, `move` is `memmove`, `read`
reads a range back as a list.

`Holds m p s` says that a NUL-terminated copy of `s` starts at `p`, and
`Laid m hi lo rs` that the ranges `rs` (offset, string) lie in `[lo, hi)` one
after the other, each holding its string.  A layout survives everything a
bump-allocated text buffer does to it: removing ranges, allocating past its
end, and moving the whole block down.
-/

/-- A C string: a byte list without NUL. -/
def CString : Type := {s : List UInt8 // (0 : UInt8) ∉ s}

instance : DecidableEq CString := inferInstanceAs (DecidableEq {s : List UInt8 // (0 : UInt8) ∉ s})

/-- The empty string. -/
def CString.empty : CString := ⟨[], List.not_mem_nil⟩

/-- The bytes from `start` to `stop`. -/
def CString.between (s : CString) (start stop : Nat) : CString :=
  ⟨(s.val.take stop).drop start, fun h => s.property (List.mem_of_mem_take (List.mem_of_mem_drop h))⟩

/-- Byte memory, by offset. -/
abbrev Mem := Nat → UInt8

namespace Mem

/-! ## reading and writing -/

/-- The `n` bytes from `p` on. -/
def read (m : Mem) (p n : Nat) : List UInt8 := (List.range n).map fun i => m (p + i)

/-- Store the bytes `s` from `p` on. -/
def write (m : Mem) (p : Nat) (s : List UInt8) : Mem :=
  fun k => if p ≤ k then (s[k - p]?).getD (m k) else m k

/-- `memmove`: copy `n` bytes from `src` to `dst`. -/
def move (m : Mem) (dst src n : Nat) : Mem :=
  fun k => if dst ≤ k ∧ k < dst + n then m (k - dst + src) else m k

@[simp] theorem length_read (m : Mem) (p n : Nat) : (m.read p n).length = n := by
  simp [read]

@[simp] theorem read_zero (m : Mem) (p : Nat) : m.read p 0 = [] := rfl

theorem getElem_read (m : Mem) (p n i : Nat) (h : i < (m.read p n).length) :
    (m.read p n)[i] = m (p + i) := by
  simp [read]

/-- Two memories that agree on a range read the same there. -/
theorem read_congr {m m' : Mem} {p q n : Nat} (h : ∀ i, i < n → m (p + i) = m' (q + i)) :
    m.read p n = m'.read q n := by
  apply List.map_congr_left
  intro i hi
  exact h i (List.mem_range.mp hi)

/-- A range splits at any point. -/
theorem read_add (m : Mem) (p n k : Nat) : m.read p (n + k) = m.read p n ++ m.read (p + n) k := by
  simp [read, List.range_add, Function.comp_def, Nat.add_assoc]

theorem read_succ (m : Mem) (p n : Nat) : m.read p (n + 1) = m p :: m.read (p + 1) n := by
  rw [Nat.add_comm n 1, read_add]
  simp [read]

theorem write_of_lt (m : Mem) {p k : Nat} (s : List UInt8) (h : k < p) : m.write p s k = m k := by
  simp [write, Nat.not_le.mpr h]

theorem write_of_le (m : Mem) {p k : Nat} {s : List UInt8} (h : p + s.length ≤ k) :
    m.write p s k = m k := by
  have hn : s[k - p]? = none := List.getElem?_eq_none (by omega)
  simp [write, hn]

theorem write_add (m : Mem) (p : Nat) {s : List UInt8} {i : Nat} (h : i < s.length) :
    m.write p s (p + i) = s[i] := by
  simp [write, h]

/-- What was written is read back. -/
theorem read_write_self (m : Mem) (p : Nat) (s : List UInt8) :
    (m.write p s).read p s.length = s := by
  apply List.ext_getElem
  · simp
  · intro i h _
    rw [getElem_read, write_add m p (by simpa using h)]

/-- A write past a range does not touch it. -/
theorem read_write_of_le (m : Mem) {p n q : Nat} (s : List UInt8) (h : p + n ≤ q) :
    (m.write q s).read p n = m.read p n :=
  read_congr fun i _ => write_of_lt m s (by omega)

/-- A write before a range does not touch it. -/
theorem read_write_of_ge (m : Mem) {p n q : Nat} {s : List UInt8} (h : q + s.length ≤ p) :
    (m.write q s).read p n = m.read p n :=
  read_congr fun i _ => write_of_le m (by omega)

/-- Writing a list is writing its head and then its tail. -/
theorem write_cons (m : Mem) (p : Nat) (c : UInt8) (s : List UInt8) :
    m.write p (c :: s) = write (Function.update m p c) (p + 1) s := by
  funext k
  rcases Nat.lt_trichotomy k p with h | h | h
  · rw [write_of_lt _ _ h, write_of_lt _ _ (by omega), Function.update_of_ne (by omega)]
  · subst h
    rw [write_of_lt _ s (by omega : k < k + 1), Function.update_self]
    simp [write]
  · obtain ⟨i, rfl⟩ : ∃ i, k = p + 1 + i := ⟨k - (p + 1), by omega⟩
    have hi : p + 1 + i - p = i + 1 := by omega
    simp only [write, if_pos (by omega : p ≤ p + 1 + i), if_pos (by omega : p + 1 ≤ p + 1 + i), hi,
      List.getElem?_cons_succ, Nat.add_sub_cancel_left]
    rw [Function.update_of_ne (by omega)]

@[simp] theorem write_nil (m : Mem) (p : Nat) : m.write p [] = m := by
  funext k
  simp [write]

/-- A moved range reads as its source. -/
theorem read_move (m : Mem) {dst src n i k : Nat} (h : i + k ≤ n) :
    (m.move dst src n).read (dst + i) k = m.read (src + i) k := by
  apply read_congr
  intro j hj
  rw [move, if_pos ⟨by omega, by omega⟩]
  congr 1
  omega

/-- A move does not touch what lies before its destination. -/
theorem read_move_of_le (m : Mem) {dst src n p k : Nat} (h : p + k ≤ dst) :
    (m.move dst src n).read p k = m.read p k := by
  apply read_congr
  intro j hj
  rw [move, if_neg (by omega)]

/-! ## NUL-terminated strings -/

/-- The C string at `p`, read up to its NUL or to the end of the memory,
`fuel` bytes on. -/
def strAt (m : Mem) : (fuel p : Nat) → List UInt8
  | 0, _ => []
  | fuel + 1, p => if m p = 0 then [] else m p :: strAt m fuel (p + 1)

theorem not_mem_strAt (m : Mem) (fuel p : Nat) : (0 : UInt8) ∉ m.strAt fuel p := by
  induction fuel generalizing p with
  | zero => simp [strAt]
  | succ fuel ih =>
      rw [strAt]
      split
      · simp
      · next h =>
          rw [List.mem_cons, not_or]
          exact ⟨fun h0 => h h0.symm, ih (p + 1)⟩

/-- Strings are read from their offset on. -/
theorem strAt_congr {m m' : Mem} {fuel p : Nat} (h : ∀ k, p ≤ k → m k = m' k) : m.strAt fuel p = m'.strAt fuel p := by
  induction fuel generalizing p with
  | zero => rfl
  | succ fuel ih => rw [strAt, strAt, h p (le_refl _), ih fun k hk => h k (by omega)]

/-- A NUL-terminated copy of `s` starts at `p`. -/
def Holds (m : Mem) (p : Nat) (s : List UInt8) : Prop :=
  m.read p (s.length + 1) = s ++ [0]

/-- Reading a string that lies inside the memory returns it. -/
theorem strAt_of_holds {m : Mem} {p fuel : Nat} {s : List UInt8} (h : Holds m p s)
    (h0 : (0 : UInt8) ∉ s) (hf : s.length < fuel) : m.strAt fuel p = s := by
  induction s generalizing p fuel with
  | nil =>
      obtain ⟨fuel, rfl⟩ := Nat.exists_eq_add_of_lt hf
      have hp : m p = 0 := by simpa [Holds, read] using h
      simp [strAt, hp]
  | cons c s ih =>
      obtain ⟨fuel, rfl⟩ : ∃ k, fuel = k + 1 := ⟨fuel - 1, by simp at hf; omega⟩
      rw [Holds, List.length_cons, read_succ, List.cons_append, List.cons.injEq] at h
      obtain ⟨hc, hs⟩ := h
      rw [List.mem_cons, not_or] at h0
      rw [strAt, if_neg (by rw [hc]; exact Ne.symm h0.1), hc,
        ih hs h0.2 (by simpa using hf)]

/-- A write past a string does not touch it. -/
theorem Holds.write {m : Mem} {p q : Nat} {s : List UInt8} (h : Holds m p s)
    (t : List UInt8) (hq : p + s.length + 1 ≤ q) : Holds (m.write q t) p s := by
  rw [Holds, read_write_of_le m t (by omega)]
  exact h

/-- The end of a string is a string. -/
theorem Holds.suffix {m : Mem} {p : Nat} {a b : List UInt8} (h : Holds m p (a ++ b)) :
    Holds m (p + a.length) b := by
  have hsplit : m.read p (a.length + (b.length + 1)) = a ++ (b ++ [0]) := by
    rw [← List.append_assoc, ← h, List.length_append, Nat.add_assoc]
  rw [read_add] at hsplit
  exact (List.append_inj hsplit (by simp)).2

/-- **A NUL planted in a string** ends it there; the rest of it is a string behind the NUL. -/
theorem Holds.plant {m : Mem} {p : Nat} {a b : List UInt8} {c : UInt8} (h : Holds m p (a ++ c :: b)) :
    Holds (m.write (p + a.length) [0]) p a ∧ Holds (m.write (p + a.length) [0]) (p + a.length + 1) b := by
  have hsplit : m.read p (a.length + (1 + (b.length + 1))) = a ++ ([c] ++ (b ++ [0])) := by
    have hlen : a.length + (1 + (b.length + 1)) = (a ++ c :: b).length + 1 := by
      simp only [List.length_append, List.length_cons]
      omega
    rw [hlen, h]
    simp
  rw [read_add, read_add] at hsplit
  obtain ⟨ha, hrest⟩ := List.append_inj hsplit (by simp)
  obtain ⟨-, hb⟩ := List.append_inj hrest (by simp)
  constructor
  · rw [Holds, read_add, read_write_of_le _ _ (le_refl _), ha]
    exact congrArg (a ++ ·) (read_write_self m (p + a.length) [0])
  · rw [Holds, read_write_of_ge _ (by simp), hb]

/-- **Insertion into a string**: moving the end of a string up and writing into
the gap. -/
theorem Holds.insert {m : Mem} {a b : List UInt8} (h : Holds m 0 (a ++ b)) (t : List UInt8) :
    Holds ((m.move (a.length + t.length) a.length (b.length + 1)).write a.length t) 0
      (a ++ t ++ b) := by
  have hsplit : m.read 0 (a.length + (b.length + 1)) = a ++ (b ++ [0]) := by
    rw [← List.append_assoc, ← h, List.length_append, Nat.add_assoc]
  rw [read_add, Nat.zero_add] at hsplit
  obtain ⟨ha, hb⟩ := List.append_inj hsplit (by simp)
  have hlen : (a ++ t ++ b).length + 1 = a.length + (t.length + (b.length + 1)) := by
    simp only [List.length_append]
    omega
  rw [Holds, hlen, read_add, read_add, Nat.zero_add, read_write_of_le _ _ (by omega),
    read_move_of_le _ (by omega), ha, read_write_self, read_write_of_ge _ (le_refl _)]
  have hmove : (m.move (a.length + t.length) a.length (b.length + 1)).read
      (a.length + t.length + 0) (b.length + 1) = m.read (a.length + 0) (b.length + 1) :=
    read_move m (by omega)
  simp only [Nat.add_zero] at hmove
  rw [hmove, hb, List.append_assoc, List.append_assoc]

/-! ## ranges laid out one after the other -/

/-- The ranges `rs`, each an offset and the string it holds, lie in `[lo, hi)`
in order and without overlap. -/
def Laid (m : Mem) (hi : Nat) : (lo : Nat) → List (Nat × List UInt8) → Prop
  | lo, [] => lo ≤ hi
  | lo, (p, s) :: rs =>
      lo ≤ p ∧ Holds m p s ∧ (0 : UInt8) ∉ s ∧ Laid m hi (p + s.length + 1) rs

variable {m : Mem} {hi lo : Nat} {rs : List (Nat × List UInt8)}

theorem Laid.le (h : Laid m hi lo rs) : lo ≤ hi := by
  induction rs generalizing lo with
  | nil => exact h
  | cons r rs ih =>
      obtain ⟨p, s⟩ := r
      have := ih h.2.2.2
      have := h.1
      omega

/-- A layout may start lower. -/
theorem Laid.mono (h : Laid m hi lo rs) {lo' : Nat} (hlo : lo' ≤ lo) : Laid m hi lo' rs := by
  cases rs with
  | nil => exact le_trans hlo h
  | cons r rs => exact ⟨le_trans hlo h.1, h.2⟩

/-- Removing ranges keeps a layout. -/
theorem Laid.sublist (h : Laid m hi lo rs) {rs' : List (Nat × List UInt8)}
    (hs : rs'.Sublist rs) : Laid m hi lo rs' := by
  induction hs generalizing lo with
  | slnil => exact h
  | cons r _ ih => exact ih (h.2.2.2.mono (by have := h.1; omega))
  | cons_cons r _ ih => exact ⟨h.1, h.2.1, h.2.2.1, ih h.2.2.2⟩

/-- Every range of a layout lies inside it and holds its string. -/
theorem Laid.of_mem (h : Laid m hi lo rs) {p : Nat} {s : List UInt8} (hr : (p, s) ∈ rs) :
    lo ≤ p ∧ p + s.length < hi ∧ Holds m p s ∧ (0 : UInt8) ∉ s := by
  induction rs generalizing lo with
  | nil => cases hr
  | cons r rs ih =>
      obtain ⟨q, t⟩ := r
      obtain ⟨hq, ht, h0, hrest⟩ := h
      rcases List.mem_cons.mp hr with he | hmem
      · cases he
        exact ⟨hq, by have := hrest.le; omega, ht, h0⟩
      · obtain ⟨h1, h2⟩ := ih hrest hmem
        exact ⟨by omega, h2⟩

/-- The ranges of a layout are in order, so pairwise disjoint. -/
theorem Laid.pairwise (h : Laid m hi lo rs) :
    rs.Pairwise fun r r' => r.1 + r.2.length + 1 ≤ r'.1 := by
  induction rs generalizing lo with
  | nil => exact List.Pairwise.nil
  | cons r rs ih =>
      obtain ⟨p, s⟩ := r
      refine List.Pairwise.cons ?_ (ih h.2.2.2)
      rintro ⟨q, t⟩ hq
      exact (h.2.2.2.of_mem hq).1

/-- **Allocation**: storing a string at the end of a layout extends it. -/
theorem Laid.alloc (h : Laid m hi lo rs) {s : List UInt8} (h0 : (0 : UInt8) ∉ s) :
    Laid (m.write hi (s ++ [0])) (hi + s.length + 1) lo (rs ++ [(hi, s)]) := by
  induction rs generalizing lo with
  | nil =>
      refine ⟨h, ?_, h0, le_refl _⟩
      have hr := read_write_self m hi (s ++ [0])
      rwa [List.length_append, List.length_singleton] at hr
  | cons r rs ih =>
      obtain ⟨p, t⟩ := r
      have hle := h.2.2.2.le
      exact ⟨h.1, h.2.1.write _ (by omega), h.2.2.1, ih h.2.2.2⟩

/-- **Compaction**: moving the block `[off, off + n)` to the start of the
memory moves the layout down by `off`. -/
theorem Laid.move (h : Laid m hi lo rs) {off n : Nat} (hlo : off ≤ lo) (hn : hi ≤ off + n) :
    Laid (m.move 0 off n) (hi - off) (lo - off) (rs.map fun r => (r.1 - off, r.2)) := by
  induction rs generalizing lo with
  | nil =>
      have : lo ≤ hi := h
      show lo - off ≤ hi - off
      omega
  | cons r rs ih =>
      obtain ⟨p, s⟩ := r
      obtain ⟨hp, hs, h0, hrest⟩ := h
      have hle := hrest.le
      refine ⟨by dsimp only; omega, ?_, h0, ?_⟩
      · have hr : (m.move 0 off n).read (0 + (p - off)) (s.length + 1) = _ :=
          read_move m (by omega)
        rw [Nat.zero_add, Nat.add_sub_cancel' (by omega : off ≤ p)] at hr
        exact hr.trans hs
      · have h' := ih hrest (by omega)
        have he : p + s.length + 1 - off = p - off + s.length + 1 := by omega
        rwa [he] at h'

end Mem
