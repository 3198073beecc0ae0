import Mathlib.Data.List.Sort
import Mathlib.Tactic

/-!
# Cursor

Reading a growing table in batches.  Rows have keys; a reader keeps a mark, and
takes the rows above it in the order of their keys, up to a limit.  Afterwards
the mark is the key of the last row it has taken.

A batch leaves no gap: what is above the old mark and not above the new one is
in it (`mem_batch_of_le`).  So a mark up to which everything is done can move on
when the batch is done (`Complete.advance`), as long as no row comes in behind
it (`Complete.append`).
-/

namespace Cursor

variable {α : Type} (key : α → ℕ)

/-- The first rows above a mark, in the order of their keys. -/
def batch (mark limit : ℕ) (rows : List α) : List α :=
  ((rows.filter fun row => mark < key row).insertionSort fun a b => key a ≤ key b).take limit

/-- The mark after some rows: the key of the last one. -/
def markAfter (mark : ℕ) (rows : List α) : ℕ := rows.foldl (fun _ row => key row) mark

/-- Everything up to a mark is done. -/
def Complete (rows : List α) (done : α → Prop) (mark : ℕ) : Prop := ∀ row ∈ rows, key row ≤ mark → done row

variable {key} {mark limit : ℕ} {rows : List α}

theorem markAfter_nil (mark : ℕ) : markAfter key mark [] = mark := rfl

theorem markAfter_concat (mark : ℕ) (rows : List α) (row : α) :
    markAfter key mark (rows ++ [row]) = key row := by
  rw [markAfter, List.foldl_append]
  rfl

/-! ## batches -/

theorem mem_batch {row : α} (h : row ∈ batch key mark limit rows) : row ∈ rows ∧ mark < key row := by
  have hmem := (List.mem_insertionSort _).mp (List.mem_of_mem_take h)
  exact (List.mem_filter.mp hmem).imp_right of_decide_eq_true

private instance total_key (key : α → ℕ) : Std.Total fun a b => key a ≤ key b :=
  ⟨fun a b => Nat.le_total (key a) (key b)⟩

private instance trans_key (key : α → ℕ) : IsTrans α fun a b => key a ≤ key b :=
  ⟨fun _ _ _ => Nat.le_trans⟩

/-- The keys of a batch come in order. -/
theorem pairwise_batch (key : α → ℕ) (mark limit : ℕ) (rows : List α) :
    (batch key mark limit rows).Pairwise fun a b => key a ≤ key b :=
  (List.pairwise_insertionSort _ _).take

theorem nodup_batch (h : (rows.map key).Nodup) (mark limit : ℕ) :
    ((batch key mark limit rows).map key).Nodup := by
  have hsorted : ((rows.filter fun row => mark < key row).insertionSort fun a b => key a ≤ key b).map key
      |>.Nodup :=
    ((List.perm_insertionSort _ _).map key).nodup_iff.mpr (h.sublist (List.filter_sublist.map key))
  exact hsorted.sublist ((List.take_sublist _ _).map key)

/-- The mark does not go back, and no row of the batch is above it. -/
theorem le_markAfter_batch (key : α → ℕ) (mark limit : ℕ) (rows : List α) :
    mark ≤ markAfter key mark (batch key mark limit rows) ∧
      ∀ row ∈ batch key mark limit rows, key row ≤ markAfter key mark (batch key mark limit rows) := by
  have hsorted := pairwise_batch key mark limit rows
  have habove : ∀ row ∈ batch key mark limit rows, row ∈ rows ∧ mark < key row := fun _ => mem_batch
  rcases List.eq_nil_or_concat (batch key mark limit rows) with hnil | ⟨init, last, hlast⟩
  · rw [hnil]
    exact ⟨Nat.le_refl _, fun _ h => nomatch h⟩
  · rw [List.concat_eq_append] at hlast
    rw [hlast] at hsorted habove ⊢
    rw [markAfter_concat]
    refine ⟨Nat.le_of_lt (habove last (by simp)).2, fun row hrow => ?_⟩
    rcases List.mem_append.mp hrow with hrow | hrow
    · exact (List.pairwise_append.mp hsorted).2.2 row hrow last (List.mem_singleton_self _)
    · rw [List.mem_singleton.mp hrow]

/-- A mark that has not moved has nothing above it to take. -/
theorem lt_markAfter_batch (hne : batch key mark limit rows ≠ []) :
    mark < markAfter key mark (batch key mark limit rows) := by
  obtain ⟨row, hrow⟩ := List.exists_mem_of_ne_nil _ hne
  exact Nat.lt_of_lt_of_le (mem_batch hrow).2 ((le_markAfter_batch key mark limit rows).2 row hrow)

theorem batch_ne_nil {row : α} (hrow : row ∈ rows) (hmark : mark < key row) (hlimit : 0 < limit) :
    batch key mark limit rows ≠ [] := by
  have hmem : row ∈ (rows.filter fun row => mark < key row).insertionSort fun a b => key a ≤ key b :=
    (List.mem_insertionSort _).mpr (List.mem_filter.mpr ⟨hrow, decide_eq_true hmark⟩)
  have hpos := List.length_pos_of_mem hmem
  rw [batch, ← List.length_pos_iff, List.length_take]
  omega

/-- **A batch leaves no gap.** -/
theorem mem_batch_of_le (hkeys : (rows.map key).Nodup) {row : α} (hrow : row ∈ rows) (hmark : mark < key row)
    (hle : key row ≤ markAfter key mark (batch key mark limit rows)) : row ∈ batch key mark limit rows := by
  have hmem : row ∈ (rows.filter fun row => mark < key row).insertionSort fun a b => key a ≤ key b :=
    (List.mem_insertionSort _).mpr (List.mem_filter.mpr ⟨hrow, decide_eq_true hmark⟩)
  rw [← List.take_append_drop limit (List.insertionSort ..)] at hmem
  rcases List.mem_append.mp hmem with htake | hdrop
  · exact htake
  · rcases List.eq_nil_or_concat (batch key mark limit rows) with hnil | ⟨init, last, hlast⟩
    · rw [hnil, markAfter_nil] at hle
      omega
    · rw [List.concat_eq_append] at hlast
      have hmem_last : last ∈ batch key mark limit rows := by simp [hlast]
      rw [hlast, markAfter_concat] at hle
      have hsorted := List.pairwise_insertionSort (fun a b => key a ≤ key b)
        (rows.filter fun row => mark < key row)
      rw [← List.take_append_drop limit (List.insertionSort ..), List.pairwise_append] at hsorted
      have hge : key last ≤ key row := hsorted.2.2 last hmem_last row hdrop
      have heq : row = last :=
        List.inj_on_of_nodup_map hkeys hrow (mem_batch hmem_last).1 (Nat.le_antisymm hle hge)
      rw [heq]
      exact hmem_last

/-! ## marks below which everything is done -/

theorem Complete.mono {done done' : α → Prop} (h : Complete key rows done mark)
    (himp : ∀ row, done row → done' row) : Complete key rows done' mark :=
  fun row hrow hle => himp row (h row hrow hle)

/-- **The mark moves on** when everything up to the new one is done. -/
theorem Complete.advance {done : α → Prop} (h : Complete key rows done mark) {mark' : ℕ}
    (hdone : ∀ row ∈ rows, mark < key row → key row ≤ mark' → done row) : Complete key rows done mark' := by
  intro row hrow hle
  by_cases hmark : key row ≤ mark
  · exact h row hrow hmark
  · exact hdone row hrow (Nat.lt_of_not_le hmark) hle

/-- **Rows that come in above the mark leave it.** -/
theorem Complete.append {done : α → Prop} (h : Complete key rows done mark) {new : List α}
    (hnew : ∀ row ∈ new, mark < key row) : Complete key (rows ++ new) done mark := by
  intro row hrow hle
  rcases List.mem_append.mp hrow with hrow | hrow
  · exact h row hrow hle
  · exact absurd (hnew row hrow) (Nat.not_lt.mpr hle)

end Cursor
