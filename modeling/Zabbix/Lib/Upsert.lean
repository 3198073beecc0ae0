import Mathlib.Data.List.Basic
import Mathlib.Tactic

/-!
# Upsert

Tables that are searched from their beginning: `upsert` changes the first entry
with a property, and appends an entry where none has it.
-/

namespace Upsert

variable {α : Type} (p : α → Prop) [DecidablePred p] (f : α → α) (new : α)

/-- Change the first entry with `p`, or append `new`. -/
def upsert : List α → List α
  | [] => [new]
  | a :: l => if p a then f a :: l else a :: upsert l

variable {p f new}

theorem upsert_of_forall_not {l : List α} (h : ∀ a ∈ l, ¬p a) : upsert p f new l = l ++ [new] := by
  induction l with
  | nil => rfl
  | cons a l ih =>
      rw [List.forall_mem_cons] at h
      rw [upsert, if_neg h.1, ih h.2, List.cons_append]

theorem upsert_append_cons {l₁ l₂ : List α} {a : α} (h : ∀ b ∈ l₁, ¬p b) (ha : p a) :
    upsert p f new (l₁ ++ a :: l₂) = l₁ ++ f a :: l₂ := by
  induction l₁ with
  | nil => rw [List.nil_append, upsert, if_pos ha, List.nil_append]
  | cons b l₁ ih =>
      rw [List.forall_mem_cons] at h
      rw [List.cons_append, upsert, if_neg h.1, ih h.2, List.cons_append]

/-- Either no entry has the property, or there is a first one. -/
theorem forall_not_or_first (p : α → Prop) [DecidablePred p] (l : List α) :
    (∀ a ∈ l, ¬p a) ∨ ∃ l₁ a l₂, l = l₁ ++ a :: l₂ ∧ (∀ b ∈ l₁, ¬p b) ∧ p a := by
  induction l with
  | nil => exact .inl fun _ h => absurd h List.not_mem_nil
  | cons a l ih =>
      by_cases ha : p a
      · exact .inr ⟨[], a, l, rfl, fun _ h => absurd h List.not_mem_nil, ha⟩
      · rcases ih with hnone | ⟨l₁, b, l₂, rfl, hfront, hb⟩
        · exact .inl (List.forall_mem_cons.mpr ⟨ha, hnone⟩)
        · exact .inr ⟨a :: l₁, b, l₂, rfl, List.forall_mem_cons.mpr ⟨ha, hfront⟩, hb⟩

/-- Every entry is an old one, the changed one or the new one. -/
theorem mem_upsert {l : List α} {b : α} (h : b ∈ upsert p f new l) :
    b ∈ l ∨ b = new ∨ ∃ a ∈ l, p a ∧ b = f a := by
  rcases forall_not_or_first p l with hnone | ⟨l₁, a, l₂, rfl, hfront, ha⟩
  · rw [upsert_of_forall_not hnone] at h
    rcases List.mem_append.mp h with h | h
    · exact .inl h
    · exact .inr (.inl (List.mem_singleton.mp h))
  · rw [upsert_append_cons hfront ha] at h
    rcases List.mem_append.mp h with h | h
    · exact .inl (List.mem_append_left _ h)
    · rcases List.mem_cons.mp h with rfl | h
      · exact .inr (.inr ⟨a, by simp, ha, rfl⟩)
      · exact .inl (List.mem_append_right _ (List.mem_cons_of_mem a h))

/-- The first entry with the property is then the one that has been stored. -/
theorem find?_upsert_self {l : List α} (hf : ∀ a ∈ l, p a → f a = new) (hnew : p new) :
    (upsert p f new l).find? (p ·) = some new := by
  rcases forall_not_or_first p l with hnone | ⟨l₁, a, l₂, rfl, hfront, ha⟩
  · rw [upsert_of_forall_not hnone, List.find?_append, List.find?_eq_none.mpr (by simpa using hnone)]
    simp [hnew]
  · rw [upsert_append_cons hfront ha, List.find?_append, List.find?_eq_none.mpr (by simpa using hfront),
      hf a (by simp) ha]
    simp [hnew]

/-- What stands in no entry that is stored or changed is found as before. -/
theorem find?_upsert_of_not {q : α → Bool} {l : List α} (hp : ∀ a, p a → q a = false)
    (hf : ∀ a, p a → q (f a) = false) (hnew : q new = false) :
    (upsert p f new l).find? q = l.find? q := by
  rcases forall_not_or_first p l with hnone | ⟨l₁, a, l₂, rfl, hfront, ha⟩
  · rw [upsert_of_forall_not hnone, List.find?_append, List.find?_singleton, hnew]
    simp
  · rw [upsert_append_cons hfront ha, List.find?_append, List.find?_append, List.find?_cons, List.find?_cons,
      hp a ha, hf a ha]

/-- What is in no entry that is stored or changed is counted as before. -/
theorem countP_upsert_of_not {q : α → Bool} {l : List α} (hp : ∀ a, p a → q a = false)
    (hf : ∀ a, p a → q (f a) = false) (hnew : q new = false) :
    (upsert p f new l).countP q = l.countP q := by
  rcases forall_not_or_first p l with hnone | ⟨l₁, a, l₂, rfl, hfront, ha⟩
  · simp [upsert_of_forall_not hnone, hnew]
  · simp [upsert_append_cons hfront ha, hp a ha, hf a ha]

/-- One more entry is counted where none has the property. -/
theorem countP_upsert_of_none {q : α → Bool} {l : List α} (h : ∀ a ∈ l, ¬p a) (hnew : q new = true) :
    (upsert p f new l).countP q = l.countP q + 1 := by
  simp [upsert_of_forall_not h, hnew]

/-- Where the first entry with the property is changed, it is counted as it is now. -/
theorem countP_upsert_of_first {q : α → Bool} {l : List α} {a : α} (hfirst : l.find? (p ·) = some a)
    (hf : q (f a) = true) : (upsert p f new l).countP q = l.countP q + if q a then 0 else 1 := by
  obtain ⟨ha, l₁, l₂, rfl, hfront⟩ := List.find?_eq_some_iff_append.mp hfirst
  rw [upsert_append_cons (by simpa using hfront) (by simpa using ha)]
  by_cases hq : q a <;> simp [List.countP_append, hf, hq, Nat.add_assoc]

/-! ## keys -/

/-- What is found by its key is what has it. -/
theorem find?_of_nodup {β : Type} [DecidableEq β] {key : α → β} {l : List α} (h : (l.map key).Nodup) {a : α}
    (ha : a ∈ l) : l.find? (fun b => key b = key a) = some a := by
  obtain ⟨b, hb⟩ : ∃ b, l.find? (fun b => key b = key a) = some b :=
    Option.isSome_iff_exists.mp (List.find?_isSome.mpr ⟨a, ha, by simp⟩)
  have hkey : key b = key a := by simpa using List.find?_some hb
  rw [hb, List.inj_on_of_nodup_map h (List.mem_of_find?_eq_some hb) ha hkey]

end Upsert
