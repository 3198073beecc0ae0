import Mathlib.Tactic

/-!
# Outcome

What a program in `Except` can come to: a stop that is allowed, or a value that
has a property.
-/

namespace Outcome

variable {ε α β : Type} {E : ε → Prop} {P : α → Prop} {Q : β → Prop}

@[simp] theorem ok_bind (a : α) (f : α → Except ε β) : ((Except.ok a : Except ε α) >>= f) = f a := rfl

/-- What returns as a whole returns in its first part. -/
theorem bind_eq_ok {x : Except ε α} {f : α → Except ε β} {b : β} (h : (x >>= f) = .ok b) :
    ∃ a, x = .ok a ∧ f a = .ok b := by
  cases x with
  | ok a => exact ⟨a, rfl, h⟩
  | error e => cases h

theorem map_eq_ok {x : Except ε α} {f : α → β} {b : β} : x.map f = .ok b ↔ ∃ a, x = .ok a ∧ f a = b := by
  cases x with
  | error e => simp [Except.map]
  | ok a => simp [Except.map]

/-- Steps that leave the state as it was. -/
theorem foldlM_same {σ : Type} {f : σ → α → Except ε σ} {s : σ} {as : List α} (h : ∀ a ∈ as, f s a = .ok s) :
    as.foldlM f s = .ok s := by
  induction as with
  | nil => rfl
  | cons a as ih =>
      obtain ⟨ha, hrest⟩ := List.forall_mem_cons.mp h
      rw [List.foldlM_cons, ha, ok_bind, ih hrest]

/-- What every step keeps is kept by all of them. -/
theorem foldlM_keeps {σ : Type} {R : σ → σ → Prop} {f : σ → α → Except ε σ} (hrefl : ∀ s, R s s)
    (htrans : ∀ s s' s'', R s s' → R s' s'' → R s s'') (hstep : ∀ s a s', f s a = .ok s' → R s s') {as : List α}
    {s s' : σ} (h : as.foldlM f s = .ok s') : R s s' := by
  induction as generalizing s with
  | nil =>
      cases h
      exact hrefl _
  | cons a as ih =>
      rw [List.foldlM_cons] at h
      obtain ⟨s₁, hfirst, hrest⟩ := bind_eq_ok h
      exact htrans _ _ _ (hstep _ _ _ hfirst) (ih hrest)

/-- Steps that return whatever others return. -/
theorem foldlM_mono {σ : Type} {f g : σ → α → Except ε σ} (hstep : ∀ s a s', f s a = .ok s' → g s a = .ok s')
    {as : List α} {s s' : σ} (h : as.foldlM f s = .ok s') : as.foldlM g s = .ok s' := by
  induction as generalizing s with
  | nil => exact h
  | cons a as ih =>
      rw [List.foldlM_cons] at h ⊢
      obtain ⟨s₁, hfirst, hrest⟩ := bind_eq_ok h
      rw [hstep _ _ _ hfirst, ok_bind]
      exact ih hrest

/-- Steps of which only one does not leave the state as it was. -/
theorem foldlM_only {σ : Type} {f : σ → α → Except ε σ} {b : α} {as : List α} (hnodup : as.Nodup) (hb : b ∈ as)
    (h : ∀ a ∈ as, a ≠ b → ∀ s, f s a = .ok s) (s : σ) : as.foldlM f s = f s b := by
  induction as with
  | nil => cases hb
  | cons a as ih =>
      obtain ⟨ha, hrest⟩ := List.forall_mem_cons.mp h
      obtain ⟨hnot, hnodup⟩ := List.nodup_cons.mp hnodup
      rw [List.foldlM_cons]
      by_cases hab : a = b
      · subst hab
        cases hstep : f s a with
        | error e => rfl
        | ok s' => exact foldlM_same fun x hx => hrest x hx (fun heq => hnot (heq ▸ hx)) s'
      · rw [ha hab, ok_bind]
        exact ih hnodup ((List.mem_cons.mp hb).resolve_left (Ne.symm hab)) hrest

/-- A stop that is handed on under another name. -/
theorem mapError_eq_ok {ε' : Type} {f : ε → ε'} {x : Except ε α} {a : α} : x.mapError f = .ok a ↔ x = .ok a := by
  cases x <;> simp [Except.mapError]

/-- The program stops with one of `E`, or returns one of `P`. -/
inductive Ends (E : ε → Prop) (P : α → Prop) : Except ε α → Prop
  | error {e : ε} : E e → Ends E P (.error e)
  | ok {a : α} : P a → Ends E P (.ok a)

theorem Ends.mono {P' : α → Prop} {x : Except ε α} (h : Ends E P x) (himp : ∀ a, P a → P' a) : Ends E P' x := by
  cases h with
  | error he => exact .error he
  | ok ha => exact .ok (himp _ ha)

theorem Ends.bind {x : Except ε α} {f : α → Except ε β} (hx : Ends E P x) (hf : ∀ a, P a → Ends E Q (f a)) :
    Ends E Q (x >>= f) := by
  cases hx with
  | error he => exact .error he
  | ok ha => exact hf _ ha

theorem Ends.map {x : Except ε α} {f : α → β} (hx : Ends E (fun a => Q (f a)) x) : Ends E Q (x.map f) := by
  cases hx with
  | error he => exact .error he
  | ok ha => exact .ok ha

/-- A value that is returned is one of those. -/
theorem Ends.of_ok {x : Except ε α} {a : α} (h : Ends E P x) (hx : x = .ok a) : P a := by
  subst hx
  cases h with
  | ok ha => exact ha

end Outcome
