import Mathlib.Data.List.Basic
import Mathlib.Tactic

/-!
# Run

Systems that take one step after the other: a state, and an event for every
step.  When processes work side by side, the events of all of them are one list,
in the order in which they happen to take place.

What holds at the start and is kept by every step holds after every run
(`invariant_run`), also when the steps are known to have a property in the
states they are taken in (`Along`).
-/

namespace Run

variable {σ ε : Type} (step : σ → ε → σ)

/-- The state after some steps. -/
def run (s : σ) (es : List ε) : σ := es.foldl step s

@[simp] theorem run_nil (s : σ) : run step s [] = s := rfl

@[simp] theorem run_cons (s : σ) (e : ε) (es : List ε) : run step s (e :: es) = run step (step s e) es := rfl

theorem run_append (s : σ) (es es' : List ε) : run step s (es ++ es') = run step (run step s es) es' :=
  List.foldl_append

/-- Every step has a property, in the state it is taken in. -/
def Along (P : σ → ε → Prop) : σ → List ε → Prop
  | _, [] => True
  | s, e :: es => P s e ∧ Along P (step s e) es

instance decidableAlong {P : σ → ε → Prop} [∀ s e, Decidable (P s e)] :
    (s : σ) → (es : List ε) → Decidable (Along step P s es)
  | _, [] => isTrue trivial
  | s, e :: es => @instDecidableAnd (P s e) _ _ (decidableAlong (step s e) es)

variable {step}

theorem along_append {P : σ → ε → Prop} {s : σ} {es es' : List ε} :
    Along step P s (es ++ es') ↔ Along step P s es ∧ Along step P (run step s es) es' := by
  induction es generalizing s with
  | nil => simp [Along]
  | cons e es ih => simp [Along, ih, and_assoc]

/-- A property of every step is one of each place in the run. -/
theorem along_iff {P : σ → ε → Prop} {s : σ} {es : List ε} :
    Along step P s es ↔ ∀ before e after, es = before ++ e :: after → P (run step s before) e := by
  constructor
  · rintro h before e after rfl
    exact (along_append.mp h).2.1
  · intro h
    induction es generalizing s with
    | nil => trivial
    | cons e es ih =>
        refine ⟨h [] e es rfl, ih fun before e' after hes => ?_⟩
        have := h (e :: before) e' after (by rw [hes, List.cons_append])
        rwa [run_cons] at this

/-- **Invariants**: what every step keeps holds after every run. -/
theorem invariant_run {I : σ → Prop} {P : σ → ε → Prop} (hstep : ∀ s e, I s → P s e → I (step s e))
    {s : σ} {es : List ε} (h0 : I s) (h : Along step P s es) : I (run step s es) := by
  induction es generalizing s with
  | nil => exact h0
  | cons e es ih => exact ih (hstep s e h0 h.1) h.2

/-- What every step keeps, whatever the step. -/
theorem invariant_run' {I : σ → Prop} (hstep : ∀ s e, I s → I (step s e)) {s : σ} (h0 : I s)
    (es : List ε) : I (run step s es) := by
  induction es generalizing s with
  | nil => exact h0
  | cons e es ih => exact ih (hstep s e h0)

end Run
