import Mathlib.Data.List.Basic
import Mathlib.Tactic

/-!
# Nesting

Texts with quoted strings and nested brackets, by what a flat scanner can see
of them: whether it is inside a string, and how many brackets are open.

`walk` goes over a text from a state to the state behind it.  It gives up where
a scanner would find what it looks for: a closing bracket, or (if wanted) a
separator, at depth zero.  So a text with a `walk` is one that scanners pass
over, whatever comes behind it.
-/

namespace Nesting

/-- What a symbol means to a scanner. -/
inductive Kind
  | quote
  | escape
  | opening
  | closing
  | separator
  | other
deriving DecidableEq

variable {α : Type} (kind : α → Kind)

/-- Pass over a text, if nothing in it is to be found; `separators` are looked
for when it is set, `inString` is set between quotes. -/
def walk (separators inString : Bool) (depth : ℕ) : List α → Option (Bool × ℕ)
  | [] => some (inString, depth)
  | c :: s =>
      match kind c with
      | .quote => walk separators (!inString) depth s
      | .escape =>
          if inString then
            match s with
            | [] => none
            | _ :: s => walk separators inString depth s
          else walk separators inString depth s
      | .opening => walk separators inString (if inString then depth else depth + 1) s
      | .closing =>
          if inString then walk separators inString depth s
          else if depth = 0 then none
          else walk separators inString (depth - 1) s
      | .separator =>
          if separators = true ∧ inString = false ∧ depth = 0 then none
          else walk separators inString depth s
      | .other => walk separators inString depth s

variable {kind}

@[simp] theorem walk_nil (separators inString : Bool) (depth : ℕ) :
    walk kind separators inString depth [] = some (inString, depth) := rfl

theorem walk_cons (separators inString : Bool) (depth : ℕ) (c : α) (s : List α) :
    walk kind separators inString depth (c :: s) =
      match kind c with
      | .quote => walk kind separators (!inString) depth s
      | .escape =>
          if inString then
            match s with
            | [] => none
            | _ :: s => walk kind separators inString depth s
          else walk kind separators inString depth s
      | .opening => walk kind separators inString (if inString then depth else depth + 1) s
      | .closing =>
          if inString then walk kind separators inString depth s
          else if depth = 0 then none
          else walk kind separators inString (depth - 1) s
      | .separator =>
          if separators = true ∧ inString = false ∧ depth = 0 then none
          else walk kind separators inString depth s
      | .other => walk kind separators inString depth s := by
  rw [walk.eq_def]

/-- Inside a string only quotes and escapes matter. -/
theorem walk_cons_of_inString {separators : Bool} {depth : ℕ} {c : α} (hq : kind c ≠ .quote)
    (he : kind c ≠ .escape) (s : List α) :
    walk kind separators true depth (c :: s) = walk kind separators true depth s := by
  rw [walk_cons]
  cases hc : kind c <;> simp_all

theorem walk_cons_of_other {separators inString : Bool} {depth : ℕ} {c : α} (hc : kind c = .other)
    (s : List α) : walk kind separators inString depth (c :: s) = walk kind separators inString depth s := by
  rw [walk_cons]
  simp [hc]

theorem walk_cons_of_quote {separators inString : Bool} {depth : ℕ} {c : α} (hc : kind c = .quote)
    (s : List α) :
    walk kind separators inString depth (c :: s) = walk kind separators (!inString) depth s := by
  rw [walk_cons]
  simp [hc]

theorem walk_cons_of_escape {separators : Bool} {depth : ℕ} {c : α} (hc : kind c = .escape) (d : α)
    (s : List α) : walk kind separators true depth (c :: d :: s) = walk kind separators true depth s := by
  rw [walk_cons]
  simp [hc]

theorem walk_cons_of_escape_outside {separators : Bool} {depth : ℕ} {c : α} (hc : kind c = .escape)
    (s : List α) : walk kind separators false depth (c :: s) = walk kind separators false depth s := by
  rw [walk_cons]
  simp [hc]

theorem walk_cons_of_opening {separators : Bool} {depth : ℕ} {c : α} (hc : kind c = .opening)
    (s : List α) :
    walk kind separators false depth (c :: s) = walk kind separators false (depth + 1) s := by
  rw [walk_cons]
  simp [hc]

theorem walk_cons_of_closing {separators : Bool} {depth : ℕ} {c : α} (hc : kind c = .closing)
    (s : List α) :
    walk kind separators false (depth + 1) (c :: s) = walk kind separators false depth s := by
  rw [walk_cons]
  simp [hc]

theorem walk_cons_of_separator {inString : Bool} {depth : ℕ} {c : α} (hc : kind c = .separator)
    (s : List α) : walk kind false inString depth (c :: s) = walk kind false inString depth s := by
  rw [walk_cons]
  simp [hc]

/-- Texts are passed over one after the other. -/
theorem walk_append {separators inString inString' : Bool} {depth depth' : ℕ} {s : List α}
    (h : walk kind separators inString depth s = some (inString', depth')) (t : List α) :
    walk kind separators inString depth (s ++ t) = walk kind separators inString' depth' t := by
  fun_induction walk kind separators inString depth s <;>
    simp_all [walk_cons]

/-- Inside brackets separators do not count, nor do brackets outside. -/
theorem walk_within {inString inString' : Bool} {depth depth' : ℕ} {s : List α}
    (h : walk kind false inString depth s = some (inString', depth')) (separators : Bool) (k : ℕ) :
    walk kind separators inString (depth + (k + 1)) s = some (inString', depth' + (k + 1)) := by
  fun_induction walk kind false inString depth s
  case case6 inString depth c s hc ih =>
    rw [walk_cons]
    cases inString with
    | false => simpa [hc, Nat.add_right_comm depth 1] using ih h
    | true => simpa [hc] using ih h
  case case9 inString depth c s hc hs hd ih =>
    have hdepth : depth + (k + 1) - 1 = depth - 1 + (k + 1) := by omega
    rw [walk_cons]
    simpa [hc, hs, hdepth] using ih h
  all_goals simp_all [walk_cons]

end Nesting
