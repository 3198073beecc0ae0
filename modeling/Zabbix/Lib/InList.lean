import Zabbix.Lib.Ascii
import Mathlib.Tactic

/-!
# InList

Conditions `field in (…)` over values that are too many for one list.  The values are split into groups
of up to `max`, and the lists of the groups are joined by `or`.

* `flatten_groups`, `length_of_mem_groups` — the groups of some values;
* `Cond.text`, `Cond.Selects` — how a condition is written, and the rows that it selects.
-/

namespace InList

open Ascii

variable {ν : Type}

/-! ## Groups -/

/-- The groups of what is left, behind the values that the open one has. -/
def groups (max : ℕ) : (cur : List ν) → List ν → List (List ν)
  | cur, [] => [cur]
  | cur, v :: vs => if cur.length = max then cur :: groups max [v] vs else groups max (cur ++ [v]) vs

theorem flatten_groups (max : ℕ) (cur vs : List ν) : (groups max cur vs).flatten = cur ++ vs := by
  induction vs generalizing cur with
  | nil => rw [groups, List.flatten_singleton, List.append_nil]
  | cons v vs ih =>
      rw [groups]
      split
      · rw [List.flatten_cons, ih, List.singleton_append]
      · rw [ih, ← List.append_cons]

/-- Every group has a value, and no more than `max`. -/
theorem length_of_mem_groups {max : ℕ} (hmax : 0 < max) {cur vs g : List ν} (hcur : 0 < cur.length)
    (hle : cur.length ≤ max) (h : g ∈ groups max cur vs) : 0 < g.length ∧ g.length ≤ max := by
  induction vs generalizing cur with
  | nil =>
      obtain rfl := List.mem_singleton.mp h
      exact ⟨hcur, hle⟩
  | cons v vs ih =>
      rw [groups] at h
      split at h
      · rcases List.mem_cons.mp h with rfl | h
        · exact ⟨hcur, hle⟩
        · exact ih (show 0 < [v].length from Nat.one_pos) hmax h
      · refine ih ?_ ?_ h
        · rw [List.length_append, List.length_singleton]
          omega
        · rw [List.length_append, List.length_singleton]
          omega

/-- Few values are one group. -/
theorem groups_of_le {max : ℕ} {cur vs : List ν} (h : cur.length + vs.length ≤ max) :
    groups max cur vs = [cur ++ vs] := by
  induction vs generalizing cur with
  | nil => rw [groups, List.append_nil]
  | cons v vs ih =>
      rw [List.length_cons] at h
      rw [groups, if_neg (by omega), ih (by rw [List.length_append, List.length_singleton]; omega), ← List.append_cons]

theorem groups_ne_nil (max : ℕ) (cur vs : List ν) : groups max cur vs ≠ [] := by
  induction vs generalizing cur with
  | nil => exact List.cons_ne_nil _ _
  | cons v vs ih =>
      rw [groups]
      split
      · exact List.cons_ne_nil _ _
      · exact ih _

/-! ## Conditions -/

/-- A condition on a row. -/
inductive Cond (ν : Type)
  | inList (field : List UInt8) (values : List ν)
  | or (a b : Cond ν)
  | paren (c : Cond ν)

namespace Cond

/-- How a condition is written, with the notation of the values. -/
def text (num : ν → List UInt8) : Cond ν → List UInt8
  | inList field values => field ++ bytes " in (" ++ List.intercalate [comma] (values.map num) ++ bytes ")"
  | or a b => a.text num ++ bytes " or " ++ b.text num
  | paren c => lparen :: (c.text num ++ [rparen])

/-- The lists of a condition, in order. -/
def lists : Cond ν → List (List UInt8 × List ν)
  | inList field values => [(field, values)]
  | or a b => a.lists ++ b.lists
  | paren c => c.lists

/-- The condition can stand beside others: an `or` is in parentheses. -/
def Closed : Cond ν → Prop
  | inList _ _ => True
  | or _ _ => False
  | paren _ => True

/-- The condition selects a row with these values of its fields. -/
def Selects (row : List UInt8 → ν) : Cond ν → Prop
  | inList field values => row field ∈ values
  | or a b => a.Selects row ∨ b.Selects row
  | paren c => c.Selects row

/-- A condition selects what is in one of its lists. -/
theorem selects_iff (row : List UInt8 → ν) (c : Cond ν) : c.Selects row ↔ ∃ l ∈ c.lists, row l.1 ∈ l.2 := by
  induction c with
  | inList field values => simp [Selects, lists]
  | or a b iha ihb => simp only [Selects, iha, ihb, lists, List.mem_append, or_and_right, exists_or]
  | paren c ih => rw [Selects, ih, lists]

/-- A list for each group. -/
def ofGroups (field : List UInt8) : List (List ν) → Cond ν
  | [] => inList field []
  | [g] => inList field g
  | g :: gs => or (inList field g) (ofGroups field gs)

theorem ofGroups_cons (field : List UInt8) (g : List ν) {gs : List (List ν)} (h : gs ≠ []) :
    ofGroups field (g :: gs) = or (inList field g) (ofGroups field gs) := by
  rw [ofGroups]
  exact h

/-- One list is no `or`. -/
theorem closed_ofGroups_singleton (field : List UInt8) (g : List ν) : (ofGroups field [g]).Closed := trivial

theorem lists_ofGroups (field : List UInt8) {gs : List (List ν)} (h : gs ≠ []) :
    (ofGroups field gs).lists = gs.map (field, ·) := by
  induction gs with
  | nil => exact absurd rfl h
  | cons g gs ih =>
      cases gs with
      | nil => rfl
      | cons g' gs =>
          rw [ofGroups_cons _ _ (List.cons_ne_nil _ _), lists, ih (List.cons_ne_nil _ _), lists]
          rfl

end Cond

end InList
