import Zabbix.Params.ParamList

/-!
# Zabbix.Params.ParamCount

The number of parameters that `num_param` returns against the parameters that `get_param`
finds.

Both count commas, with a state machine each.  `commaRoles` runs the two machines side by
side and says of every comma of a list whether it separates for the one and for the other.
-/

namespace Zabbix

open Ascii

/-! ## the commas that `get_param` counts -/

/-- The commas with an even number of quotes in front of them and something behind. -/
def reachedCommas : (quoted : Bool) → List UInt8 → ℕ
  | _, [] => 0
  | quoted, c :: s =>
      if c = dquote then reachedCommas (!quoted) s
      else if c = comma ∧ quoted = false then reachedCommas false s + (if s = [] then 0 else 1)
      else reachedCommas quoted s

/-- Something stands at a parameter if it is not behind the last comma that is counted. -/
theorem any_paramRest (n : ℕ) (quoted : Bool) (s : List UInt8) :
    (paramRest (n + 1) quoted s).any (· ≠ []) = true ↔ n + 1 ≤ reachedCommas quoted s := by
  induction s generalizing n quoted with
  | nil => simp [paramRest, reachedCommas]
  | cons c s ih =>
      unfold paramRest reachedCommas
      by_cases hd : c = dquote
      · simp only [hd, if_true]
        exact ih n (!quoted)
      by_cases hc : c = comma ∧ quoted = false
      · obtain ⟨rfl, rfl⟩ := hc
        simp only [hd, and_self, if_true, if_false]
        cases n with
        | zero =>
            by_cases hs : s = []
            · simp [hs, paramRest, reachedCommas]
            · simp [hs, paramRest]
        | succ n =>
            rw [ih n false]
            by_cases hs : s = []
            · simp [hs, reachedCommas]
            · simp [hs]
      · simp only [hd, hc, if_false]
        exact ih n quoted

/-- With enough room `get_param` finds the first parameter and each one behind a comma that
it counts. -/
theorem getParam_found_iff {param : CString} {num : ℤ} {maxlen : ℕ} (hnum : 1 ≤ num)
    (hmax : param.val.length < maxlen) :
    (getParam param num maxlen).found = true ↔ num ≤ 1 + reachedCommas false param.val := by
  rw [getParam_large ((length_paramTextAt param num).trans_lt hmax)]
  by_cases hone : num = 1
  · simp [hone]
  · obtain ⟨n, rfl⟩ : ∃ n : ℕ, num = n + 2 := ⟨(num - 2).toNat, by omega⟩
    have hat : paramAt param (n + 2) = paramRest (n + 1) false param.val := by
      rw [paramAt, if_neg (by omega), show ((n : ℤ) + 2).toNat - 1 = n + 1 by omega]
    simp only [hone, decide_false, Bool.false_or, hat]
    rw [any_paramRest]
    omega

/-! ## the two machines side by side -/

/-- The commas of a list in turn: whether each is a separator for `num_param`, and whether
it is one for `get_param`, behind which something stands. -/
def commaRoles : ParamState → (quoted : Bool) → List UInt8 → List (Bool × Bool)
  | _, _, [] => []
  | .init, quoted, c :: s =>
      if c = comma then (true, !quoted && s ≠ []) :: commaRoles .init quoted s
      else if c = dquote then commaRoles .quoted (!quoted) s
      else if c = space then commaRoles .init quoted s
      else commaRoles .unquoted quoted s
  | .quoted, _, [c] => if c = comma then [(false, false)] else []
  | .quoted, quoted, c :: d :: s =>
      if c = comma then (false, !quoted) :: commaRoles .quoted quoted (d :: s)
      else if c = dquote then commaRoles .init (!quoted) (d :: s)
      else if c = backslash ∧ d = dquote then commaRoles .unquoted (!quoted) s
      else commaRoles .quoted quoted (d :: s)
  | .unquoted, quoted, c :: s =>
      if c = comma then (true, !quoted && s ≠ []) :: commaRoles .init quoted s
      else if c = dquote then commaRoles .unquoted (!quoted) s
      else commaRoles .unquoted quoted s

/-- The separators of `num_param`. -/
theorem numParamLoop_eq_countP (state : ParamState) (quoted : Bool) (s : List UInt8) :
    numParamLoop state s = (commaRoles state quoted s).countP (·.1) := by
  fun_induction commaRoles state quoted s <;> grind [numParamLoop]

/-- The separators of `get_param`. -/
theorem reachedCommas_eq_countP (state : ParamState) (quoted : Bool) (s : List UInt8) :
    reachedCommas quoted s = (commaRoles state quoted s).countP (·.2) := by
  fun_induction commaRoles state quoted s <;> grind [reachedCommas]

end Zabbix
