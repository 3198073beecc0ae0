import Zabbix.Lib.Ascii
import Zabbix.Lib.Mem

/-!
# Zabbix.Actions.Conditions

The conditions of an action and of an operation (`check_action_conditions` of
`zabbix_server/actions.c`, `check_operation_conditions` of
`zabbix_server/escalator/escalator.c`).

Both read the conditions by ascending type and decide in one pass over them.  The
result of a single condition (`check_action_condition`) is a parameter here.

* `checkConditions_iff` — what the pass decides, in both copies.
-/

namespace Zabbix

/-! ## Conditions -/

/-- `zbx_condition_type_t` -/
inductive ConditionType
  | hostGroup
  | host
  | trigger
  | triggerName
  | triggerSeverity
  | triggerValue
  | timePeriod
  | dhostIp
  | dserviceType
  | dservicePort
  | dstatus
  | duptime
  | dvalue
  | hostTemplate
  | eventAcknowledged
  | application
deriving DecidableEq, Repr

/-- The number that stands for a type, in the order of the enumeration. -/
def ConditionType.code : ConditionType → ℤ
  | hostGroup => 0
  | host => 1
  | trigger => 2
  | triggerName => 3
  | triggerSeverity => 4
  | triggerValue => 5
  | timePeriod => 6
  | dhostIp => 7
  | dserviceType => 8
  | dservicePort => 9
  | dstatus => 10
  | duptime => 11
  | dvalue => 12
  | hostTemplate => 13
  | eventAcknowledged => 14
  | application => 15

/-- `zbx_condition_op_t` -/
inductive ConditionOperator
  | equal
  | notEqual
  | like
  | notLike
  | isIn
  | moreEqual
  | lessEqual
  | notIn
deriving DecidableEq, Repr

/-- `DB_CONDITION`, without the identifiers, which are for the log only. -/
structure Condition where
  conditiontype : ConditionType
  operator : ConditionOperator
  value : CString

/-- Each type has its own number. -/
theorem ConditionType.code_injective : Function.Injective code := by
  intro s t h
  cases s <;> cases t <;> first | rfl | cases h

/-- No number is the one that stands for no type. -/
theorem ConditionType.neg_one_lt_code (t : ConditionType) : -1 < t.code := by
  cases t <;> decide

/-! ## The pass over the conditions -/

/-- `ACTION_EVAL_TYPE_AND_OR` -/
def actionEvalTypeAndOr : ℤ := 0

/-- `ACTION_EVAL_TYPE_AND` -/
def actionEvalTypeAnd : ℤ := 1

/-- `ACTION_EVAL_TYPE_OR` -/
def actionEvalTypeOr : ℤ := 2

/-- The loop of `check_action_conditions`, from `ret` and `old_type` on. -/
def actionConditionsLoop (check : Condition → Bool) (evaltype : ℤ) :
    (ret : Bool) → (oldType : ℤ) → List Condition → Bool
  | ret, _, [] => ret
  | ret, oldType, c :: rows =>
      if evaltype = actionEvalTypeAndOr then
        if oldType = c.conditiontype.code then
          -- OR conditions
          actionConditionsLoop check evaltype (if check c then true else ret) c.conditiontype.code rows
        else
          -- AND conditions; the loop ends if the previous one is false
          if ret = false then ret
          else actionConditionsLoop check evaltype (if check c = false then false else ret) c.conditiontype.code rows
      else if evaltype = actionEvalTypeAnd then
        if check c = false then false else actionConditionsLoop check evaltype true oldType rows
      else if evaltype = actionEvalTypeOr then
        if check c then true else actionConditionsLoop check evaltype false oldType rows
      else actionConditionsLoop check evaltype false oldType rows

attribute [grind =] actionConditionsLoop

/-- `check_action_conditions`, on the rows by ascending type. -/
def checkActionConditions (check : Condition → Bool) (evaltype : ℤ) (rows : List Condition) : Bool :=
  let ret := actionConditionsLoop check evaltype true (-1) rows
  if rows.length = 0 then true else ret

/-- The loop of `check_operation_conditions`, which ends at an unknown evaluation type. -/
def operationConditionsLoop (check : Condition → Bool) (evaltype : ℤ) :
    (ret : Bool) → (oldType : ℤ) → List Condition → Bool
  | ret, _, [] => ret
  | ret, oldType, c :: rows =>
      if evaltype = actionEvalTypeAndOr then
        if oldType = c.conditiontype.code then
          operationConditionsLoop check evaltype (if check c then true else ret) c.conditiontype.code rows
        else
          if ret = false then ret
          else operationConditionsLoop check evaltype (if check c = false then false else ret) c.conditiontype.code rows
      else if evaltype = actionEvalTypeAnd then
        if check c = false then false else operationConditionsLoop check evaltype true oldType rows
      else if evaltype = actionEvalTypeOr then
        if check c then true else operationConditionsLoop check evaltype false oldType rows
      else false

attribute [grind =] operationConditionsLoop

/-- `check_operation_conditions`, on the rows by ascending type. -/
def checkOperationConditions (check : Condition → Bool) (evaltype : ℤ) (rows : List Condition) : Bool :=
  operationConditionsLoop check evaltype true (-1) rows

/-! ## What the pass decides -/

/-- `order by conditiontype` -/
def ByType (rows : List Condition) : Prop :=
  rows.Pairwise fun c d => c.conditiontype.code ≤ d.conditiontype.code

section

variable {check : Condition → Bool}

/-- One more condition of the type before, in the middle of the pass. -/
theorem actionConditionsLoop_same {ret : Bool} {oldType : ℤ} {c : Condition} (rows : List Condition)
    (h : oldType = c.conditiontype.code) :
    actionConditionsLoop check actionEvalTypeAndOr ret oldType (c :: rows) =
      actionConditionsLoop check actionEvalTypeAndOr (ret || check c) oldType rows := by
  rw [actionConditionsLoop, if_pos rfl, if_pos h, ← h]
  cases check c <;> simp

/-- The first condition of a type, in the middle of the pass. -/
theorem actionConditionsLoop_next {ret : Bool} {oldType : ℤ} {c : Condition} (rows : List Condition)
    (h : oldType ≠ c.conditiontype.code) :
    actionConditionsLoop check actionEvalTypeAndOr ret oldType (c :: rows) =
      (ret && actionConditionsLoop check actionEvalTypeAndOr (check c) c.conditiontype.code rows) := by
  rw [actionConditionsLoop, if_pos rfl, if_neg h]
  cases ret <;> cases check c <;> simp

/-- From the middle on: the type that is open has to come out true, and so has every type
that follows. -/
theorem actionConditionsLoop_andOr {ret : Bool} {oldType : ℤ} {rows : List Condition} (hrows : ByType rows)
    (hold : ∀ c ∈ rows, oldType ≤ c.conditiontype.code) :
    actionConditionsLoop check actionEvalTypeAndOr ret oldType rows = true ↔
      (ret = true ∨ ∃ c ∈ rows, c.conditiontype.code = oldType ∧ check c = true) ∧
        ∀ c ∈ rows, c.conditiontype.code ≠ oldType →
          ∃ d ∈ rows, d.conditiontype = c.conditiontype ∧ check d = true := by
  induction rows generalizing ret oldType with
  | nil => simp [actionConditionsLoop]
  | cons c rows ih =>
      obtain ⟨hc, hsorted⟩ := List.pairwise_cons.mp hrows
      by_cases hsame : oldType = c.conditiontype.code
      · rw [actionConditionsLoop_same rows hsame, ih hsorted fun d hd => hold d (List.mem_cons_of_mem c hd)]
        grind [ConditionType.code_injective]
      · have hlt : oldType < c.conditiontype.code := lt_of_le_of_ne (hold c List.mem_cons_self) hsame
        rw [actionConditionsLoop_next rows hsame, Bool.and_eq_true, ih hsorted hc]
        grind [ConditionType.code_injective]

/-- AND: the loop ends at the first condition that is false. -/
theorem actionConditionsLoop_and (ret : Bool) (oldType : ℤ) (rows : List Condition) :
    actionConditionsLoop check actionEvalTypeAnd ret oldType rows = true ↔
      (rows = [] → ret = true) ∧ ∀ c ∈ rows, check c = true := by
  have hne : actionEvalTypeAnd ≠ actionEvalTypeAndOr := by decide
  induction rows generalizing ret with
  | nil => simp [actionConditionsLoop]
  | cons c rows ih =>
      rw [actionConditionsLoop, if_neg hne, if_pos rfl]
      cases hc : check c with
      | false => simp [hc]
      | true => simp [hc, ih]

/-- OR: the loop ends at the first condition that is true. -/
theorem actionConditionsLoop_or (ret : Bool) (oldType : ℤ) (rows : List Condition) :
    actionConditionsLoop check actionEvalTypeOr ret oldType rows = true ↔
      (rows = [] ∧ ret = true) ∨ ∃ c ∈ rows, check c = true := by
  have hne : actionEvalTypeOr ≠ actionEvalTypeAndOr := by decide
  have hne' : actionEvalTypeOr ≠ actionEvalTypeAnd := by decide
  induction rows generalizing ret with
  | nil => simp [actionConditionsLoop]
  | cons c rows ih =>
      rw [actionConditionsLoop, if_neg hne, if_neg hne', if_pos rfl]
      cases hc : check c with
      | false => simp [hc, ih]
      | true => simp [hc]

/-- Another evaluation type is false as soon as there is a condition. -/
theorem actionConditionsLoop_unknown {evaltype : ℤ} (handOr : evaltype ≠ actionEvalTypeAndOr)
    (hand : evaltype ≠ actionEvalTypeAnd) (hor : evaltype ≠ actionEvalTypeOr) (oldType : ℤ) (rows : List Condition) :
    actionConditionsLoop check evaltype false oldType rows = false := by
  induction rows with
  | nil => rfl
  | cons c rows ih => rw [actionConditionsLoop, if_neg handOr, if_neg hand, if_neg hor, ih]

/-- The two loops agree, in the middle as well. -/
theorem operationConditionsLoop_eq (evaltype : ℤ) (ret : Bool) (oldType : ℤ) (rows : List Condition) :
    operationConditionsLoop check evaltype ret oldType rows = actionConditionsLoop check evaltype ret oldType rows := by
  induction rows generalizing ret oldType with
  | nil => rfl
  | cons c rows ih =>
      rw [operationConditionsLoop, actionConditionsLoop]
      simp only [ih]
      by_cases handOr : evaltype = actionEvalTypeAndOr
      · rw [if_pos handOr, if_pos handOr]
      by_cases hand : evaltype = actionEvalTypeAnd
      · rw [if_neg handOr, if_pos hand, if_neg handOr, if_pos hand]
      by_cases hor : evaltype = actionEvalTypeOr
      · rw [if_neg handOr, if_neg hand, if_pos hor, if_neg handOr, if_neg hand, if_pos hor]
      · rw [if_neg handOr, if_neg hand, if_neg hor, if_neg handOr, if_neg hand, if_neg hor,
          actionConditionsLoop_unknown handOr hand hor]

/-- The two functions agree. -/
theorem checkOperationConditions_eq (evaltype : ℤ) (rows : List Condition) :
    checkOperationConditions check evaltype rows = checkActionConditions check evaltype rows := by
  unfold checkOperationConditions checkActionConditions
  rw [operationConditionsLoop_eq]
  cases rows with
  | nil => rfl
  | cons c rows => simp

end

/-- **The conditions of an action and of an operation**: with AND/OR one condition of each
type is true, with AND every condition, with OR one; without conditions they succeed; and the
functions agree. -/
theorem checkConditions_iff (check : Condition → Bool) (rows : List Condition) (hrows : ByType rows) :
    (checkActionConditions check actionEvalTypeAndOr rows = true ↔
      ∀ c ∈ rows, ∃ d ∈ rows, d.conditiontype = c.conditiontype ∧ check d = true) ∧
    (checkActionConditions check actionEvalTypeAnd rows = true ↔ ∀ c ∈ rows, check c = true) ∧
    (checkActionConditions check actionEvalTypeOr rows = true ↔ rows = [] ∨ ∃ c ∈ rows, check c = true) ∧
    (rows = [] → ∀ evaltype, checkActionConditions check evaltype rows = true) ∧
    ∀ evaltype, checkOperationConditions check evaltype rows = checkActionConditions check evaltype rows := by
  have hloop : ∀ evaltype, checkActionConditions check evaltype rows =
      actionConditionsLoop check evaltype true (-1) rows := by
    intro evaltype
    rw [← checkOperationConditions_eq, checkOperationConditions, operationConditionsLoop_eq]
  refine ⟨?_, ?_, ?_, ?_, fun evaltype => checkOperationConditions_eq evaltype rows⟩
  · have hlt : ∀ c ∈ rows, -1 < c.conditiontype.code := fun c _ => c.conditiontype.neg_one_lt_code
    rw [hloop, actionConditionsLoop_andOr hrows fun c hc => (hlt c hc).le]
    constructor
    · rintro ⟨-, hall⟩ c hc
      exact hall c hc (hlt c hc).ne'
    · intro hall
      exact ⟨.inl rfl, fun c hc _ => hall c hc⟩
  · rw [hloop, actionConditionsLoop_and]
    simp
  · rw [hloop, actionConditionsLoop_or]
    simp
  · rintro rfl evaltype
    rfl

/-- Two groups and one of two severities: the groups come out true by the second of them. -/
theorem checkConditions_groups :
    checkActionConditions (fun c => c.value.val = bytes "4") actionEvalTypeAndOr
      [⟨.hostGroup, .equal, ⟨bytes "2", by decide⟩⟩, ⟨.hostGroup, .equal, ⟨bytes "4", by decide⟩⟩,
        ⟨.triggerSeverity, .moreEqual, ⟨bytes "4", by decide⟩⟩] = true := by
  refine (checkConditions_iff (fun c => c.value.val = bytes "4")
    [⟨.hostGroup, .equal, ⟨bytes "2", by decide⟩⟩, ⟨.hostGroup, .equal, ⟨bytes "4", by decide⟩⟩,
      ⟨.triggerSeverity, .moreEqual, ⟨bytes "4", by decide⟩⟩] ?_).1.mpr ?_
  · simp [ByType, ConditionType.code]
  · simp

end Zabbix
