import Zabbix.Lib.Run

/-!
# Zabbix.Escalator.Escalation

The escalator (`zabbix_server/escalator/escalator.c`) among the processes that
start and stop escalations (`process_actions`).

The escalator selects the rows that are due, and then executes each of them
and writes it back.  Statements are atomic, and between any two of them other
processes may have theirs.  What the statements of an execution find in the
tables that are not modelled (triggers, items, hosts, actions, operations) is
given with the step (`Selects`), so that it may change at any time.
-/

namespace Zabbix

/-- `zbx_escalation_status_t` -/
inductive EscalationStatus
  | active
  | recovery
  | sleep
  | completed
deriving DecidableEq, Repr

/-- A row of `escalations`, and `DB_ESCALATION`. -/
structure DbEscalation where
  escalationid : ℕ
  actionid : ℕ
  triggerid : ℕ
  eventid : ℕ
  rEventid : ℕ
  escStep : ℕ
  status : EscalationStatus
  nextcheck : ℕ
deriving DecidableEq, Repr

/-- What is used of `DB_ACTION`; `active` is `status == ACTION_STATUS_ACTIVE`. -/
structure EscAction where
  escPeriod : ℕ
  recoveryMsg : ℕ
  active : Bool
deriving DecidableEq, Repr

/-- A row of `operations`; `alerts` for `operationtype in (MESSAGE, COMMAND)`,
`conditions` for what `check_operation_conditions` comes to. -/
structure EscOperation where
  alerts : Bool
  escPeriod : ℕ
  escStepFrom : ℕ
  escStepTo : ℕ
  conditions : Bool
deriving DecidableEq, Repr

/-- What the selects of one execution find. -/
structure Selects where
  /-- the trigger, and whether it is disabled -/
  trigger : Option Bool
  itemDisabled : Bool
  hostDisabled : Bool
  action : Option EscAction
  operations : List EscOperation
  /-- the operations of the second select of `execute_operations` -/
  laterOperations : List EscOperation
  /-- whether a user has had a message of the escalation -/
  alerted : Bool
  time : ℕ
deriving DecidableEq, Repr

/-! ## execution -/

/-- The `esc_period` of the operations: the least of those whose conditions
match, where zero counts as none. -/
def operationsPeriod (ops : List EscOperation) : ℕ :=
  ops.foldl (fun period op =>
    if op.conditions ∧ (period = 0 ∨ period > op.escPeriod) then op.escPeriod else period) 0

/-- The status of an escalation that has no more operations. -/
def statusAfter (action : EscAction) : EscalationStatus :=
  if action.recoveryMsg = 1 then .sleep else .completed

/-- `execute_operations` -/
def executeOperations (q : Selects) (action : EscAction) (escalation : DbEscalation) : DbEscalation :=
  if action.escPeriod = 0 then { escalation with status := statusAfter action }
  else
    let escStep := escalation.escStep + 1
    let ops := q.operations.filter fun op =>
      op.alerts ∧ op.escStepFrom ≤ escStep ∧ (op.escStepTo = 0 ∨ escStep ≤ op.escStepTo)
    if ops ≠ [] ∨ q.laterOperations.any (fun op => escStep < op.escStepFrom) then
      let period := operationsPeriod ops
      { escalation with
        escStep := escStep
        nextcheck := q.time + if period ≠ 0 then period else action.escPeriod }
    else { escalation with escStep := escStep, status := statusAfter action }

/-- `process_recovery_msg` -/
def processRecoveryMsg (q : Selects) (action : EscAction) (escalation : DbEscalation) : DbEscalation :=
  { escalation with
    escStep := if action.recoveryMsg = 1 ∧ q.alerted then 0 else escalation.escStep
    status := .completed }

/-- An escalation that has been executed: as it was read, as it is now, whether
`process_recovery_msg` has been called, and whether there was no action. -/
structure Executed where
  read : DbEscalation
  escalation : DbEscalation
  recovered : Bool
  actionDeleted : Bool
deriving DecidableEq, Repr

/-- `execute_escalation`, with the events that there are. -/
def executeEscalation (events : List ℕ) (q : Selects) (escalation : DbEscalation) : Executed :=
  let error := q.trigger ≠ some false ∨ q.itemDisabled ∨ q.hostDisabled
  let cancel (error : Bool) (e : DbEscalation) := if error then { e with status := .completed } else e
  match escalation.status with
  | .active =>
      match q.action with
      | some action =>
          let e :=
            if escalation.eventid ∈ events then executeOperations q action escalation else escalation
          { read := escalation
            escalation := cancel (error ∨ ¬action.active) e
            recovered := false
            actionDeleted := false }
      | none =>
          { read := escalation
            escalation := cancel true escalation
            recovered := false
            actionDeleted := true }
  | .recovery =>
      match q.action with
      | some action =>
          let e :=
            if escalation.rEventid ∈ events then processRecoveryMsg q action escalation else escalation
          { read := escalation
            escalation := cancel (error ∨ ¬action.active) e
            recovered := escalation.rEventid ∈ events
            actionDeleted := false }
      | none =>
          { read := escalation
            escalation := cancel true escalation
            recovered := false
            actionDeleted := true }
  | .sleep | .completed =>
      { read := escalation, escalation := escalation, recovered := false, actionDeleted := false }

/-! ## the processes -/

/-- The tables, and what the escalator has read: the rows of its result that
are still to be executed, and the one that is to be written back.  `removals`
keeps what was removed, for statements about it. -/
structure EscalatorState where
  events : List ℕ
  escalations : List DbEscalation
  nextid : ℕ
  result : List DbEscalation
  current : Option Executed
  removals : List Executed
deriving DecidableEq, Repr

/-- A step of a process. -/
inductive EscalatorEvent
  /-- `process_event`: the event is inserted -/
  | processEvent (eventid : ℕ)
  /-- `DBstart_escalation`, with the number of identifiers that others have taken -/
  | start (actionid triggerid eventid taken : ℕ)
  /-- `DBstop_escalation` -/
  | stop (actionid triggerid eventid : ℕ)
  /-- `process_escalations`: the select -/
  | select (now : ℕ)
  /-- `process_escalations`: `DBfetch` and `execute_escalation` -/
  | execute (q : Selects)
  /-- `process_escalations`: the update, or the removal -/
  | writeBack
deriving DecidableEq, Repr

/-- `DBstart_escalation`; the other columns have their defaults. -/
def dbStartEscalation (escalationid actionid triggerid eventid : ℕ) : DbEscalation :=
  { escalationid := escalationid
    actionid := actionid
    triggerid := triggerid
    eventid := eventid
    rEventid := 0
    escStep := 0
    status := .active
    nextcheck := 0 }

/-- `DBstop_escalation`, on a row. -/
def dbStopEscalation (actionid triggerid eventid : ℕ) (row : DbEscalation) : DbEscalation :=
  if row.actionid = actionid ∧ row.triggerid = triggerid then
    { row with rEventid := eventid, status := .recovery, nextcheck := 0 }
  else row

/-- The update of `process_escalations`, on a row. -/
def updateEscalation (escalation row : DbEscalation) : DbEscalation :=
  if row.escalationid = escalation.escalationid then
    { row with
      status := escalation.status
      escStep := escalation.escStep
      nextcheck := escalation.nextcheck }
  else row

/-- The select of `process_escalations`: a row that is due, as it is read.  All
rows are of the local node. -/
def selectEscalation (now : ℕ) (row : DbEscalation) : Option DbEscalation :=
  if (row.status = .active ∨ row.status = .recovery) ∧ row.nextcheck ≤ now then
    some { row with nextcheck := 0 }
  else none

namespace EscalatorState

/-- A step. -/
def step (s : EscalatorState) : EscalatorEvent → EscalatorState
  | .processEvent eventid => { s with events := eventid :: s.events }
  | .start actionid triggerid eventid taken =>
      -- `process_actions` is called with an event that has been inserted
      if eventid ∈ s.events then
        { s with
          escalations := s.escalations ++ [dbStartEscalation (s.nextid + taken) actionid triggerid eventid]
          nextid := s.nextid + taken + 1 }
      else s
  | .stop actionid triggerid eventid =>
      if eventid ∈ s.events then
        { s with escalations := s.escalations.map (dbStopEscalation actionid triggerid eventid) }
      else s
  | .select now =>
      if s.result = [] ∧ s.current = none then
        { s with result := s.escalations.filterMap (selectEscalation now) }
      else s
  | .execute q =>
      match s.current, s.result with
      | none, row :: rows => { s with result := rows, current := some (executeEscalation s.events q row) }
      | _, _ => s
  | .writeBack =>
      match s.current with
      | some x =>
          if x.escalation.status = .completed then
            { s with
              escalations := s.escalations.filter fun row => row.escalationid ≠ x.escalation.escalationid
              current := none
              removals := s.removals ++ [x] }
          else
            { s with
              escalations := s.escalations.map (updateEscalation x.escalation)
              current := none }
      | none => s

end EscalatorState

end Zabbix
