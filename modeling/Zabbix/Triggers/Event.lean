import Zabbix.DbEscape
import Zabbix.Ids.Alone
import Zabbix.Triggers.Dependent

/-!
# Zabbix.Triggers.Event

How the value of a trigger changes (`DBupdate_trigger_value` of
`libs/zbxdbhigh/db.c`) and what an event of it leads to (`process_event` of
`zabbix_server/events.c`).

A call happens as a whole.  The database keeps the key of `events` unique; the
row of `ids` is the one of `events.eventid`.
-/

namespace Zabbix

/-! ## the tables -/

/-- `TRIGGER_VALUE_FALSE` -/
def triggerValueFalse : ℤ := 0

/-- `TRIGGER_VALUE_UNKNOWN` -/
def triggerValueUnknown : ℤ := 2

/-- `TRIGGER_VALUE_*` -/
inductive TriggerValue
  | false
  | true
  | unknown
deriving DecidableEq, Repr

/-- The number that stands for a value. -/
def TriggerValue.code : TriggerValue → ℤ
  | false => triggerValueFalse
  | true => triggerValueTrue
  | unknown => triggerValueUnknown

/-- `TRIGGER_TYPE_NORMAL` -/
def triggerTypeNormal : ℤ := 0

/-- `TRIGGER_TYPE_MULTIPLE_TRUE` -/
def triggerTypeMultipleTrue : ℤ := 1

/-- `EVENT_SOURCE_TRIGGERS` -/
def eventSourceTriggers : ℤ := 0

/-- `EVENT_OBJECT_TRIGGER` -/
def eventObjectTrigger : ℤ := 0

/-- `TRIGGER_ERROR_LEN` -/
def triggerErrorLen : ℕ := 128

/-- A row of `triggers`; `error` is the literal that it was set to.  Identifiers
are handed out from 1 on. -/
structure TriggerRecord where
  triggerid : ℕ
  pos : triggerid ≠ 0
  type : ℤ
  priority : ℤ
  value : ℤ
  lastchange : ℤ
  error : List UInt8
deriving DecidableEq

/-- A row of `events`. -/
structure EventRow where
  eventid : ℕ
  source : ℤ
  object : ℤ
  objectid : ℕ
  clock : ℤ
  value : ℤ
deriving DecidableEq

/-- `DB_EVENT`, without the texts of the trigger. -/
structure DbEvent extends EventRow where
  acknowledged : ℤ
  skipActions : ℤ
  triggerPriority : ℤ
  triggerType : ℤ
deriving DecidableEq

/-- The fields of `DB_TRIGGER` that are looked at. -/
structure DbTrigger where
  triggerid : ℕ
  type : ℤ
  value : ℤ
deriving DecidableEq

/-- The tables, with the last row first in `events`; the events that
`process_actions` was run for, and the calls of `DBupdate_services`. -/
structure EventState where
  triggers : List TriggerRecord
  triggerDepends : List (ℕ × ℕ)
  events : List EventRow
  ids : Option ℕ
  actions : List DbEvent
  services : List (ℕ × ℤ)

namespace EventState

/-- The row of a trigger. -/
def trigger (s : EventState) (triggerid : ℕ) : Option TriggerRecord := s.triggers.find? (·.triggerid = triggerid)

/-- The condition of the select in `get_latest_event_status`. -/
def eventsOf (s : EventState) (triggerid : ℕ) : List EventRow :=
  s.events.filter fun e => e.source = eventSourceTriggers ∧ e.object = eventObjectTrigger ∧ e.objectid = triggerid

/-- `trigger_dependent` is `FAIL`. -/
def dependentFails (s : EventState) (triggerid : ℕ) : Bool :=
  match triggerDependent ⟨s.triggerDepends, s.triggers.map fun t => ⟨t.triggerid, t.value⟩⟩ triggerid with
  | .fail _ => true
  | _ => false

/-- The update of `triggers`. -/
def updateTrigger (s : EventState) (triggerid : ℕ) (value lastchange : ℤ) (error : List UInt8) : EventState :=
  { s with
    triggers := s.triggers.map fun t =>
      if t.triggerid = triggerid then { t with value := value, lastchange := lastchange, error := error } else t }

/-- The insert into `events`. -/
def insertEvent (s : EventState) (row : EventRow) : EventState :=
  if ∃ e ∈ s.events, e.eventid = row.eventid then s else { s with events := row :: s.events }

end EventState

/-! ## the functions -/

/-- `get_latest_event_status`: the values of the last event but one, and of the
last one. -/
def getLatestEventStatus (s : EventState) (triggerid : ℕ) : ℤ × ℤ :=
  match ((s.eventsOf triggerid).insertionSort fun a b => a.eventid ≥ b.eventid).take 2 with
  | [] => (triggerValueUnknown, triggerValueUnknown)
  | [row] => (triggerValueUnknown, row.value)
  | row :: row' :: _ => (row'.value, row.value)

/-- The test in the second case of `add_trigger_info`. -/
def skipsFalse (prev last value : ℤ) : Prop :=
  value = triggerValueUnknown ∨
    (prev = triggerValueFalse ∧ last = triggerValueUnknown ∧ value = triggerValueFalse) ∨
    (prev = triggerValueUnknown ∧ last = triggerValueUnknown ∧ value = triggerValueFalse)

instance (prev last value : ℤ) : Decidable (skipsFalse prev last value) := inferInstanceAs (Decidable (_ ∨ _))

/-- The test in the first case of `add_trigger_info`. -/
def skipsNormal (prev last value : ℤ) : Prop :=
  value = triggerValueUnknown ∨
    (prev = triggerValueTrue ∧ last = triggerValueUnknown ∧ value = triggerValueTrue) ∨
    (prev = triggerValueFalse ∧ last = triggerValueUnknown ∧ value = triggerValueFalse) ∨
    (prev = triggerValueUnknown ∧ last = triggerValueUnknown ∧ value = triggerValueFalse)

instance (prev last value : ℤ) : Decidable (skipsNormal prev last value) := inferInstanceAs (Decidable (_ ∨ _))

/-- The `switch` of `add_trigger_info`. -/
def skipActions (type prev last value : ℤ) : ℤ :=
  if type = triggerTypeNormal then
    -- there is no break in front of the next case
    if skipsNormal prev last value ∨ skipsFalse prev last value then 1 else 0
  else if type = triggerTypeMultipleTrue then if skipsFalse prev last value then 1 else 0
  else 0

/-- `add_trigger_info` -/
def addTriggerInfo (s : EventState) (event : DbEvent) : DbEvent :=
  if event.object = eventObjectTrigger ∧ event.objectid ≠ 0 then
    let event :=
      match s.trigger event.objectid with
      | some row => { event with triggerPriority := row.priority, triggerType := row.type }
      | none => event
    let (prev, last) := getLatestEventStatus s event.objectid
    { event with skipActions := skipActions event.triggerType prev last event.value }
  else event

variable {schema : Schema} (nodeid : ℕ) (c : Column schema)

/-- The identifier of a new event, and the row of `ids`; `none` when the process
exits. -/
def eventIdentifier (s : EventState) (eventid : ℕ) : Option (ℕ × Option ℕ) :=
  if eventid = 0 then
    (dbGetMaxidNum nodeid c 1 s.ids (s.events.map EventRow.eventid)).map fun r => (r.nextid, some r.lastid)
  else some (eventid, s.ids)

/-- What `process_event` does with an event that has its identifier. -/
def recordEvent (s : EventState) (event : DbEvent) : EventState :=
  let s := s.insertEvent event.toEventRow
  let s := if event.skipActions = 0 then { s with actions := event :: s.actions } else s
  if event.object = eventObjectTrigger then
    { s with
      services := (event.objectid, if event.value = triggerValueTrue then event.triggerPriority else 0) :: s.services }
  else s

/-- `process_event`; `c` is `events.eventid`. -/
def processEvent (s : EventState) (event : DbEvent) : Option EventState :=
  let event := addTriggerInfo s event
  (eventIdentifier nodeid c s event.eventid).map fun (eventid, ids) =>
    recordEvent { s with ids := ids } { event with eventid := eventid }

/-- The event of a trigger, as `DBupdate_trigger_value` fills it. -/
def triggerEvent (triggerid : ℕ) (value clock : ℤ) : DbEvent :=
  { eventid := 0
    source := eventSourceTriggers
    object := eventObjectTrigger
    objectid := triggerid
    clock := clock
    value := value
    acknowledged := 0
    skipActions := 0
    triggerPriority := 0
    triggerType := 0 }

/-- The literal that `error` is set to. -/
def errorLiteral (b : Backend) : (reason : Option CString) → List UInt8
  | none => []
  | some reason => dbDynEscapeStringLen b reason.val triggerErrorLen

/-- `DBupdate_trigger_value`: whether it succeeds, and the state. -/
def dbUpdateTriggerValue (b : Backend) (s : EventState) (trigger : DbTrigger) (newValue now : ℤ)
    (reason : Option CString) : Option (Bool × EventState) :=
  let repeated := trigger.type = triggerTypeMultipleTrue ∧ newValue = triggerValueTrue
  if (trigger.value ≠ newValue ∨ repeated) ∧ s.dependentFails trigger.triggerid then
    let (_, last) := getLatestEventStatus s trigger.triggerid
    let s :=
      if trigger.value ≠ newValue ∨ repeated then
        s.updateTrigger trigger.triggerid newValue now (errorLiteral b reason)
      else s
    if last ≠ newValue ∨ repeated then
      (processEvent nodeid c s (triggerEvent trigger.triggerid newValue now)).map fun s => (true, s)
    else some (false, s)
  else some (false, s)

/-! ## runs -/

/-- A call of `DBupdate_trigger_value`. -/
structure TriggerCall where
  triggerid : ℕ
  newValue : TriggerValue
  now : ℤ
  reason : Option CString
deriving DecidableEq

/-- The call, with what is stored of the trigger; nothing, when there is no such
trigger. -/
def EventState.call (b : Backend) (s : EventState) (call : TriggerCall) : Option EventState :=
  match s.trigger call.triggerid with
  | none => some s
  | some row =>
      (dbUpdateTriggerValue nodeid c b s ⟨row.triggerid, row.type, row.value⟩ call.newValue.code call.now
        call.reason).map Prod.snd

/-- Calls one after the other. -/
def EventState.calls (b : Backend) (s : EventState) (calls : List TriggerCall) : Option EventState :=
  calls.foldlM (EventState.call nodeid c b) s

end Zabbix
