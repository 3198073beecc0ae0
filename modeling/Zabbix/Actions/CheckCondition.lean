import Zabbix.Actions.Conditions
import Zabbix.Items.Nextcheck

/-!
# Zabbix.Actions.CheckCondition

A single condition of an action (`check_action_condition` of `zabbix_server/actions.c`).

Most types of conditions offer an operator and its negation.  Of the negated ones that of a
trigger alone does not look where its positive sibling does: an event of a trigger that comes
from a template is of this template, and is not of it either.

* `checkActionCondition_negation_iff` — when one of the two operators succeeds and not both.
-/

namespace Zabbix

open Ascii

/-! ## Lists of numbers and addresses -/

/-- The texts that a loop over a list comes to, one after the other. -/
def listTexts (sep : UInt8) : List UInt8 → List (List UInt8)
  | [] => []
  | c :: s =>
      if c = sep then [] :: listTexts sep s
      else
        match listTexts sep s with
        | [] => [[c]]
        | first :: rest => (c :: first) :: rest

/-- `"%d-%d"` -/
def scanRange (s : List UInt8) : Option (ℤ × ℤ) := do
  let (i1, s) ← scanD s
  let s ← scanChar minus s
  let (i2, _) ← scanD s
  return (i1, i2)

/-- `int_in_list` -/
def intInList (list : List UInt8) (value : Int32) : Bool :=
  (listTexts comma list).any fun start =>
    match scanRange start with
    | some (i1, i2) => decide (i1 ≤ value.toInt ∧ value.toInt ≤ i2)
    | none => decide (atoi start = value)

/-- `"%d.%d.%d.%d"` -/
def scanIp (s : List UInt8) : Option (ℤ × ℤ × ℤ × ℤ) := do
  let (i0, s) ← scanD s
  let s ← scanChar dot s
  let (i1, s) ← scanD s
  let s ← scanChar dot s
  let (i2, s) ← scanD s
  let s ← scanChar dot s
  let (i3, _) ← scanD s
  return (i0, i1, i2, i3)

/-- One text of the list in `ip_in_list`: an address, or one with the last number up to which
it goes. -/
def scanIpRange (start : List UInt8) : Option ((ℤ × ℤ × ℤ × ℤ) × ℤ) :=
  match start.dropWhile (· ≠ minus) with
  | [] => do
      let (j0, j1, j2, j3) ← scanIp start
      return ((j0, j1, j2, j3), j3)
  | _ :: dash => do
      let (j4, _) ← scanD dash
      let j ← scanIp (start.takeWhile (· ≠ minus))
      return (j, j4)

/-- `ip_in_list`; an address that is not of version 4 is left to `ip_in_list_ipv6`, where
there is one. -/
def ipInList (ipInListIpv6 : List UInt8 → List UInt8 → Bool) (list ip : List UInt8) : Bool :=
  match scanIp ip with
  | none => ipInListIpv6 list ip
  | some (i0, i1, i2, i3) =>
      (listTexts comma list).any fun start =>
        match scanIpRange start with
        | none => false
        | some ((j0, j1, j2, j3), j4) => decide (i0 = j0 ∧ i1 = j1 ∧ i2 = j2 ∧ j3 ≤ i3 ∧ i3 ≤ j4)

/-! ## Tables -/

/-- The rows of `dhosts`, as they are selected; `none` is what `DBis_null` says yes to. -/
structure DHostRow where
  dhostid : UInt64
  ip : Option CString
  status : Option CString
  lastup : CString
  lastdown : CString

/-- The rows of `dservices`. -/
structure DServiceRow where
  dserviceid : UInt64
  dhostid : UInt64
  type : Int32
  port : Option CString
  status : Option CString
  lastup : CString
  lastdown : CString
  value : Option CString

/-- The tables that conditions are checked against, with the columns that are selected. -/
structure ActionTables where
  /-- `hostid` and `groupid`. -/
  hostsGroups : List (UInt64 × UInt64)
  hosts : List UInt64
  /-- `itemid` and `hostid`. -/
  items : List (UInt64 × UInt64)
  /-- `itemid` and `triggerid`. -/
  functions : List (UInt64 × UInt64)
  /-- `triggerid` and `templateid`. -/
  triggers : List (UInt64 × UInt64)
  /-- `hostid` and `templateid`. -/
  hostsTemplates : List (UInt64 × UInt64)
  /-- `applicationid` and `name`. -/
  applications : List (UInt64 × CString)
  /-- `applicationid` and `itemid`. -/
  itemsApplications : List (UInt64 × UInt64)
  /-- `eventid` and `acknowledged`. -/
  events : List (UInt64 × CString)
  dhosts : List DHostRow
  dservices : List DServiceRow

namespace ActionTables

variable (db : ActionTables)

/-- The items of a trigger: `i.itemid=f.itemid and f.triggerid=t.triggerid and t.triggerid=`. -/
def triggerItems (triggerid : UInt64) : List (UInt64 × UInt64) :=
  db.items.filter fun i =>
    db.functions.any (fun f => decide (f.1 = i.1 ∧ f.2 = triggerid)) && db.triggers.any fun t => decide (t.1 = triggerid)

/-- `select distinct hg.groupid` -/
def groupids (triggerid : UInt64) : List UInt64 :=
  ((db.hostsGroups.filter fun hg =>
    db.hosts.any (fun h => decide (hg.1 = h)) &&
      (db.triggerItems triggerid).any fun i => decide (hg.1 = i.2)).map Prod.snd).dedup

/-- `select distinct ht.templateid` -/
def templateids (triggerid : UInt64) : List UInt64 :=
  ((db.hostsTemplates.filter fun ht =>
    (db.triggerItems triggerid).any fun i => decide (ht.1 = i.2)).map Prod.snd).dedup

/-- `select distinct h.hostid` -/
def hostids (triggerid : UInt64) : List UInt64 :=
  (db.hosts.filter fun h => (db.triggerItems triggerid).any fun i => decide (h = i.2)).dedup

/-- `select triggerid from triggers where triggerid= and templateid=` -/
def templatedTriggers (triggerid templateid : UInt64) : List UInt64 :=
  (db.triggers.filter fun t => decide (t.1 = triggerid ∧ t.2 = templateid)).map Prod.fst

/-- `select distinct a.name` -/
def applicationNames (triggerid : UInt64) : List (List UInt8) :=
  ((db.applications.filter fun a =>
    db.itemsApplications.any fun ia =>
      decide (a.1 = ia.1) && (db.triggerItems triggerid).any fun i => decide (ia.2 = i.1)).map fun a => a.2.val).dedup

/-- `select acknowledged from events where eventid=` -/
def acknowledged (eventid : UInt64) : Option CString :=
  (db.events.find? fun e => e.1 = eventid).map Prod.snd

/-- The row of `dhosts`. -/
def dhost (dhostid : UInt64) : Option DHostRow := db.dhosts.find? fun h => h.dhostid = dhostid

/-- The row of `dservices`. -/
def dservice (dserviceid : UInt64) : Option DServiceRow := db.dservices.find? fun s => s.dserviceid = dserviceid

/-- `select h.ip from dhosts h,dservices s where h.dhostid=s.dhostid and s.dserviceid=` -/
def serviceHost (dserviceid : UInt64) : Option DHostRow :=
  (db.dservices.filter fun s => s.dserviceid = dserviceid).findSome? fun s => db.dhost s.dhostid

end ActionTables

/-! ## Events -/

/-- `EVENT_SOURCE_TRIGGERS` and `EVENT_SOURCE_DISCOVERY`. -/
inductive EventSource
  | triggers
  | discovery
deriving DecidableEq, Repr

/-- `EVENT_OBJECT_TRIGGER`, `EVENT_OBJECT_DHOST` and `EVENT_OBJECT_DSERVICE`. -/
inductive EventObject
  | trigger
  | dhost
  | dservice
deriving DecidableEq, Repr

/-- The fields of `DB_EVENT` that conditions are about. -/
structure ActionEvent where
  eventid : UInt64
  source : EventSource
  object : EventObject
  objectid : UInt64
  value : Int32
  triggerDescription : CString
  triggerPriority : Int32

/-- What a condition is checked with, besides the event: the tables, the clock, and two
functions of other parts of the server. -/
structure ActionServer where
  tables : ActionTables
  calendar : Calendar
  /-- `substitute_simple_macros`, in the description of a trigger. -/
  substituteSimpleMacros : ActionEvent → List UInt8 → List UInt8
  /-- `ip_in_list_ipv6`, or no address in a server without it. -/
  ipInListIpv6 : List UInt8 → List UInt8 → Bool

/-! ## The types of conditions

The result is `none` where it depends on what the language leaves undefined: a variable that
`ZBX_STR2UINT64` has left without a value, or an `int` that overflows. -/

/-- A loop over rows that ends, with `ret` as `found`, at the first one for which the test
succeeds. -/
def rowLoop {α : Type} (test : α → Option Bool) (found : Bool) : List α → Option Bool
  | [] => some !found
  | row :: rows => do if ← test row then return found else rowLoop test found rows

/-- Whether a row has the identifier that the value of a condition names. -/
def sameId (read : List UInt8 → Option ℕ) (value : CString) (id : UInt64) : Option Bool := do
  let conditionValue ← read value.val
  let row ← read (Printf.ui64 id)
  return decide (conditionValue = row)

/-- `CONDITION_TYPE_HOST_GROUP`, `CONDITION_TYPE_HOST_TEMPLATE` and `CONDITION_TYPE_HOST`. -/
def checkIds (read : List UInt8 → Option ℕ) (rows : List UInt64) (value : CString) : ConditionOperator → Option Bool
  | .equal => rowLoop (sameId read value) true rows
  | .notEqual => rowLoop (sameId read value) false rows
  | _ => some false

/-- `ZBX_STR2UINT64`, into a variable that has no value before. -/
def readUint64 (s : List UInt8) : Option ℕ := (zbxStr2uint64 s).map UInt64.toNat

/-- `zbx_atoui64` -/
def readAtoui64 (s : List UInt8) : Option ℕ := some (zbxAtoui64 s)

/-- `CONDITION_TYPE_TRIGGER` -/
def checkTrigger (db : ActionTables) (objectid : UInt64) (value : CString) (op : ConditionOperator) : Option Bool := do
  let conditionValue ← zbxStr2uint64 value.val
  match op with
  | .equal =>
      if objectid = conditionValue then return true
      -- templated triggers
      else return db.templatedTriggers objectid conditionValue ≠ []
  | .notEqual => return objectid ≠ conditionValue
  | _ => return false

/-- `CONDITION_TYPE_TRIGGER_NAME` -/
def checkTriggerName (text : List UInt8) (value : CString) : ConditionOperator → Bool
  | .like => value.val <:+: text
  | .notLike => ¬value.val <:+: text
  | _ => false

/-- `CONDITION_TYPE_TRIGGER_SEVERITY` -/
def checkTriggerSeverity (priority : Int32) (value : CString) : ConditionOperator → Bool
  | .equal => priority = atoi value.val
  | .notEqual => priority ≠ atoi value.val
  | .moreEqual => atoi value.val ≤ priority
  | .lessEqual => priority ≤ atoi value.val
  | _ => false

/-- `CONDITION_TYPE_TRIGGER_VALUE` -/
def checkTriggerValue (eventValue : Int32) (value : CString) : ConditionOperator → Bool
  | .equal => eventValue = atoi value.val
  | _ => false

/-- `CONDITION_TYPE_TIME_PERIOD` -/
def checkConditionPeriod (cal : Calendar) (value : CString) : ConditionOperator → Option Bool
  | .isIn => checkTimePeriod cal value.val 0
  | .notIn => (checkTimePeriod cal value.val 0).map not
  | _ => some false

/-- `CONDITION_TYPE_EVENT_ACKNOWLEDGED` -/
def checkAcknowledged (row : Option CString) (value : CString) : ConditionOperator → Bool
  | .equal => row.any fun acknowledged => atoi acknowledged.val = atoi value.val
  | _ => false

/-- `CONDITION_TYPE_APPLICATION` -/
def checkApplication (rows : List (List UInt8)) (value : CString) : ConditionOperator → Option Bool
  | .equal => rowLoop (fun row => some (row = value.val)) true rows
  | .like => rowLoop (fun row => some (value.val <:+: row)) true rows
  | .notLike => rowLoop (fun row => some (value.val <:+: row)) false rows
  | _ => some false

/-- `CONDITION_TYPE_DVALUE` -/
def checkDvalue (row : Option CString) (value : CString) (op : ConditionOperator) : Bool :=
  row.any fun row =>
    match op with
    | .equal => value.val = row.val
    | .notEqual => value.val ≠ row.val
    | .moreEqual => value.val ≤ row.val
    | .lessEqual => row.val ≤ value.val
    | .like => value.val <:+: row.val
    | .notLike => ¬value.val <:+: row.val
    | _ => false

/-- `CONDITION_TYPE_DHOST_IP` and `CONDITION_TYPE_DSERVICE_PORT`, each with its list. -/
def checkInList (inList : List UInt8 → List UInt8 → Bool) (row : Option CString) (value : CString)
    (op : ConditionOperator) : Bool :=
  row.any fun row =>
    match op with
    | .equal => inList value.val row.val
    | .notEqual => !inList value.val row.val
    | _ => false

/-- `CONDITION_TYPE_DSERVICE_TYPE`; the type is part of the select. -/
def checkDserviceType (row : Option DServiceRow) (value : CString) : ConditionOperator → Bool
  | .equal => row.any fun row => row.type = atoi value.val
  | _ => false

/-- `CONDITION_TYPE_DSTATUS` -/
def checkDstatus (eventValue : Int32) (value : CString) : ConditionOperator → Bool
  | .equal => atoi value.val = eventValue
  | .notEqual => atoi value.val ≠ eventValue
  | _ => false

/-- `DOBJECT_STATUS_UP`, as an `int`. -/
def objectStatusUp : Int32 := 0

/-- `CONDITION_TYPE_DUPTIME`, with the columns `status`, `lastup` and `lastdown`. -/
def checkDuptime (cal : Calendar) (row : Option (Option CString × CString × CString)) (value : CString)
    (op : ConditionOperator) : Option Bool :=
  match row with
  | some (some status, lastup, lastdown) =>
      let since := (if atoi status.val = objectStatusUp then atoi lastup.val else atoi lastdown.val).toInt
      match op with
      | .lessEqual => do
          if since = 0 then return false
          let uptime ← CInt.checked (CInt.cast cal.time - since)
          return uptime ≤ (atoi value.val).toInt
      | .moreEqual => do
          if since = 0 then return false
          let uptime ← CInt.checked (CInt.cast cal.time - since)
          return (atoi value.val).toInt ≤ uptime
      | _ => some false
  | _ => some false

/-! ## `check_action_condition` -/

/-- `check_action_condition` -/
def checkActionCondition (server : ActionServer) (event : ActionEvent) (condition : Condition) : Option Bool :=
  let db := server.tables
  let value := condition.value
  let op := condition.operator
  match event.source, condition.conditiontype with
  | .triggers, .hostGroup => checkIds readUint64 (db.groupids event.objectid) value op
  | .triggers, .hostTemplate => checkIds readAtoui64 (db.templateids event.objectid) value op
  | .triggers, .host => checkIds readUint64 (db.hostids event.objectid) value op
  | .triggers, .trigger => checkTrigger db event.objectid value op
  | .triggers, .triggerName =>
      some (checkTriggerName (server.substituteSimpleMacros event event.triggerDescription.val) value op)
  | .triggers, .triggerSeverity => some (checkTriggerSeverity event.triggerPriority value op)
  | .triggers, .triggerValue => some (checkTriggerValue event.value value op)
  | .triggers, .timePeriod => checkConditionPeriod server.calendar value op
  | .triggers, .eventAcknowledged => some (checkAcknowledged (db.acknowledged event.eventid) value op)
  | .triggers, .application => checkApplication (db.applicationNames event.objectid) value op
  | .discovery, .dvalue =>
      if event.object = .dservice then some (checkDvalue ((db.dservice event.objectid).bind (·.value)) value op)
      else some false
  | .discovery, .dhostIp =>
      let inList := ipInList server.ipInListIpv6
      if event.object = .dhost then
        some (checkInList inList ((db.dhost event.objectid).bind (·.ip)) value op)
      else if event.object = .dservice then
        some (checkInList inList ((db.serviceHost event.objectid).bind (·.ip)) value op)
      else some false
  | .discovery, .dserviceType => some (checkDserviceType (db.dservice event.objectid) value op)
  | .discovery, .dstatus =>
      if event.object = .dhost ∨ event.object = .dservice then some (checkDstatus event.value value op)
      else some false
  | .discovery, .duptime =>
      if event.object = .dhost then
        checkDuptime server.calendar ((db.dhost event.objectid).map fun h => (h.status, h.lastup, h.lastdown)) value op
      else if event.object = .dservice then
        checkDuptime server.calendar ((db.dservice event.objectid).map fun s => (s.status, s.lastup, s.lastdown)) value op
      else some false
  | .discovery, .dservicePort =>
      let inList := fun list port => intInList list (atoi port)
      if event.object = .dservice then
        some (checkInList inList ((db.dservice event.objectid).bind (·.port)) value op)
      else some false
  | _, _ => some false

/-! ## Negated operators -/

/-- The operator that negates another. -/
def ConditionOperator.negation : ConditionOperator → Option ConditionOperator
  | equal => some notEqual
  | like => some notLike
  | isIn => some notIn
  | _ => none

/-- The operators of a type. -/
def ConditionType.operators : ConditionType → List ConditionOperator
  | hostGroup | hostTemplate | host | trigger | dhostIp | dstatus | dservicePort => [.equal, .notEqual]
  | triggerName => [.like, .notLike]
  | triggerSeverity => [.equal, .notEqual, .moreEqual, .lessEqual]
  | triggerValue | eventAcknowledged | dserviceType => [.equal]
  | timePeriod => [.isIn, .notIn]
  | application => [.equal, .like, .notLike]
  | dvalue => [.equal, .notEqual, .moreEqual, .lessEqual, .like, .notLike]
  | duptime => [.lessEqual, .moreEqual]

/-- The uptime is compared in two ways only. -/
theorem checkDuptime_of_not_mem {op : ConditionOperator} (h : op ∉ ConditionType.duptime.operators) (cal : Calendar)
    (row : Option (Option CString × CString × CString)) (value : CString) :
    checkDuptime cal row value op = some false := by
  rcases row with _ | ⟨_ | status, lastup, lastdown⟩
  · rfl
  · rfl
  · cases op <;> first | rfl | simp [ConditionType.operators] at h

/-- An operator that the type does not offer never succeeds. -/
theorem checkActionCondition_of_not_mem (server : ActionServer) (event : ActionEvent) {c : Condition}
    (h : c.operator ∉ c.conditiontype.operators) : checkActionCondition server event c ≠ some true := by
  obtain ⟨t, op, value⟩ := c
  cases hsource : event.source
  case triggers =>
    cases t <;> cases op <;> simp [ConditionType.operators] at h <;>
      simp [checkActionCondition, hsource, checkIds, checkTrigger, checkTriggerName, checkTriggerSeverity,
        checkTriggerValue, checkConditionPeriod, checkAcknowledged, checkApplication, Option.bind_eq_some_iff]
  case discovery =>
    by_cases hup : t = .duptime
    · subst hup
      simp only [checkActionCondition, hsource, checkDuptime_of_not_mem h]
      split_ifs <;> decide
    · cases t <;> cases op <;> simp [ConditionType.operators] at h hup <;>
        simp [checkActionCondition, hsource, checkDvalue, checkInList, checkDserviceType, checkDstatus]

/-! ## One of the two -/

/-- One result is a success and the other one is not. -/
def ExactlyOne (r r' : Option Bool) : Prop := ∃ b, r = some b ∧ r' = some !b

theorem exactlyOne_some {b b' : Bool} : ExactlyOne (some b) (some b') ↔ b' = !b := by
  simp [ExactlyOne]

/-- Of a result and its negation, if there is one. -/
theorem exactlyOne_map_not {r : Option Bool} : ExactlyOne r (r.map not) ↔ r.isSome = true := by
  cases r <;> simp [ExactlyOne]

/-- The two loops over the rows. -/
theorem rowLoop_false {α : Type} (test : α → Option Bool) (rows : List α) :
    rowLoop test false rows = (rowLoop test true rows).map not := by
  induction rows with
  | nil => rfl
  | cons row rows ih =>
      cases htest : test row with
      | none => simp [rowLoop, htest]
      | some b => cases b <;> simp [rowLoop, htest, ih]

/-- The loop has a result if the test has one for every row. -/
theorem isSome_rowLoop {α : Type} {test : α → Option Bool} {rows : List α} (h : ∀ row ∈ rows, (test row).isSome)
    (found : Bool) : (rowLoop test found rows).isSome = true := by
  induction rows with
  | nil => rfl
  | cons row rows ih =>
      obtain ⟨b, hb⟩ := Option.isSome_iff_exists.mp (h row (List.mem_cons_self ..))
      cases b
      · simpa [rowLoop, hb] using ih fun r hr => h r (List.mem_cons_of_mem _ hr)
      · simp [rowLoop, hb]

/-- Identifiers are compared if the value can be read, or if there is none to compare it with. -/
theorem exactlyOne_checkIds {read : List UInt8 → Option ℕ} (hread : ∀ id, (read (Printf.ui64 id)).isSome)
    (rows : List UInt64) (value : CString) :
    ExactlyOne (checkIds read rows value .equal) (checkIds read rows value .notEqual) ↔
      (read value.val).isSome = true ∨ rows = [] := by
  rw [checkIds, checkIds, rowLoop_false, exactlyOne_map_not]
  cases hvalue : read value.val with
  | some v =>
      have hall : ∀ id ∈ rows, (sameId read value id).isSome := by
        intro id _
        obtain ⟨w, hw⟩ := Option.isSome_iff_exists.mp (hread id)
        simp [sameId, hvalue, hw]
      simp [isSome_rowLoop hall]
  | none => cases rows <;> simp [rowLoop, sameId, hvalue]

theorem isSome_readUint64 (id : UInt64) : (readUint64 (Printf.ui64 id)).isSome := by
  rw [readUint64, zbxStr2uint64_ui64]
  rfl

/-- **Triggers**: the negation does not know the templates. -/
theorem exactlyOne_checkTrigger (db : ActionTables) (objectid : UInt64) (value : CString) :
    ExactlyOne (checkTrigger db objectid value .equal) (checkTrigger db objectid value .notEqual) ↔
      ∃ id, zbxStr2uint64 value.val = some id ∧ (objectid = id ∨ db.templatedTriggers objectid id = []) := by
  cases hvalue : zbxStr2uint64 value.val with
  | none => simp [checkTrigger, hvalue, ExactlyOne]
  | some id =>
      by_cases hid : objectid = id
      · simp [checkTrigger, hvalue, hid, ExactlyOne]
      · simp [checkTrigger, hvalue, hid, ExactlyOne]

/-- A column that is null fails for every operator. -/
theorem exactlyOne_any {row : Option CString} {f g : CString → Bool} (h : ∀ s, g s = !f s) :
    ExactlyOne (some (row.any f)) (some (row.any g)) ↔ row.isSome = true := by
  cases row <;> simp [exactlyOne_some, h]

/-- The condition under which an operator of the type and its negation are complements. -/
def NegationHolds (server : ActionServer) (event : ActionEvent) (value : CString) : ConditionType → Prop
  | .hostGroup =>
      event.source = .triggers ∧
        ((readUint64 value.val).isSome ∨ server.tables.groupids event.objectid = [])
  | .host =>
      event.source = .triggers ∧
        ((readUint64 value.val).isSome ∨ server.tables.hostids event.objectid = [])
  | .trigger =>
      event.source = .triggers ∧ ∃ id, zbxStr2uint64 value.val = some id ∧
        (event.objectid = id ∨ server.tables.templatedTriggers event.objectid id = [])
  | .timePeriod => event.source = .triggers ∧ (checkTimePeriod server.calendar value.val 0).isSome
  | .hostTemplate | .triggerName | .triggerSeverity | .triggerValue | .eventAcknowledged | .application =>
      event.source = .triggers
  | .dvalue =>
      event.source = .discovery ∧ event.object = .dservice ∧
        ((server.tables.dservice event.objectid).bind (·.value)).isSome
  | .dhostIp =>
      event.source = .discovery ∧
        ((event.object = .dhost ∧ ((server.tables.dhost event.objectid).bind (·.ip)).isSome) ∨
          (event.object = .dservice ∧ ((server.tables.serviceHost event.objectid).bind (·.ip)).isSome))
  | .dservicePort =>
      event.source = .discovery ∧ event.object = .dservice ∧
        ((server.tables.dservice event.objectid).bind (·.port)).isSome
  | .dstatus | .dserviceType | .duptime =>
      event.source = .discovery ∧ (event.object = .dhost ∨ event.object = .dservice)

/-- The pairs of operators that are offered. -/
theorem negation_cases {t : ConditionType} {op neg : ConditionOperator} (hneg : op.negation = some neg)
    (hop : op ∈ t.operators) (hoffered : neg ∈ t.operators) :
    (op = .equal ∧ neg = .notEqual ∧
      t ∈ [.hostGroup, .hostTemplate, .host, .trigger, .triggerSeverity, .dvalue, .dhostIp, .dstatus, .dservicePort]) ∨
    (op = .like ∧ neg = .notLike ∧ t ∈ [.triggerName, .application, .dvalue]) ∨
    (op = .isIn ∧ neg = .notIn ∧ t = .timePeriod) := by
  cases op <;> cases hneg <;> cases t <;> simp [ConditionType.operators] at hop hoffered ⊢

/-- Where the type does not apply both operators fail. -/
theorem not_exactlyOne_fail : ¬ExactlyOne (some false) (some false) := by
  simp [exactlyOne_some]

/-- The types that have an operator for being equal. -/
theorem exactlyOne_equal (server : ActionServer) (event : ActionEvent) {t : ConditionType} (value : CString)
    (ht : t ∈ [.hostGroup, .hostTemplate, .host, .trigger, .triggerSeverity, .dvalue, .dhostIp, .dstatus, .dservicePort]) :
    ExactlyOne (checkActionCondition server event ⟨t, .equal, value⟩)
        (checkActionCondition server event ⟨t, .notEqual, value⟩) ↔ NegationHolds server event value t := by
  simp only [List.mem_cons, List.not_mem_nil, or_false] at ht
  cases hsource : event.source
  case triggers =>
    rcases ht with rfl | rfl | rfl | rfl | rfl | rfl | rfl | rfl | rfl <;>
      simp only [checkActionCondition, NegationHolds, hsource, not_exactlyOne_fail, true_and, false_and, reduceCtorEq]
    · exact exactlyOne_checkIds isSome_readUint64 _ value
    · simp [@exactlyOne_checkIds readAtoui64 fun _ => rfl, readAtoui64]
    · exact exactlyOne_checkIds isSome_readUint64 _ value
    · exact exactlyOne_checkTrigger _ _ value
    · simp [checkTriggerSeverity, exactlyOne_some]
  case discovery =>
    rcases ht with rfl | rfl | rfl | rfl | rfl | rfl | rfl | rfl | rfl <;>
      simp only [checkActionCondition, NegationHolds, hsource, not_exactlyOne_fail, true_and, false_and, reduceCtorEq]
    · cases hobject : event.object <;> simp [not_exactlyOne_fail, checkDvalue, exactlyOne_any]
    · cases hobject : event.object <;> simp [not_exactlyOne_fail, checkInList, exactlyOne_any]
    · cases hobject : event.object <;> simp [exactlyOne_some, checkDstatus]
    · cases hobject : event.object <;> simp [not_exactlyOne_fail, checkInList, exactlyOne_any]

/-- The types that have an operator for being part of a text. -/
theorem exactlyOne_like (server : ActionServer) (event : ActionEvent) {t : ConditionType} (value : CString)
    (ht : t ∈ [.triggerName, .application, .dvalue]) :
    ExactlyOne (checkActionCondition server event ⟨t, .like, value⟩)
        (checkActionCondition server event ⟨t, .notLike, value⟩) ↔ NegationHolds server event value t := by
  simp only [List.mem_cons, List.not_mem_nil, or_false] at ht
  cases hsource : event.source
  case triggers =>
    rcases ht with rfl | rfl | rfl <;>
      simp only [checkActionCondition, NegationHolds, hsource, not_exactlyOne_fail, false_and, reduceCtorEq]
    · simp [checkTriggerName, exactlyOne_some]
    · rw [checkApplication, checkApplication, rowLoop_false, exactlyOne_map_not, iff_true]
      exact isSome_rowLoop (fun _ _ => rfl) true
  case discovery =>
    rcases ht with rfl | rfl | rfl <;>
      simp only [checkActionCondition, NegationHolds, hsource, not_exactlyOne_fail, true_and, reduceCtorEq]
    cases hobject : event.object <;> simp [not_exactlyOne_fail, checkDvalue, exactlyOne_any]

/-- The operators of a period of time. -/
theorem exactlyOne_isIn (server : ActionServer) (event : ActionEvent) (value : CString) :
    ExactlyOne (checkActionCondition server event ⟨.timePeriod, .isIn, value⟩)
        (checkActionCondition server event ⟨.timePeriod, .notIn, value⟩) ↔
      NegationHolds server event value .timePeriod := by
  cases hsource : event.source
  case triggers =>
    simp only [checkActionCondition, NegationHolds, hsource, true_and]
    exact exactlyOne_map_not
  case discovery =>
    simp [checkActionCondition, NegationHolds, hsource, not_exactlyOne_fail]

/-- **Negated conditions**: of an operator and its negation exactly one succeeds, if the type
is one of the events of this source, what is looked up in the tables is there and the value can
be read, but not for a trigger that comes from the one the condition names. -/
theorem checkActionCondition_negation_iff (server : ActionServer) (event : ActionEvent) (t : ConditionType)
    (op neg : ConditionOperator) (value : CString) (hneg : op.negation = some neg) (hop : op ∈ t.operators)
    (hoffered : neg ∈ t.operators) :
    ExactlyOne (checkActionCondition server event ⟨t, op, value⟩) (checkActionCondition server event ⟨t, neg, value⟩) ↔
      NegationHolds server event value t := by
  rcases negation_cases hneg hop hoffered with ⟨rfl, rfl, ht⟩ | ⟨rfl, rfl, ht⟩ | ⟨rfl, rfl, rfl⟩
  · exact exactlyOne_equal server event value ht
  · exact exactlyOne_like server event value ht
  · exact exactlyOne_isIn server event value

/-- A server with the trigger 13, on a host of the group 2, that comes from the trigger 10. -/
def templateServer : ActionServer where
  tables :=
    { hostsGroups := [(20, 2)], hosts := [20], items := [(30, 20)], functions := [(30, 13)], triggers := [(13, 10)],
      hostsTemplates := [], applications := [], itemsApplications := [], events := [], dhosts := [], dservices := [] }
  calendar := universal
  substituteSimpleMacros := fun _ text => text
  ipInListIpv6 := fun _ _ => false

/-- An event of the trigger 13. -/
def templateEvent : ActionEvent := ⟨1, .triggers, .trigger, 13, 1, CString.empty, 0⟩

theorem checkActionCondition_negation_group :
    ExactlyOne (checkActionCondition templateServer templateEvent ⟨.hostGroup, .equal, ⟨bytes "2", by decide⟩⟩)
      (checkActionCondition templateServer templateEvent ⟨.hostGroup, .notEqual, ⟨bytes "2", by decide⟩⟩) :=
  (checkActionCondition_negation_iff templateServer templateEvent .hostGroup .equal .notEqual ⟨bytes "2", by decide⟩ rfl
    (by decide) (by decide)).mpr ⟨rfl, .inl (by decide)⟩

/-- The event is of the template, and is not of it either. -/
theorem checkActionCondition_template :
    checkActionCondition templateServer templateEvent ⟨.trigger, .equal, ⟨bytes "10", by decide⟩⟩ = some true ∧
      checkActionCondition templateServer templateEvent ⟨.trigger, .notEqual, ⟨bytes "10", by decide⟩⟩ = some true := by
  decide

end Zabbix
