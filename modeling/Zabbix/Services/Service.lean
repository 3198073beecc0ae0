import Zabbix.Ids.Alone
import Zabbix.Lib.Propagate
import Zabbix.Triggers.Dependent

/-!
# Zabbix.Services.Service

IT services (`libs/zbxdbhigh/host.c`, and the alarms of `libs/zbxdbhigh/db.c`).

A service is above another one when a row of `services_links` says so.  What a
trigger comes to is written to its services, and climbs from there: the services
directly above are computed one after the other, and then followed one after the
other.  Nothing is marked as visited, so a service is computed once for every way
that leads to it.

The database returns the rows of a select in any order; which one it is may be
different for every call of `DBupdate_services_rec`, that is, for every way upwards.
-/

namespace Zabbix

/-! ## the tables -/

/-- `SERVICE_ALGORITHM_NONE` -/
def serviceAlgorithmNone : ℤ := 0

/-- `SERVICE_ALGORITHM_MAX` -/
def serviceAlgorithmMax : ℤ := 1

/-- `SERVICE_ALGORITHM_MIN` -/
def serviceAlgorithmMin : ℤ := 2

/-- A row of `services`. -/
structure ServiceRow where
  serviceid : ℕ
  status : ℤ
  algorithm : ℤ
  triggerid : Option ℕ
deriving DecidableEq

/-- A row of `services_links`. -/
structure ServiceLink where
  serviceupid : ℕ
  servicedownid : ℕ
deriving DecidableEq

/-- All of a row but the status. -/
def ServiceRow.fixed (row : ServiceRow) : ServiceRow := { row with status := 0 }

/-- The columns of `triggers` that are looked at. -/
structure ServiceTrigger where
  triggerid : ℕ
  priority : ℤ
  status : ℤ
  value : ℤ
deriving DecidableEq

/-- A row of `service_alarms`. -/
structure ServiceAlarm where
  servicealarmid : ℕ
  serviceid : ℕ
  clock : ℤ
  value : ℤ
deriving DecidableEq

/-- The tables, with unique keys.  The row of `ids` is the one of
`service_alarms.servicealarmid`. -/
structure ServiceState where
  services : List ServiceRow
  key : (services.map ServiceRow.serviceid).Nodup
  links : List ServiceLink
  triggers : List ServiceTrigger
  alarms : List ServiceAlarm
  alarmKey : (alarms.map ServiceAlarm.servicealarmid).Nodup
  ids : Option ℕ

/-- What is not in the tables: the order of the rows of a select, and the time.
A call of `DBupdate_services_rec` is known by the way to it, the last service
first. -/
structure ServiceAnswers where
  leaves : List ServiceRow → List ServiceRow
  updated : (way : List ℕ) → List ServiceLink → List ServiceLink
  followed : (way : List ℕ) → List ServiceLink → List ServiceLink
  time : (way : List ℕ) → ℤ
  perm_leaves : ∀ rows, (leaves rows).Perm rows
  perm_updated : ∀ way rows, (updated way rows).Perm rows
  perm_followed : ∀ way rows, (followed way rows).Perm rows

/-- What ends a call early: `exit(FAIL)` when there are no identifiers left; or
more calls are nested than were provided for. -/
inductive ServiceStop
  | exit
  | deeper
deriving DecidableEq

namespace ServiceState

variable (s : ServiceState)

/-- The row of a service. -/
def service (serviceid : ℕ) : Option ServiceRow := s.services.find? (·.serviceid = serviceid)

/-- The links upwards from a service. -/
def linksFrom (serviceid : ℕ) : List ServiceLink := s.links.filter (·.servicedownid = serviceid)

/-- The select of `DBget_service_status`, in no order. -/
def statusesBelow (serviceid : ℕ) : List ℤ :=
  (s.links.filter (·.serviceupid = serviceid)).flatMap fun l =>
    (s.services.filter (·.serviceid = l.servicedownid)).map ServiceRow.status

/-- `update services set status=.. where serviceid=..` -/
def updateService (serviceid : ℕ) (status : ℤ) : ServiceState :=
  { s with
    services := s.services.map fun row => if row.serviceid = serviceid then { row with status := status } else row
    key := by
      rw [List.map_map]
      convert s.key using 2
      funext row
      simp only [Function.comp_apply]
      split <;> rfl }

/-- The insert into `service_alarms`, which fails on a key that is there. -/
def insertAlarm (row : ServiceAlarm) : ServiceState :=
  if h : row.servicealarmid ∈ s.alarms.map ServiceAlarm.servicealarmid then s
  else { s with alarms := row :: s.alarms, alarmKey := List.nodup_cons.mpr ⟨h, s.alarmKey⟩ }

end ServiceState

/-! ## the functions -/

/-- `DBget_service_status` -/
def dbGetServiceStatus (s : ServiceState) (serviceid : ℕ) (algorithm : ℤ) (triggerid : ℕ) : ℤ :=
  let status :=
    if triggerid ≠ 0 then
      match s.triggers.find? (fun t => t.triggerid = triggerid ∧ t.status = 0 ∧ t.value = triggerValueTrue) with
      | some t => t.priority
      | none => 0
    else 0
  if algorithm = serviceAlgorithmMax ∨ algorithm = serviceAlgorithmMin then
    -- the first row, in descending or in ascending order
    match if algorithm = serviceAlgorithmMax then (s.statusesBelow serviceid).max? else (s.statusesBelow serviceid).min?
      with
    | some row => if row ≠ 0 then row else status
    | none => status
  else status

/-- `latest_service_alarm` is `SUCCEED`. -/
def latestServiceAlarm (s : ServiceState) (serviceid : ℕ) (status : ℤ) : Bool :=
  match ((s.alarms.filter (·.serviceid = serviceid)).insertionSort fun a b =>
      a.servicealarmid ≥ b.servicealarmid).head? with
  | some row => row.value = status
  | none => false

variable {schema : Schema} (nodeid : ℕ) (c : Column schema)

/-- `DBadd_service_alarm`; `c` is `service_alarms.servicealarmid`. -/
def dbAddServiceAlarm (s : ServiceState) (serviceid : ℕ) (status clock : ℤ) : Except ServiceStop ServiceState :=
  if latestServiceAlarm s serviceid status then .ok s
  else
    match dbGetMaxidNum nodeid c 1 s.ids (s.alarms.map ServiceAlarm.servicealarmid) with
    | none => .error .exit
    | some r => .ok ({ s with ids := some r.lastid }.insertAlarm ⟨r.nextid, serviceid, clock, status⟩)

/-- A row of the first loop of `DBupdate_services_rec`. -/
def updateParent (clock : ℤ) (s : ServiceState) (serviceupid : ℕ) (algorithm : ℤ) :
    Except ServiceStop ServiceState :=
  if algorithm = serviceAlgorithmNone then .ok s
  else if algorithm = serviceAlgorithmMax ∨ algorithm = serviceAlgorithmMin then
    let status := dbGetServiceStatus s serviceupid algorithm 0
    (dbAddServiceAlarm nodeid c s serviceupid status clock).map fun s => s.updateService serviceupid status
  else .ok s

/-- The select in front of the first loop: the links, with the algorithm of the
service above. -/
def ServiceState.parentRows (s : ServiceState) (links : List ServiceLink) : List (ℕ × ℤ) :=
  links.filterMap fun l => (s.service l.serviceupid).map fun row => (l.serviceupid, row.algorithm)

/-- `DBupdate_services_rec`, with up to `depth` calls nested. -/
def dbUpdateServicesRec (answers : ServiceAnswers) : (depth : ℕ) → (way : List ℕ) → (s : ServiceState) →
    (serviceid : ℕ) → Except ServiceStop ServiceState
  | 0, _, _, _ => .error .deeper
  | depth + 1, way, s, serviceid => do
      let rows := s.parentRows (answers.updated (serviceid :: way) (s.linksFrom serviceid))
      let s ← rows.foldlM
        (fun s row => updateParent nodeid c (answers.time (row.1 :: serviceid :: way)) s row.1 row.2) s
      let links := answers.followed (serviceid :: way) (s.linksFrom serviceid)
      links.foldlM (fun s l => dbUpdateServicesRec answers depth (serviceid :: way) s l.serviceupid) s

/-- The loop of `DBupdate_services`, for one row. -/
def updateLeaf (answers : ServiceAnswers) (depth : ℕ) (status : ℤ) (s : ServiceState) (serviceid : ℕ) :
    Except ServiceStop ServiceState := do
  let s ← dbAddServiceAlarm nodeid c (s.updateService serviceid status) serviceid status (answers.time [serviceid])
  dbUpdateServicesRec nodeid c answers depth [] s serviceid

/-- `DBupdate_services` -/
def dbUpdateServices (answers : ServiceAnswers) (depth : ℕ) (s : ServiceState) (triggerid : ℕ) (status : ℤ) :
    Except ServiceStop ServiceState :=
  (answers.leaves (s.services.filter (·.triggerid = some triggerid))).foldlM
    (fun s row => updateLeaf nodeid c answers depth status s row.serviceid) s

end Zabbix
