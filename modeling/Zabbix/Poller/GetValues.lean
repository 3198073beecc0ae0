import Zabbix.Lib.Run

/-!
# Zabbix.Poller.GetValues

How pollers take values and what becomes of the availability of hosts
(`get_values` of `zabbix_server/poller/poller.c`, `DBupdate_host_availability` of
`libs/zbxdbhigh/db.c`).

Any number of pollers work side by side.  A poller reads a batch of items, with what
is known of their hosts; it takes them one by one, and the result of each is dealt
with as a whole.  The poller for unreachable hosts reads an item once more when it
takes it.  Of the table `hosts` there are the columns that are looked at; a log keeps
the polls that have been completed.
-/

namespace Zabbix

/-- `HOST_AVAILABLE_*` -/
inductive HostAvailable
  | unknown
  | true
  | false
deriving DecidableEq, Repr

/-- A row of `hosts`. -/
structure HostRow where
  available : HostAvailable
  errorsFrom : ℤ
  disableUntil : ℤ
deriving DecidableEq

/-- The types of the items that are polled. -/
inductive PolledType
  | zabbix
  | snmpv1
  | snmpv2c
  | snmpv3
  | ipmi
  | simple
  | internal
  | aggregate
  | external
  | dbMonitor
deriving DecidableEq, Repr

/-- The types whose results say that the host is there. -/
def PolledType.isAgent : PolledType → Bool
  | .zabbix | .snmpv1 | .snmpv2c | .snmpv3 | .ipmi => true
  | .simple | .internal | .aggregate | .external | .dbMonitor => false

/-- `ZBX_POLLER_TYPE_*` -/
inductive PollerType
  | normal
  | ipmi
  | unreachable
deriving DecidableEq, Repr

/-- What `get_value` returns. -/
inductive PollResult
  | succeed
  | notsupported
  | agentError
  | networkError
deriving DecidableEq, Repr

/-- An item that is due. -/
structure DueItem where
  itemid : ℕ
  hostid : ℕ
  type : PolledType
deriving DecidableEq

/-- `DB_ITEM`: an item with the columns of its host, the time when they were read and the
number of polls that had been completed then. -/
structure PolledItem extends DueItem where
  hostAvailable : HostAvailable
  hostErrorsFrom : ℤ
  readAt : ℤ
  completed : ℕ
deriving DecidableEq

/-- A poll that has been completed: the time when the item was read, the time of the
result, and the result. -/
structure Poll where
  hostid : ℕ
  type : PolledType
  readAt : ℤ
  now : ℤ
  res : PollResult
deriving DecidableEq

/-- A poller: the rows that are left, the hosts that it has found unreachable, and the item
whose value it is taking. -/
structure PollerState where
  type : PollerType
  rows : List PolledItem
  unreachableHosts : List ℕ
  item : Option PolledItem
deriving DecidableEq

/-- The clock, the hosts, the pollers and the polls that have been completed. -/
structure PollerWorld where
  clock : ℤ
  hosts : ℕ → HostRow
  pollers : ℕ → PollerState
  polls : List Poll

/-- `CONFIG_UNREACHABLE_PERIOD`, `CONFIG_UNREACHABLE_DELAY` and `CONFIG_UNAVAILABLE_DELAY`. -/
structure PollerConfig where
  unreachablePeriod : ℤ
  unreachableDelay : ℤ
  unavailableDelay : ℤ
deriving DecidableEq

/-! ## reading -/

/-- The conditions on the host in the selects of a poller. -/
def selects (type : PollerType) (item : PolledType) (host : HostRow) (now : ℤ) : Bool :=
  match type with
  | .unreachable => item.isAgent ∧ host.disableUntil ≤ now ∧ host.errorsFrom ≠ 0
  | .ipmi => item = .ipmi ∧ host.disableUntil ≤ now ∧ host.errorsFrom = 0
  | .normal =>
      if item.isAgent then item ≠ .ipmi ∧ host.disableUntil ≤ now ∧ host.errorsFrom = 0 else true

/-- `group by h.hostid` with `min(i.itemid)`, of the poller for unreachable hosts. -/
def groupByHost (type : PollerType) (items : List DueItem) : List DueItem :=
  if type = .unreachable then
    items.filter fun item => ∀ other ∈ items, other.hostid = item.hostid → item.itemid ≤ other.itemid
  else items

namespace PollerWorld

/-- `DBget_item_from_db` -/
def read (w : PollerWorld) (now : ℤ) (item : DueItem) : PolledItem :=
  { item with
    hostAvailable := (w.hosts item.hostid).available
    hostErrorsFrom := (w.hosts item.hostid).errorsFrom
    readAt := now
    completed := w.polls.length }

/-- The batch of a poller. -/
def batch (w : PollerWorld) (type : PollerType) (now : ℤ) (due : List DueItem) : List PolledItem :=
  (groupByHost type (due.filter fun item => selects type item.type (w.hosts item.hostid) now)).map (w.read now)

end PollerWorld

/-! ## results -/

/-- The updates of `hosts`. -/
inductive HostUpdate
  | enable
  | clearErrors
  | firstError
  | disable
  | disableAgain
  | wait
deriving DecidableEq, Repr

/-- `enable_host`: `DBupdate_host_availability` with `HOST_AVAILABLE_TRUE`, and the item. -/
def enableHost (item : PolledItem) : List HostUpdate × PolledItem :=
  if item.hostAvailable = .true then ([], item)
  else ([.enable], { item with hostAvailable := .true, hostErrorsFrom := 0 })

/-- `disable_host`: `DBupdate_host_availability` with `HOST_AVAILABLE_FALSE`. -/
def disableHost (item : PolledItem) : List HostUpdate :=
  if item.hostAvailable = .false then [.disableAgain] else [.disable]

/-- What `get_values` updates when the host is there. -/
def hostAnswers (item : PolledItem) : List HostUpdate :=
  if item.type.isAgent then
    let (updates, item) := if item.hostAvailable ≠ .true then enableHost item else ([], item)
    updates ++ if item.hostErrorsFrom ≠ 0 then [.clearErrors] else []
  else []

/-- What `get_values` updates for a result. -/
def resultUpdates (cfg : PollerConfig) (item : PolledItem) (now : ℤ) : PollResult → List HostUpdate
  | .succeed | .notsupported | .agentError => hostAnswers item
  | .networkError =>
      if item.hostErrorsFrom = 0 then [.firstError]
      else if cfg.unreachablePeriod < now - item.hostErrorsFrom then disableHost item
      else [.wait]

/-- An update of a row. -/
def HostUpdate.apply (cfg : PollerConfig) (now : ℤ) (host : HostRow) : HostUpdate → HostRow
  | enable => { host with available := .true, errorsFrom := 0 }
  | clearErrors => { host with errorsFrom := 0 }
  | firstError => { host with errorsFrom := now, disableUntil := now + cfg.unreachableDelay }
  | disable => { host with available := .false, disableUntil := now + cfg.unavailableDelay }
  | disableAgain => { host with disableUntil := now + cfg.unavailableDelay }
  | wait => { host with disableUntil := now + cfg.unreachableDelay }

/-! ## steps -/

/-- What a poller does next: it selects a batch of the items that are due, it takes the
next row (which may be found no more, or not be due yet), or it gets a result; so many
seconds after the step before. -/
inductive PollerAction
  | select (due : List DueItem)
  | fetch (polls : Bool)
  | result (res : PollResult)
deriving DecidableEq

/-- A step of a poller. -/
structure PollerEvent where
  poller : ℕ
  elapsed : ℕ
  action : PollerAction
deriving DecidableEq

namespace PollerWorld

variable (cfg : PollerConfig)

/-- The state with a poller changed. -/
def setPoller (w : PollerWorld) (p : ℕ) (poller : PollerState) : PollerWorld :=
  { w with pollers := Function.update w.pollers p poller }

/-- A batch is selected when the one before has been dealt with. -/
def select (w : PollerWorld) (p : ℕ) (due : List DueItem) : PollerWorld :=
  let poller := w.pollers p
  if poller.rows = [] ∧ poller.item = none then
    w.setPoller p { poller with rows := w.batch poller.type w.clock due, unreachableHosts := [] }
  else w

/-- The next row is taken.  A normal poller skips hosts that it has found unreachable; the
poller for unreachable hosts reads the item again. -/
def fetch (w : PollerWorld) (p : ℕ) (polls : Bool) : PollerWorld :=
  let poller := w.pollers p
  match poller.rows, poller.item with
  | row :: rows, none =>
      if poller.type = .unreachable then
        w.setPoller p { poller with rows := rows, item := if polls then some (w.read w.clock row.toDueItem) else none }
      else
        w.setPoller p
          { poller with rows := rows, item := if polls ∧ row.hostid ∉ poller.unreachableHosts then some row else none }
  | _, _ => w

/-- The result of a poll is dealt with.  With `stop` the rest of a batch is left, except by
the poller for unreachable hosts. -/
def result (w : PollerWorld) (p : ℕ) (res : PollResult) : PollerWorld :=
  let poller := w.pollers p
  match poller.item with
  | none => w
  | some item =>
      let updates := resultUpdates cfg item w.clock res
      let stop := HostUpdate.enable ∈ updates ∨ HostUpdate.clearErrors ∈ updates
      { w with
        hosts := Function.update w.hosts item.hostid (updates.foldl (HostUpdate.apply cfg w.clock) (w.hosts item.hostid))
        polls := w.polls ++
          [{ hostid := item.hostid, type := item.type, readAt := item.readAt, now := w.clock, res := res }]
        pollers := Function.update w.pollers p
          { poller with
            rows := if stop ∧ poller.type ≠ .unreachable then [] else poller.rows
            unreachableHosts :=
              if res = .networkError then item.hostid :: poller.unreachableHosts else poller.unreachableHosts
            item := none } }

theorem hosts_select (w : PollerWorld) (p : ℕ) (due : List DueItem) : (w.select p due).hosts = w.hosts := by
  rw [select]
  split <;> rfl

theorem hosts_fetch (w : PollerWorld) (p : ℕ) (polls : Bool) : (w.fetch p polls).hosts = w.hosts := by
  rw [fetch]
  split
  · split <;> rfl
  · rfl

theorem result_of_none {w : PollerWorld} {p : ℕ} (h : (w.pollers p).item = none) (res : PollResult) :
    w.result cfg p res = w := by
  rw [result, h]

section

variable {w : PollerWorld} {p : ℕ} {item : PolledItem} (h : (w.pollers p).item = some item) (res : PollResult)
include h

theorem clock_result : (w.result cfg p res).clock = w.clock := by
  rw [result, h]

theorem hosts_result :
    (w.result cfg p res).hosts = Function.update w.hosts item.hostid
      ((resultUpdates cfg item w.clock res).foldl (HostUpdate.apply cfg w.clock) (w.hosts item.hostid)) := by
  rw [result, h]

theorem polls_result :
    (w.result cfg p res).polls = w.polls ++
      [{ hostid := item.hostid, type := item.type, readAt := item.readAt, now := w.clock, res := res }] := by
  rw [result, h]

end

/-- One step. -/
def step (w : PollerWorld) (e : PollerEvent) : PollerWorld :=
  let w := { w with clock := w.clock + e.elapsed }
  match e.action with
  | .select due => w.select e.poller due
  | .fetch polls => w.fetch e.poller polls
  | .result res => w.result cfg e.poller res

/-- The start of the server: no poller has a batch. -/
structure Initial (w : PollerWorld) : Prop where
  rows : ∀ p, (w.pollers p).rows = []
  item : ∀ p, (w.pollers p).item = none
  polls : w.polls = []

end PollerWorld

end Zabbix
