import Zabbix.Lib.Cascade
import Zabbix.Services.Service
import Zabbix.Triggers.Event
import Zabbix.Ids.Alone

/-!
# Zabbix.Host.Tables

The tables that hosts, templates and what is linked to them are kept in
(`libs/zbxdbhigh/host.c`), with the columns that the functions there look at.

An element that comes from one of a template has the identifier of that one in
`templateid`, and 0 if it comes from none.

The statements are the ones of MySQL.  A select gives the rows in the order of the
table, as they are at that moment; one that the database does not understand gives
none (`zbx_db_vselect`).  Keys of rows that no function looks at are left out, and
with them what `DBget_maxid` does for them (`Zabbix.Ids`).
-/

namespace Zabbix.Host

/-- A row of `hosts`. -/
structure HostRow where
  hostid : ℕ
  host : List UInt8
  status : ℤ
deriving DecidableEq

/-- A row of `hosts_templates`: `hostid` is linked to `templateid`. -/
structure HostTemplate where
  hostid : ℕ
  templateid : ℕ
deriving DecidableEq

/-- A row of `items`. -/
structure Item where
  itemid : ℕ
  hostid : ℕ
  key : List UInt8
  templateid : ℕ
deriving DecidableEq

/-- A row of `items_applications`. -/
structure ItemApplication where
  itemid : ℕ
  applicationid : ℕ
deriving DecidableEq

/-- A row of `functions`. -/
structure Function where
  functionid : ℕ
  itemid : ℕ
  triggerid : ℕ
  function : List UInt8
  parameter : List UInt8
deriving DecidableEq

/-- A row of `triggers`. -/
structure Trigger where
  triggerid : ℕ
  expression : List UInt8
  description : List UInt8
  url : List UInt8
  comments : List UInt8
  status : ℤ
  value : ℤ
  priority : ℤ
  depLevel : ℤ
  templateid : ℕ
  type : ℤ
deriving DecidableEq

/-- A row of `trigger_depends`. -/
structure TriggerDepend where
  triggeridDown : ℕ
  triggeridUp : ℕ
deriving DecidableEq

/-- A row of `sysmaps_elements`. -/
structure SysmapElement where
  selementid : ℕ
  elementid : ℕ
  elementtype : ℤ
deriving DecidableEq

/-- A row of `sysmaps_links`. -/
structure SysmapLink where
  linkid : ℕ
  selementid1 : ℕ
  selementid2 : ℕ
deriving DecidableEq

/-- A row of `sysmaps_link_triggers`. -/
structure SysmapLinkTrigger where
  linkid : ℕ
  triggerid : ℕ
deriving DecidableEq

/-- A row of `conditions`; `value` is the number that is compared. -/
structure ActionCondition where
  actionid : ℕ
  conditiontype : ℤ
  value : ℕ
deriving DecidableEq

/-- A row of `actions`. -/
structure ActionStatus where
  actionid : ℕ
  status : ℤ
deriving DecidableEq

/-- A row of `graphs`. -/
structure Graph where
  graphid : ℕ
  name : List UInt8
  width : ℤ
  height : ℤ
  yaxistype : ℤ
  yaxismin : ℚ
  yaxismax : ℚ
  templateid : ℕ
  showWorkPeriod : ℤ
  showTriggers : ℤ
  graphtype : ℤ
  showLegend : ℤ
  show3d : ℤ
  percentLeft : ℚ
  percentRight : ℚ
deriving DecidableEq

/-- A row of `graphs_items`. -/
structure GraphItem where
  graphid : ℕ
  itemid : ℕ
  color : List UInt8
  drawtype : ℤ
  sortorder : ℤ
  yaxisside : ℤ
  calcFnc : ℤ
  type : ℤ
  periodsCnt : ℤ
deriving DecidableEq

/-- A row of `screens_items`. -/
structure ScreenItem where
  resourcetype : ℤ
  resourceid : ℕ
deriving DecidableEq

/-- The tables that values of items are stored in. -/
inductive ValueTable
  | trends
  | trendsUint
  | history
  | historyUint
  | historyStr
  | historyText
  | historyLog
deriving DecidableEq

/-- A row of `housekeeper`, for the field `itemid`. -/
structure HousekeeperRow where
  tablename : ValueTable
  value : ℕ
deriving DecidableEq

/-- The columns that identifiers are taken from with `DBget_maxid`. -/
inductive IdColumn
  | functions
  | triggers
  | graphs
deriving DecidableEq

/-- The tables; the triggers of `services` are those of `triggers`. -/
structure HostDb where
  hosts : List HostRow
  hostsTemplates : List HostTemplate
  items : List Item
  itemsApplications : List ItemApplication
  functions : List Function
  triggers : List Trigger
  triggerDepends : List TriggerDepend
  events : List EventRow
  services : ServiceState
  servicesTimes : List ℕ
  sysmapsElements : List SysmapElement
  sysmapsLinks : List SysmapLink
  sysmapsLinkTriggers : List SysmapLinkTrigger
  conditions : List ActionCondition
  actions : List ActionStatus
  graphs : List Graph
  graphsItems : List GraphItem
  screensItems : List ScreenItem
  /-- the items that have values in a table, once for each value -/
  values : ValueTable → List ℕ
  housekeeper : List HousekeeperRow
  /-- the row of `ids` for a column, if there is one -/
  ids : IdColumn → Option ℕ

/-- What ends a call early: `exit(FAIL)` when there are no identifiers left; a NULL
that is read as a number or a text; or more calls are nested than were provided for. -/
inductive HostStop
  | exit
  | null
  | deeper
deriving DecidableEq

/-- What a function returns, with `true` for `SUCCEED`, and the tables then. -/
abbrev Result := Except HostStop (Bool × HostDb)

/-- No services. -/
def noServices : ServiceState where
  services := []
  key := List.nodup_nil
  links := []
  triggers := []
  alarms := []
  alarmKey := List.nodup_nil
  ids := none

/-- No rows. -/
def HostDb.empty : HostDb where
  hosts := []
  hostsTemplates := []
  items := []
  itemsApplications := []
  functions := []
  triggers := []
  triggerDepends := []
  events := []
  services := noServices
  servicesTimes := []
  sysmapsElements := []
  sysmapsLinks := []
  sysmapsLinkTriggers := []
  conditions := []
  actions := []
  graphs := []
  graphsItems := []
  screensItems := []
  values := fun _ => []
  housekeeper := []
  ids := fun _ => none

/-! ## identifiers -/

/-- The identifiers in a column. -/
def HostDb.column (db : HostDb) : IdColumn → List ℕ
  | .functions => db.functions.map Function.functionid
  | .triggers => db.triggers.map Trigger.triggerid
  | .graphs => db.graphs.map Graph.graphid

variable {schema : Schema} (nodeid : ℕ) (c : IdColumn → Column schema)

/-- `DBget_maxid`, with the columns as they are in the schema. -/
def dbGetMaxid (column : IdColumn) (db : HostDb) : Except HostStop (ℕ × HostDb) :=
  match dbGetMaxidNum nodeid (c column) 1 (db.ids column) (db.column column) with
  | none => .error .exit
  | some range => .ok (range.nextid, { db with ids := Function.update db.ids column (some range.lastid) })

/-- The identifiers of a column are not above what `ids` has for it. -/
def HostDb.NotBelow (column : IdColumn) (db : HostDb) : Prop :=
  Zabbix.NotBelow nodeid (c column) (db.ids column) (db.column column)

/-- The identifier behind which the next ones of a column are. -/
def HostDb.lastId (column : IdColumn) (db : HostDb) : ℕ :=
  Zabbix.lastId nodeid (c column) (db.ids column) (db.column column)

/-- The tables when the next identifier of a column has been taken. -/
def HostDb.takeId (column : IdColumn) (db : HostDb) : HostDb :=
  { db with ids := Function.update db.ids column (some (db.lastId nodeid c column + 1)) }

variable {nodeid c} {column : IdColumn} {db : HostDb}

theorem dbGetMaxid_eq : dbGetMaxid nodeid c column db =
    if db.lastId nodeid c column < (c column).max nodeid then
      .ok (db.lastId nodeid c column + 1, db.takeId nodeid c column)
    else .error .exit := by
  rw [dbGetMaxid, dbGetMaxidNum_eq, HostDb.lastId]
  by_cases h : Zabbix.lastId nodeid (c column) (db.ids column) (db.column column) < (c column).max nodeid
  · rw [if_pos h, if_pos h]
    rfl
  · rw [if_neg h, if_neg h]

theorem takeId_ids : (db.takeId nodeid c column).ids column = some (db.lastId nodeid c column + 1) := by
  change Function.update db.ids column _ column = _
  exact Function.update_self ..

/-- The table of a column, with its key. -/
def IdColumn.table : IdColumn → ZbxTable
  | .functions => keyed ⟨bytes "functions", by decide⟩ ⟨bytes "functionid", by decide⟩
  | .triggers => keyed ⟨bytes "triggers", by decide⟩ ⟨bytes "triggerid", by decide⟩
  | .graphs => keyed ⟨bytes "graphs", by decide⟩ ⟨bytes "graphid", by decide⟩
where
  keyed (table recid : CString) : ZbxTable :=
    { table, recid, sync := true, fields := [⟨recid, .id, true, false, false⟩] }

/-- The tables with the columns. -/
def idSchema : Schema where
  tables := [IdColumn.functions.table, IdColumn.triggers.table, IdColumn.graphs.table]
  table_name := by
    simp only [List.forall_mem_cons, List.not_mem_nil, false_imp_iff, implies_true, and_true]
    exact ⟨⟨by decide, by decide⟩, ⟨by decide, by decide⟩, ⟨by decide, by decide⟩⟩
  field_name := by
    simp only [List.forall_mem_cons, List.not_mem_nil, false_imp_iff, implies_true, and_true, IdColumn.table,
      IdColumn.table.keyed]
    exact ⟨⟨by decide, by decide⟩, ⟨by decide, by decide⟩, ⟨by decide, by decide⟩⟩

/-- The columns as they are in the schema. -/
def idColumn (column : IdColumn) : Column idSchema where
  tablename := column.table.table
  fieldname := column.table.recid
  table := column.table
  field := ⟨column.table.recid, .id, true, false, false⟩
  dbGetTable_eq := by cases column <;> decide
  dbGetField_eq := by cases column <;> decide

end Zabbix.Host
