import Zabbix.DbSchema
import Zabbix.Lib.Run
import Zabbix.Str

/-!
# Zabbix.Ids.NextId

The cache of identifiers in shared memory (`DCget_nextid` of
`libs/zbxdbcache/dbcache.c`).

A slot keeps the last identifier that has been handed out for a column.  It is
filled at the first call, with the greatest identifier of the table in the range
of the node; all of a call happens under a lock.
-/

namespace Zabbix

/-- `CONFIG_NODEID >= 0 ? CONFIG_NODEID : 0` -/
def nodeOf (configNodeid : ℤ) : ℕ := if configNodeid ≥ 0 then configNodeid.toNat else 0

/-- `min`, of the range of a node. -/
def minId (nodeid : ℕ) (table : ZbxTable) : ℕ :=
  if table.sync then 100000000000000 * nodeid + 100000000000 * nodeid else 100000000000000 * nodeid

/-- `max`, of the range of a node. -/
def maxId (nodeid : ℕ) (table : ZbxTable) : ℕ :=
  if table.sync then 100000000000000 * nodeid + 100000000000 * nodeid + 99999999999
  else 100000000000000 * nodeid + 99999999999999

/-- `select max(..) from .. where .. between min and max` -/
def selectMax (min max : ℕ) (ids : List ℕ) : Option ℕ := (ids.filter fun id => min ≤ id ∧ id ≤ max).max?

/-- `ZBX_DC_ID`; the name of the table is empty in a free slot. -/
structure ZbxDcId where
  tableName : CString
  fieldName : CString
  lastid : ℕ
deriving DecidableEq

/-- `ZBX_IDS_SIZE` -/
def zbxIdsSize : ℕ := 6

/-- The identifiers that a call hands out, the first and the last one. -/
structure IdRange where
  nextid : ℕ
  lastid : ℕ
deriving DecidableEq, Repr

/-- The loop of `DCget_nextid`: the slot of the column, or the first free one,
which is filled with `lastid`; `none` for `exit(-1)` when there is none. -/
def dcGetNextid (tableName fieldName : CString) (num lastid : ℕ) : List ZbxDcId → Option (IdRange × List ZbxDcId)
  | [] => none
  | id :: ids =>
      if id.tableName.val = [] then
        some (⟨lastid + 1, lastid + num⟩,
          { tableName := strlcpyString tableName (zbxNameLen + 1)
            fieldName := strlcpyString fieldName (zbxNameLen + 1)
            lastid := lastid + num } :: ids)
      else if id.tableName = tableName ∧ id.fieldName = fieldName then
        some (⟨id.lastid + 1, id.lastid + num⟩, { id with lastid := id.lastid + num } :: ids)
      else (dcGetNextid tableName fieldName num lastid ids).map fun r => (r.1, id :: r.2)

/-- The last identifier of a column, if it has a slot. -/
def slotOf (tableName fieldName : CString) : List ZbxDcId → Option ℕ
  | [] => none
  | id :: ids =>
      if id.tableName.val = [] then none
      else if id.tableName = tableName ∧ id.fieldName = fieldName then some id.lastid
      else slotOf tableName fieldName ids

/-- The cache after `memset`. -/
def freeIds : List ZbxDcId := List.replicate zbxIdsSize ⟨CString.empty, CString.empty, 0⟩

/-- A call of `DCget_nextid`, and the identifiers in the column at that time. -/
structure IdCall (schema : Schema) where
  column : Column schema
  num : ℕ
  pos : 0 < num
  ids : List ℕ

variable {schema : Schema}

/-- The range of the node for a column. -/
def Column.min (c : Column schema) (nodeid : ℕ) : ℕ := minId nodeid c.table

/-- The range of the node for a column. -/
def Column.max (c : Column schema) (nodeid : ℕ) : ℕ := maxId nodeid c.table

/-- What a free slot is filled with. -/
def fillLastid (nodeid : ℕ) (c : Column schema) (ids : List ℕ) : ℕ :=
  match selectMax (c.min nodeid) (c.max nodeid) ids with
  | some id => id
  | none => c.min nodeid + 1

/-- The cache, and the calls that have returned. -/
structure IdCache (schema : Schema) where
  ids : List ZbxDcId
  served : List (IdCall schema × IdRange)

/-- One call; the process that finds no slot does not return. -/
def IdCache.step (nodeid : ℕ) (s : IdCache schema) (call : IdCall schema) : IdCache schema :=
  match dcGetNextid call.column.tablename call.column.fieldname call.num
    (fillLastid nodeid call.column call.ids) s.ids with
  | none => s
  | some (range, ids) => { ids := ids, served := s.served ++ [(call, range)] }

/-- No call yet. -/
def IdCache.initial (schema : Schema) : IdCache schema := { ids := freeIds, served := [] }

end Zabbix
