import Zabbix.DbCache.Trend
import Zabbix.Nodes.Field
import Zabbix.Proxyconfig.Receive

/-!
# Zabbix.Nodes.History

How a master takes the history of a child node (`zabbix_server/trapper/nodehistory.c`).

What the code reads without having written it is given with a reception: what the
uninitialised locals of `process_items` hold, what `malloc` leaves in the buffer,
and what is printed for `'%s',` without an argument.  What is only logged is
left out.
-/

namespace Zabbix

open Ascii Printf

/-! ## tables -/

/-- `ZBX_FIELD`; `historySync` is the flag `ZBX_HISTORY_SYNC`. -/
structure HistoryField where
  name : CString
  type : ZbxFieldType
  historySync : Bool
deriving DecidableEq

/-- `ZBX_TABLE`, with the flags `ZBX_HISTORY` and `ZBX_HISTORY_SYNC`. -/
structure HistoryTable where
  table : CString
  history : Bool
  historySync : Bool
  fields : List HistoryField
deriving DecidableEq

/-- `DBget_table` -/
def dbGetHistoryTable (tables : List HistoryTable) (tablename : List UInt8) : Option HistoryTable :=
  tables.find? (·.table.val = tablename)

/-- The fields that the loops over the fields do not skip. -/
def HistoryTable.received (table : HistoryTable) : List HistoryField :=
  table.fields.filter fun f => !(table.historySync && !f.historySync)

/-- The columns that `begin_history_sql` names. -/
def HistoryTable.columns (table : HistoryTable) : List (List UInt8) :=
  (if table.historySync then [bytes "nodeid"] else []) ++ table.received.map (·.name.val)

/-- What a reception meets. -/
structure NodeServer where
  tables : List HistoryTable
  backend : Backend
  masterNodeid : Int32
  /-- `DBexecute` returns `ZBX_DB_OK` or more, after what it has executed before. -/
  execute : List (List UInt8) → List UInt8 → Bool
  atof : List UInt8 → ℚ
  /-- What `'%s',` prints without an argument, instead of a field. -/
  noArgument : List UInt8 → List UInt8

/-- What the uninitialised locals of a call of `process_items` hold. -/
structure StaleLocals where
  clock : Int32
  valueDouble : ℚ
deriving DecidableEq

/-- A `DB_EVENT` as it is received. -/
structure NodeEvent where
  eventid : UInt64
  source : Int32
  object : Int32
  objectid : UInt64
  clock : Int32
  value : Int32
  acknowledged : Int32
deriving DecidableEq

/-- A record in an `insert`: the columns, and the texts of the values, each with the
comma behind it. -/
structure NodeRecord where
  columns : List (List UInt8)
  values : List (List UInt8)
deriving DecidableEq

/-- The buffers, the statements that have been executed, the records that have been
accepted, the events that have been handed to `process_event`, and the trends. -/
structure NodeHistory where
  buffer : List UInt8
  sql1 : List UInt8
  sql2 : List UInt8
  sql3 : List UInt8
  executed : List (List UInt8)
  accepted : List NodeRecord
  events : List NodeEvent
  trends : TrendDb

variable (server : NodeServer)

/-! ## events -/

/-- A field of an event. -/
def eventField (name field : List UInt8) (event : NodeEvent) : NodeEvent :=
  if name = bytes "eventid" then { event with eventid := (zbxStr2uint64 field).getD event.eventid }
  else if name = bytes "source" then { event with source := atoi field }
  else if name = bytes "object" then { event with object := atoi field }
  else if name = bytes "objectid" then { event with objectid := (zbxStr2uint64 field).getD event.objectid }
  else if name = bytes "clock" then { event with clock := atoi field }
  else if name = bytes "value" then { event with value := atoi field }
  else if name = bytes "acknowledged" then { event with acknowledged := atoi field }
  else event

/-- The loop of `process_record_event`; it goes to `error` with `none`. -/
def recordEventFields : List HistoryField → (r : Option (List UInt8)) → (buffer : List UInt8) → NodeEvent →
    Except NullPointer (Option NodeEvent × List UInt8)
  | [], _, buffer, event => pure (some event, buffer)
  | f :: fields, r, buffer, event =>
      if r = none then pure (none, buffer)
      else do
        let (field, r, buffer) ← zbxGetNextField r buffer zbxDmDelimiter
        recordEventFields fields r buffer (eventField f.name.val field event)

/-- `process_record_event`; `process_event` succeeds always. -/
def processRecordEvent (s : NodeHistory) (table : HistoryTable) (record : List UInt8) :
    Except NullPointer (Bool × NodeHistory) := do
  let (event, buffer) ← recordEventFields table.fields (some record) s.buffer
    { eventid := 0, source := 0, object := 0, objectid := 0, clock := 0, value := 0, acknowledged := 0 }
  match event with
  | none => pure (false, { s with buffer := buffer })
  | some event => pure (true, { s with buffer := buffer, events := s.events ++ [event] })

/-! ## records -/

/-- `begin_history_sql` -/
def beginHistorySql (table : HistoryTable) : List UInt8 :=
  (bytes "insert into " ++ table.table.val ++ bytes " (" ++
    table.columns.flatMap fun c => c ++ [comma]).dropLast ++ bytes ") values "

/-- The text for a field, and what is left in the buffer. -/
def recordValue (type : ZbxFieldType) (field buffer : List UInt8) : List UInt8 × List UInt8 :=
  if type.isNumber then (field ++ [comma], buffer)
  else if type = .blob then
    match server.backend with
    | .postgresql =>
        let binary := zbxHex2binary buffer
        let len := (zbxPgEscapeBytea binary).length
        (zbxVsnprintf (len + 4) (squote :: server.noArgument field ++ [squote, comma]), bufferPut buffer binary)
    | .mysql | .oracle | .sqlite3 =>
        (if field = [] then [squote, squote, comma] else bytes "0x" ++ field ++ [comma], buffer)
  else
    let binary := zbxHex2binary buffer
    (squote :: dbDynEscapeString server.backend (cstr binary) ++ [squote, comma], bufferPut buffer binary)

/-- The loop of `process_record`: the texts of the values; it goes to `error` with `none`. -/
def recordValues : List HistoryField → (r : Option (List UInt8)) → (buffer : List UInt8) →
    Except NullPointer (Option (List (List UInt8)) × List UInt8)
  | [], _, buffer => pure (some [], buffer)
  | f :: fields, r, buffer =>
      if r = none then pure (none, buffer)
      else do
        let (field, r, buffer) ← zbxGetNextField r buffer zbxDmDelimiter
        let (value, buffer) := recordValue server f.type field buffer
        let (values, buffer) ← recordValues fields r buffer
        pure (values.map (value :: ·), buffer)

/-- The end of a record: a statement that is the last one, or too long, is executed. -/
def finishRecord (s : NodeHistory) (sql final : List UInt8) (lastrecord : Bool) :
    Bool × List UInt8 × NodeHistory :=
  if lastrecord ∨ zbxMaxSqlSize < sql.length then
    (server.execute s.executed final, [], { s with executed := s.executed ++ [final] })
  else (true, sql, s)

/-- The statement of `process_record` with one more record in it. -/
def recordSql (table : HistoryTable) (sql : List UInt8) (values : List (List UInt8)) : List UInt8 :=
  let tuple := (lparen :: values.flatten).dropLast
  match server.backend with
  | .mysql => (if sql = [] then beginHistorySql table else sql) ++ tuple ++ bytes "),"
  | .oracle => (if sql = [] then bytes "begin\n" else sql) ++ beginHistorySql table ++ tuple ++ bytes ");\n"
  | .postgresql | .sqlite3 => sql ++ beginHistorySql table ++ tuple ++ bytes ");\n"

/-- What `process_record` executes. -/
def finalSql (sql : List UInt8) : List UInt8 :=
  match server.backend with
  | .mysql => sql.dropLast ++ bytes ";\n"
  | .oracle => sql ++ bytes "end;\n"
  | .postgresql | .sqlite3 => sql

/-- `process_record`: whether it succeeds, the statement and the state.  What it leaves
in a statement when it does not succeed is not used. -/
def processRecord (s : NodeHistory) (sql : List UInt8) (nodeid : Int32) (table : HistoryTable)
    (record : List UInt8) (lastrecord : Bool) : Except NullPointer (Bool × List UInt8 × NodeHistory) := do
  let (values, buffer) ← recordValues server table.received (some record) s.buffer
  let s := { s with buffer := buffer }
  match values with
  | none => pure (false, sql, s)
  | some values =>
      let values := (if table.historySync then [d32 nodeid ++ [comma]] else []) ++ values
      let sql := recordSql server table sql values
      let (res, sql, s) := finishRecord server s sql (finalSql server sql) lastrecord
      if res then
        pure (true, sql, { s with accepted := s.accepted ++ [{ columns := table.columns, values := values }] })
      else pure (false, sql, s)

/-! ## items -/

/-- `ITEM_LASTVALUE_LEN` -/
def itemLastvalueLen : ℕ := 255

/-- The locals of `process_items`. -/
structure ItemLocals where
  itemid : UInt64
  clock : Int32
  valueType : Option ZbxFieldType
  valueDouble : ℚ
  valueUint64 : Option UInt64
deriving DecidableEq

/-- What the body of the loop of `process_items` does to the locals. -/
def itemLocals (l : ItemLocals) (f : HistoryField) (field : List UInt8) : ItemLocals :=
  let name := f.name.val
  { itemid := if name = bytes "itemid" then (zbxStr2uint64 field).getD l.itemid else l.itemid
    clock := if f.type.isNumber ∧ name = bytes "clock" then atoi field else l.clock
    valueType := if f.type.isNumber ∧ name = bytes "value" then some f.type else l.valueType
    valueDouble := if name = bytes "value" ∧ f.type = .float then server.atof field else l.valueDouble
    valueUint64 :=
      if name = bytes "value" ∧ f.type = .uint then (zbxStr2uint64 field).or l.valueUint64 else l.valueUint64 }

/-- What it adds to the statement, and the buffer. -/
def itemText (f : HistoryField) (field buffer : List UInt8) : List UInt8 × List UInt8 :=
  if f.type.isNumber then
    (if f.name.val = bytes "clock" then bytes ",lastclock=" ++ field
      else if f.name.val = bytes "value" then bytes ",lastvalue=" ++ field
      else [], buffer)
  else if f.name.val = bytes "value" then
    let binary := zbxHex2binary buffer
    (bytes ",lastvalue='" ++ dbDynEscapeStringLen server.backend (cstr binary) itemLastvalueLen ++ [squote],
      bufferPut buffer binary)
  else ([], buffer)

/-- The loop of `process_items`; it goes to `error` with `none`. -/
def itemFields : List HistoryField → (r : Option (List UInt8)) → (buffer : List UInt8) → ItemLocals →
    (sql : List UInt8) → Except NullPointer (Option (ItemLocals × List UInt8) × List UInt8)
  | [], _, buffer, l, sql => pure (some (l, sql), buffer)
  | f :: fields, r, buffer, l, sql =>
      if r = none then pure (none, buffer)
      else do
        let (field, r, buffer) ← zbxGetNextField r buffer zbxDmDelimiter
        let (text, buffer) := itemText server f field buffer
        itemFields fields r buffer (itemLocals server l f field) (sql ++ text)

/-- The conversion of a `double` to `zbx_uint64_t`. -/
def uint64OfDouble (x : ℚ) : UInt64 := UInt64.ofNat ⌊x⌋₊

/-- What `process_items` adds to the trends: for an unsigned value, `value_double`. -/
def ItemLocals.trend (l : ItemLocals) : Option TrendSample :=
  match l.valueType with
  | some .float =>
      some { itemid := l.itemid, clock := l.clock, valueType := .float, value := l.valueDouble }
  | some .uint =>
      some { itemid := l.itemid, clock := l.clock, valueType := .uint64, value := uint64OfDouble l.valueDouble }
  | _ => none

/-- `process_items` -/
def processItems (stale : StaleLocals) (s : NodeHistory) (table : HistoryTable) (record : List UInt8)
    (lastrecord : Bool) : Except NullPointer (Bool × NodeHistory) := do
  let start := if server.backend = .oracle ∧ s.sql2 = [] then bytes "begin\n" else s.sql2
  let (fields, buffer) ← itemFields server table.received (some record) s.buffer
    { itemid := 0, clock := stale.clock, valueType := none, valueDouble := stale.valueDouble, valueUint64 := none }
    (start ++ bytes "update items set prevvalue=lastvalue")
  let s := { s with buffer := buffer }
  match fields with
  | none => pure (false, s)
  | some (l, sql) =>
      let s := { s with trends := l.trend.elim s.trends (dbAddTrend s.trends) }
      let sql := sql ++ bytes " where itemid=" ++ ui64 l.itemid ++ bytes ";\n"
      let final := if server.backend = .oracle then sql ++ bytes "end;\n" else sql
      let (res, sql, s) := finishRecord server s sql final lastrecord
      pure (res, { s with sql2 := sql })

/-! ## the reception -/

/-- The lines that the loop of `node_history` goes through, and whether a newline ends
them. -/
def nodeLines : List UInt8 → List (List UInt8 × Bool)
  | [] => []
  | c :: data =>
      if c = newline then ([], true) :: nodeLines data
      else
        match nodeLines data with
        | [] => [([c], false)]
        | (line, ended) :: lines => (c :: line, ended) :: lines

/-- The string in front of the first `_sync`. -/
def beforeSync : List UInt8 → Option (List UInt8)
  | [] => none
  | c :: s => if (bytes "_sync").isPrefixOf (c :: s) then some [] else (beforeSync s).map (c :: ·)

/-- What is taken from the first line. -/
structure HistoryHeader where
  nodeid : Int32
  table : Option HistoryTable
  tableSync : Option HistoryTable
deriving DecidableEq

/-- `events` -/
def HistoryTable.isEvents (table : HistoryTable) : Bool := table.table.val = bytes "events"

/-- `history` -/
def HistoryTable.isHistory (table : HistoryTable) : Bool := (bytes "history").isPrefixOf table.table.val

/-- The tables that a table name leads to. -/
def headerTables (table : HistoryTable) (tablename : List UInt8) :
    Option HistoryTable × Option HistoryTable :=
  if table.historySync then
    match beforeSync tablename with
    | some base => (dbGetHistoryTable server.tables base, some table)
    | none => (some table, some table)
  else if table.history then (some table, none)
  else (none, none)

/-- The first line: its fields are taken without a look at the pointer, and the flags
without a look at the table. -/
def nodeHistoryHeader (line buffer : List UInt8) : Except NullPointer (HistoryHeader × List UInt8) := do
  let (_, r, buffer) ← zbxGetNextField (some line) buffer zbxDmDelimiter
  let (_, r, buffer) ← zbxGetNextField r buffer zbxDmDelimiter
  let (nodeid, r, buffer) ← zbxGetNextField r buffer zbxDmDelimiter
  let (tablename, _, buffer) ← zbxGetNextField r buffer zbxDmDelimiter
  match dbGetHistoryTable server.tables tablename with
  | none => throw .table
  | some table =>
      let (table, tableSync) := headerTables server table tablename
      pure ({ nodeid := atoi nodeid, table := table, tableSync := tableSync }, buffer)

/-- The second call for a record, if it is one of a history. -/
def processRecordItems (stale : StaleLocals) (s : NodeHistory) (table : HistoryTable) (line : List UInt8)
    (lastrecord : Bool) (res : Bool) : Except NullPointer (Bool × NodeHistory) :=
  if res ∧ table.isHistory then processItems server stale s table line lastrecord
  else pure (res, s)

/-- The third call for a record, if it goes on to the master of this node. -/
def processRecordSync (s : NodeHistory) (h : HistoryHeader) (line : List UInt8) (lastrecord : Bool) (res : Bool) :
    Except NullPointer (Bool × NodeHistory) :=
  match h.tableSync with
  | none => pure (res, s)
  | some tableSync =>
      if res ∧ server.masterNodeid ≠ 0 then do
        let (res, sql3, s) ← processRecord server s s.sql3 h.nodeid tableSync line lastrecord
        pure (res, { s with sql3 := sql3 })
      else pure (res, s)

/-- Another line. -/
def nodeHistoryLine (stale : StaleLocals) (h : HistoryHeader) (s : NodeHistory) (line : List UInt8)
    (lastrecord : Bool) : Except NullPointer (Bool × NodeHistory) :=
  match h.table with
  | none => pure (true, s)
  | some table =>
      if table.isEvents then processRecordEvent s table line
      else do
        let (res, sql1, s) ← processRecord server s s.sql1 h.nodeid table line lastrecord
        let (res, s) ← processRecordItems server stale { s with sql1 := sql1 } table line lastrecord res
        processRecordSync server s h line lastrecord res

/-- The loop behind the first line; what the locals hold for a line is known by how many
lines follow it. -/
def nodeHistoryLoop (stale : ℕ → StaleLocals) (h : HistoryHeader) :
    List (List UInt8 × Bool) → NodeHistory → Except NullPointer (Bool × NodeHistory)
  | [], s => pure (true, s)
  | (line, ended) :: lines, s => do
      let (res, s) ← nodeHistoryLine server (stale lines.length) h s line !ended
      if res then nodeHistoryLoop stale h lines s else pure (false, s)

/-- `node_history`: whether it succeeds, and the state.  A rollback undoes what has been
added to the trends. -/
def nodeHistory (stale : ℕ → StaleLocals) (malloc : List UInt8) (trends : TrendDb) (data : CString) :
    Except NullPointer (Bool × NodeHistory) := do
  let s : NodeHistory :=
    { buffer := malloc, sql1 := [], sql2 := [], sql3 := [], executed := [], accepted := [], events := [],
      trends := trends }
  match nodeLines data.val with
  | [] => pure (true, s)
  | (line, _) :: lines =>
      let (h, buffer) ← nodeHistoryHeader server line s.buffer
      let (res, s) ← nodeHistoryLoop server stale h lines { s with buffer := buffer }
      pure (res, if res then s else { s with trends := trends })

end Zabbix
