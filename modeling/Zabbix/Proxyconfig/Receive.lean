import Zabbix.Atoi
import Zabbix.DbEscape
import Zabbix.Json.Each
import Zabbix.Proxyconfig.Database
import Zabbix.Uint64Array

/-!
# Zabbix.Proxyconfig.Receive

The configuration as a proxy receives it (`zabbix_proxy/proxyconfig/proxyconfig.c`).

The statements are put together in one text, which is executed when it has got too
large, and at the end; the rows that are no longer there are deleted in front of
the last part.  Whatever fails, nothing stays changed: `process_proxyconfig` rolls
back, here `none`.
-/

namespace Zabbix

open Ascii Printf

/-! ## statements -/

/-- A value in a statement: a number, a literal by the text between its quotes, or a
number that is cut at the 127 bytes that are written of it and the comma behind it,
which no database takes. -/
inductive SqlValue
  | number (text : List UInt8)
  | string (body : List UInt8)
  | cut
deriving DecidableEq

def SqlValue.text : SqlValue → List UInt8
  | number text => text
  | string body => squote :: body ++ [squote]
  | cut => []

/-- The value of a field, as it is put into a statement. -/
def sqlValue (b : Backend) (type : ZbxFieldType) (buf : List UInt8) : SqlValue :=
  if type.isNumber then if buf.length < 127 then .number buf else .cut
  else .string (dbDynEscapeString b buf)

/-- An `insert` or an `update` of a row. -/
structure ProxyStatement where
  insert : Bool
  recid : ℕ
  values : List (CString × SqlValue)
deriving DecidableEq

/-- The text of a statement. -/
def ProxyStatement.text (table : ZbxTable) (s : ProxyStatement) : List UInt8 :=
  if s.insert then
    bytes "insert into " ++ table.table.val ++ bytes " (" ++ table.recid.val ++
      s.values.flatMap (fun v => comma :: v.1.val) ++ bytes ") values (" ++ dec s.recid ++
        s.values.flatMap (fun v => comma :: v.2.text) ++ bytes ");\n"
  else
    bytes "update " ++ table.table.val ++ bytes " set " ++
      [comma].intercalate (s.values.map fun v => v.1.val ++ bytes "=" ++ v.2.text) ++
        bytes " where " ++ table.recid.val ++ bytes "=" ++ dec s.recid ++ bytes ";\n"

/-- `sql_offset`: the length of the text, with Oracle behind `begin`. -/
def sqlOffset (b : Backend) (table : ZbxTable) (sql : List ProxyStatement) : ℕ :=
  (if b = .oracle then 6 else 0) + (sql.map fun s => (s.text table).length).sum

/-- `ZBX_MAX_SQL_SIZE` -/
def zbxMaxSqlSize : ℕ := 262144

/-! ## the database -/

/-- The string that a buffer holds. -/
def bufferString (buf : List UInt8) : CString :=
  ⟨cstr buf, fun h => absurd (List.mem_takeWhile_imp h) (by decide)⟩

/-- The database that a proxy has: the backend, how it reads backslashes in
literals, and what columns hold that are not given. -/
structure ProxyDb where
  backend : Backend
  rule : UnescapeRule
  default : CString → CString → Option CString

/-- What a column holds that is set to a value. -/
def ProxyDb.read (db : ProxyDb) : SqlValue → Option CString
  | .number text => some (bufferString text)
  | .string body => ((db.backend.dialect db.rule).body (body ++ [squote])).map fun r => bufferString r.1
  | .cut => none

/-- Set columns. -/
def DbRow.assign (row : DbRow) (values : List (CString × CString)) : DbRow :=
  { row with column := fun name => ((values.find? (·.1 = name)).map (·.2)) <|> row.column name }

/-- The execution of a statement; `none` when it fails. -/
def ProxyDb.execute (db : ProxyDb) (table : ZbxTable) (rows : List DbRow) (s : ProxyStatement) :
    Option (List DbRow) :=
  (s.values.mapM fun v => (db.read v.2).map fun value => (v.1, value)).bind fun values =>
    if s.insert then
      if rows.any (·.recid = s.recid) then none
      else some (rows ++ [DbRow.assign ⟨s.recid, db.default table.table⟩ values])
    else some (rows.map fun row => if row.recid = s.recid then row.assign values else row)

/-- `DBexecute` of all statements. -/
def ProxyDb.executeAll (db : ProxyDb) (table : ZbxTable) (rows : List DbRow) (sql : List ProxyStatement) :
    Option (List DbRow) :=
  sql.foldlM (db.execute table) rows

/-- `update items set key_=concat('#',itemid)` -/
def preprocessItems (rows : List DbRow) : List DbRow :=
  rows.map fun row => row.assign [(cname "key_", ⟨35 :: dec row.recid, by
    rintro (_ | ⟨_, h⟩)
    exact absurd (digit_of_mem_dec h).1 (by decide)⟩)]

/-! ## the functions -/

/-- The loop over `"fields"`. -/
def proxyconfigFields (table : ZbxTable) (jpData : ZbxJsonParse) : Option (List ZbxField) :=
  jsonEach (fun p => (zbxJsonNext jpData p).map fun p => (p, zbxJsonDecodevalue p maxStringLen))
    (fun r => match r.2 with | .found d => d.2 | .null | .overrun => r.1) (remaining jpData)
    (by
      intro p r h
      obtain ⟨q, hq, rfl⟩ := Scan.map_eq_found h
      have hlt := length_zbxJsonNext hq
      dsimp only
      split
      · next d hd => exact lt_of_le_of_lt (length_zbxJsonDecodevalue hd) hlt
      · exact hlt
      · exact hlt)
    (fun fields r =>
      match r.2 with
      | .found d => (table.fields.find? fun f => f.name.val = cstr d.1).map fun f => fields ++ [f]
      | .null | .overrun => none)
    [] none

/-- The fields of a row, behind its identifier: `f` is one more than the number of
those that have been read. -/
def proxyconfigValues (b : Backend) (fields : List ZbxField) (jpRow : ZbxJsonParse) (pf : Ptr) :
    Option (List (CString × SqlValue)) :=
  jsonEachValue jpRow maxStringLen
    (fun values r =>
      (fields[values.length + 1]?).map fun field => values ++ [(field.name, sqlValue b field.type (cstr r.1))])
    [] (some pf)

/-- The statement for a row. -/
def proxyconfigStatement (b : Backend) (fields : List ZbxField) (old : List ℕ) (p : Ptr) : Option ProxyStatement :=
  match zbxJsonBracketsOpen p with
  | .null | .overrun => none
  | .found jpRow =>
      match zbxJsonNextValue jpRow none maxStringLen with
      | .null | .overrun => none
      | .found (buf, pf) =>
          match proxyconfigValues b fields jpRow pf with
          | none => none
          | some values =>
              if values.length + 1 = fields.length then
                let recid := zbxAtoui64 (cstr buf)
                some { insert := !uint64ArrayExists old recid, recid := recid, values := values }
              else none

/-- What the loop over the rows has come to. -/
structure TableSync where
  new : List ℕ
  sql : List ProxyStatement
  rows : List DbRow

/-- The body of the loop over the rows. -/
def proxyconfigRow (db : ProxyDb) (table : ZbxTable) (fields : List ZbxField) (old : List ℕ) (s : TableSync)
    (p : Ptr) : Option TableSync :=
  match proxyconfigStatement db.backend fields old p with
  | none => none
  | some statement =>
      let sql := s.sql ++ [statement]
      let new := uint64ArrayAdd s.new statement.recid
      if sqlOffset db.backend table sql > zbxMaxSqlSize then
        (db.executeAll table s.rows sql).map fun rows => { new := new, sql := [], rows := rows }
      else some { new := new, sql := sql, rows := s.rows }

/-- What is done behind the loop: the rows that are no longer there are deleted, and
the rest of the text is executed. -/
def proxyconfigFinish (db : ProxyDb) (table : ZbxTable) (old : List ℕ) (s : TableSync) : Option (List DbRow) :=
  let old := uint64ArrayRm old s.new
  let rows := if old.length > 0 then s.rows.filter fun row => row.recid ∉ old else s.rows
  if sqlOffset db.backend table s.sql + (if db.backend = .oracle then 5 else 0) > 16 then
    db.executeAll table rows s.sql
  else some rows

/-- `process_proxyconfig_table` -/
def processProxyconfigTable (db : ProxyDb) (schema : Schema) (tables : CString → List DbRow) (tablename : CString)
    (jpObj : ZbxJsonParse) : Option (CString → List DbRow) :=
  match dbGetTable schema tablename with
  | none => none
  | some table =>
      let old := ((tables table.table).map fun row => zbxAtoui64 (dec row.recid)).foldl uint64ArrayAdd []
      match zbxJsonBracketsByName jpObj (bytes "fields") with
      | .null | .overrun => none
      | .found jpData =>
          match proxyconfigFields table jpData with
          | none => none
          | some fields =>
              match zbxJsonBracketsByName jpObj (bytes "data") with
              | .null | .overrun => none
              | .found jpData =>
                  let rows := if tablename = cname "items" then preprocessItems (tables table.table)
                    else tables table.table
                  ((jsonEachMember jpData (proxyconfigRow db table fields old) ⟨[], [], rows⟩).bind
                    (proxyconfigFinish db table old)).map fun rows => Function.update tables table.table rows

/-- `process_proxyconfig` -/
def processProxyconfig (db : ProxyDb) (schema : Schema) (tables : CString → List DbRow) (jp : ZbxJsonParse) :
    Option (CString → List DbRow) :=
  jsonEachPair jp maxStringLen
    (fun tables r =>
      match zbxJsonBracketsOpen r.2 with
      | .null | .overrun => none
      | .found jpObj => processProxyconfigTable db schema tables (bufferString r.1) jpObj)
    tables

/-- `process_configuration_sync`, from the data that has come in. -/
def processConfigurationSync (db : ProxyDb) (schema : Schema) (tables : CString → List DbRow) (data : List UInt8) :
    Option (CString → List DbRow) :=
  match zbxJsonOpen data with
  | .null | .overrun => none
  | .found jp => processProxyconfig db schema tables jp

end Zabbix
