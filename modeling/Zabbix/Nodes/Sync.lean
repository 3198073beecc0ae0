import Zabbix.Nodes.Config
import Zabbix.Proxyconfig.Receive

/-!
# Zabbix.Nodes.Sync

How a node takes a record of the configuration (`process_record` of
`zabbix_server/trapper/nodesync.c`): the record is split into fields, and each field adds
to the texts of an `update` and of an `insert`, of which one is executed.

What the code reads without having written it is given with a call.  The new check sums,
and what is only logged, are left out.
-/

namespace Zabbix.Nodesync

open Ascii Outcome Printf

/-- What a call finds in `recid`, `buffer` and `tmp`. -/
structure RecordHeap where
  recid : UInt64
  buffer : List UInt8
  tmp : List UInt8

/-- The texts that grow with the fields. -/
structure RecordTexts where
  fieldsUpdate : List UInt8
  fields : List UInt8
  values : List UInt8
deriving DecidableEq

/-- How a record ends: it fails, or a statement is executed, for an update with the fields
whose check sums are marked. -/
inductive RecordResult
  | failed
  | deleted (sql : List UInt8)
  | executed (sql fields : List UInt8)
deriving DecidableEq

/-- What is read of a field. -/
structure ReceivedField where
  fieldname : List UInt8
  valuetype : Int32
  value : List UInt8
deriving DecidableEq

/-- The three parts of a field, and the buffer behind them. -/
def nextReceived (line buffer : List UInt8) :
    Except NullPointer (ReceivedField × Option (List UInt8) × List UInt8) := do
  let (fieldname, r, buffer) ← zbxGetNextField (some line) buffer zbxDmDelimiter
  let (valuetype, r, buffer) ← zbxGetNextField r buffer zbxDmDelimiter
  let (value, r, buffer) ← zbxGetNextField r buffer zbxDmDelimiter
  pure ({ fieldname := fieldname, valuetype := atoi valuetype, value := value }, r, buffer)

/-- The types whose values are not quoted. -/
def isNumberType (valuetype : Int32) : Bool :=
  valuetype = ZbxFieldType.int.code ∨ valuetype = ZbxFieldType.uint.code ∨
    valuetype = ZbxFieldType.id.code ∨ valuetype = ZbxFieldType.float.code

/-- The text of a value, put into an `update` and into an `insert`. -/
def RecordTexts.put (t : RecordTexts) (fieldname text : List UInt8) (maxUpdate maxValues : ℕ) : RecordTexts :=
  { t with
    fieldsUpdate := zbxSnprintfAlloc t.fieldsUpdate maxUpdate (fieldname ++ equals :: text ++ [comma])
    values := zbxSnprintfAlloc t.values maxValues (text ++ [comma]) }

/-- What a value adds to the texts, and what is left in the buffer. -/
def recordValue (b : Backend) (t : RecordTexts) (f : ReceivedField) (buffer : List UInt8) :
    RecordTexts × List UInt8 :=
  let fieldname := f.fieldname.take zbxNameLen
  let fieldnameLen := f.fieldname.length
  let bufferLen := f.value.length
  if cstr buffer = bytes "NULL" then (t.put fieldname (bytes "NULL") (fieldnameLen + 8) 8, buffer)
  else if isNumberType f.valuetype then
    (t.put fieldname (cstr buffer) (fieldnameLen + bufferLen + 4) (bufferLen + 4), buffer)
  else if f.valuetype = ZbxFieldType.blob.code then
    if cstr buffer = [] then (t.put fieldname [squote, squote] (fieldnameLen + 8) 8, buffer)
    else
      match b with
      | .postgresql =>
          let binary := zbxHex2binary buffer
          let tmp := zbxPgEscapeBytea binary
          (t.put fieldname (squote :: tmp ++ [squote]) (fieldnameLen + tmp.length + 8) (tmp.length + 8),
            bufferPut buffer binary)
      | .mysql | .oracle | .sqlite3 =>
          (t.put fieldname (bytes "0x" ++ cstr buffer) (fieldnameLen + bufferLen + 8) (bufferLen + 8), buffer)
  else
    let binary := zbxHex2binary buffer
    let valueEsc := dbDynEscapeString b (cstr binary)
    (t.put fieldname (squote :: valueEsc ++ [squote]) (fieldnameLen + valueEsc.length + 8) (valueEsc.length + 8),
      bufferPut buffer binary)

/-- A field takes bytes of the record. -/
theorem nextReceived_lt {line buffer buffer' : List UInt8} {f : ReceivedField} {r : Option (List UInt8)}
    (h : nextReceived line buffer = .ok (f, r, buffer')) :
    (r.elim 0 fun rest => rest.length + 1) < line.length + 1 := by
  obtain ⟨⟨fieldname, r₁, buffer₁⟩, h₁, h⟩ := bind_eq_ok h
  obtain ⟨⟨valuetype, r₂, buffer₂⟩, h₂, h⟩ := bind_eq_ok h
  obtain ⟨⟨value, r₃, buffer₃⟩, h₃, h⟩ := bind_eq_ok h
  cases h
  have hlt₁ := zbxGetNextField_lt h₁
  have hlt₂ := zbxGetNextField_lt h₂
  have hlt₃ := zbxGetNextField_lt h₃
  exact (hlt₃.trans hlt₂).trans hlt₁

/-- The loop of `process_record`; with `none` it goes to `out`. -/
def recordLoop (b : Backend) (op : Int32) :
    (r : Option (List UInt8)) → (buffer : List UInt8) → RecordTexts → Except NullPointer (Option RecordTexts)
  | none, _, t => pure (some t)
  | some line, buffer, t =>
      match _h : nextReceived line buffer with
      | .error e => throw e
      | .ok (f, r, buffer) =>
          if op = nodeConfiglogOpUpdate then
            let (t, buffer) := recordValue b t f buffer
            let fields := zbxSnprintfAlloc t.fields (f.fieldname.length + 4) (f.fieldname.take zbxNameLen ++ [comma])
            recordLoop b op r buffer { t with fields := fields }
          else pure none
termination_by r => r.elim 0 fun line => line.length + 1
decreasing_by exact nextReceived_lt _h

/-- The statement for a row that is there. -/
def recordUpdate (table : ZbxTable) (recid : UInt64) (t : RecordTexts) : List UInt8 :=
  zbxVsnprintf (table.table.val.length + t.fieldsUpdate.length + table.recid.val.length + 64)
    (bytes "update " ++ table.table.val ++ bytes " set " ++ t.fieldsUpdate.dropLast ++ bytes " where " ++
      table.recid.val ++ equals :: ui64 recid)

/-- The statement for a row that is not there. -/
def recordInsert (table : ZbxTable) (t : RecordTexts) : List UInt8 :=
  zbxVsnprintf (table.table.val.length + t.fields.length + t.values.length + 64)
    (bytes "insert into " ++ table.table.val ++ bytes " (" ++ t.fields.dropLast ++ bytes ") values (" ++
      t.values.dropLast ++ [rparen])

/-- `process_record`; `there` says which rows there are.  An operation that is neither a
deletion nor an update, without fields, executes what is in `tmp`. -/
def processRecord (schema : Schema) (b : Backend) (there : ZbxTable → UInt64 → Bool) (heap : RecordHeap)
    (record : List UInt8) : Except NullPointer RecordResult := do
  let (tablename, r, buffer) ← zbxGetNextField (some record) heap.buffer zbxDmDelimiter
  match dbGetTable schema (bufferString tablename) with
  | none => pure .failed
  | some table =>
      let (field, r, buffer) ← zbxGetNextField r buffer zbxDmDelimiter
      let recid := (zbxStr2uint64 field).getD heap.recid
      let (field, r, buffer) ← zbxGetNextField r buffer zbxDmDelimiter
      let op := atoi field
      if op = nodeConfiglogOpDelete then
        pure (.deleted (bytes "delete from " ++ table.table.val ++ bytes " where " ++ table.recid.val ++
          equals :: ui64 recid))
      else
        let texts ← recordLoop b op r buffer
          { fieldsUpdate := []
            fields := zbxVsnprintf 128 (table.recid.val ++ [comma])
            values := zbxVsnprintf 128 (ui64 recid ++ [comma]) }
        match texts with
        | none => pure .failed
        | some t =>
            let sql :=
              if op ≠ nodeConfiglogOpUpdate then cstr heap.tmp
              else if there table recid then recordUpdate table recid t
              else recordInsert table t
            pure (.executed sql t.fields.dropLast)

end Zabbix.Nodesync
