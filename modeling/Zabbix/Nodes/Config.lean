import Zabbix.Atoi
import Zabbix.DbEscape
import Zabbix.Nodes.Field
import Zabbix.Proxyconfig.Database

/-!
# Zabbix.Nodes.Config

What a node sends of its configuration (`get_config_data` of
`zabbix_server/nodewatcher/nodesender.c`).

The check sums of a row are texts with a part for each field that is synchronised.
A field is sent when its parts differ, when one of them is missing, or when it has
not been marked as sent.  Past the last field of a table there is nothing that could
be read; a loop that gets there has no result.

What the statements select is a parameter: the rows of `node_cksum`, and the columns of
a row with the `length` of each.
-/

namespace Zabbix

open Ascii Printf

/-! ## the database -/

/-- The bytes of the names in a schema. -/
def isNameByte (c : UInt8) : Bool := (48 ≤ c ∧ c ≤ 57) ∨ (97 ≤ c ∧ c ≤ 122) ∨ c = 95

/-- A name that needs no quotes. -/
def IsIdentifier (name : CString) : Prop := ∀ c ∈ name.val, isNameByte c = true

instance (name : CString) : Decidable (IsIdentifier name) := inferInstanceAs (Decidable (∀ c ∈ _, _))

/-- The description of the database.  `%s,length(%s),` has room for the name of a field. -/
structure NodeSchema extends Schema where
  table_identifier : ∀ t ∈ tables, IsIdentifier t.table
  recid_identifier : ∀ t ∈ tables, IsIdentifier t.recid ∧ t.recid.val.length ≤ zbxNameLen
  field_identifier : ∀ t ∈ tables, ∀ f ∈ t.fields, IsIdentifier f.name ∧ 2 * f.name.val.length + 9 < 128

/-- The columns of a row of a table, `none` for NULL.  A database hands over less than a
gigabyte. -/
structure ConfigValues (table : ZbxTable) where
  column : CString → Option (List UInt8)
  length : ∀ name v, column name = some v → v.length < 2 ^ 30
  number : ∀ f ∈ table.fields, f.type.isNumber = true → ∀ v, column f.name = some v → v ≠ [] ∧ IsNumber f.type v

/-- A row of the check sums: the one that has been sent, the one that is there now, and
the marks. -/
structure CksumRow where
  tablename : CString
  recordid : UInt64
  prev : Option CString
  curr : Option CString
  sync : Option CString
deriving DecidableEq

/-- The node that sends.  `length` is `length()` of SQL, in bytes or in characters, of which
one that is not ASCII has several bytes. -/
structure ConfigNode (schema : NodeSchema) where
  nodeid : Int32
  backend : Backend
  length : ZbxTable → ZbxField → List UInt8 → ℕ
  length_le : ∀ table f v, length table f v ≤ v.length
  length_ascii : ∀ table f v, (∀ c ∈ v, c < 0x80) → length table f v = v.length
  row : (table : ZbxTable) → UInt64 → Option (ConfigValues table)

/-- `DBis_null` -/
def dbIsNull (b : Backend) : Option (List UInt8) → Bool
  | none => true
  | some s => b = .oracle ∧ s = []

/-- A column that is not taken for NULL. -/
def dbValue (b : Backend) (column : Option (List UInt8)) : Option (List UInt8) :=
  if dbIsNull b column then none else column

/-! ## which fields are sent -/

/-- `ZBX_NODE_*` -/
inductive NodeType
  | master
  | slave
deriving DecidableEq, Repr

/-- The mark of a field, for a node that is sent to. -/
def NodeType.mark (dest : NodeType) (sync : Mem) (s : ℕ) : UInt8 :=
  match dest with
  | .slave => sync s
  | .master => sync (s + 1)

/-- The first part of a check sum. -/
def cksumPart (r : List UInt8) : List UInt8 := (strchr comma r).elim r Prod.fst

/-- The parts behind the first one. -/
def cksumRest (r : Option (List UInt8)) : Option (List UInt8) :=
  r.bind fun r => (strchr comma r).map Prod.snd

/-- A field is sent, with `1` for a mark that it has been. -/
def isChanged (dest : NodeType) (sync : Mem) (s : ℕ) (r₀ r₁ : Option (List UInt8)) : Bool :=
  r₀ = none ∨ r₁ = none ∨ dest.mark sync s ≠ 49 ∨ r₀.map cksumPart ≠ r₁.map cksumPart

/-- The loop over the parts of the check sums: the fields that are sent. -/
def changedFields (dest : NodeType) (sync : Mem) :
    List ZbxField → (r₀ r₁ : Option (List UInt8)) → (s : ℕ) → Option (List ZbxField)
  | [], _, _, _ => none
  | f :: fields, r₀, r₁, s =>
      if f.sync then
        (if cksumRest r₀ = none ∧ cksumRest r₁ = none then some []
          else changedFields dest sync fields (cksumRest r₀) (cksumRest r₁) (s + 2)).map fun rest =>
            if isChanged dest sync s r₀ r₁ then f :: rest else rest
      else changedFields dest sync fields r₀ r₁ s

/-! ## the records -/

/-- The numbers of the types. -/
def ZbxFieldType.code : ZbxFieldType → Int32
  | .int => 0
  | .char => 1
  | .float => 2
  | .blob => 3
  | .text => 4
  | .uint => 5
  | .id => 6

/-- `NODE_CONFIGLOG_OP_UPDATE` -/
def nodeConfiglogOpUpdate : Int32 := 0

/-- `NODE_CONFIGLOG_OP_DELETE` -/
def nodeConfiglogOpDelete : Int32 := 2

variable {schema : NodeSchema} (node : ConfigNode schema)

/-- The value of a field, behind what there is of the record. -/
def configValue (table : ZbxTable) (f : ZbxField) (column : Option (List UInt8)) (data : List UInt8) : List UInt8 :=
  match dbValue node.backend column with
  | none => zbxSnprintfAlloc data 128 (bytes "NULL")
  | some v =>
      if f.type.isNumber then zbxSnprintfAlloc data 128 (cstr v)
      else
        let rowlen := atoi (dec (node.length table f v))
        let hex := zbxBinary2hex (v.take rowlen.toInt.toNat)
        zbxSnprintfAlloc data (hex.length + 128) hex

/-- A field: its name, its type and its value. -/
def configField (table : ZbxTable) (values : ConfigValues table) (data : List UInt8) (f : ZbxField) : List UInt8 :=
  configValue node table f (values.column f.name)
    (zbxSnprintfAlloc data 128
      (zbxDmDelimiter :: f.name.val ++ zbxDmDelimiter :: d32 f.type.code ++ [zbxDmDelimiter]))

/-- The record of a row that is there. -/
def configUpdate (row : CksumRow) (table : ZbxTable) (values : ConfigValues table) (fields : List ZbxField)
    (data : List UInt8) : List UInt8 :=
  let data := zbxSnprintfAlloc data 128
    (row.tablename.val ++ zbxDmDelimiter :: ui64 row.recordid ++ zbxDmDelimiter :: d32 nodeConfiglogOpUpdate)
  zbxSnprintfAlloc (fields.foldl (configField node table values) data) 128 [newline]

/-- The record of a row that has been deleted. -/
def configDelete (row : CksumRow) (data : List UInt8) : List UInt8 :=
  zbxSnprintfAlloc data 128
    (row.tablename.val ++ zbxDmDelimiter :: ui64 row.recordid ++ zbxDmDelimiter :: d32 nodeConfiglogOpDelete ++
      [newline])

/-- `sync`, with what is in it from the rows before. -/
def syncMarks (stale : Mem) (sync : Option (List UInt8)) : Mem :=
  match dbValue node.backend sync with
  | some s => zbxStrlcpy stale 0 s 129
  | none => stale.write 0 (List.replicate 129 space)

/-- The body of the loop of `get_config_data`: the data and `sync`. -/
def configRow (dest : NodeType) (s : List UInt8 × Mem) (row : CksumRow) : Option (List UInt8 × Mem) :=
  match dbGetTable schema.toSchema row.tablename with
  | none => pure s
  | some table =>
      let sync := syncMarks node s.2 (row.sync.map (·.val))
      match dbValue node.backend (row.curr.map (·.val)) with
      | none => pure (if dest.mark sync 0 ≠ 50 then configDelete row s.1 else s.1, sync)
      | some curr => do
          let prev := dbValue node.backend (row.prev.map (·.val))
          let fields ← changedFields dest sync table.fields prev (some curr) 0
          if fields = [] then pure (s.1, sync)
          else
            match node.row table row.recordid with
            | none => pure (s.1, sync)
            | some values => pure (configUpdate node row table values fields s.1, sync)

/-- `get_config_data` -/
def getConfigData (nodeid : Int32) (dest : NodeType) (stale : Mem) (rows : List CksumRow) : Option (List UInt8) := do
  let data := zbxVsnprintf 128
    (bytes "Data" ++ zbxDmDelimiter :: d32 node.nodeid ++ zbxDmDelimiter :: d32 nodeid ++ [newline])
  let s ← rows.foldlM (configRow node dest) (data, stale)
  pure s.1

end Zabbix
