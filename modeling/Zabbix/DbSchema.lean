import Zabbix.Lib.Mem

/-!
# Zabbix.DbSchema

The description of the database (`include/dbschema.h`, `libs/zbxdbhigh/dbschema.c`).

The tables themselves are generated and are a parameter here; of them it is
only used that their names fit the buffers that are declared for names.
-/

namespace Zabbix

/-- `ZBX_TYPE_*` -/
inductive ZbxFieldType
  | int
  | char
  | float
  | blob
  | text
  | uint
  | id
deriving DecidableEq, Repr

/-- `ZBX_FIELD`; `notnull`, `sync` and `proxy` are the flags `ZBX_NOTNULL`,
`ZBX_SYNC` and `ZBX_PROXY`. -/
structure ZbxField where
  name : CString
  type : ZbxFieldType
  notnull : Bool
  sync : Bool
  proxy : Bool
deriving DecidableEq

/-- `ZBX_TABLE`; `sync` is the flag `ZBX_SYNC`. -/
structure ZbxTable where
  table : CString
  recid : CString
  sync : Bool
  fields : List ZbxField
deriving DecidableEq

/-- `ZBX_TABLENAME_LEN`, and `ZBX_FIELDNAME_LEN` -/
def zbxNameLen : ℕ := 64

/-- A name that a buffer for names holds as a whole. -/
def IsName (name : CString) : Prop := name.val ≠ [] ∧ name.val.length ≤ zbxNameLen

instance (name : CString) : Decidable (IsName name) := inferInstanceAs (Decidable (_ ∧ _))

/-- `tables` -/
structure Schema where
  tables : List ZbxTable
  table_name : ∀ t ∈ tables, IsName t.table
  field_name : ∀ t ∈ tables, ∀ f ∈ t.fields, IsName f.name

/-- `DBget_table` -/
def dbGetTable (schema : Schema) (tablename : CString) : Option ZbxTable :=
  schema.tables.find? (·.table = tablename)

/-- `DBget_field` -/
def dbGetField (table : ZbxTable) (fieldname : CString) : Option ZbxField :=
  table.fields.find? (·.name = fieldname)

theorem dbGetTable_mem {schema : Schema} {tablename : CString} {t : ZbxTable}
    (h : dbGetTable schema tablename = some t) : t ∈ schema.tables ∧ t.table = tablename :=
  ⟨List.mem_of_find?_eq_some h, by simpa using List.find?_some h⟩

theorem dbGetField_mem {table : ZbxTable} {fieldname : CString} {f : ZbxField}
    (h : dbGetField table fieldname = some f) : f ∈ table.fields ∧ f.name = fieldname :=
  ⟨List.mem_of_find?_eq_some h, by simpa using List.find?_some h⟩

/-- A column of a table of the schema. -/
structure Column (schema : Schema) where
  tablename : CString
  fieldname : CString
  table : ZbxTable
  field : ZbxField
  dbGetTable_eq : dbGetTable schema tablename = some table
  dbGetField_eq : dbGetField table fieldname = some field
deriving DecidableEq

namespace Column

variable {schema : Schema}

theorem isName_tablename (c : Column schema) : IsName c.tablename := by
  obtain ⟨hmem, heq⟩ := dbGetTable_mem c.dbGetTable_eq
  exact heq ▸ schema.table_name c.table hmem

theorem isName_fieldname (c : Column schema) : IsName c.fieldname := by
  obtain ⟨hmem, -⟩ := dbGetTable_mem c.dbGetTable_eq
  obtain ⟨hfield, heq⟩ := dbGetField_mem c.dbGetField_eq
  exact heq ▸ schema.field_name c.table hmem c.field hfield

/-- A column is known by its names. -/
theorem eq_of_names {c c' : Column schema} (ht : c.tablename = c'.tablename) (hf : c.fieldname = c'.fieldname) :
    c = c' := by
  obtain ⟨tablename, fieldname, table, field, htable, hfield⟩ := c
  obtain ⟨tablename', fieldname', table', field', htable', hfield'⟩ := c'
  obtain rfl : tablename = tablename' := ht
  obtain rfl : fieldname = fieldname' := hf
  obtain rfl := Option.some.inj (htable.symm.trans htable')
  obtain rfl := Option.some.inj (hfield.symm.trans hfield')
  rfl

end Column

end Zabbix
