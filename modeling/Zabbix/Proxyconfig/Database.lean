import Zabbix.DbSchema
import Zabbix.Json.Valid
import Zabbix.Lib.Printf

/-!
# Zabbix.Proxyconfig.Database

The tables that are transferred to a proxy, on the server and on the proxy.
-/

namespace Zabbix

open Ascii

/-- The string of a text of the source. -/
def cname (s : String) (_h : decide ((0 : UInt8) ∉ bytes s) = true := by exact Eq.refl true) : CString :=
  ⟨bytes s, nul_not_mem_bytes s _h⟩

/-! ## rows -/

/-- A row of a table: its identifier, and the other columns as `DBfetch` gives
them, `none` for NULL. -/
structure DbRow where
  recid : ℕ
  column : CString → Option CString

/-- Types whose values are not quoted. -/
def ZbxFieldType.isNumber : ZbxFieldType → Bool
  | .int | .uint | .id | .float => true
  | .char | .blob | .text => false

/-- Types whose values are sent as integers. -/
def ZbxFieldType.isInteger : ZbxFieldType → Bool
  | .int | .uint | .id => true
  | .char | .float | .blob | .text => false

/-- The bytes of numbers. -/
def isNumberByte (c : UInt8) : Bool := JsonText.isDigit c ∨ c = minus ∨ c = plus ∨ c = dot ∨ c = 101

/-- The text of a number, as a database gives it for a column of the type. -/
structure IsNumber (type : ZbxFieldType) (s : List UInt8) : Prop where
  byte : ∀ c ∈ s, isNumberByte c = true
  length : s.length ≤ 40
  integer : type.isInteger = true → JsonText.isInt s = true

/-! ## the tables -/

/-- A table that is transferred (`pt` of `get_proxyconfig_data`): its name, and
the table and the field that lead to the proxy. -/
structure Proxytable where
  table : CString
  rel : Option (CString × CString)
deriving DecidableEq

/-- `pt` -/
def proxytables : List Proxytable :=
  [⟨cname "hosts", none⟩, ⟨cname "items", some (cname "hosts", cname "hostid")⟩,
    ⟨cname "drules", none⟩, ⟨cname "dchecks", some (cname "drules", cname "druleid")⟩]

/-- The fields of a table that are transferred, besides its identifier. -/
def ZbxTable.proxied (table : ZbxTable) : List ZbxField := table.fields.filter (·.proxy)

/-- A name without control characters. -/
def IsPlain (name : CString) : Prop := ∀ c ∈ name.val, 32 ≤ c

instance (name : CString) : Decidable (IsPlain name) := inferInstanceAs (Decidable (∀ c ∈ _, _))

/-- A table whose rows can be transferred: it has its identifier among its fields,
which is not transferred as one of them, and others that are. -/
structure ZbxTable.Transferable (table : ZbxTable) : Prop where
  recid : ∃ f ∈ table.fields, f.name = table.recid
  recid_not_proxied : ∀ f ∈ table.proxied, f.name ≠ table.recid
  names_nodup : (table.fields.map (·.name)).Nodup
  proxied_ne_nil : table.proxied ≠ []
  plain : IsPlain table.table ∧ ∀ f ∈ table.fields, IsPlain f.name

/-- The description of the database, as far as the transfer goes. -/
structure ProxySchema extends Schema where
  tables_nodup : (tables.map (·.table)).Nodup
  transferable : ∀ t ∈ tables, t.table ∈ proxytables.map (·.table) → t.Transferable

/-- The rows of all tables.  Identifiers are primary keys; they stay below 2^63. -/
structure Database (schema : Schema) where
  rows : CString → List DbRow
  nodup : ∀ t ∈ schema.tables, ((rows t.table).map (·.recid)).Nodup
  recid_lt : ∀ t ∈ schema.tables, ∀ r ∈ rows t.table, r.recid < 2 ^ 63
  number : ∀ t ∈ schema.tables, ∀ r ∈ rows t.table, ∀ f ∈ t.fields, f.type.isNumber = true →
    ∀ v, r.column f.name = some v → IsNumber f.type v.val

end Zabbix
