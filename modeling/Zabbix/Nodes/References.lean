import Zabbix.Lib.Rekey
import Zabbix.Nodes.ChangeExpression

/-!
# Zabbix.Nodes.References

What the columns of the database refer to, written down apart from the conversion to
a node id (`refersTo`, `conditionTable`): the related tables of the schema, the objects
that go by a type, and what the server and the frontend take from the other columns.

After a renaming the primary keys are as distinct as before and what designated a row
designates the same row (`IsRenaming`).  The conversion passes over the values of
conditions, over the background of a map, and over operations whose object is neither
a user nor a user group; and it takes everything in braces for a function identifier.
`Convertible` are the databases in which nothing of this is reached.
-/

namespace Zabbix.NodeChange

open Rekey

/-! ## references -/

/-- The column of a primary key of one column. -/
def keyField (t : TableName) : Option FieldName :=
  match recidOf t with
  | [f] => some f
  | _ => none

/-- The primary keys that a table has, in the order of its rows. -/
def keys (db : Database) (t : TableName) : List ℤ :=
  match keyField t with
  | some f => (db t).map (·.number f)
  | none => []

/-- What a column holds, a text or a number. -/
def TableField.value (c : TableField) (r : Record) : ℤ ⊕ List UInt8 :=
  if c.type = .char then .inr (r.text c.name) else .inl (r.number c.name)

/-- The primary key of a row, of one column or several. -/
def keyOf (t : TableName) (r : Record) : List (ℤ ⊕ List UInt8) :=
  ((fieldsOf t).filter (·.name ∈ recidOf t)).map (·.value r)

/-- `SYSMAP_ELEMENT_TYPE_*` -/
def elementTable : ℤ → Option TableName
  | 0 => some .hosts
  | 1 => some .sysmaps
  | 2 => some .triggers
  | 3 => some .groups
  | 4 => some .images
  | _ => none

/-- `EVENT_OBJECT_*` -/
def eventTable : ℤ → Option TableName
  | 0 => some .triggers
  | 1 => some .dhosts
  | 2 => some .dservices
  | _ => none

/-- `SCREEN_RESOURCE_*` -/
def resourceTable : ℤ → Option TableName
  | 0 => some .graphs
  | 1 => some .items
  | 2 => some .sysmaps
  | 3 => some .items
  | 4 => some .groups
  | 8 => some .screens
  | 9 => some .groups
  | 10 => some .groups
  | _ => none

/-- `OPERATION_TYPE_*`: a message goes to an `OPERATION_OBJECT_*`, and hosts are added to
groups and linked with templates, or removed from them. -/
def operationTable (operationtype object : ℤ) : Option TableName :=
  match operationtype with
  | 0 =>
      match object with
      | 0 => some .users
      | 1 => some .usrgrp
      | _ => none
  | 4 => some .groups
  | 5 => some .groups
  | 6 => some .hosts
  | 7 => some .hosts
  | _ => none

/-- `CONDITION_TYPE_*`, of those whose value is an identifier. -/
def conditionTable : ℤ → Option TableName
  | 0 => some .groups
  | 1 => some .hosts
  | 2 => some .triggers
  | 13 => some .hosts
  | _ => none

/-- The related table of a column. -/
def relOf (t : TableName) (f : FieldName) : Option TableName :=
  ((fieldsOf t).find? (·.name = f)).bind (·.rel)

/-- The tables that are synchronised between nodes and have identifiers. -/
def syncTables : List TableName :=
  (tables.filter fun t => t.sync ∧ (keyField t.table).isSome).map (·.table)

/-- The tables of which a column designates a row.  What the identifiers of a profile
belong to is up to the frontend: any table of the configuration. -/
def refersTo (t : TableName) (f : FieldName) (r : Record) : List TableName :=
  if (t, f) = (.sysmaps_elements, .elementid) then (elementTable (r.number .elementtype)).toList
  else if (t, f) = (.events, .objectid) then (eventTable (r.number .object)).toList
  else if (t, f) = (.operations, .objectid) then
    (operationTable (r.number .operationtype) (r.number .object)).toList
  else if (t, f) = (.screens_items, .resourceid) then (resourceTable (r.number .resourcetype)).toList
  else if (t, f) = (.sysmaps, .backgroundid) then [.images]
  else if t = .profiles ∧ (f = .idx2 ∨ f = .value_id) then syncTables
  else (relOf t f).toList

/-- The identifier that a condition compares with, as the server reads it. -/
def conditionValue (r : Record) : Option ℕ :=
  if r.number .conditiontype = 13 then some (zbxAtoui64 (r.text .value))
  else (zbxStr2uint64 (r.text .value)).map (·.toNat)

/-! ## renamings -/

/-- The database of a server that is not a node: no nodes are known, the identifiers are
those of the range without a node, and an expression fits its column. -/
structure Standalone (db : Database) : Prop where
  nodes : db .nodes = []
  primaryKeys : ∀ t, recidOf t ≠ [] → ((db t).map (keyOf t)).Nodup
  ids : ∀ t, ∀ f ∈ fieldsOf t, f.type = .id → ∀ r ∈ db t, 0 ≤ r.number f.name ∧ r.number f.name < 10 ^ 14
  expressions : ∀ r ∈ db .triggers, Ascii.nul ∉ r.text .expression ∧
    (r.text .expression).length ≤ triggerExpressionLen

/-- **The conversion as a renaming**: every row is still there, keys stay distinct, and
references follow the rows that they designate. -/
structure IsRenaming (n : ℕ) (db db' : Database) : Prop where
  rows : ∀ t, (db t).length ≤ (db' t).length
  primaryKeys : ∀ t, recidOf t ≠ [] → ((db' t).map (keyOf t)).Nodup
  references : ∀ t (i : ℕ) r r', (db t)[i]? = some r → (db' t)[i]? = some r' →
    ∀ f, ∀ t' ∈ refersTo t f r, Follows (keys db t') (keys db' t') (r.number f) (r'.number f)
  conditions : ∀ (i : ℕ) r r', (db .conditions)[i]? = some r → (db' .conditions)[i]? = some r' →
    ∀ t' ∈ conditionTable (r.number .conditiontype), ∀ v, conditionValue r = some v →
      ∃ v', conditionValue r' = some v' ∧ Follows (keys db t') (keys db' t') v v'
  expressions : ∀ (i : ℕ) r r', (db .triggers)[i]? = some r → (db' .triggers)[i]? = some r' →
    r'.text .expression = renameExpression (rename n (syncOf .functions)) (r.text .expression)

/-- A value that designates a row, by an identifier that is not 0. -/
def Designates (db : Database) (t : TableName) (v : ℤ) : Prop := 0 < v ∧ v ∈ keys db t

/-- The databases in which all references are in columns that are converted. -/
structure Convertible (n : ℕ) (db : Database) : Prop where
  conditions : ∀ r ∈ db .conditions, ∀ t ∈ conditionTable (r.number .conditiontype),
    ∀ v ∈ conditionValue r, ¬Designates db t v
  backgrounds : ∀ r ∈ db .sysmaps, ¬Designates db .images (r.number .backgroundid)
  operations : ∀ r ∈ db .operations, r.number .object ∉ [0, 1] →
    ∀ t ∈ operationTable (r.number .operationtype) (r.number .object), ¬Designates db t (r.number .objectid)
  expressions : ∀ r ∈ db .triggers, ExpressionFits n (r.text .expression)

/-! ## the columns of the schema -/

/-- A table whose primary key is renamed. -/
def Rekeyed (t : TableName) : Prop :=
  ∃ f ∈ keyField t, columnUpdates t f = [⟨t, f, syncOf t, none⟩]

/-- The primary key is an identifier. -/
def DbTable.HasId (d : DbTable) : Prop := ∃ c ∈ d.fields, d.recid = [c.name] ∧ c.type = .id

instance (d : DbTable) : Decidable d.HasId := inferInstanceAs (Decidable (∃ c ∈ d.fields, _))

theorem convertField_id : ∀ d ∈ tables, ∀ c ∈ d.fields, d.recid = [c.name] → c.type = .id →
    convertField d c = [⟨d.table, c.name, d.sync, none⟩] := by
  decide

/-- A related table is that of the nodes, or has identifiers that are renamed as what refers to it. -/
theorem convertField_rel : ∀ d ∈ tables, ∀ c ∈ d.fields, ∀ t' ∈ c.rel, t' = .nodes ∨
    ∃ r ∈ getTable t', r.HasId ∧ convertField d c = [⟨d.table, c.name, r.sync, none⟩] := by
  decide

theorem convertField_recid : ∀ d ∈ tables, ∀ f ∈ d.recid, ∃ c ∈ d.fields, c.name = f ∧
    (convertField d c = [] ∨ ∃ sync ∈ [true, false], convertField d c = [⟨d.table, f, sync, none⟩]) := by
  decide

theorem hasId_of_sync : ∀ d ∈ tables, d.sync = true → d.HasId := by decide

/-- Columns with a type refer to tables that are synchronised. -/
theorem typed_sync : ∀ t ∈ [TableName.hosts, .sysmaps, .triggers, .groups, .images, .dhosts, .dservices, .users,
    .usrgrp, .graphs, .items, .screens], syncOf t = true := by
  decide

theorem syncOf_eq {d : DbTable} (hd : d ∈ tables) : syncOf d.table = d.sync := by
  rw [syncOf, getTable_of_mem hd]
  rfl

/-- The identifiers of a table are renamed. -/
theorem rekeyed_of_hasId {d : DbTable} (hd : d ∈ tables) (h : d.HasId) : Rekeyed d.table := by
  obtain ⟨c, hc, hrecid, htype⟩ := h
  refine ⟨c.name, ?_, ?_⟩
  · rw [keyField, recidOf, getTable_of_mem hd, Option.map_some, Option.getD_some, hrecid]
    rfl
  · rw [columnUpdates_eq hd hc, convertField_id d hd c hc hrecid htype, syncOf_eq hd]

/-- A related table is that of the nodes, or its key and what refers to it are renamed alike. -/
theorem rel_updates {d : DbTable} (hd : d ∈ tables) {c : TableField} (hc : c ∈ d.fields) {t' : TableName}
    (ht' : t' ∈ c.rel) :
    t' = .nodes ∨ Rekeyed t' ∧ columnUpdates d.table c.name = [⟨d.table, c.name, syncOf t', none⟩] := by
  rcases convertField_rel d hd c hc t' ht' with hnodes | ⟨r, hr, hid, hupdates⟩
  · exact .inl hnodes
  · obtain ⟨hmem, rfl⟩ := getTable_mem hr
    refine .inr ⟨rekeyed_of_hasId hmem hid, ?_⟩
    rw [columnUpdates_eq hd hc, hupdates, syncOf_eq hmem]

/-- The columns of primary keys are kept or renamed. -/
theorem recid_updates {d : DbTable} (hd : d ∈ tables) {f : FieldName} (hf : f ∈ d.recid) :
    columnUpdates d.table f = [] ∨ ∃ sync, columnUpdates d.table f = [⟨d.table, f, sync, none⟩] := by
  obtain ⟨c, hc, rfl, hupdates⟩ := convertField_recid d hd f hf
  rw [columnUpdates_eq hd hc]
  rcases hupdates with hnil | ⟨sync, -, hplain⟩
  · exact .inl hnil
  · exact .inr ⟨sync, hplain⟩

/-- A table that is synchronised has identifiers, which are renamed. -/
theorem sync_rekeyed {t : TableName} (h : syncOf t = true) : t ∈ syncTables ∧ Rekeyed t := by
  obtain ⟨d, hd⟩ := Option.isSome_iff_exists.mp (getTable_isSome t)
  obtain ⟨hmem, rfl⟩ := getTable_mem hd
  rw [syncOf_eq hmem] at h
  have hid := hasId_of_sync d hmem h
  have hkeys := rekeyed_of_hasId hmem hid
  obtain ⟨f, hf, -⟩ := hkeys
  have hsome : (keyField d.table).isSome := by
    rw [Option.mem_def.mp hf]
    rfl
  refine ⟨List.mem_map.mpr ⟨d, List.mem_filter.mpr ⟨hmem, ?_⟩, rfl⟩, rekeyed_of_hasId hmem hid⟩
  exact decide_eq_true ⟨h, hsome⟩

theorem syncOf_of_mem_syncTables {t : TableName} (h : t ∈ syncTables) : syncOf t = true := by
  obtain ⟨d, hd, rfl⟩ := List.mem_map.mp h
  obtain ⟨hmem, hsync⟩ := List.mem_filter.mp hd
  rw [syncOf_eq hmem]
  exact (of_decide_eq_true hsync).1

/-! ## columns that go by a type -/

theorem columnUpdates_elementid : columnUpdates .sysmaps_elements .elementid =
    typedUpdates .sysmaps_elements .elementid .elementtype [0, 1, 2, 3, 4] := by
  decide

theorem columnUpdates_eventObject : columnUpdates .events .objectid =
    typedUpdates .events .objectid .object [0, 1, 2] := by
  decide

theorem columnUpdates_operationObject : columnUpdates .operations .objectid =
    typedUpdates .operations .objectid .object [0, 1] := by
  decide

theorem columnUpdates_resourceid : columnUpdates .screens_items .resourceid =
    typedUpdates .screens_items .resourceid .resourcetype [0, 1, 2, 3, 4, 8, 9, 10] := by
  decide

theorem columnUpdates_profiles : ∀ f ∈ [FieldName.idx2, .value_id],
    columnUpdates .profiles f = [⟨.profiles, f, true, none⟩] := by
  decide

/-- The columns that are kept. -/
theorem columnUpdates_kept : columnUpdates .sysmaps .backgroundid = [] ∧
    columnUpdates .conditions .conditiontype = [] ∧ columnUpdates .nodes .nodeid = [] := by
  decide

theorem triggers_key : (fieldsOf .triggers).filter (·.name ∈ recidOf .triggers) = [⟨.triggerid, .id, none⟩] := by
  decide

end Zabbix.NodeChange
