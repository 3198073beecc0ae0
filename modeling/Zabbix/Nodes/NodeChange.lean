import Zabbix.Nodes.Tables
import Zabbix.Atoi
import Zabbix.DbEscape

/-!
# Zabbix.Nodes.NodeChange

The conversion of a database to a node id (`zabbix_server/utils/nodechange.c`).

The code goes over the columns of all tables and executes one update, or some, for
each that holds identifiers; the updates are determined by the tables alone
(`idUpdates`).  Then the expressions of the triggers are rewritten, one row after
the other, and the node itself is inserted.  What is printed is left out.
-/

namespace Zabbix.NodeChange

open Ascii Printf

/-! ## the database -/

/-- A row: the numbers and the texts of its columns. -/
structure Record where
  number : FieldName → ℤ
  text : FieldName → List UInt8

/-- The rows of the tables. -/
abbrev Database := TableName → List Record

/-- `prefix`, for a table with or without the flag `ZBX_SYNC`. -/
def prefixOf (newId : ℕ) (sync : Bool) : ℕ :=
  100000000000000 * newId + if sync then 100000000000 * newId else 0

/-- `update table set field=field+prefix where field>0`, with `type=n and` in the
condition where there is a column of a type. -/
structure IdUpdate where
  table : TableName
  field : FieldName
  sync : Bool
  type : Option (FieldName × ℤ)
deriving DecidableEq, Repr

/-- The condition on the type. -/
def IdUpdate.Applies (u : IdUpdate) (r : Record) : Prop := ∀ p ∈ u.type, r.number p.1 = p.2

instance (u : IdUpdate) (r : Record) : Decidable (u.Applies r) := by
  unfold IdUpdate.Applies
  infer_instance

/-- The update of one row. -/
def IdUpdate.row (newId : ℕ) (u : IdUpdate) (r : Record) : Record :=
  if u.Applies r ∧ 0 < r.number u.field then
    { r with number := Function.update r.number u.field (r.number u.field + prefixOf newId u.sync) }
  else r

/-- `DBexecute` of the update. -/
def IdUpdate.run (newId : ℕ) (u : IdUpdate) (db : Database) : Database :=
  fun t => if t = u.table then (db t).map (u.row newId) else db t

/-! ## identifiers -/

/-- `special_conv_t` -/
structure SpecialConv where
  tableName : TableName
  fieldName : FieldName
  typeFieldName : Option FieldName
  convs : List (TableName × ℤ)

/-- `special_convs`, with the constants `SYSMAP_ELEMENT_TYPE_*`, `EVENT_OBJECT_*`,
`OPERATION_OBJECT_*` and `SCREEN_RESOURCE_*`. -/
def specialConvs : List SpecialConv :=
  [ ⟨.sysmaps_elements, .elementid, some .elementtype,
      [(.hosts, 0), (.sysmaps, 1), (.triggers, 2), (.groups, 3), (.images, 4)]⟩,
    ⟨.events, .objectid, some .object, [(.triggers, 0), (.dhosts, 1), (.dservices, 2)]⟩,
    ⟨.operations, .objectid, some .object, [(.users, 0), (.usrgrp, 1)]⟩,
    ⟨.ids, .nextid, none, []⟩,
    ⟨.node_cksum, .recordid, none, []⟩,
    ⟨.screens_items, .resourceid, some .resourcetype,
      [(.graphs, 0), (.items, 1), (.sysmaps, 2), (.items, 3), (.groups, 4), (.screens, 8),
        (.groups, 9), (.groups, 10)]⟩ ]

/-- `convert_special_field` -/
def convertSpecialField (s : SpecialConv) (relTableName : TableName) (type : ℤ) : List IdUpdate :=
  match getTable relTableName with
  | none => []
  | some rTable => [⟨s.tableName, s.fieldName, rTable.sync, s.typeFieldName.map (·, type)⟩]

/-- `convert_profiles`, whose prefix is that of a table with `ZBX_SYNC`. -/
def convertProfiles (fieldName : FieldName) : List IdUpdate := [⟨.profiles, fieldName, true, none⟩]

/-- The body of the loops of `change_nodeid`, for one column. -/
def convertField (t : DbTable) (f : TableField) : List IdUpdate :=
  match specialConvs.find? fun s => s.tableName = t.table ∧ s.fieldName = f.name with
  | some s => s.convs.flatMap fun conv => convertSpecialField s conv.1 conv.2
  | none =>
      if f.type = .id then
        if t.recid = [f.name] then [⟨t.table, f.name, t.sync, none⟩]
        else match f.rel with
          | some rel =>
              match getTable rel with
              | none => []
              | some rTable => [⟨t.table, f.name, rTable.sync, none⟩]
          | none => if t.table = .profiles then convertProfiles f.name else []
      else []

/-- The updates of all columns. -/
def idUpdates : List IdUpdate := tables.flatMap fun t => t.fields.flatMap (convertField t)

/-- The loops of `change_nodeid`. -/
def convertIds (newId : ℕ) (db : Database) : Database := idUpdates.foldl (fun db u => u.run newId db) db

/-! ## expressions -/

/-- `MAX_STRING_LEN` -/
def expressionBufLen : ℕ := 2048

/-- `TRIGGER_EXPRESSION_LEN` -/
def triggerExpressionLen : ℕ := 255

/-- The variables of `convert_expression`: in the state `ID`, with what `id` holds, or in
the state `NORMAL`; `tmp`; and what is written to `new_exp`. -/
structure ConvertState where
  id : Option (List UInt8)
  tmp : UInt64
  newExp : List UInt8

/-- One round of the loop of `convert_expression`. -/
def convertByte (pre : UInt64) (s : ConvertState) (c : UInt8) : ConvertState :=
  match s.id with
  | some id =>
      if c = rbrace then
        -- where `sscanf` converts nothing, `tmp` keeps what it has been
        let tmp := (zbxStr2uint64 id).getD s.tmp + pre
        { id := none, tmp, newExp := s.newExp ++ ui64 tmp ++ [c] }
      else { s with id := some (id ++ [c]) }
  | none =>
      if c = lbrace then { s with id := some [], newExp := s.newExp ++ [c] }
      else { s with newExp := s.newExp ++ [c] }

/-- What `convert_expression` writes, where `tmp` starts as it happens to be. -/
def convertExpression (pre tmp : UInt64) (oldExp : List UInt8) : List UInt8 :=
  (oldExp.foldl (convertByte pre) ⟨none, tmp, []⟩).newExp

/-- What is stored of an expression that is written with `DBdyn_escape_string_len`. -/
def storedExpression (e : List UInt8) : List UInt8 := (kept e).take triggerExpressionLen

theorem storedExpression_literalBody (b : Backend) (rule : UnescapeRule) (e : List UInt8) :
    LiteralBody b rule (dbDynEscapeStringLen b e triggerExpressionLen) (storedExpression e) := by
  rw [dbDynEscapeStringLen_eq]
  exact literalBody_flatMap b rule _

/-- What does not come to an end as intended. -/
inductive ChangeError
  /-- Conversion from non-zero node id is not supported. -/
  | oldId
  /-- Node ID must be in range of 0-999. -/
  | newId
  /-- An expression is written beyond its buffer. -/
  | overflow
deriving DecidableEq, Repr

/-- `update triggers set expression='%s' where triggerid=%s` -/
def updateExpression (triggerid : ℤ) (expression : List UInt8) (r : Record) : Record :=
  if r.number .triggerid = triggerid then { r with text := Function.update r.text .expression expression }
  else r

/-- The loop of `convert_triggers_expression`, on the rows that are selected.  For
each of them `tmp` starts anew. -/
def convertTriggersExpression (pre : UInt64) :
    List (Record × UInt64) → List Record → Except ChangeError (List Record)
  | [], triggers => .ok triggers
  | (row, tmp) :: rows, triggers =>
      let newExpression := convertExpression pre tmp (row.text .expression)
      if newExpression.length < expressionBufLen then
        convertTriggersExpression pre rows
          (triggers.map (updateExpression (row.number .triggerid) (storedExpression newExpression)))
      else .error .overflow

/-- The row that is inserted into `nodes`. -/
def localNode (newId : ℕ) : Record where
  number := fun
    | .nodeid => newId
    | .nodetype => 1
    | _ => 0
  text := fun
    | .name => bytes "Local node"
    | .ip => bytes "127.0.0.1"
    | _ => []

/-- `change_nodeid`, where `tmp i` is what the variable of that name starts with at the
`i`-th trigger. -/
def changeNodeid (tmp : ℕ → UInt64) (oldId newId : ℤ) (db : Database) : Except ChangeError Database :=
  if oldId ≠ 0 then .error .oldId
  else if 999 < newId ∨ newId < 0 then .error .newId
  else
    let n := newId.toNat
    let db := convertIds n db
    let pre := UInt64.ofNat (prefixOf n (syncOf .functions))
    (convertTriggersExpression pre ((db .triggers).zipIdx.map fun p => (p.1, tmp p.2)) (db .triggers)).map
      fun triggers =>
        Function.update (Function.update db .triggers triggers) .nodes (db .nodes ++ [localNode n])

end Zabbix.NodeChange
