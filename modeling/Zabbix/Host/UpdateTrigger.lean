import Zabbix.Host.DeleteTrigger
import Zabbix.Host.Implode

/-!
# Zabbix.Host.UpdateTrigger

The update of a trigger, with the triggers that are linked to it (`DBupdate_trigger` of `libs/zbxdbhigh/host.c`).

The select for the host of a linked trigger has a conversion without an argument: it is for whatever number stands
where the argument should.  What is put in for the host of the template in the expression is the identifier of that
host and not its name.  A status that is skipped is filled in as the priority.  The select for the last value of a
trigger names a column that `triggers` does not have, and the database does not understand it: no event is added.
-/

namespace Zabbix.Host

open Ascii Outcome Printf

/-! ## the functions -/

/-- `TRIGGER_EXPRESSION_LEN` -/
def triggerExpressionLen : ℕ := 255

/-- `TRIGGER_DESCRIPTION_LEN` -/
def triggerDescriptionLen : ℕ := 255

/-- `TRIGGER_URL_LEN` -/
def triggerUrlLen : ℕ := 255

/-- `ZBX_MAX_DEPENDENCES` -/
def zbxMaxDependences : ℕ := 128

/-- `TRIGGER_VALUE_UNKNOWN` -/
def triggerValueUnknown : ℤ := 2

/-- What `DBupdate_trigger` is to store: nothing for NULL, and -1 in a number, skip it. -/
structure TriggerUpdate where
  expression : Option (List UInt8)
  description : Option (List UInt8)
  priority : ℤ
  status : ℤ
  comments : Option (List UInt8)
  url : Option (List UInt8)
  type : ℤ
  dependences : List ℕ
  templateid : ℕ

/-- The select for a trigger with the host of its functions. -/
def HostDb.triggerRow (db : HostDb) (triggerid : ℕ) : Option (Trigger × HostRow) :=
  db.triggers.findSome? fun t => db.functions.findSome? fun f => db.items.findSome? fun i => db.hosts.findSome? fun h =>
    if t.triggerid = triggerid ∧ f.triggerid = t.triggerid ∧ i.itemid = f.itemid ∧ i.hostid = h.hostid
    then some (t, h) else none

/-- The select for the host of the functions of a trigger. -/
def HostDb.triggerHost (db : HostDb) (triggerid : ℕ) : Option HostRow :=
  db.hosts.findSome? fun h => db.items.findSome? fun i => db.functions.findSome? fun f =>
    if f.triggerid = triggerid ∧ f.itemid = i.itemid ∧ i.hostid = h.hostid then some h else none

/-- The select for the trigger of a host that is linked to another one. -/
def HostDb.linkedOn (db : HostDb) (hostid triggerid : ℕ) : Option ℕ :=
  db.triggers.findSome? fun t => db.functions.findSome? fun f => db.items.findSome? fun i =>
    if t.templateid = triggerid ∧ f.triggerid = t.triggerid ∧ f.itemid = i.itemid ∧ i.hostid = hostid
    then some t.triggerid else none

/-- What is in an array that ends with 0. -/
def untilZero (dependences : List ℕ) : List ℕ := dependences.takeWhile (0 < ·)

/-- `DBreplace_template_dependences`, for an array of `ZBX_MAX_DEPENDENCES`. -/
def dbReplaceTemplateDependences (db : HostDb) (dependencesIn : List ℕ) (hostid : ℕ) : List ℕ :=
  ((untilZero dependencesIn).filterMap (db.linkedOn hostid)).take (zbxMaxDependences - 1)

/-- `update triggers set .. where triggerid=..` -/
def HostDb.setTrigger (db : HostDb) (triggerid : ℕ) (set : Trigger → Trigger) : HostDb :=
  { db with triggers := db.triggers.map fun t => if t.triggerid = triggerid then set t else t }

/-- `DBinsert_dependency` -/
def dbInsertDependency (db : HostDb) (triggeridDown triggeridUp : ℕ) : HostDb :=
  let db := { db with triggerDepends := db.triggerDepends ++ [TriggerDepend.mk triggeridDown triggeridUp] }
  db.setTrigger triggeridUp fun t => { t with depLevel := t.depLevel + 1 }

/-- `DBadd_event`: nothing is read from the select for the last value. -/
def dbAddEvent (db : HostDb) (_triggerid : ℕ) (_value : ℤ) : Bool × HostDb := (false, db)

/-- `delete from functions where triggerid=..` -/
def HostDb.deleteFunctions (db : HostDb) (triggerid : ℕ) : HostDb :=
  { db with functions := db.functions.filter (·.triggerid ≠ triggerid) }

/-- NULL for what is exploded into nothing. -/
def orNull (exp : List UInt8) : Option (List UInt8) := if exp = [] then none else some exp

/-- What is skipped is filled in from the row, and from its expression as it is exploded. -/
def TriggerUpdate.fill (u : TriggerUpdate) (expExpression : Option (List UInt8)) (row : Trigger) : TriggerUpdate :=
  let priority := if -1 = u.priority then row.priority else u.priority
  { u with
    expression := u.expression <|> expExpression
    description := some (u.description.getD row.description)
    -- not the status
    priority := if -1 = u.status then row.status else priority
    comments := some (u.comments.getD row.comments)
    url := some (u.url.getD row.url)
    type := if -1 = u.type then row.type else u.type }

/-- The columns that `update triggers` sets; of its texts the database has what escaping keeps. -/
def TriggerUpdate.set (u : TriggerUpdate) (shortExpression : Option (List UInt8)) (t : Trigger) : Trigger :=
  { t with
    expression := (shortExpression.map fun s => (kept s).take triggerExpressionLen).getD t.expression
    description := (u.description.map fun s => (kept s).take triggerDescriptionLen).getD t.description
    priority := if 0 ≤ u.priority then u.priority else t.priority
    status := if 0 ≤ u.status then u.status else t.status
    comments := (u.comments.map kept).getD t.comments
    url := (u.url.map fun s => (kept s).take triggerUrlLen).getD t.url
    templateid := if u.templateid ≠ 0 then u.templateid else t.templateid
    type := if 0 ≤ u.type then u.type else t.type
    value := triggerValueUnknown }

/-- `string_replace` of a host by another in an expression. -/
def replaceHost (host host' : List UInt8) (expression : List UInt8) : List UInt8 :=
  stringReplace lbrace (host ++ [colon]) (lbrace :: (host' ++ [colon])) expression

variable {schema : Schema} (nodeid : ℕ) (c : IdColumn → Column schema)

/-- What `DBupdate_trigger` does to the trigger itself. -/
def dbStoreTrigger (db : HostDb) (triggerid : ℕ) (u : TriggerUpdate) : Except HostStop HostDb := do
  let db := db.deleteFunctions triggerid
  let (shortExpression, db) ← match u.expression with
    | none => .ok (none, db)
    | some expression => (dbImplodeExp nodeid c triggerid db expression).map fun r => (some r.2.1, r.2.2)
  let db := db.setTrigger triggerid (u.set shortExpression)
  let db := (dbAddEvent db triggerid triggerValueUnknown).2
  let db := dbDeleteDependenciesByTriggerid db triggerid
  .ok ((untilZero u.dependences).foldl (fun db dependence => dbInsertDependency db triggerid dependence) db)

variable (stray : HostDb → ℕ → ℕ) (functionid : ℕ)

/-- The loop of `DBupdate_trigger` for a trigger that is linked; `stray` is what stands in the place of the argument. -/
def dbUpdateLinked (update : HostDb → ℕ → TriggerUpdate → Result) (triggerid : ℕ) (host : HostRow) (u : TriggerUpdate)
    (db : HostDb) (chdTriggerid : ℕ) : Except HostStop HostDb :=
  match db.triggerHost (stray db chdTriggerid) with
  | none => .ok db
  | some chdHost =>
      match u.expression with
      -- an assertion of `string_replace`
      | none => .error .null
      | some expression =>
          (update db chdTriggerid
            { u with
              expression := some (replaceHost host.host (dec chdHost.hostid) expression)
              status := -1
              dependences := dbReplaceTemplateDependences db u.dependences chdHost.hostid
              templateid := triggerid }).map Prod.snd

/-- `DBupdate_trigger`, with up to `depth` calls nested; `functionid` is in the variable of `DBexplode_exp` before
anything is read into it. -/
def dbUpdateTrigger : (depth : ℕ) → (db : HostDb) → (triggerid : ℕ) → (u : TriggerUpdate) → Result
  | 0, _, _, _ => .error .deeper
  | depth + 1, db, triggerid, u =>
      match db.triggerRow triggerid with
      | none => .ok (true, db)
      | some (row, host) => do
          let u := u.fill (orNull (dbExplodeExp db functionid row.expression).2) row
          let db ← (db.linkedTriggers triggerid).dedup.foldlM
            (dbUpdateLinked stray (dbUpdateTrigger depth) triggerid host u) db
          let db ← dbStoreTrigger nodeid c db triggerid u
          .ok (true, db)

end Zabbix.Host
