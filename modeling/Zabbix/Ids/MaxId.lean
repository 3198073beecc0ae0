import Zabbix.Ids.NextId
import Zabbix.Lib.Ascii

/-!
# Zabbix.Ids.MaxId

Clients that ask for identifiers of one column side by side (`DBget_maxid_num`
of `libs/zbxdbhigh/db.c`).

Each SQL statement is atomic, and between any two statements of a call other
clients may have theirs.  For the columns that are cached a call is the one of
`DCget_nextid`, under its lock.
-/

namespace Zabbix

open Ascii

/-- The columns for which `DBget_maxid_num` calls `DCget_nextid`. -/
def cachedColumns : List (List UInt8 × List UInt8) :=
  [(bytes "history_log", bytes "id"), (bytes "history_text", bytes "id"), (bytes "dservices", bytes "dserviceid"),
    (bytes "dhosts", bytes "dhostid"), (bytes "alerts", bytes "alertid"), (bytes "escalations", bytes "escalationid")]

/-- The column is one of them. -/
def Column.cached {schema : Schema} (c : Column schema) : Bool :=
  (c.tablename.val, c.fieldname.val) ∈ cachedColumns

/-- Where a client is in `DBget_maxid_num`: what its next statement is. -/
inductive MaxidClient
  | idle
  /-- the select at the head of the loop -/
  | select (num : ℕ)
  /-- the select of the greatest identifier in the table -/
  | selectMax (num : ℕ)
  | insert (num ret1 : ℕ)
  /-- the update by one, after an insert that has failed -/
  | increment (num : ℕ)
  /-- the delete of a row that is out of range -/
  | delete (num : ℕ)
  | update (num ret1 : ℕ)
  /-- the second select -/
  | reselect (num ret1 : ℕ)
  /-- `exit(FAIL)` -/
  | exited
deriving DecidableEq, Repr

/-- The database, the cache, and the clients. -/
structure MaxidState where
  /-- `nextid` in the row of `ids`, if there is one -/
  ids : Option ℕ
  slots : List ZbxDcId
  /-- the identifiers in the column -/
  column : List ℕ
  clients : ℕ → MaxidClient
  /-- the ranges that have been returned -/
  served : List IdRange
  /-- the identifiers that were in the column when the row of `ids` was created,
  or the slot filled -/
  present : List ℕ

/-- A client calls the function, or executes its next statement; or a row is
inserted in the table, under an identifier that has been returned. -/
inductive MaxidEvent
  | call (client num : ℕ)
  | statement (client : ℕ)
  | insertRow (id : ℕ)
deriving DecidableEq, Repr

/-- The identifiers of a range. -/
def IdRange.Mem (id : ℕ) (r : IdRange) : Prop := r.nextid ≤ id ∧ id ≤ r.lastid

instance (id : ℕ) (r : IdRange) : Decidable (IdRange.Mem id r) := inferInstanceAs (Decidable (_ ∧ _))

namespace MaxidState

variable {schema : Schema} (nodeid : ℕ) (c : Column schema)

/-- A client goes on. -/
def goto (s : MaxidState) (client : ℕ) (next : MaxidClient) : MaxidState :=
  { s with clients := Function.update s.clients client next }

/-- `DCget_nextid`, of a client. -/
def dcCall (s : MaxidState) (client num : ℕ) : MaxidState :=
  match dcGetNextid c.tablename c.fieldname num (fillLastid nodeid c s.column) s.slots with
  | none => s.goto client .exited
  | some (range, slots) =>
      { s.goto client .idle with
        slots := slots
        served := s.served ++ [range]
        present := if (slotOf c.tablename c.fieldname s.slots).isSome then s.present else s.column }

/-- The next statement of a client. -/
def statement (s : MaxidState) (client : ℕ) : MaxidState :=
  match s.clients client with
  | .idle | .exited => s
  | .select num =>
      if c.cached then s.dcCall nodeid c client num
      else
        match s.ids with
        | none => s.goto client (.selectMax num)
        | some ret1 =>
            if ret1 < c.min nodeid ∨ ret1 ≥ c.max nodeid then s.goto client (.delete num)
            else s.goto client (.update num ret1)
  | .selectMax num =>
      match Zabbix.selectMax (c.min nodeid) (c.max nodeid) s.column with
      | none => s.goto client (.insert num (c.min nodeid))
      | some ret1 => if ret1 ≥ c.max nodeid then s.goto client .exited else s.goto client (.insert num ret1)
  | .insert num ret1 =>
      match s.ids with
      | none => { s.goto client (.select num) with ids := some ret1, present := s.column }
      | some _ => s.goto client (.increment num)
  | .increment num => { s.goto client (.select num) with ids := s.ids.map (· + 1) }
  | .delete num => { s.goto client (.select num) with ids := none }
  | .update num ret1 => { s.goto client (.reselect num ret1) with ids := s.ids.map (· + num) }
  | .reselect num ret1 =>
      match s.ids with
      | none => s.goto client (.select num)
      | some ret2 =>
          if ret1 + num = ret2 then
            { s.goto client .idle with served := s.served ++ [⟨ret2 - num + 1, ret2⟩] }
          else s.goto client (.select num)

/-- One step. -/
def step (s : MaxidState) : MaxidEvent → MaxidState
  | .call client num =>
      match s.clients client with
      | .idle => s.goto client (.select num)
      | _ => s
  | .statement client => s.statement nodeid c client
  | .insertRow id => if ∃ r ∈ s.served, IdRange.Mem id r then { s with column := s.column ++ [id] } else s

end MaxidState

end Zabbix
