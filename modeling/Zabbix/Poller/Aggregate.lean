import Zabbix.Atoi
import Zabbix.DbEscape
import Zabbix.Discovery.Discoverer
import Zabbix.Lib.Decimal
import Zabbix.Lib.Tally
import Zabbix.Poller.ResultType
import Zabbix.Trapper.Lookup

/-!
# Zabbix.Poller.Aggregate

Aggregate items: `evaluate_aggregate` and `evaluate_one` of
`zabbix_server/poller/checks_aggregate.c`.

The identifiers of the items go as text through buffers of `MAX_STRING_LEN` bytes into
two statements of that size, and the rows that come back are folded into a number and a
count.  The statements are sent as they are, cut or not; rows of every value type count;
and what comes back for an unsigned item is read up to the first byte that is no digit,
also when it is an average.

A `double` is the number that it holds; nothing is rounded.
-/

namespace Zabbix

open Ascii Printf

/-! ## the functions -/

/-- `grpsum`, `grpavg`, `grpmin` and `grpmax` -/
inductive GroupFunc
  | sum
  | avg
  | min
  | max
deriving DecidableEq, Repr

def GroupFunc.name : GroupFunc → List UInt8
  | sum => bytes "grpsum"
  | avg => bytes "grpavg"
  | min => bytes "grpmin"
  | max => bytes "grpmax"

/-- The item functions that the database computes. -/
inductive HistoryFunc
  | min
  | max
  | avg
  | count
  | sum
deriving DecidableEq, Repr

def HistoryFunc.name : HistoryFunc → List UInt8
  | min => bytes "min"
  | max => bytes "max"
  | avg => bytes "avg"
  | count => bytes "count"
  | sum => bytes "sum"

/-- The item functions. -/
inductive ItemFunc
  | last
  | history (f : HistoryFunc)
deriving DecidableEq, Repr

def ItemFunc.name : ItemFunc → List UInt8
  | last => bytes "last"
  | history f => f.name

/-! ## `evaluate_one` -/

/-- The exponent that `strtod` finds behind the digits. -/
def strtodExponent : List UInt8 → ℤ
  | [] => 0
  | c :: s =>
      if c = 69 ∨ c = 101 then
        let behind := if s.head? = some minus ∨ s.head? = some plus then s.tail else s
        let digits := behind.takeWhile (JsonText.isDigit ·)
        if s.head? = some minus then -ofDec digits else ofDec digits
      else 0

/-- `zbx_atod`, which is `strtod`, on decimal notation; infinities, NaN and hexadecimal digits
are left out. -/
def zbxAtod (s : List UInt8) : ℚ :=
  let s := s.dropWhile fun c => isSpace c
  let digits := if s.head? = some minus ∨ s.head? = some plus then s.tail else s
  let int := digits.takeWhile (JsonText.isDigit ·)
  let rest := digits.dropWhile (JsonText.isDigit ·)
  let behind := if rest.head? = some dot then rest.tail else []
  let frac := behind.takeWhile (JsonText.isDigit ·)
  let rest := if rest.head? = some dot then behind.dropWhile (JsonText.isDigit ·) else rest
  let magnitude := ofDec (int ++ frac) / 10 ^ frac.length * (10 : ℚ) ^ strtodExponent rest
  if s.head? = some minus then -magnitude else magnitude

/-- A row of the two statements: `itemid`, `value_type` and the value. -/
structure AggregateRow where
  itemid : ℕ
  valueType : ItemValueType
  value : List UInt8
deriving DecidableEq

/-- The `value` that `evaluate_one` takes from a row. -/
def AggregateRow.number (row : AggregateRow) : ℚ :=
  if row.valueType = .float then zbxAtod row.value
  else if row.valueType = .uint64 then zbxAtoui64 row.value
  else 0

/-- `evaluate_one`, on `result` and `num`; `none` for `FAIL`. -/
def evaluateOne (grpfunc : List UInt8) (acc : ℚ × ℕ) (row : AggregateRow) : Option (ℚ × ℕ) :=
  let value := row.number
  if grpfunc = bytes "grpsum" then some (acc.1 + value, acc.2 + 1)
  else if grpfunc = bytes "grpavg" then some (acc.1 + value, acc.2 + 1)
  else if grpfunc = bytes "grpmin" then
    some (if acc.2 = 0 then value else if value < acc.1 then value else acc.1, acc.2 + 1)
  else if grpfunc = bytes "grpmax" then
    some (if acc.2 = 0 then value else if acc.1 < value then value else acc.1, acc.2 + 1)
  else none

/-! ## the statements -/

/-- The statement for the items. -/
def itemsSql (nodeid : Int32) (hostgroupEsc itemkeyEsc : List UInt8) : List UInt8 :=
  bytes "select i.itemid from items i,hosts_groups hg,hosts h,groups g" ++
    bytes " where hg.groupid=g.groupid and i.hostid=h.hostid and hg.hostid=h.hostid" ++
    bytes " and g.name='" ++ hostgroupEsc ++ bytes "' and i.key_='" ++ itemkeyEsc ++
    bytes "' and i.status=0 and h.status=0" ++ dbNode (bytes "h.hostid") nodeid

/-- `items`, as the loop over the rows writes it. -/
def itemList (itemids : List ℕ) : List UInt8 :=
  itemids.foldl (fun items itemid => strscpy (zbxVsnprintf maxStringLen (items ++ comma :: dec itemid))) (bytes "0")

/-- The statement for `last`. -/
def lastSql (items : List UInt8) : List UInt8 :=
  bytes "select itemid,value_type,lastvalue from items where lastvalue is not NULL and items.itemid in (" ++ items ++
    bytes ")"

/-- The second statement for `last`, which selects nothing. -/
def noSql : List UInt8 := bytes "select itemid,value_type,lastvalue from items where 0=1"

/-- The statement for a function of one of the history tables. -/
def historySql (table : List UInt8) (f : HistoryFunc) (items : List UInt8) (clock : Int32) : List UInt8 :=
  bytes "select h.itemid,i.value_type," ++ f.name ++ bytes "(h.value) from items i," ++ table ++
    bytes " h where h.itemid=i.itemid and h.itemid in (" ++ items ++ bytes ") and h.clock>" ++ d32 clock ++
    bytes " group by h.itemid,i.value_type"

/-- The two statements, before they are cut to their buffers. -/
def aggregateSql (f : ItemFunc) (items : List UInt8) (clock : Int32) : List UInt8 × List UInt8 :=
  match f with
  | .last => (lastSql items, noSql)
  | .history f => (historySql (bytes "history") f items clock, historySql (bytes "history_uint") f items clock)

/-! ## `evaluate_aggregate` -/

/-- What the server asks the database: the statement for the items, and the two for the
values. -/
structure AggregateServer where
  itemids : List UInt8 → List ℕ
  select : List UInt8 → List AggregateRow

/-- The branches on `itemfunc`. -/
def itemFunc? (itemfunc : List UInt8) : Option ItemFunc :=
  if itemfunc = bytes "last" then some .last
  else if itemfunc = bytes "min" then some (.history .min)
  else if itemfunc = bytes "max" then some (.history .max)
  else if itemfunc = bytes "avg" then some (.history .avg)
  else if itemfunc = bytes "count" then some (.history .count)
  else if itemfunc = bytes "sum" then some (.history .sum)
  else none

variable (b : Backend) (nodeid : Int32) (server : AggregateServer) (now : Int32)

/-- The identifiers that the first statement finds. -/
def affectedItemids (hostgroup itemkey : List UInt8) : List ℕ :=
  server.itemids (itemsSql nodeid (dbEscapeString b hostgroup maxStringLen) (dbEscapeString b itemkey maxStringLen))

/-- The rows of the two statements, as they are sent. -/
def aggregateRows (hostgroup itemkey : List UInt8) (f : ItemFunc) (param : List UInt8) : List AggregateRow :=
  let sql := aggregateSql f (itemList (affectedItemids b nodeid server hostgroup itemkey)) (now - atoi param)
  server.select (zbxVsnprintf maxStringLen sql.1) ++ server.select (zbxVsnprintf maxStringLen sql.2)

/-- `evaluate_aggregate`: the result, or the message of the failure. -/
def evaluateAggregate (grpfunc hostgroup itemkey itemfunc param : List UInt8) : Except (List UInt8) ℚ :=
  match itemFunc? itemfunc with
  | none => .error (bytes "Unsupported item function")
  | some f =>
      match (aggregateRows b nodeid server now hostgroup itemkey f param).foldlM (evaluateOne grpfunc) (0, 0) with
      | none => .error (bytes "Unsupported group function")
      | some (d, num) =>
          if num = 0 then .error (bytes "No values")
          else if grpfunc = bytes "grpavg" then .ok (d / num)
          else .ok d

/-! ## the database -/

/-- The columns of `items` that the statements read; the values of both history tables are
numbers. -/
structure AggregateItem where
  itemid : ℕ
  hostid : ℕ
  key : List UInt8
  status : ℕ
  valueType : ItemValueType
  lastvalue : Option (List UInt8)

/-- A row of `history` or `history_uint`. -/
structure AggregateHistory where
  itemid : ℕ
  clock : Int32
  value : ℚ

structure AggregateHost where
  hostid : ℕ
  status : ℕ

structure AggregateGroup where
  groupid : ℕ
  name : List UInt8

/-- `hosts_groups` -/
structure AggregateLink where
  hostid : ℕ
  groupid : ℕ

/-- The tables, with the key of `items`. -/
structure AggregateDb where
  items : List AggregateItem
  hosts : List AggregateHost
  groups : List AggregateGroup
  hostsGroups : List AggregateLink
  history : List AggregateHistory
  historyUint : List AggregateHistory
  itemids_nodup : (items.map AggregateItem.itemid).Nodup

namespace AggregateDb

variable (db : AggregateDb) (sqlFunc : HistoryFunc → List ℚ → Decimal)

/-- A row of the four tables that the statement for the items joins. -/
def Joined (hostgroup itemkey : List UInt8) (i : AggregateItem) (hg : AggregateLink) (h : AggregateHost)
    (g : AggregateGroup) : Prop :=
  hg.groupid = g.groupid ∧ i.hostid = h.hostid ∧ hg.hostid = h.hostid ∧ g.name = hostgroup ∧ i.key = itemkey ∧
    i.status = 0 ∧ h.status = 0 ∧ dbNodeLocal nodeid.toInt h.hostid = true

instance (hostgroup itemkey : List UInt8) (i : AggregateItem) (hg : AggregateLink) (h : AggregateHost)
    (g : AggregateGroup) : Decidable (Joined nodeid hostgroup itemkey i hg h g) := by
  unfold Joined
  infer_instance

/-- The answer to the statement for the items. -/
def affected (hostgroup itemkey : List UInt8) : List ℕ :=
  db.items.flatMap fun i => db.hostsGroups.flatMap fun hg => db.hosts.flatMap fun h =>
    (db.groups.filter fun g => Joined nodeid hostgroup itemkey i hg h g).map fun _ => i.itemid

/-- The values of an item in a history table that are later than a clock. -/
def valuesAfter (table : List AggregateHistory) (clock : Int32) (i : AggregateItem) : List ℚ :=
  (table.filter fun row => row.itemid = i.itemid ∧ clock < row.clock).map AggregateHistory.value

/-- A function of these values, where there are any. -/
def historyValue (table : List AggregateHistory) (f : HistoryFunc) (clock : Int32) (i : AggregateItem) :
    Option (List UInt8) :=
  match valuesAfter table clock i with
  | [] => none
  | v :: vs => some (sqlFunc f (v :: vs)).text

/-- Rows with the identifier and the value type of those of some items that have a value. -/
def rowsOf (value : AggregateItem → Option (List UInt8)) (itemids : List ℕ) : List AggregateRow :=
  db.items.flatMap fun i =>
    if i.itemid ∈ itemids then (value i).toList.map fun text => ⟨i.itemid, i.valueType, text⟩ else []

/-- The answers to the two statements for the values. -/
def answers (f : ItemFunc) (clock : Int32) (itemids : List ℕ) : List AggregateRow × List AggregateRow :=
  match f with
  | .last => (db.rowsOf AggregateItem.lastvalue itemids, [])
  | .history f =>
      (db.rowsOf (historyValue sqlFunc db.history f clock) itemids,
        db.rowsOf (historyValue sqlFunc db.historyUint f clock) itemids)

end AggregateDb

/-- The value of a literal. -/
def literalValue (rule : UnescapeRule) (body : List UInt8) : List UInt8 :=
  (((b.dialect rule).body (body ++ [squote])).map Prod.fst).getD []

/-- The list of some identifiers. -/
def idList (itemids : List ℕ) : List UInt8 := bytes "0" ++ itemids.flatMap fun itemid => comma :: dec itemid

section Meaning

variable (db : AggregateDb) (sqlFunc : HistoryFunc → List ℚ → Decimal) (rule : UnescapeRule)
  (hostgroup itemkey : List UInt8) (f : ItemFunc)

/-- The statement for the items, by what the escaped strings stand for. -/
def AggregateDb.affectedBy : List ℕ :=
  db.affected nodeid (literalValue b rule (dbEscapeString b hostgroup maxStringLen))
    (literalValue b rule (dbEscapeString b itemkey maxStringLen))

/-- The database answers the statements of a call as they mean, in any order of the rows.  A
statement that is cut to its buffer may be answered in any way. -/
structure AggregateServer.Answers (param : List UInt8) : Prop where
  items : (affectedItemids b nodeid server hostgroup itemkey).Perm (db.affectedBy b nodeid rule hostgroup itemkey)
  first :
    let itemids := affectedItemids b nodeid server hostgroup itemkey
    (server.select (aggregateSql f (idList itemids) (now - atoi param)).1).Perm
      (db.answers sqlFunc f (now - atoi param) (0 :: itemids)).1
  second :
    let itemids := affectedItemids b nodeid server hostgroup itemkey
    (server.select (aggregateSql f (idList itemids) (now - atoi param)).2).Perm
      (db.answers sqlFunc f (now - atoi param) (0 :: itemids)).2

/-! ## what an aggregate item is for -/

/-- The number that a text denotes. -/
noncomputable def numberOf (text : List UInt8) : Option ℚ := by
  classical
  exact if h : ∃ q, Decimal.Denotes text q then some h.choose else none

namespace AggregateDb

/-- What the database keeps for an item and an item function: each value with the value type
that it belongs to. -/
def stored (clock : Int32) (i : AggregateItem) : List (ItemValueType × List UInt8) :=
  match f with
  | .last => i.lastvalue.toList.map (i.valueType, ·)
  | .history f =>
      (historyValue sqlFunc db.history f clock i).toList.map (.float, ·) ++
        (historyValue sqlFunc db.historyUint f clock i).toList.map (.uint64, ·)

/-- The value of the item function for an item: it is numeric and has one. -/
noncomputable def itemValue (clock : Int32) (i : AggregateItem) : Option ℚ :=
  if i.valueType = .float ∨ i.valueType = .uint64 then
    ((db.stored sqlFunc f clock i).find? fun s => s.1 = i.valueType).bind fun s => numberOf s.2
  else none

/-- An active item with the key, on a monitored host of the group. -/
def Member (i : AggregateItem) : Prop :=
  ∃ hg ∈ db.hostsGroups, ∃ h ∈ db.hosts, ∃ g ∈ db.groups, Joined nodeid hostgroup itemkey i hg h g

instance (i : AggregateItem) : Decidable (db.Member nodeid hostgroup itemkey i) := by
  unfold Member
  infer_instance

/-- The values of exactly these items, each with the identifier of its item. -/
noncomputable def wanted (clock : Int32) : List (ℕ × ℚ) :=
  Tally.keyed AggregateItem.itemid
    (fun i => if db.Member nodeid hostgroup itemkey i then (db.itemValue sqlFunc f clock i).toList else []) db.items

end AggregateDb

/-- A group function of some values. -/
def GroupFunc.Gives : GroupFunc → List ℚ → ℚ → Prop
  | sum, vs, r => r = vs.sum
  | avg, vs, r => r = vs.sum / vs.length
  | min, vs, r => IsLeast {v | v ∈ vs} r
  | max, vs, r => IsGreatest {v | v ∈ vs} r

/-- The values that go into the result are those of exactly the items that should, and the
result is the group function of them; without any it is a failure. -/
structure AggregateServer.Aggregates (grpfunc : GroupFunc) (param : List UInt8) : Prop where
  values :
    ((aggregateRows b nodeid server now hostgroup itemkey f param).map fun row => (row.itemid, row.number)).Perm
      (db.wanted nodeid sqlFunc hostgroup itemkey f (now - atoi param))
  fails :
    (∃ msg, evaluateAggregate b nodeid server now grpfunc.name hostgroup itemkey f.name param = .error msg) ↔
      db.wanted nodeid sqlFunc hostgroup itemkey f (now - atoi param) = []
  gives : ∀ r, evaluateAggregate b nodeid server now grpfunc.name hostgroup itemkey f.name param = .ok r →
    grpfunc.Gives ((db.wanted nodeid sqlFunc hostgroup itemkey f (now - atoi param)).map Prod.snd) r

end Meaning

end Zabbix
