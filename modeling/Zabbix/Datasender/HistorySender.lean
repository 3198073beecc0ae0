import Zabbix.Lib.Cursor
import Zabbix.Lib.Mem
import Zabbix.Lib.Run

/-!
# Zabbix.Datasender.HistorySender

The data sender of a proxy (`zabbix_proxy/datasender/datasender.c`) among the
processes that write history (`DCmass_proxy_add_history`).

A row gets its identifier when it is inserted, and is seen by others once the
transaction of its writer is committed.  Statements are atomic, and between any
two of them other processes may have theirs.  The hosts and items that
`get_history_data` joins with are given with the select, so that they may
change at any time.
-/

namespace Zabbix

/-- The columns of a value in `proxy_history`. -/
structure ProxyValue where
  itemid : ℕ
  clock : ℕ
  timestamp : ℕ
  source : CString
  severity : ℕ
  value : CString
deriving DecidableEq

/-- A row of `proxy_history`. -/
structure ProxyHistory where
  id : ℕ
  value : ProxyValue
deriving DecidableEq

/-- A row of the select of `get_history_data`, from which a record is made. -/
structure HistoryRecord where
  id : ℕ
  host : CString
  key : CString
  value : ProxyValue
deriving DecidableEq

/-- The tables `hosts` and `items`: the host and the key of an item. -/
abbrev HostItems := ℕ → Option (CString × CString)

/-- `ZBX_MAX_HRECORDS` -/
def zbxMaxHrecords : ℕ := 1000

/-- `h.hostid=i.hostid and i.itemid=p.itemid` -/
def joinHistory (items : HostItems) (row : ProxyHistory) : Option HistoryRecord :=
  (items row.value.itemid).map fun item =>
    { id := row.id, host := item.1, key := item.2, value := row.value }

/-- `get_lastid`, of the row of `ids`, if there is one. -/
def getLastid (nextid : Option ℕ) : ℕ := nextid.getD 0

/-- The records of `get_history_data`. -/
def getHistoryData (items : HostItems) (nextid : Option ℕ) (history : List ProxyHistory) :
    List HistoryRecord :=
  Cursor.batch HistoryRecord.id (getLastid nextid) zbxMaxHrecords (history.filterMap (joinHistory items))

/-- `*lastid`, after the loop of `get_history_data`. -/
def historyLastid (records : List HistoryRecord) : ℕ := Cursor.markAfter HistoryRecord.id 0 records

/-- Where `history_sender` is. -/
inductive HistorySender
  | idle
  /-- `get_history_data` has returned records -/
  | selected (records : List HistoryRecord)
  /-- `put_data_to_server` has succeeded -/
  | answered (records : List HistoryRecord)
deriving DecidableEq

/-- The database of the proxy, the data sender, and what the server has got. -/
structure ProxyState where
  /-- the next value of the `auto_increment` column -/
  autoIncrement : ℕ
  /-- what has been inserted and not yet committed, with the writer -/
  uncommitted : List (ℕ × ProxyHistory)
  history : List ProxyHistory
  /-- `ids.nextid` of `proxy_history.history_lastid` -/
  nextid : Option ℕ
  sender : HistorySender
  received : List HistoryRecord
deriving DecidableEq

/-- What `put_data_to_server` comes to: the server has not got the data, or its
answer has been lost, or all is well. -/
inductive PutResult
  | failed
  | unanswered
  | succeeded
deriving DecidableEq, Repr

/-- A step of a process that writes history. -/
inductive WriterEvent
  | insert (writer : ℕ) (value : ProxyValue)
  | commit (writer : ℕ)
  | rollback (writer : ℕ)
deriving DecidableEq

/-- A step of the proxy. -/
inductive ProxyEvent
  | writer (e : WriterEvent)
  | select (items : HostItems)
  | put (result : PutResult)
  | setLastid

namespace ProxyState

/-- The rows of one writer. -/
def rowsOf (s : ProxyState) (writer : ℕ) : List ProxyHistory :=
  (s.uncommitted.filter (·.1 = writer)).map (·.2)

/-- The statements of a writer. -/
def writerStep (s : ProxyState) : WriterEvent → ProxyState
  | .insert writer value =>
      { s with
        autoIncrement := s.autoIncrement + 1
        uncommitted := s.uncommitted ++ [(writer, ⟨s.autoIncrement, value⟩)] }
  | .commit writer =>
      { s with
        uncommitted := s.uncommitted.filter (·.1 ≠ writer)
        history := s.history ++ s.rowsOf writer }
  | .rollback writer => { s with uncommitted := s.uncommitted.filter (·.1 ≠ writer) }

/-- One step: a writer's, or the next one of `history_sender`.  A step that the
sender is not at does nothing. -/
def step (s : ProxyState) : ProxyEvent → ProxyState
  | .writer e => s.writerStep e
  | .select items =>
      match s.sender with
      | .idle =>
          let records := getHistoryData items s.nextid s.history
          if records = [] then s else { s with sender := .selected records }
      | .selected _ | .answered _ => s
  | .put result =>
      match s.sender, result with
      | .selected _, .failed => { s with sender := .idle }
      | .selected records, .unanswered => { s with sender := .idle, received := s.received ++ records }
      | .selected records, .succeeded =>
          { s with sender := .answered records, received := s.received ++ records }
      | .idle, _ | .answered _, _ => s
  | .setLastid =>
      match s.sender with
      | .answered records => { s with sender := .idle, nextid := some (historyLastid records) }
      | .idle | .selected _ => s

/-- The proxy before there is any history. -/
def initial : ProxyState :=
  { autoIncrement := 1
    uncommitted := []
    history := []
    nextid := none
    sender := .idle
    received := [] }

end ProxyState

end Zabbix
