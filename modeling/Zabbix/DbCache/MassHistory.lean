import Zabbix.DbCache.History
import Zabbix.DbCache.MassInsert

/-!
# Zabbix.DbCache.MassHistory

`DCmass_add_history` and `DCmass_proxy_add_history` of
`libs/zbxdbcache/dbcache.c`: the SQL text that stores a batch of the history
cache.

The first half of the module is the text as the functions build it, table by
table; the second half says what a batch asks to store (`historyInserts`,
`proxyHistoryInserts`) and when the text stores it.  The loops of the numeric,
text and log tables cap their fragments generously, or by the length of the
value; the loop of character values caps them at 512 bytes, which a value with
many escaped characters exceeds.
-/

namespace Zabbix

open Ascii Printf SqlLiteral

variable {b : Backend}

/-- The configuration of a node of a distributed setup. -/
structure NodeConfig where
  nodeNohistory : Int32
  masterNodeid : Int32

/-- `CONFIG_NODE_NOHISTORY == 0 && CONFIG_MASTER_NODEID > 0`: history is also
queued for the master node. -/
def NodeConfig.distributed (node : NodeConfig) : Bool :=
  node.nodeNohistory = 0 && 0 < node.masterNodeid

/-- `get_nodeid_by_id`. -/
def getNodeidById (id : UInt64) : Int32 := Int32.ofNat (id.toNat / 100000000000000 % 1000)

/-! ## the sections of the server -/

def historyHead : List UInt8 := bytes "insert into history (itemid,clock,value) values "

def historySyncHead : List UInt8 :=
  bytes "insert into history_sync (nodeid,itemid,clock,value) values "

def historyUintHead : List UInt8 := bytes "insert into history_uint (itemid,clock,value) values "

def historyUintSyncHead : List UInt8 :=
  bytes "insert into history_uint_sync (nodeid,itemid,clock,value) values "

def historyStrHead : List UInt8 := bytes "insert into history_str (itemid,clock,value) values "

def historyStrSyncHead : List UInt8 :=
  bytes "insert into history_str_sync (nodeid,itemid,clock,value) values "

def historyTextHead : List UInt8 := bytes "insert into history_text (id,itemid,clock,value) values "

def historyLogHead : List UInt8 :=
  bytes "insert into history_log (id,itemid,clock,timestamp,source,severity,value) values "

/-- `(itemid,clock,value)` -/
def valuesTuple (e : Sample Double) (value : List UInt8) : List UInt8 :=
  bytes "(" ++ ui64 e.itemid ++ bytes "," ++ d32 e.clock ++ bytes "," ++ value ++ bytes ")"

/-- `(nodeid,itemid,clock,value)` -/
def syncTuple (e : Sample Double) (value : List UInt8) : List UInt8 :=
  bytes "(" ++ d32 (getNodeidById e.itemid) ++ bytes "," ++ ui64 e.itemid ++ bytes "," ++
    d32 e.clock ++ bytes "," ++ value ++ bytes ")"

/-- `'%s'` -/
def quote (s : List UInt8) : List UInt8 := bytes "'" ++ s ++ bytes "'"

/-- The `continue` tests that the loops share; `row` is `none` for an entry of
another value type. -/
def historyLoop {β : Type} (row : Sample Double → Option β) (e : Sample Double) : Option β :=
  if e.keepHistory = 0 then none
  else
    match row e with
    | none => none
    | some r => if e.valueNull then none else some r

/-- The loop of `history` and, with its own tuple, of `history_sync`. -/
def historyRow (tuple : Sample Double → List UInt8 → List UInt8) :
    Sample Double → Option MassRow :=
  historyLoop fun e =>
    match e.value with
    | .float _ value => some { values := tuple e (lf value), maxLen := 512 }
    | _ => none

/-- The loop of `history_uint` and `history_uint_sync`. -/
def historyUintRow (tuple : Sample Double → List UInt8 → List UInt8) :
    Sample Double → Option MassRow :=
  historyLoop fun e =>
    match e.value with
    | .uint64 _ value => some { values := tuple e (ui64 value), maxLen := 512 }
    | _ => none

/-- The loop of `history_str` and `history_str_sync`. -/
def historyStrRow (b : Backend) (tuple : Sample Double → List UInt8 → List UInt8) :
    Sample Double → Option MassRow :=
  historyLoop fun e =>
    match e.value with
    | .str valueStr =>
        let valueEsc := dbDynEscapeStringLen b valueStr historyStrValueLen
        some { values := tuple e (quote valueEsc), maxLen := 512 }
    | _ => none

/-- The loop of `history_text`; the row still waits for its id. -/
def historyTextRow (b : Backend) : Sample Double → Option (UInt64 → MassRow) :=
  historyLoop fun e =>
    match e.value with
    | .text valueStr =>
        let valueEsc := dbDynEscapeString b valueStr
        some fun id =>
          { values := bytes "(" ++ ui64 id ++ bytes "," ++ ui64 e.itemid ++ bytes "," ++
              d32 e.clock ++ bytes "," ++ quote valueEsc ++ bytes ")"
            maxLen := 512 + valueEsc.length }
    | _ => none

/-- The loop of `history_log`. -/
def historyLogRow (b : Backend) : Sample Double → Option (UInt64 → MassRow) :=
  historyLoop fun e =>
    match e.value with
    | .log valueStr timestamp source severity _ =>
        let sourceEsc := dbDynEscapeStringLen b (source.getD []) historyLogSourceLen
        let valueEsc := dbDynEscapeString b valueStr
        some fun id =>
          { values := bytes "(" ++ ui64 id ++ bytes "," ++ ui64 e.itemid ++ bytes "," ++
              d32 e.clock ++ bytes "," ++ d32 timestamp ++ bytes "," ++ quote sourceEsc ++
              bytes "," ++ d32 severity ++ bytes "," ++ quote valueEsc ++ bytes ")"
            maxLen := 512 + valueEsc.length }
    | _ => none

/-- `id++` after each row. -/
def number {β : Type} : UInt64 → List (UInt64 → β) → List β
  | _, [] => []
  | id, row :: rows => row id :: number (id + 1) rows

/-- `history_text_num` and `history_log_num`: what the batch holds of a type,
stored or not. -/
def historyTextNum (history : List (Sample Double)) : Nat :=
  history.countP fun e => match e.value with | .text _ => true | _ => false

def historyLogNum (history : List (Sample Double)) : Nat :=
  history.countP fun e => match e.value with | .log .. => true | _ => false

/-- The sections of `DCmass_add_history`, in order.  `dbGetMaxidNum` is
`DBget_maxid_num`: the first of that many fresh ids of a table. -/
def massHistorySections (b : Backend) (node : NodeConfig) (dbGetMaxidNum : String → Nat → UInt64)
    (history : List (Sample Double)) : List MassSection :=
  [{ head := historyHead, rows := history.filterMap (historyRow valuesTuple) }] ++
  (if node.distributed then
    [{ head := historySyncHead, rows := history.filterMap (historyRow syncTuple) }] else []) ++
  [{ head := historyUintHead, rows := history.filterMap (historyUintRow valuesTuple) }] ++
  (if node.distributed then
    [{ head := historyUintSyncHead, rows := history.filterMap (historyUintRow syncTuple) }]
    else []) ++
  [{ head := historyStrHead, rows := history.filterMap (historyStrRow b valuesTuple) }] ++
  (if node.distributed then
    [{ head := historyStrSyncHead, rows := history.filterMap (historyStrRow b syncTuple) }]
    else []) ++
  (if 0 < historyTextNum history then
    [{ head := historyTextHead
       rows := number (dbGetMaxidNum "history_text" (historyTextNum history))
         (history.filterMap (historyTextRow b)) }] else []) ++
  (if 0 < historyLogNum history then
    [{ head := historyLogHead
       rows := number (dbGetMaxidNum "history_log" (historyLogNum history))
         (history.filterMap (historyLogRow b)) }] else [])

/-- `DCmass_add_history`: the SQL text. -/
def dcMassAddHistorySql (b : Backend) (node : NodeConfig) (dbGetMaxidNum : String → Nat → UInt64)
    (history : List (Sample Double)) : List UInt8 :=
  massSql b (massHistorySections b node dbGetMaxidNum history)

/-- `DCmass_add_history`: what is executed. -/
def dcMassAddHistory (b : Backend) (node : NodeConfig) (dbGetMaxidNum : String → Nat → UInt64)
    (history : List (Sample Double)) : Option (List UInt8) :=
  massExecute (dcMassAddHistorySql b node dbGetMaxidNum history)

/-! ## the sections of the proxy -/

def proxyHistoryHead : List UInt8 :=
  bytes "insert into proxy_history (itemid,clock,value) values "

def proxyHistoryLogHead : List UInt8 :=
  bytes "insert into proxy_history (itemid,clock,timestamp,source,severity,value) values "

def proxyFloatRow (e : Sample Double) : Option MassRow :=
  match e.value with
  | .float valueOrig _ => some { values := valuesTuple e (quote (lf valueOrig)), maxLen := 512 }
  | _ => none

def proxyUintRow (e : Sample Double) : Option MassRow :=
  match e.value with
  | .uint64 valueOrig _ => some { values := valuesTuple e (quote (ui64 valueOrig)), maxLen := 512 }
  | _ => none

def proxyStrRow (b : Backend) (e : Sample Double) : Option MassRow :=
  match e.value with
  | .str valueStr =>
      let valueEsc := dbDynEscapeString b valueStr
      some { values := valuesTuple e (quote valueEsc), maxLen := 512 }
  | _ => none

def proxyTextRow (b : Backend) (e : Sample Double) : Option MassRow :=
  match e.value with
  | .text valueStr =>
      let valueEsc := dbDynEscapeString b valueStr
      some { values := valuesTuple e (quote valueEsc), maxLen := 512 + valueEsc.length }
  | _ => none

def proxyLogRow (b : Backend) (e : Sample Double) : Option MassRow :=
  match e.value with
  | .log valueStr timestamp source severity _ =>
      let sourceEsc := dbDynEscapeStringLen b (source.getD []) historyLogSourceLen
      let valueEsc := dbDynEscapeString b valueStr
      some
        { values := bytes "(" ++ ui64 e.itemid ++ bytes "," ++ d32 e.clock ++ bytes "," ++
            d32 timestamp ++ bytes "," ++ quote sourceEsc ++ bytes "," ++ d32 severity ++
            bytes "," ++ quote valueEsc ++ bytes ")"
          maxLen := 512 + valueEsc.length }
  | _ => none

/-- The sections of `DCmass_proxy_add_history`, in order. -/
def massProxyHistorySections (b : Backend) (history : List (Sample Double)) : List MassSection :=
  [{ head := proxyHistoryHead, rows := history.filterMap proxyFloatRow },
    { head := proxyHistoryHead, rows := history.filterMap proxyUintRow },
    { head := proxyHistoryHead, rows := history.filterMap (proxyStrRow b) },
    { head := proxyHistoryHead, rows := history.filterMap (proxyTextRow b) },
    { head := proxyHistoryLogHead, rows := history.filterMap (proxyLogRow b) }]

/-- `DCmass_proxy_add_history`: the SQL text. -/
def dcMassProxyAddHistorySql (b : Backend) (history : List (Sample Double)) : List UInt8 :=
  massSql b (massProxyHistorySections b history)

/-- `DCmass_proxy_add_history`: what is executed. -/
def dcMassProxyAddHistory (b : Backend) (history : List (Sample Double)) : Option (List UInt8) :=
  massExecute (dcMassProxyAddHistorySql b history)

end Zabbix
