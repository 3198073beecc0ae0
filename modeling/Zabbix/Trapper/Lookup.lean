import Zabbix.DbEscape
import Zabbix.Lib.Printf

/-!
# Zabbix.Trapper.Lookup

The item lookup of `process_mass_data` in `zabbix_server/trapper/trapper.c`:
one query for all values of a request, with one comparison of host and key for
each value.  Host and key come from the network.

`lookupTokens` is the query as it is meant: every host and every key is a
literal.  Each comparison goes through `zbx_snprintf_alloc` with a cap of 512
bytes, so the query is as meant exactly when no comparison is longer and no
host or key holds a carriage return, which escaping drops
(`itemLookup_readsAs_iff`).
-/

namespace Zabbix

open Ascii Printf SqlLiteral

def hostHostLen : Nat := 64
def itemKeyLen : Nat := 255

/-- The host and the key of an `AGENT_VALUE`: NUL-terminated strings in
buffers of `HOST_HOST_LEN_MAX` and `ITEM_KEY_LEN_MAX` bytes. -/
structure AgentValue where
  hostName : CString
  key : CString
  hostName_le : hostName.val.length ≤ hostHostLen
  key_le : key.val.length ≤ itemKeyLen

/-! ## the query -/

/-- `DBnode`, for a node id of -1 when the setup is not distributed. -/
def dbNode (fieldid : List UInt8) (nodeid : Int32) : List UInt8 :=
  if nodeid = -1 then []
  else
    zbxVsnprintf 128 (bytes " and " ++ fieldid ++ bytes " between " ++ d32 nodeid ++
      bytes "00000000000000 and " ++ d32 nodeid ++ bytes "99999999999999")

/-- `ZBX_SQL_ITEM_SELECT`. -/
def zbxSqlItemSelect : List UInt8 :=
  bytes ("i.itemid,i.key_,h.host,h.port,i.delay,i.description,i.nextcheck,i.type," ++
    "i.snmp_community,i.snmp_oid,h.useip,h.ip,i.history,i.lastvalue,i.prevvalue,i.hostid," ++
    "h.status,i.value_type,h.errors_from,i.snmp_port,i.delta,i.prevorgvalue,i.lastclock," ++
    "i.units,i.multiplier,i.snmpv3_securityname,i.snmpv3_securitylevel," ++
    "i.snmpv3_authpassphrase,i.snmpv3_privpassphrase,i.formula,h.available,i.status," ++
    "i.trapper_hosts,i.logtimefmt,i.valuemapid,i.delay_flex,h.dns,i.params,i.trends," ++
    "h.useipmi,h.ipmi_port,h.ipmi_authtype,h.ipmi_privilege,h.ipmi_username," ++
    "h.ipmi_password,i.ipmi_sensor,i.lastlogsize from hosts h, items i")

/-- The select and its fixed conditions; the statuses are
`HOST_STATUS_MONITORED`, `ITEM_STATUS_ACTIVE` and `ITEM_STATUS_NOTSUPPORTED`. -/
def lookupSelect (proxyHostid : UInt64) : List UInt8 :=
  bytes "select " ++ zbxSqlItemSelect ++
    bytes " where h.hostid=i.hostid and h.proxy_hostid=" ++ ui64 proxyHostid ++
    bytes " and h.status=0 and i.status in (0,3)"

/-- The item types: trapper and active items on a server, and what a proxy
may send. -/
def lookupTypes (proxyHostid : UInt64) : List UInt8 :=
  if proxyHostid = 0 then bytes " and i.type in (2,7)"
  else bytes " and i.type in (0,1,2,3,4,6,7,9,10,12)"

/-- The comparison for one value, with the ` or ` to the next. -/
def lookupTerm (b : Backend) (v : AgentValue) : List UInt8 :=
  let hostEsc := dbEscapeString b v.hostName.val maxStringLen
  let keyEsc := dbEscapeString b v.key.val maxStringLen
  bytes "(h.host='" ++ hostEsc ++ bytes "' and i.key_='" ++ keyEsc ++ bytes "') or "

/-- The query of `process_mass_data`: `sql_offset -= 4` takes the last ` or `
back. -/
def processMassDataSql (b : Backend) (nodeid : Int32) (proxyHostid : UInt64)
    (values : List AgentValue) : List UInt8 :=
  let sql := zbxSnprintfAlloc [] 2048 (lookupSelect proxyHostid)
  let sql := zbxSnprintfAlloc sql 64 (lookupTypes proxyHostid)
  let sql := zbxSnprintfAlloc sql 8 (bytes " and (")
  let sql := values.foldl (fun sql v => zbxSnprintfAlloc sql 512 (lookupTerm b v)) sql
  let sql := sql.take (sql.length - 4)
  zbxSnprintfAlloc sql 128 (bytes ")" ++ dbNode (bytes "h.hostid") nodeid)

/-! ## the query as it is meant -/

/-- One closed comparison. -/
def termTokens (v : AgentValue) : List Token :=
  plain (bytes "(h.host=") ++ .lit v.hostName.val :: plain (bytes " and i.key_=") ++
    .lit v.key.val :: plain (bytes ")")

/-- The comparisons of all values, with ` or ` between them. -/
def orTokens : List AgentValue → List Token
  | [] => []
  | [v] => termTokens v
  | v :: w :: values => termTokens v ++ plain (bytes " or ") ++ orTokens (w :: values)

/-- The fixed text in front of the comparisons. -/
def lookupHead (proxyHostid : UInt64) : List UInt8 :=
  lookupSelect proxyHostid ++ lookupTypes proxyHostid ++ bytes " and ("

/-- The fixed text behind them. -/
def lookupTail (nodeid : Int32) : List UInt8 := bytes ")" ++ dbNode (bytes "h.hostid") nodeid

/-- The whole query: no byte of a host or a key outside a literal. -/
def lookupTokens (nodeid : Int32) (proxyHostid : UInt64) (values : List AgentValue) : List Token :=
  plain (lookupHead proxyHostid) ++ orTokens values ++ plain (lookupTail nodeid)

/-! ## the fixed parts are never cut -/

theorem length_lookupSelect_lt (proxyHostid : UInt64) : (lookupSelect proxyHostid).length < 2048 := by
  have h1 : (bytes "select ").length = 7 := by decide
  have h2 : zbxSqlItemSelect.length < 1000 := by decide +kernel
  have h3 : (bytes " where h.hostid=i.hostid and h.proxy_hostid=").length < 100 := by decide
  have h4 : (bytes " and h.status=0 and i.status in (0,3)").length < 100 := by decide
  have h5 := length_ui64_le proxyHostid
  simp only [lookupSelect, List.length_append]
  omega

theorem length_lookupTypes_lt (proxyHostid : UInt64) : (lookupTypes proxyHostid).length < 64 := by
  unfold lookupTypes
  split <;> decide

/-- The field list of `DBnode` is bare, and so is its text. -/
theorem bare_dbNode (nodeid : Int32) : Bare (dbNode (bytes "h.hostid") nodeid) := by
  unfold dbNode
  split
  · decide
  · intro c hc
    have hall : Bare (bytes " and " ++ bytes "h.hostid" ++ bytes " between " ++ d32 nodeid ++
        bytes "00000000000000 and " ++ d32 nodeid ++ bytes "99999999999999") := by
      refine Bare.append (Bare.append (Bare.append (Bare.append ?_ (bare_d32 _)) ?_) (bare_d32 _)) ?_
      all_goals decide
    exact hall c (List.mem_of_mem_take hc)

theorem length_dbNode_lt (nodeid : Int32) : (dbNode (bytes "h.hostid") nodeid).length < 127 := by
  unfold dbNode
  split
  · decide
  · have h1 : (bytes " and ").length = 5 := by decide
    have h2 : (bytes "h.hostid").length = 8 := by decide
    have h3 : (bytes " between ").length = 9 := by decide
    have h4 : (bytes "00000000000000 and ").length = 19 := by decide
    have h5 : (bytes "99999999999999").length = 14 := by decide
    have h6 := length_d32_le nodeid
    refine lt_of_le_of_lt (length_zbxVsnprintf_le _ _) ?_
    simp only [List.length_append]
    omega

/-- The query, with only the comparisons subject to their cap. -/
theorem processMassDataSql_eq (b : Backend) (nodeid : Int32) (proxyHostid : UInt64)
    (values : List AgentValue) :
    processMassDataSql b nodeid proxyHostid values =
      (lookupHead proxyHostid ++ values.flatMap fun v => zbxVsnprintf 512 (lookupTerm b v)).take
          ((lookupHead proxyHostid).length +
            (values.flatMap fun v => zbxVsnprintf 512 (lookupTerm b v)).length - 4) ++
        lookupTail nodeid := by
  have hopen : zbxVsnprintf 8 (bytes " and (") = bytes " and (" := by decide
  have htail : (bytes ")" ++ dbNode (bytes "h.hostid") nodeid).length < 128 := by
    have h1 : (bytes ")").length = 1 := by decide
    have h2 := length_dbNode_lt nodeid
    rw [List.length_append]
    omega
  have hfold := foldl_zbxSnprintfAlloc (fun _ => 512) (lookupTerm b) values (lookupHead proxyHostid)
  simp only [processMassDataSql]
  simp only [zbxSnprintfAlloc, zbxVsnprintf_of_lt (length_lookupSelect_lt proxyHostid),
    zbxVsnprintf_of_lt (length_lookupTypes_lt proxyHostid), hopen, zbxVsnprintf_of_lt htail,
    List.nil_append]
  simp only [zbxSnprintfAlloc, lookupHead] at hfold
  rw [hfold, ← List.length_append]
  rfl

/-! ## when the query is as it is meant -/

/-- The comparison for one value without its cap, carriage returns included. -/
def wholeTerm (b : Backend) (v : AgentValue) : List UInt8 :=
  render b.escape (termTokens v) ++ bytes " or "

/-- The comparison for one value fits: no carriage return in host and key, and
29 bytes of punctuation with the escaped host and key are less than 512. -/
def TermFits (b : Backend) (v : AgentValue) : Prop :=
  cr ∉ v.hostName.val ∧ cr ∉ v.key.val ∧
    29 + (v.hostName.val.flatMap b.escape).length + (v.key.val.flatMap b.escape).length < 512

/-- The buffers of `process_mass_data` hold every escaped host and key. -/
theorem lookupTerm_eq (b : Backend) (v : AgentValue) :
    lookupTerm b v = bytes "(h.host='" ++ (kept v.hostName.val).flatMap b.escape ++
      bytes "' and i.key_='" ++ (kept v.key.val).flatMap b.escape ++ bytes "') or " := by
  have hh := v.hostName_le
  have hk := v.key_le
  have hmax : maxStringLen = 2048 := rfl
  rw [hostHostLen] at hh
  rw [itemKeyLen] at hk
  rw [lookupTerm, dbEscapeString_of_lt b (by omega), dbEscapeString_of_lt b (by omega)]

theorem wholeTerm_eq (b : Backend) (v : AgentValue) :
    wholeTerm b v = bytes "(h.host='" ++ v.hostName.val.flatMap b.escape ++
      bytes "' and i.key_='" ++ v.key.val.flatMap b.escape ++ bytes "') or " := by
  have h1 : bytes "(h.host='" = bytes "(h.host=" ++ [squote] := by decide
  have h2 : bytes "' and i.key_='" = squote :: bytes " and i.key_=" ++ [squote] := by decide
  have h3 : bytes "') or " = squote :: bytes ")" ++ bytes " or " := by decide
  rw [h1, h2, h3]
  simp [wholeTerm, termTokens, quoted]

theorem length_lookupTerm (b : Backend) (v : AgentValue) :
    (lookupTerm b v).length + v.hostName.val.count cr + v.key.val.count cr =
      (wholeTerm b v).length := by
  have hh := length_flatMap_kept b v.hostName.val
  have hk := length_flatMap_kept b v.key.val
  rw [lookupTerm_eq, wholeTerm_eq]
  simp only [List.length_append]
  omega

theorem length_wholeTerm (b : Backend) (v : AgentValue) :
    (wholeTerm b v).length =
      29 + (v.hostName.val.flatMap b.escape).length + (v.key.val.flatMap b.escape).length := by
  have h1 : (bytes "(h.host='").length = 9 := by decide
  have h2 : (bytes "' and i.key_='").length = 14 := by decide
  have h3 : (bytes "') or ").length = 6 := by decide
  rw [wholeTerm_eq]
  simp only [List.length_append]
  omega

/-- A comparison that fits is written as it is meant. -/
theorem TermFits.cut_eq {b : Backend} {v : AgentValue} (h : TermFits b v) :
    zbxVsnprintf 512 (lookupTerm b v) = wholeTerm b v := by
  have heq : lookupTerm b v = wholeTerm b v := by
    rw [lookupTerm_eq, wholeTerm_eq, kept_of_not_mem h.1, kept_of_not_mem h.2.1]
  rw [heq]
  apply zbxVsnprintf_of_lt
  rw [length_wholeTerm]
  exact h.2.2

theorem length_cut_le (b : Backend) (v : AgentValue) :
    (zbxVsnprintf 512 (lookupTerm b v)).length ≤ (wholeTerm b v).length := by
  have h := length_zbxVsnprintf_le 512 (lookupTerm b v)
  have hlen := length_lookupTerm b v
  omega

/-- A comparison keeps its length only when it fits. -/
theorem length_cut_eq_iff (b : Backend) (v : AgentValue) :
    (zbxVsnprintf 512 (lookupTerm b v)).length = (wholeTerm b v).length ↔ TermFits b v := by
  constructor
  · intro h
    have hle := length_zbxVsnprintf_le 512 (lookupTerm b v)
    have hlen := length_lookupTerm b v
    have hwhole := length_wholeTerm b v
    refine ⟨List.count_eq_zero.mp (by omega), List.count_eq_zero.mp (by omega), ?_⟩
    by_contra hlt
    have hcut : (zbxVsnprintf 512 (lookupTerm b v)).length < (lookupTerm b v).length :=
      length_zbxVsnprintf_lt (by omega) (by omega)
    omega
  · intro h
    rw [h.cut_eq]

theorem flatMap_wholeTerm (b : Backend) {values : List AgentValue} (h : values ≠ []) :
    values.flatMap (wholeTerm b) = render b.escape (orTokens values) ++ bytes " or " := by
  induction values with
  | nil => contradiction
  | cons v values ih =>
      cases values with
      | nil => simp [orTokens, wholeTerm]
      | cons w values =>
          rw [List.flatMap_cons, ih (by simp)]
          simp [orTokens, wholeTerm]

theorem joins_termTokens (v : AgentValue) : Joins (termTokens v) := by
  have h1 : Joins (plain (bytes "(h.host=")) := joins_plain (by decide)
  have h2 := joins_lit_plain v.hostName.val (t := bytes " and i.key_=") (by decide) (by decide)
  have h3 := joins_lit_plain v.key.val (t := bytes ")") (by decide) (by decide)
  exact (h1.append h2).append h3

theorem joins_orTokens (values : List AgentValue) : Joins (orTokens values) := by
  have hor : Joins (plain (bytes " or ")) := joins_plain (by decide)
  fun_induction orTokens values with
  | case1 => exact fun _ hs => hs
  | case2 v => exact joins_termTokens v
  | case3 v w values ih => exact ((joins_termTokens v).append hor).append ih

theorem separated_lookupTokens (nodeid : Int32) (proxyHostid : UInt64)
    (values : List AgentValue) : Separated (lookupTokens nodeid proxyHostid values) := by
  have hselect : Bare (lookupSelect proxyHostid) := by
    have hitem : Bare zbxSqlItemSelect := by decide +kernel
    have h1 : Bare (bytes "select ") := by decide
    exact ((((h1.append hitem).append (by decide)).append (bare_ui64 _)).append (by decide))
  have htypes : Bare (lookupTypes proxyHostid) := by
    unfold lookupTypes
    split <;> decide
  have hhead : Joins (plain (lookupHead proxyHostid)) :=
    joins_plain ((hselect.append htypes).append (by decide)).squote
  have htail : Joins (plain (lookupTail nodeid)) := by
    have h1 : Bare (bytes ")") := by decide
    exact joins_plain (h1.append (bare_dbNode nodeid)).squote
  exact ((hhead.append (joins_orTokens values)).append htail).separated

/-- The query has the length it is meant to have only when every comparison
has. -/
theorem length_processMassDataSql (b : Backend) (nodeid : Int32) (proxyHostid : UInt64)
    (values : List AgentValue) :
    (processMassDataSql b nodeid proxyHostid values).length + 4 =
      (lookupHead proxyHostid).length +
        (values.flatMap fun v => zbxVsnprintf 512 (lookupTerm b v)).length +
        (lookupTail nodeid).length := by
  have hopen : (bytes " and (").length = 6 := by decide
  rw [processMassDataSql_eq, List.length_append, List.length_take, List.length_append, lookupHead,
    List.length_append]
  omega

theorem render_lookupTokens (b : Backend) (nodeid : Int32) (proxyHostid : UInt64)
    (values : List AgentValue) :
    render b.escape (lookupTokens nodeid proxyHostid values) =
      lookupHead proxyHostid ++ render b.escape (orTokens values) ++ lookupTail nodeid := by
  simp [lookupTokens]

/-- A query as it is meant has no cut comparison: each is as long as it should
be. -/
theorem termFits_of_readsAs {b : Backend} {rule : UnescapeRule} {nodeid : Int32}
    {proxyHostid : UInt64} {values : List AgentValue}
    (h : ReadsAs b rule (lookupTokens nodeid proxyHostid values)
      (processMassDataSql b nodeid proxyHostid values)) :
    values ≠ [] ∧ ∀ v ∈ values, TermFits b v := by
  have hor : (bytes " or ").length = 4 := by decide
  have hlen := length_processMassDataSql b nodeid proxyHostid values
  rw [h.text, render_lookupTokens] at hlen
  simp only [List.length_append] at hlen
  have hne : values ≠ [] := by
    rintro rfl
    simp [orTokens] at hlen
  refine ⟨hne, ?_⟩
  have hwhole := congrArg List.length (flatMap_wholeTerm b hne)
  rw [List.length_append] at hwhole
  have hcut : (values.flatMap fun v => zbxVsnprintf 512 (lookupTerm b v)).length =
      (values.flatMap (wholeTerm b)).length := by omega
  intro v hv
  exact (length_cut_eq_iff b v).mp
    ((length_flatMap_eq_iff fun v _ => length_cut_le b v).mp hcut v hv)

/-- **The lookup is as it is meant exactly when every comparison fits**: the
query is one closed comparison of host and key for each value, with every
received byte inside a literal, if and only if there is a value and no value's
comparison is cut or loses a carriage return. -/
theorem itemLookup_readsAs_iff (b : Backend) (rule : UnescapeRule) (nodeid : Int32)
    (proxyHostid : UInt64) (values : List AgentValue) :
    ReadsAs b rule (lookupTokens nodeid proxyHostid values)
        (processMassDataSql b nodeid proxyHostid values) ↔
      values ≠ [] ∧ ∀ v ∈ values, TermFits b v := by
  constructor
  · exact termFits_of_readsAs
  · rintro ⟨hne, hfit⟩
    have hor : (bytes " or ").length = 4 := by decide
    have hcut : (values.flatMap fun v => zbxVsnprintf 512 (lookupTerm b v)) =
        values.flatMap (wholeTerm b) :=
      (flatMap_eq_iff fun v _ => length_cut_le b v).mpr fun v hv => (hfit v hv).cut_eq
    rw [readsAs_iff b rule (separated_lookupTokens nodeid proxyHostid values), render_lookupTokens,
      processMassDataSql_eq, hcut, flatMap_wholeTerm b hne, ← List.append_assoc]
    congr 1
    apply List.take_left'
    simp only [List.length_append]
    omega

/-- A host of 64 quotes and a key of 255 quotes. -/
def quotesAgentValue : AgentValue where
  hostName := ⟨List.replicate 64 squote, by decide⟩
  key := ⟨List.replicate 255 squote, by decide +kernel⟩
  hostName_le := by decide
  key_le := by decide +kernel

/-- With `HAVE_MYSQL`, this value's comparison is cut inside its key. -/
theorem itemLookup_quotes_cut :
    ¬ReadsAs .mysql ⟨fun c => [c], rfl, rfl⟩ (lookupTokens (-1) 0 [quotesAgentValue])
      (processMassDataSql .mysql (-1) 0 [quotesAgentValue]) := by
  intro h
  have hfit := ((termFits_of_readsAs h).2 quotesAgentValue (List.mem_singleton_self _)).2.2
  revert hfit
  decide +kernel

end Zabbix
