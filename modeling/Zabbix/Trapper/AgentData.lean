import Zabbix.Agent.Active
import Zabbix.Agent.Log
import Zabbix.Json.Record
import Zabbix.Poller.ResultType
import Zabbix.Proxyconfig.Document
import Zabbix.Trapper.Lookup

/-!
# Zabbix.Trapper.AgentData

The values of an agent on the server: the request of `send_buffer`
(`zabbix_agent/active.c`), and what `process_new_values`, `process_mass_data` and
`send_result` (`zabbix_server/trapper/trapper.c`) make of it.

The values are looked up and processed in batches of 256.  Whatever the number of
batches, the values of an item are processed once each and in the order of the
request (`processNewValues_request`).
-/

namespace Zabbix

open Ascii Printf SqlLiteral

/-! ## values -/

/-- `AGENT_VALUE` -/
structure TrapValue extends AgentValue where
  clock : Int32
  value : CString
  lastlogsize : Int32
  timestamp : Int32
  source : Option CString
  severity : Int32

/-- A number that may be missing. -/
def numberOr (default : Int32) (s : Option CString) : Int32 := (s.map fun s => atoi s.val).getD default

/-- An object of the list, or none where something is missing. -/
def parseAgentValue (now timediff : ℤ) (jpRow : ZbxJsonParse) : Option (Option TrapValue) := do
  let clock ← jsonString jpRow tagClock maxBufLen
  let some host ← jsonStringIn jpRow (literal "host") hostHostLen | return none
  let some key ← jsonStringIn jpRow (literal "key") itemKeyLen | return none
  let some value ← jsonString jpRow (literal "value") maxBufLen | return none
  let lastlogsize ← jsonString jpRow (literal "lastlogsize") maxBufLen
  let timestamp ← jsonString jpRow (literal "timestamp") maxBufLen
  let source ← jsonString jpRow (literal "source") maxBufLen
  let severity ← jsonString jpRow (literal "severity") maxBufLen
  return some
    { hostName := host.val
      key := key.val
      hostName_le := host.property
      key_le := key.property
      clock := Int32.ofInt ((clock.map fun s => (atoi s.val).toInt + timediff).getD now)
      value := value
      lastlogsize := numberOr 0 lastlogsize
      timestamp := numberOr 0 timestamp
      source := source
      severity := numberOr 0 severity }

/-! ## items -/

/-- A row of the lookup: the columns that it looks at, and those that are used
here; `key` is `keyOrig` with its macros expanded. -/
structure TrapItem where
  itemid : ℕ
  hostName : CString
  keyOrig : CString
  key : CString
  type : ℤ
  valueType : ItemValueType
  logtimefmt : CString
  trapperHosts : CString
deriving DecidableEq

/-- `struct tm`, as `calc_timestamp` fills it. -/
structure BrokenTime where
  sec : Int32
  min : Int32
  hour : Int32
  mday : Int32
  mon : Int32
  year : Int32
deriving DecidableEq

/-- The number of a letter of the format, and how many digits it has. -/
def stampField (letter : UInt8) : (line format : List UInt8) → Int32 × ℕ → Int32 × ℕ
  | c :: line, f :: format, r =>
      stampField letter line format
        (if f = letter ∧ JsonText.isDigit c then (10 * r.1 + Int32.ofInt (c.toNat - 48), r.2 + 1) else r)
  | _, _, r => r

/-- `calc_timestamp`: seconds may be missing. -/
def calcTimestamp (mktime : BrokenTime → ℤ) (line : CString) (timestamp : Int32) (format : CString) : Int32 :=
  let field := fun letter => stampField letter line.val format.val (0, 0)
  let hh := field 104
  let mm := field 109
  let yyyy := field 121
  let dd := field 100
  let mon := field 77
  if hh.2 ≠ 0 ∧ mm.2 ≠ 0 ∧ yyyy.2 ≠ 0 ∧ dd.2 ≠ 0 ∧ mon.2 ≠ 0 then
    let t := mktime
      { sec := (field 115).1
        min := mm.1
        hour := hh.1
        mday := dd.1
        mon := mon.1 - 1
        year := yyyy.1 - 1900 }
    if 0 < t then Int32.ofInt t else timestamp
  else timestamp

/-! ## `process_mass_data` -/

/-- What a log has besides its value. -/
structure LogFields where
  lastlogsize : Int32
  timestamp : Int32
  severity : Int32
  source : Option CString
deriving DecidableEq

/-- What is done with a value of an item: it is not supported by the agent, or it
is processed as a new value of its type, or it is not of its type. -/
inductive MassAction
  | notSupported (item : TrapItem)
  | newValue (item : TrapItem) (log : Option LogFields) (agent : AgentResult) (clock : Int32)
  | notSuitable (item : TrapItem) (agent : AgentResult)

namespace MassAction

/-- The item. -/
def item : MassAction → TrapItem
  | notSupported item | newValue item .. | notSuitable item _ => item

/-- `(*processed)++` -/
def counts : MassAction → Bool
  | notSupported _ | newValue .. => true
  | notSuitable .. => false

end MassAction

/-- What the server rests on: its database, which answers the text of a query,
`mktime`, `strtod`, and `zbx_tcp_check_security` for the peer. -/
structure TrapperConfig where
  backend : Backend
  nodeid : Int32
  query : List UInt8 → List TrapItem
  mktime : BrokenTime → ℤ
  strtod : Bool → ℚ → Double
  secure : CString → Bool

variable (config : TrapperConfig)

/-- A value of an item. -/
def massValue (item : TrapItem) (v : TrapValue) : MassAction :=
  if v.value = literal "ZBX_NOTSUPPORTED" then .notSupported item
  else
    let log :=
      if bytes "log[" <+: item.key.val ∨ bytes "eventlog[" <+: item.key.val then
        some
          { lastlogsize := v.lastlogsize
            timestamp := calcTimestamp config.mktime v.value v.timestamp item.logtimefmt
            severity := v.severity
            source := v.source }
      else none
    match setResultType config.strtod config.backend .init item.valueType v.value.val with
    | (true, agent) => .newValue item log agent v.clock
    | (false, agent) => .notSuitable item agent

/-- The values of an item: only active checks ask where the values come from. -/
def massItem (values : List TrapValue) (item : TrapItem) : List MassAction :=
  if item.type = 7 ∧ config.secure item.trapperHosts = false then []
  else (values.filter fun v => item.hostName = v.hostName ∧ item.keyOrig = v.key).map (massValue config item)

/-- `process_mass_data` -/
def processMassData (proxyHostid : UInt64) (values : List TrapValue) : List MassAction :=
  (config.query (processMassDataSql config.backend config.nodeid proxyHostid
    (values.map TrapValue.toAgentValue))).flatMap (massItem config values)

/-! ## `process_new_values` -/

/-- `values`, what has been done, and `total_num`. -/
structure NewValues where
  values : List TrapValue
  actions : List MassAction
  total : ℕ

namespace NewValues

/-- `VALUES_MAX` -/
def valuesMax : ℕ := 256

/-- The start. -/
def empty : NewValues := { values := [], actions := [], total := 0 }

/-- The values are processed and cleaned. -/
def flush (proxyHostid : UInt64) (s : NewValues) : NewValues where
  values := []
  actions := s.actions ++ processMassData config proxyHostid s.values
  total := s.total + s.values.length

/-- One value more. -/
def add (proxyHostid : UInt64) (s : NewValues) (v : TrapValue) : NewValues :=
  let s := { s with values := s.values ++ [v] }
  if s.values.length = valuesMax then s.flush config proxyHostid else s

end NewValues

/-- The body of the loop. -/
def newValuesRow (proxyHostid : UInt64) (now timediff : ℤ) (s : NewValues) (p : Ptr) : Option (NewValues × Bool) :=
  match zbxJsonBracketsOpen p with
  | .overrun => none
  | .null => some (s, false)
  | .found jpRow =>
      (parseAgentValue now timediff jpRow).map fun v =>
        (match v with
          | none => s
          | some v => s.add config proxyHostid v,
          true)

/-- `process_new_values`, up to the response: what has been done, and `ret`. -/
def processNewValues (proxyHostid : UInt64) (now : ℤ) (jp : ZbxJsonParse) : Option (NewValues × Bool) := do
  let clock ← jsonString jp tagClock maxBufLen
  let timediff := (clock.map fun s => now - (atoi s.val).toInt).getD 0
  match zbxJsonPairByName jp (literal "data").val with
  | .overrun => none
  | .null => some (.empty, false)
  | .found p =>
      match zbxJsonBracketsOpen p with
      | .overrun => none
      | .null => some (.empty, false)
      | .found jpData => do
          let (s, ret) ← jsonWhile jpData (newValuesRow config proxyHostid now timediff) .empty none
          some (if s.values = [] then s else s.flush config proxyHostid, ret)

/-! ## the response -/

/-- The `info`; `seconds` is the time that it took. -/
def newValuesInfo (s : NewValues) (seconds : List UInt8) : CString :=
  let processed := s.actions.countP MassAction.counts
  cstrOf (zbxVsnprintf maxStringLen (bytes "Processed " ++ d32 (Int32.ofNat processed) ++
    bytes " Failed " ++ d32 (Int32.ofNat s.total - Int32.ofNat processed) ++
    bytes " Total " ++ d32 (Int32.ofNat s.total) ++ bytes " Seconds spent " ++ seconds))

/-- `send_result` -/
def resultFields (ret : Bool) (info : CString) : List JsonField :=
  ⟨literal "response", if ret then literal "success" else literal "failed", .string⟩ ::
    if info.val ≠ [] then [⟨literal "info", info, .string⟩] else []

/-! ## the request -/

/-- A number that is sent if it is not 0. -/
def numberValue (n : ℤ) : Option CString := if n ≠ 0 then some (uint64Digits n) else none

/-- What may be sent of an element. -/
def elementEntries (el : ActiveBufferElement) : List (CString × ZbxJsonType × Option CString) :=
  [(literal "host", .string, some el.host), (literal "key", .string, some el.key),
    (literal "value", .string, some el.value), (literal "lastlogsize", .int, numberValue el.lastlogsize),
    (literal "timestamp", .int, numberValue el.timestamp.toInt), (literal "source", .string, el.source),
    (literal "severity", .int, numberValue el.severity.toInt), (tagClock, .int, some (uint64Digits el.clock.toInt))]

/-- The fields of an element. -/
def elementFields (el : ActiveBufferElement) : List JsonField := optionalFields (elementEntries el)

/-- The fields in front of the values. -/
def agentDataFields : List JsonField := [⟨literal "request", literal "agent data", .string⟩]

theorem toInt_ne_zero (n : Int32) : n.toInt ≠ 0 ↔ n ≠ 0 :=
  not_congr ⟨fun h => Int32.toInt_inj.mp h, fun h => h ▸ rfl⟩

theorem recordOps_elementFields (el : ActiveBufferElement) : recordOps (elementFields el) = elementOps el := by
  have hnumber : ∀ name n, ((numberValue n).map fun value => (⟨name, value, .int⟩ : JsonField)).toList.map JsonField.op =
      if n ≠ 0 then [addUint64 name n] else [] := by
    intro name n
    rw [numberValue]
    split <;> rfl
  have hcons : ∀ (e : CString × ZbxJsonType × Option CString) entries, optionalFields (e :: entries) =
      (e.2.2.map fun value => (⟨e.1, value, e.2.1⟩ : JsonField)).toList ++ optionalFields entries := by
    intro e entries
    rw [optionalFields, List.filterMap_cons]
    cases e.2.2 <;> rfl
  rw [recordOps, elementFields, elementOps, elementEntries]
  simp only [hcons, List.map_append, hnumber, toInt_ne_zero]
  cases el.source with
  | none => simp [JsonField.op, addString, addUint64, optionalFields]
  | some source => simp [JsonField.op, addString, addUint64, optionalFields]

theorem requestOps_eq (els : List ActiveBufferElement) (clock : Int32) :
    requestOps els clock = agentDataFields.map JsonField.op ++ .addarray (some (literal "data")) ::
      ((els.map elementFields).flatMap recordOps ++ .close ::
        [⟨tagClock, uint64Digits clock.toInt, .int⟩].map JsonField.op) := by
  have hrows : (els.map elementFields).flatMap recordOps = els.flatMap elementOps := by
    rw [List.flatMap_map]
    exact List.flatMap_congr fun el _ => recordOps_elementFields el
  rw [requestOps, hrows]
  rfl

/-- An element that arrives as it is. -/
structure DeliverableElement (el : ActiveBufferElement) : Prop where
  host_le : el.host.val.length ≤ hostHostLen
  host_clean : ∀ c ∈ el.host.val, jsonClean c = true
  key_le : el.key.val.length ≤ itemKeyLen
  key_clean : ∀ c ∈ el.key.val, jsonClean c = true
  value_lt : el.value.val.length < maxBufLen
  value_clean : ∀ c ∈ el.value.val, jsonClean c = true
  source_lt : ∀ source ∈ el.source, source.val.length < maxBufLen
  source_clean : ∀ source ∈ el.source, ∀ c ∈ source.val, jsonClean c = true
  lastlogsize_nonneg : 0 ≤ el.lastlogsize
  lastlogsize_lt : el.lastlogsize < 2 ^ 63
  timestamp_nonneg : 0 ≤ el.timestamp.toInt
  severity_nonneg : 0 ≤ el.severity.toInt
  clock_nonneg : 0 ≤ el.clock.toInt

/-- What the server has of an element; its clock goes wrong by `shift`. -/
def DeliverableElement.trapValue {el : ActiveBufferElement} (h : DeliverableElement el) (shift : ℤ) : TrapValue where
  hostName := el.host
  key := el.key
  hostName_le := h.host_le
  key_le := h.key_le
  clock := Int32.ofInt (el.clock.toInt + shift)
  value := el.value
  lastlogsize := Int32.ofInt el.lastlogsize
  timestamp := el.timestamp
  source := el.source
  severity := el.severity

theorem atoi_uint64Digits {n : ℤ} (h0 : 0 ≤ n) (hlt : n < 2 ^ 63) : atoi (uint64Digits n).val = Int32.ofInt n := by
  have hmod : n % 2 ^ 64 = n := Int.emod_eq_of_lt h0 (by omega)
  change Int32.ofInt (atoll (dec (n % 2 ^ 64).toNat)) = _
  rw [hmod, atoll_dec]
  congr 1
  omega

theorem length_uint64Digits_lt (n : ℤ) : (uint64Digits n).val.length < maxBufLen :=
  (length_dec_le (by decide : 0 < 20) (by omega : (n % 2 ^ 64).toNat < 10 ^ 20)).trans_lt (by decide)

theorem readable_uint64 {name : CString} (hname : ∀ c ∈ name.val, jsonClean c = true)
    (hlt : name.val.length < maxStringLen) (n : ℤ) : JsonField.Readable ⟨name, uint64Digits n, .int⟩ where
  legal := .inr ⟨rfl, isInt_dec _⟩
  name_clean := hname
  name_lt := hlt
  value_clean := fun c hc => by
    have hd32 : ∀ c : UInt8, 48 ≤ c.toNat ∧ c.toNat ≤ 57 → jsonClean c = true := forall_byte (by decide +kernel)
    exact hd32 c (digit_of_mem_dec hc)

/-! ## what arrives -/

theorem readable_elementFields {el : ActiveBufferElement} (h : DeliverableElement el) :
    ∀ f ∈ elementFields el, f.Readable := by
  have hname : ∀ e ∈ elementEntries el, (∀ c ∈ e.1.val, jsonClean c = true) ∧ e.1.val.length < maxStringLen := by
    simp only [elementEntries, List.forall_mem_cons]
    decide
  have hnumber : ∀ n value, numberValue n = some value → ∃ n, value = uint64Digits n := by
    intro n value hvalue
    rw [numberValue] at hvalue
    split at hvalue
    · exact ⟨n, (Option.some.inj hvalue).symm⟩
    · cases hvalue
  have hvalue : ∀ e ∈ elementEntries el, ∀ value, e.2.2 = some value →
      (e.2.1 = .string ∧ ∀ c ∈ value.val, jsonClean c = true) ∨ (e.2.1 = .int ∧ ∃ n, value = uint64Digits n) := by
    simp only [elementEntries, List.forall_mem_cons]
    refine ⟨?_, ?_, ?_, ?_, ?_, ?_, ?_, ?_, fun _ hmem => nomatch hmem⟩
    · rintro value ⟨⟩
      exact .inl ⟨trivial, h.host_clean⟩
    · rintro value ⟨⟩
      exact .inl ⟨trivial, h.key_clean⟩
    · rintro value ⟨⟩
      exact .inl ⟨trivial, h.value_clean⟩
    · exact fun value hv => .inr ⟨trivial, hnumber _ value hv⟩
    · exact fun value hv => .inr ⟨trivial, hnumber _ value hv⟩
    · exact fun value hv => .inl ⟨trivial, h.source_clean value hv⟩
    · exact fun value hv => .inr ⟨trivial, hnumber _ value hv⟩
    · rintro value ⟨⟩
      exact .inr ⟨trivial, _, rfl⟩
  intro f hf
  obtain ⟨⟨name, type, value⟩, he, hf⟩ := List.mem_filterMap.mp hf
  obtain ⟨value, rfl, rfl⟩ := Option.map_eq_some_iff.mp hf
  obtain ⟨hclean, hlt⟩ := hname _ he
  rcases hvalue _ he value rfl with ⟨htype, hv⟩ | ⟨htype, n, rfl⟩
  · dsimp only at htype
    subst htype
    exact ⟨.inl rfl, hclean, hlt, hv⟩
  · dsimp only at htype
    subst htype
    exact readable_uint64 hclean hlt n


/-- An object of the request comes to its value. -/
theorem parseAgentValue_elementFields {el : ActiveBufferElement} (h : DeliverableElement el) (now shift : ℤ) (tail : Ptr) :
    parseAgentValue now shift (nodeRange true (recordMembers (elementFields el)) tail) =
      some (some (h.trapValue shift)) := by
  have hread := readable_elementFields h
  have hnodup : ((elementEntries el).map Prod.fst).Nodup := by
    simp only [elementEntries, List.map_cons, List.map_nil]
    decide
  -- each field is read as it was written, where there is room for it
  have hstring : ∀ e ∈ elementEntries el, ∀ len, (∀ value ∈ e.2.2, value.val.length < len) →
      jsonString (nodeRange true (recordMembers (elementFields el)) tail) e.1 len = some e.2.2 := by
    intro e he len hlen
    have hvalue := value_optionalFields hnodup he
    rw [jsonString_record hread tail e.1 fun f hf => ?_, ← hvalue]
    · rfl
    · refine hlen _ ?_
      rw [← hvalue]
      exact congrArg (Option.map _) hf
  have hdigits := length_uint64Digits_lt
  have hnumber : ∀ n, ∀ value ∈ numberValue n, value.val.length < maxBufLen := by
    intro n value hvalue
    rw [numberValue] at hvalue
    split at hvalue
    · obtain rfl := Option.some.inj hvalue
      exact hdigits n
    · cases hvalue
  have hread : ∀ n, 0 ≤ n → n < 2 ^ 63 → numberOr 0 (numberValue n) = Int32.ofInt n := by
    intro n h0 hlt
    rw [numberValue]
    split
    · exact atoi_uint64Digits h0 hlt
    · next hn =>
        obtain rfl := not_not.mp hn
        rfl
  have hclock := hstring (tagClock, .int, some (uint64Digits el.clock.toInt)) (by simp [elementEntries]) maxBufLen
    (by rintro value ⟨⟩; exact hdigits _)
  have hhost := hstring (literal "host", .string, some el.host) (by simp [elementEntries]) (hostHostLen + 1)
    (by rintro value ⟨⟩; exact Nat.lt_succ_of_le h.host_le)
  have hkey := hstring (literal "key", .string, some el.key) (by simp [elementEntries]) (itemKeyLen + 1)
    (by rintro value ⟨⟩; exact Nat.lt_succ_of_le h.key_le)
  have hvalue := hstring (literal "value", .string, some el.value) (by simp [elementEntries]) maxBufLen
    (by rintro value ⟨⟩; exact h.value_lt)
  have hlastlogsize := hstring (literal "lastlogsize", .int, numberValue el.lastlogsize) (by simp [elementEntries])
    maxBufLen (hnumber _)
  have htimestamp := hstring (literal "timestamp", .int, numberValue el.timestamp.toInt) (by simp [elementEntries])
    maxBufLen (hnumber _)
  have hsource := hstring (literal "source", .string, el.source) (by simp [elementEntries]) maxBufLen h.source_lt
  have hseverity := hstring (literal "severity", .int, numberValue el.severity.toInt) (by simp [elementEntries])
    maxBufLen (hnumber _)
  have hint32 : ∀ n : Int32, n.toInt < 2 ^ 63 := fun n => n.toInt_lt.trans (by decide)
  rw [parseAgentValue, hclock, jsonStringIn_eq h.host_le hhost, jsonStringIn_eq h.key_le hkey, hvalue, hlastlogsize,
    htimestamp, hsource, hseverity]
  dsimp only [Option.bind_eq_bind, Option.bind_some, Option.pure_def]
  rw [hread _ h.lastlogsize_nonneg h.lastlogsize_lt, hread _ h.timestamp_nonneg (hint32 _),
    hread _ h.severity_nonneg (hint32 _), Option.map_some, Option.getD_some,
    atoi_uint64Digits h.clock_nonneg (hint32 _), Int32.ofInt_toInt, Int32.ofInt_toInt, Int32.ofInt_toInt]
  rfl

/-! ## batches -/

variable {config}

/-- An item of the actions. -/
def actionsOf (actions : List MassAction) (itemid : ℕ) : List MassAction :=
  actions.filter fun a => a.item.itemid = itemid

/-- The database answers a lookup that reads as it is meant: with the items that
values are for. -/
def Answers (config : TrapperConfig) (rule : UnescapeRule) (proxyHostid : UInt64) (items : List TrapItem) : Prop :=
  ∀ (values : List AgentValue) (sql : List UInt8),
    ReadsAs config.backend rule (lookupTokens config.nodeid proxyHostid values) sql →
      (config.query sql).Perm
        (items.filter fun item => values.any fun v => item.hostName = v.hostName ∧ item.keyOrig = v.key)

section

variable {rule : UnescapeRule} {proxyHostid : UInt64} {items : List TrapItem}

theorem item_massValue (item : TrapItem) (v : TrapValue) : (massValue config item v).item = item := by
  rw [massValue]
  split
  · rfl
  · dsimp only
    split <;> rfl

theorem item_of_mem_massItem {values : List TrapValue} {item : TrapItem} {a : MassAction}
    (h : a ∈ massItem config values item) : a.item = item := by
  rw [massItem] at h
  split at h
  · cases h
  · obtain ⟨v, -, rfl⟩ := List.mem_map.mp h
    exact item_massValue item v

theorem massItem_append (values values' : List TrapValue) (item : TrapItem) :
    massItem config (values ++ values') item = massItem config values item ++ massItem config values' item := by
  rw [massItem, massItem, massItem]
  split
  · rfl
  · rw [List.filter_append, List.map_append]

/-- What is done with the item in a list of items that has it once. -/
theorem actionsOf_flatMap {rows : List TrapItem} (hnodup : (rows.map (·.itemid)).Nodup) (values : List TrapValue)
    {item : TrapItem} (hitem : item ∈ rows) :
    actionsOf (rows.flatMap (massItem config values)) item.itemid = massItem config values item := by
  induction rows with
  | nil => cases hitem
  | cons row rows ih =>
      rw [List.map_cons, List.nodup_cons] at hnodup
      rw [List.flatMap_cons, actionsOf, List.filter_append]
      rcases List.mem_cons.mp hitem with rfl | hmem
      · have hself : (massItem config values item).filter (fun a => a.item.itemid = item.itemid) =
            massItem config values item :=
          List.filter_eq_self.mpr fun a ha => decide_eq_true (congrArg TrapItem.itemid (item_of_mem_massItem ha))
        have hrest : (rows.flatMap (massItem config values)).filter (fun a => a.item.itemid = item.itemid) = [] := by
          refine List.filter_eq_nil_iff.mpr fun a ha hid => hnodup.1 ?_
          obtain ⟨row, hrow, ha⟩ := List.mem_flatMap.mp ha
          rw [← of_decide_eq_true hid, item_of_mem_massItem ha]
          exact List.mem_map_of_mem hrow
        rw [hself, hrest, List.append_nil]
      · have hother : (massItem config values row).filter (fun a => a.item.itemid = item.itemid) = [] := by
          refine List.filter_eq_nil_iff.mpr fun a ha hid => hnodup.1 ?_
          rw [← congrArg TrapItem.itemid (item_of_mem_massItem ha), of_decide_eq_true hid]
          exact List.mem_map_of_mem hmem
        rw [hother, List.nil_append]
        exact ih hnodup.2 hmem

/-- A batch does with an item what is to be done with its values. -/
theorem actionsOf_processMassData (hanswers : Answers config rule proxyHostid items)
    (hnodup : (items.map (·.itemid)).Nodup) {values : List TrapValue} (hne : values ≠ [])
    (hfits : ∀ v ∈ values, TermFits config.backend v.toAgentValue) {item : TrapItem} (hitem : item ∈ items) :
    actionsOf (processMassData config proxyHostid values) item.itemid = massItem config values item := by
  have hreads := (itemLookup_readsAs_iff config.backend rule config.nodeid proxyHostid
    (values.map TrapValue.toAgentValue)).mpr ⟨by simpa using hne, List.forall_mem_map.mpr hfits⟩
  have hperm := hanswers _ _ hreads
  rw [processMassData]
  generalize config.query _ = rows at hperm
  have hrows : (rows.map (·.itemid)).Nodup :=
    (hperm.map _).nodup_iff.mpr ((List.filter_sublist.map _).nodup hnodup)
  by_cases hmem : item ∈ rows
  · exact actionsOf_flatMap hrows values hmem
  · -- no value is for the item, and no other item has its identifier
    have hnone : ∀ v ∈ values, ¬(item.hostName = v.hostName ∧ item.keyOrig = v.key) := by
      intro v hv hmatch
      refine hmem (hperm.mem_iff.mpr (List.mem_filter.mpr ⟨hitem, List.any_eq_true.mpr ⟨v.toAgentValue, ?_, ?_⟩⟩))
      · exact List.mem_map_of_mem hv
      · exact decide_eq_true hmatch
    have hself : massItem config values item = [] := by
      rw [massItem]
      split
      · rfl
      · rw [List.filter_eq_nil_iff.mpr fun v hv h => hnone v hv (of_decide_eq_true h)]
        rfl
    rw [hself]
    refine List.filter_eq_nil_iff.mpr fun a ha hid => hmem ?_
    obtain ⟨row, hrow, ha⟩ := List.mem_flatMap.mp ha
    have hitems : row ∈ items := (List.mem_filter.mp (hperm.mem_iff.mp hrow)).1
    have hsame : row.itemid = item.itemid := by
      rw [← item_of_mem_massItem ha]
      exact of_decide_eq_true hid
    rw [← List.inj_on_of_nodup_map hnodup hitems hitem hsame]
    exact hrow

theorem massItem_nil (item : TrapItem) : massItem config [] item = [] := by
  rw [massItem]
  split <;> rfl

theorem total_foldl_add (s : NewValues) (vs : List TrapValue) :
    let s' := vs.foldl (fun s v => s.add config proxyHostid v) s
    s'.total + s'.values.length = s.total + s.values.length + vs.length := by
  induction vs generalizing s with
  | nil => rfl
  | cons v vs ih =>
      have hadd : (s.add config proxyHostid v).total + (s.add config proxyHostid v).values.length =
          s.total + s.values.length + 1 := by
        rw [NewValues.add]
        dsimp only
        split
        · rw [NewValues.flush, List.length_nil, List.length_append, List.length_singleton]
          dsimp only
          omega
        · rw [List.length_append, List.length_singleton]
          dsimp only
          omega
      intro s'
      have hrest := ih (s.add config proxyHostid v)
      dsimp only at hrest
      rw [hadd] at hrest
      rw [List.length_cons]
      exact hrest.trans (by omega)

/-- Values wait that can be looked up, and what is done with an item is done in
order. -/
structure InOrder (config : TrapperConfig) (item : TrapItem) (s : NewValues) (vs : List TrapValue) : Prop where
  fits : ∀ v ∈ s.values, TermFits config.backend v.toAgentValue
  actions : actionsOf s.actions item.itemid ++ massItem config s.values item = massItem config vs item

theorem InOrder.add (hanswers : Answers config rule proxyHostid items) (hnodup : (items.map (·.itemid)).Nodup)
    {item : TrapItem} (hitem : item ∈ items) {s : NewValues} {vs : List TrapValue} (h : InOrder config item s vs)
    {v : TrapValue} (hv : TermFits config.backend v.toAgentValue) :
    InOrder config item (s.add config proxyHostid v) (vs ++ [v]) := by
  have hall : ∀ w ∈ s.values ++ [v], TermFits config.backend w.toAgentValue :=
    List.forall_mem_append.mpr ⟨h.fits, List.forall_mem_singleton.mpr hv⟩
  have hsplit : actionsOf s.actions item.itemid ++ massItem config (s.values ++ [v]) item =
      massItem config (vs ++ [v]) item := by
    rw [massItem_append, massItem_append, ← List.append_assoc, h.actions]
  rw [NewValues.add]
  dsimp only
  split
  · have hbatch := actionsOf_processMassData hanswers hnodup (List.append_ne_nil_of_right_ne_nil _ (by simp)) hall hitem
    refine ⟨fun _ hmem => absurd hmem List.not_mem_nil, ?_⟩
    rw [NewValues.flush, massItem_nil, List.append_nil, actionsOf, List.filter_append, ← hsplit]
    exact congrArg _ hbatch
  · exact ⟨hall, hsplit⟩

theorem InOrder.foldl_add (hanswers : Answers config rule proxyHostid items) (hnodup : (items.map (·.itemid)).Nodup)
    {item : TrapItem} (hitem : item ∈ items) {s : NewValues} {vs : List TrapValue} (h : InOrder config item s vs)
    {vs' : List TrapValue} (hvs : ∀ v ∈ vs', TermFits config.backend v.toAgentValue) :
    InOrder config item (vs'.foldl (fun s v => s.add config proxyHostid v) s) (vs ++ vs') := by
  induction vs' generalizing s vs with
  | nil => rwa [List.append_nil]
  | cons v vs' ih =>
      rw [List.forall_mem_cons] at hvs
      have hrest := ih (h.add hanswers hnodup hitem hvs.1) hvs.2
      rwa [List.append_assoc, List.singleton_append] at hrest

/-- The last batch. -/
theorem InOrder.last (hanswers : Answers config rule proxyHostid items) (hnodup : (items.map (·.itemid)).Nodup)
    {item : TrapItem} (hitem : item ∈ items) {s : NewValues} {vs : List TrapValue} (h : InOrder config item s vs) :
    actionsOf (if s.values = [] then s else s.flush config proxyHostid).actions item.itemid =
      massItem config vs item := by
  split
  · next hnil =>
      have hactions := h.actions
      rwa [hnil, massItem_nil, List.append_nil] at hactions
  · next hne =>
      rw [NewValues.flush, ← h.actions, actionsOf, List.filter_append]
      exact congrArg _ (actionsOf_processMassData hanswers hnodup hne h.fits hitem)

/-! ## the exchange -/

variable {garbage : Mem}

theorem readableMessage_request (els : List { el : ActiveBufferElement // DeliverableElement el }) (clock : Int32) :
    ReadableMessage agentDataFields (literal "data") (els.map fun el => elementFields el.val)
      [⟨tagClock, uint64Digits clock.toInt, .int⟩] where
  front_readable := List.forall_mem_singleton.mpr ⟨.inl rfl, by decide, by decide, by decide⟩
  rows_readable := List.forall_mem_map.mpr fun el _ => readable_elementFields el.property
  back_readable := List.forall_mem_singleton.mpr (readable_uint64 (by decide) (by decide) _)
  name_clean := by decide
  name_lt := by decide
  name_front := by decide

theorem clean_newValuesInfo (s : NewValues) {seconds : List UInt8} (hseconds : ∀ c ∈ seconds, jsonClean c = true) :
    ∀ c ∈ (newValuesInfo s seconds).val, jsonClean c = true := by
  intro c hc
  have hmem := List.mem_of_mem_take ((List.takeWhile_prefix _).subset hc)
  simp only [List.mem_append, or_assoc] at hmem
  have hword : ∀ word ∈ [bytes "Processed ", bytes " Failed ", bytes " Total ", bytes " Seconds spent "],
      ∀ c ∈ word, jsonClean c = true := by decide
  simp only [List.forall_mem_cons] at hword
  rcases hmem with hmem | hmem | hmem | hmem | hmem | hmem | hmem | hmem
  · exact hword.1 c hmem
  · exact clean_d32 hmem
  · exact hword.2.1 c hmem
  · exact clean_d32 hmem
  · exact hword.2.2.1 c hmem
  · exact clean_d32 hmem
  · exact hword.2.2.2.1 c hmem
  · exact hseconds c hmem

/-- The response of `send_result` is taken for one of success. -/
theorem checkResponse_result {info : CString} (hinfo : ∀ c ∈ info.val, jsonClean c = true) {response : CString}
    (hresponse : response.val = (jsonRun garbage 1024 ((resultFields true info).map JsonField.op)).text) :
    checkResponse response = true := by
  have hread : ∀ f ∈ resultFields true info, f.Readable := by
    rw [resultFields]
    refine List.forall_mem_cons.mpr ⟨readable_string (by decide) (by decide), ?_⟩
    split
    · exact List.forall_mem_singleton.mpr (readable_string (by decide) hinfo)
    · exact fun _ hmem => absurd hmem List.not_mem_nil
  have hdocument := jsonDocument_record (resultFields true info)
  have hopen := zbxJsonOpen_jsonRun garbage 1024 (by rw [hdocument]; exact valid_recordMembers hread)
  rw [hdocument] at hopen
  have hfield : fieldOf (resultFields true info) (literal "response") =
      some ⟨literal "response", literal "success", .string⟩ := rfl
  have hlen : ∀ f, fieldOf (resultFields true info) (literal "response") = some f → f.value.val.length < maxStringLen := by
    intro f hf
    obtain rfl := Option.some.inj (hfield.symm.trans hf)
    decide
  have hvalue := zbxJsonValueByName_record hread [] (literal "response") hlen
  rw [hfield] at hvalue
  have hfound : ((zbxJsonOpen response.val).bind fun jp => zbxJsonValueByName jp (literal "response").val maxStringLen) =
      .found (literal "success").val := by
    rw [hresponse, hopen]
    exact hvalue
  rw [checkResponse, hfound]
  decide

/-- **The values of an agent**: of a request of any length, the server processes
the values of each item once each, in order, and with its own clock; it counts
them all, and the agent takes the response for one of success. -/
theorem processNewValues_request (hanswers : Answers config rule proxyHostid items)
    (hnodup : (items.map (·.itemid)).Nodup) (els : List { el : ActiveBufferElement // DeliverableElement el })
    (hfits : ∀ el ∈ els, TermFits config.backend (el.property.trapValue 0).toAgentValue) {clock : Int32}
    (hclock : 0 ≤ clock.toInt) (now : ℤ) {seconds : List UInt8} (hseconds : ∀ c ∈ seconds, jsonClean c = true) :
    ∃ jp s, zbxJsonOpen (jsonRun garbage zbxJsonStatBufLen (requestOps (els.map Subtype.val) clock)).text = .found jp ∧
      jsonString jp (literal "request") maxStringLen = some (some (literal "agent data")) ∧
      processNewValues config proxyHostid now jp = some (s, true) ∧ s.total = els.length ∧
      (∀ item ∈ items, actionsOf s.actions item.itemid =
        massItem config (els.map fun el => el.property.trapValue (now - clock.toInt)) item) ∧
      ∀ response : CString, response.val =
          (jsonRun garbage 1024 ((resultFields true (newValuesInfo s seconds)).map JsonField.op)).text →
        checkResponse response = true := by
  have hmessage := readableMessage_request els clock
  have hdocument := (jsonDocument_message agentDataFields (literal "data")
    (els.map fun el => elementFields el.val)).1 [⟨tagClock, uint64Digits clock.toInt, .int⟩]
  have hops := requestOps_eq (els.map Subtype.val) clock
  rw [List.map_map] at hops
  have hopen := zbxJsonOpen_jsonRun garbage zbxJsonStatBufLen (by rw [hdocument]; exact valid_messageMembers hmessage)
  rw [hdocument] at hopen
  have hclockRead := jsonString_message hmessage [] tagClock (by decide) (f := ⟨_, uint64Digits clock.toInt, .int⟩) rfl
    (length_uint64Digits_lt clock.toInt)
  have hrequest := jsonString_message hmessage [] (literal "request") (by decide)
    (f := ⟨_, literal "agent data", .string⟩) rfl (by decide : _ < maxStringLen)
  obtain ⟨p, t, hp, hbrackets⟩ := zbxJsonPairByName_message hmessage []
  have hbody : ∀ el ∈ els, ∀ s tail,
      newValuesRow config proxyHostid now (now - clock.toInt) s
          (Members.nodeText true (recordMembers (elementFields el.val)) ++ tail) =
        some (s.add config proxyHostid (el.property.trapValue (now - clock.toInt)), true) := by
    intro el _ s tail
    rw [newValuesRow, zbxJsonBracketsOpen_nodeText (valid_recordMembers (readable_elementFields el.property)) tail]
    dsimp only
    rw [parseAgentValue_elementFields el.property]
    rfl
  have hloop := jsonWhile_records (fun el _ => readable_elementFields el.property) t hbody .empty
  rw [← List.foldl_map (f := fun el : { el // DeliverableElement el } => el.property.trapValue (now - clock.toInt))
    (g := fun s v => NewValues.add config proxyHostid s v)] at hloop
  have hvs : ∀ v ∈ els.map (fun el => el.property.trapValue (now - clock.toInt)), TermFits config.backend v.toAgentValue :=
    List.forall_mem_map.mpr hfits
  have htotal := @total_foldl_add config proxyHostid .empty (els.map fun el => el.property.trapValue (now - clock.toInt))
  generalize hs : (els.map fun el => el.property.trapValue (now - clock.toInt)).foldl
    (fun s v => NewValues.add config proxyHostid s v) NewValues.empty = s at hloop htotal
  refine ⟨_, if s.values = [] then s else s.flush config proxyHostid, by rw [hops]; exact hopen, hrequest, ?_, ?_, ?_, ?_⟩
  · rw [processNewValues, hclockRead]
    dsimp only [Option.bind_eq_bind, Option.bind_some, Option.map_some, Option.getD_some]
    rw [hp]
    dsimp only
    rw [hbrackets, atoi_uint64Digits hclock (clock.toInt_lt.trans (by decide)), Int32.ofInt_toInt]
    dsimp only
    rw [hloop]
    rfl
  · rw [List.length_map] at htotal
    dsimp only at htotal
    split
    · next hnil =>
        rw [hnil] at htotal
        exact htotal.trans (Nat.zero_add _)
    · exact htotal.trans (Nat.zero_add _)
  · intro item hitem
    have hstart : InOrder config item .empty [] := ⟨fun _ hmem => absurd hmem List.not_mem_nil, rfl⟩
    have hend := hstart.foldl_add hanswers hnodup hitem hvs
    rw [hs, List.nil_append] at hend
    exact hend.last hanswers hnodup hitem
  · exact fun response hresponse => checkResponse_result (clean_newValuesInfo _ hseconds) hresponse

end

/-! ## a database -/

/-- The literals of a query. -/
def literalsOf (ts : List Token) : List (List UInt8) :=
  ts.filterMap fun
    | .lit s => some s
    | .byte _ => none

/-- Two after two. -/
def inPairs {α : Type} : List α → List (α × α)
  | a :: b :: l => (a, b) :: inPairs l
  | _ => []

/-- A database that goes by the literals of a query. -/
def readQuery (d : Dialect) (items : List TrapItem) (sql : List UInt8) : List TrapItem :=
  match d.lex sql with
  | none => []
  | some ts => items.filter fun item => (inPairs (literalsOf ts)).contains (item.hostName.val, item.keyOrig.val)

theorem literalsOf_append (ts ts' : List Token) : literalsOf (ts ++ ts') = literalsOf ts ++ literalsOf ts' :=
  List.filterMap_append

theorem literalsOf_plain (s : List UInt8) : literalsOf (plain s) = [] :=
  List.filterMap_eq_nil_iff.mpr fun t ht => by
    obtain ⟨c, -, rfl⟩ := List.mem_map.mp ht
    rfl

theorem literalsOf_termTokens (v : AgentValue) : literalsOf (termTokens v) = [v.hostName.val, v.key.val] := by
  have hlit : ∀ value s, literalsOf (.lit value :: plain s) = [value] := fun value s =>
    congrArg (value :: ·) (literalsOf_plain s)
  rw [termTokens, literalsOf_append, literalsOf_append, literalsOf_plain, hlit, hlit]
  rfl

theorem literalsOf_orTokens (values : List AgentValue) :
    literalsOf (orTokens values) = values.flatMap fun v => [v.hostName.val, v.key.val] := by
  fun_induction orTokens values with
  | case1 => rfl
  | case2 v => exact literalsOf_termTokens v
  | case3 v w values ih =>
      rw [literalsOf_append, literalsOf_append, literalsOf_plain, literalsOf_termTokens, ih]
      rfl

theorem inPairs_flatMap (values : List AgentValue) :
    inPairs (values.flatMap fun v => [v.hostName.val, v.key.val]) = values.map fun v => (v.hostName.val, v.key.val) := by
  induction values with
  | nil => rfl
  | cons v values ih => exact congrArg (_ :: ·) ih

/-- It answers every lookup. -/
theorem answers_readQuery (config : TrapperConfig) {rule : UnescapeRule} {proxyHostid : UInt64} {items : List TrapItem}
    (hquery : config.query = readQuery (config.backend.dialect rule) items) : Answers config rule proxyHostid items := by
  intro values sql hreads
  rw [hquery, readQuery, hreads.tokens]
  dsimp only
  rw [lookupTokens, literalsOf_append, literalsOf_append, literalsOf_plain, literalsOf_plain, List.nil_append,
    List.append_nil, literalsOf_orTokens, inPairs_flatMap]
  refine List.Perm.of_eq (List.filter_congr fun item _ => ?_)
  rw [Bool.eq_iff_iff, List.contains_iff_mem, List.any_eq_true, List.mem_map]
  constructor
  · rintro ⟨v, hv, hpair⟩
    obtain ⟨hhost, hkey⟩ := Prod.mk.inj hpair
    exact ⟨v, hv, decide_eq_true ⟨Subtype.ext hhost.symm, Subtype.ext hkey.symm⟩⟩
  · rintro ⟨v, hv, hmatch⟩
    obtain ⟨hhost, hkey⟩ := of_decide_eq_true hmatch
    exact ⟨v, hv, Prod.ext (congrArg Subtype.val hhost.symm) (congrArg Subtype.val hkey.symm)⟩

instance (b : Backend) (v : AgentValue) : Decidable (TermFits b v) := inferInstanceAs (Decidable (_ ∧ _ ∧ _))

/-- A log and a number. -/
def trapItems : List TrapItem :=
  [{ itemid := 7
     hostName := literal "web"
     keyOrig := literal "log[/var/log]"
     key := literal "log[/var/log]"
     type := 7
     valueType := .log
     logtimefmt := literal "yyyy:MM:dd:hh:mm"
     trapperHosts := literal "" },
    { itemid := 8
      hostName := literal "web"
      keyOrig := literal "ping"
      key := literal "ping"
      type := 7
      valueType := .uint64
      logtimefmt := literal ""
      trapperHosts := literal "" }]

def trapConfig : TrapperConfig where
  backend := .mysql
  nodeid := -1
  query := readQuery (Backend.mysql.dialect .itself) trapItems
  mktime _ := 0
  strtod _ _ := 0
  secure _ := true

/-- An element of a log, and one of a number that is none. -/
def trapElements : List { el : ActiveBufferElement // DeliverableElement el } :=
  [⟨⟨literal "web", literal "log[/var/log]", literal "disk \"sda\" full", 0, none, 0, 4096, 500⟩, by
      constructor <;> decide⟩,
    ⟨⟨literal "web", literal "ping", literal "x", 0, none, 0, 0, 501⟩, by constructor <;> decide⟩]

theorem processNewValues_request_web :
    ∃ jp s, zbxJsonOpen (jsonRun (fun _ => 0) zbxJsonStatBufLen
        (requestOps (trapElements.map Subtype.val) 510)).text = .found jp ∧
      jsonString jp (literal "request") maxStringLen = some (some (literal "agent data")) ∧
      processNewValues trapConfig 0 600 jp = some (s, true) ∧ s.total = 2 ∧
      (actionsOf s.actions 7).map MassAction.counts = [true] ∧
      (actionsOf s.actions 8).map MassAction.counts = [false] := by
  have hfits : ∀ el ∈ trapElements, TermFits .mysql (el.property.trapValue 0).toAgentValue := by
    simp only [trapElements, List.forall_mem_cons]
    exact ⟨by decide, by decide, fun _ hmem => absurd hmem List.not_mem_nil⟩
  obtain ⟨jp, s, hopen, hrequest, hrun, htotal, hactions, -⟩ := @processNewValues_request trapConfig .itself 0 trapItems
    (fun _ => 0) (answers_readQuery trapConfig rfl) (by decide) trapElements hfits 510 (by decide) 600 (bytes "0.1")
    (by decide)
  refine ⟨jp, s, hopen, hrequest, hrun, htotal, ?_, ?_⟩
  · rw [hactions _ (List.mem_cons_self ..)]
    decide
  · rw [hactions _ (List.mem_cons_of_mem _ (List.mem_singleton_self _))]
    decide

end Zabbix
