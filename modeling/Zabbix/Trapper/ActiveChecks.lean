import Zabbix.Agent.Metrics

/-!
# Zabbix.Trapper.ActiveChecks

How an agent gets its active checks: the request of `refresh_active_checks`
(`zabbix_agent/active.c`), the answer of `send_list_of_active_checks_json`
(`zabbix_server/trapper/active.c`), and what `parse_list_of_checks` makes of it.

Macros in the key of an item are expanded on the server; the agent keeps both
keys.
-/

namespace Zabbix

open Ascii

/-! ## the server -/

/-- The columns of `hosts` that the selects look at. -/
structure CheckHostRow where
  hostid : ℕ
  host : CString
  status : ℤ
  proxyHostid : ℕ
deriving DecidableEq

/-- The columns of `items` that the select looks at, and those that are sent. -/
structure CheckItemRow where
  hostid : ℕ
  type : ℤ
  status : ℤ
  nextcheck : ℤ
  key : CString
  delay : Int32
  lastlogsize : Int32
deriving DecidableEq

/-- The database of the server; `isLocal` is `DBnode_local`. -/
structure CheckDb where
  hosts : List CheckHostRow
  items : List CheckItemRow
  isLocal : ℕ → Bool

/-- `get_hostid_by_host` -/
def getHostidByHost (db : CheckDb) (host : CString) : Option ℕ :=
  (db.hosts.find? fun h => h.host = host ∧ db.isLocal h.hostid).map (·.hostid)

/-- The select of `send_list_of_active_checks_json`: the type is
`ITEM_TYPE_ZABBIX_ACTIVE`, the statuses are `HOST_STATUS_MONITORED`,
`ITEM_STATUS_ACTIVE` and `ITEM_STATUS_NOTSUPPORTED`. -/
def activeCheckItems (db : CheckDb) (refreshUnsupported now : ℤ) (hostid : ℕ) : List CheckItemRow :=
  db.items.filter fun i =>
    i.hostid = hostid ∧ i.type = 7 ∧
      (db.hosts.any fun h => h.hostid = hostid ∧ h.status = 0 ∧ h.proxyHostid = 0) ∧
      (i.status = 0 ∨ refreshUnsupported ≠ 0 ∧ i.status = 3 ∧ i.nextcheck ≤ now)

/-- `item.key`, with the macros of the key expanded, and the object of an item. -/
def checkFields (expandKey : CheckItemRow → CString) (item : CheckItemRow) : List JsonField :=
  [⟨literal "key", expandKey item, .string⟩] ++
    (if expandKey item ≠ item.key then [⟨literal "key_orig", item.key, .string⟩] else []) ++
    [⟨literal "delay", d32Text item.delay, .string⟩, ⟨literal "lastlogsize", d32Text item.lastlogsize, .string⟩]

/-- The text of the error. -/
def hostNotFound (host : CString) : CString :=
  ⟨zbxVsnprintf maxStringLen (bytes "host [" ++ (host.val ++ bytes "] not found")), by
    intro h
    have hmem := List.mem_of_mem_take h
    rw [List.mem_append, List.mem_append] at hmem
    rcases hmem with hmem | hmem | hmem
    · exact absurd hmem (by decide)
    · exact host.property hmem
    · exact absurd hmem (by decide)⟩

/-- The answer to a request that fails. -/
def failedFields (error : CString) : List JsonField :=
  [⟨literal "response", literal "failed", .string⟩, ⟨literal "info", error, .string⟩]

/-- The fields in front of the list. -/
def successFields : List JsonField := [⟨literal "response", literal "success", .string⟩]

/-- `send_list_of_active_checks_json`: the calls that make the answer;
`strerror` is the message about a request without a host. -/
def sendListOfActiveChecksJson (db : CheckDb) (expandKey : CheckItemRow → CString) (refreshUnsupported now : ℤ)
    (strerror : CString) (jp : ZbxJsonParse) : Option (List JsonOp) :=
  (jsonString jp (literal "host") maxStringLen).map fun host =>
    match host with
    | none => (failedFields strerror).map JsonField.op
    | some host =>
        match getHostidByHost db host with
        | none => (failedFields (hostNotFound host)).map JsonField.op
        | some hostid =>
            successFields.map JsonField.op ++ .addarray (some (literal "data")) ::
              ((activeCheckItems db refreshUnsupported now hostid).map (checkFields expandKey)).flatMap recordOps

/-! ## the exchange -/

/-- The request of `refresh_active_checks`. -/
def activeChecksRequest (hostname : CString) : List JsonField :=
  [⟨literal "request", literal "active checks", .string⟩, ⟨literal "host", hostname, .string⟩]

/-- The check that the agent is to have of an item. -/
def CheckItemRow.check (expandKey : CheckItemRow → CString) (item : CheckItemRow) : ActiveCheck :=
  { key := expandKey item
    keyOrig := if item.key.val = [] then expandKey item else item.key
    refresh := item.delay
    lastlogsize := item.lastlogsize }

/-- The checks that the agent of a host is to have. -/
def listedChecks (db : CheckDb) (expandKey : CheckItemRow → CString) (refreshUnsupported now : ℤ)
    (hostname : CString) : List ActiveCheck :=
  match getHostidByHost db hostname with
  | none => []
  | some hostid =>
      ((activeCheckItems db refreshUnsupported now hostid).map (CheckItemRow.check expandKey)).filter
        fun c => c.key.val ≠ []

/-- `refresh_active_checks`, with the server at the other end: the texts of the
request and of the answer are what is in the buffers of the builder. -/
def refreshActiveChecks (garbage : Mem) (db : CheckDb) (expandKey : CheckItemRow → CString)
    (refreshUnsupported now : ℤ) (strerror : CString) (hostname : CString) (m : ActiveMetrics) :
    Option ActiveMetrics :=
  match zbxJsonOpen (jsonRun garbage zbxJsonStatBufLen ((activeChecksRequest hostname).map JsonField.op)).text with
  | .found jp =>
      (sendListOfActiveChecksJson db expandKey refreshUnsupported now strerror jp).bind fun ops =>
        parseListOfChecks m (jsonRun garbage zbxJsonStatBufLen ops).text
  | .null => some m
  | .overrun => none

/-! ## what arrives -/

theorem readable_activeChecksRequest {hostname : CString} (h : Transferable hostname) :
    ∀ f ∈ activeChecksRequest hostname, f.Readable := by
  intro f hf
  rcases List.mem_cons.mp hf with rfl | hf
  · exact readable_string (by decide) (by decide)
  · obtain rfl := List.mem_singleton.mp hf
    exact readable_string (by decide) h.2

theorem clean_d32Text (n : Int32) : ∀ c ∈ (d32Text n).val, jsonClean c = true := fun _ h => clean_d32 h

theorem length_d32Text_lt (n : Int32) : (d32Text n).val.length < maxStringLen :=
  (Printf.length_d32_le n).trans_lt (by decide)

theorem d32Text_ne_nil (n : Int32) : (d32Text n).val ≠ [] := by
  change Printf.d32 n ≠ []
  rw [Printf.d32]
  split
  · exact List.cons_ne_nil _ _
  · exact dec_ne_nil _

section

variable {expandKey : CheckItemRow → CString} {item : CheckItemRow}

theorem readable_checkFields (hkey : Transferable (expandKey item)) (horig : Transferable item.key) :
    ∀ f ∈ checkFields expandKey item, f.Readable := by
  have hname : ∀ name ∈ [literal "key", literal "key_orig", literal "delay", literal "lastlogsize"],
      Transferable name := by decide
  simp only [List.forall_mem_cons] at hname
  intro f hf
  rw [checkFields, List.mem_append, List.mem_append, List.mem_singleton] at hf
  rcases hf with (rfl | hf) | hf
  · exact readable_string hname.1 hkey.2
  · split at hf
    · obtain rfl := List.mem_singleton.mp hf
      exact readable_string hname.2.1 horig.2
    · cases hf
  · rcases List.mem_cons.mp hf with rfl | hf
    · exact readable_string hname.2.2.1 (clean_d32Text _)
    · obtain rfl := List.mem_singleton.mp hf
      exact readable_string hname.2.2.2.1 (clean_d32Text _)

/-- The object of an item comes to a call of `add_check`. -/
theorem parseCheckRow_checkFields (hkey : Transferable (expandKey item)) (horig : Transferable item.key)
    (m : ActiveMetrics) (tail : Ptr) :
    parseCheckRow m (nodeRange true (recordMembers (checkFields expandKey item)) tail) =
      some (if (expandKey item).val = [] then m else m.addCheck (item.check expandKey)) := by
  have hread := readable_checkFields hkey horig
  have hfield : ∀ name f, fieldOf (checkFields expandKey item) name = some f → f.value.val.length < maxStringLen := by
    intro name f hf
    have hmem := List.mem_of_find?_eq_some hf
    rw [checkFields, List.mem_append, List.mem_append, List.mem_singleton] at hmem
    rcases hmem with (rfl | hmem) | hmem
    · exact hkey.1
    · split at hmem
      · obtain rfl := List.mem_singleton.mp hmem
        exact horig.1
      · cases hmem
    · rcases List.mem_cons.mp hmem with rfl | hmem
      · exact length_d32Text_lt _
      · obtain rfl := List.mem_singleton.mp hmem
        exact length_d32Text_lt _
  have hstring := fun name => jsonString_record hread tail name (hfield name)
  have hkeyField : fieldOf (checkFields expandKey item) (literal "key") =
      some ⟨literal "key", expandKey item, .string⟩ := rfl
  have hdelay : fieldOf (checkFields expandKey item) (literal "delay") =
      some ⟨literal "delay", d32Text item.delay, .string⟩ := by
    rw [checkFields]
    split <;> rfl
  have hlog : fieldOf (checkFields expandKey item) (literal "lastlogsize") =
      some ⟨literal "lastlogsize", d32Text item.lastlogsize, .string⟩ := by
    rw [checkFields]
    split <;> rfl
  have horigField : (fieldOf (checkFields expandKey item) (literal "key_orig")).map (·.value) =
      if expandKey item ≠ item.key then some item.key else none := by
    rw [checkFields]
    split <;> rfl
  have hdelayRead : atoi (d32Text item.delay).val = item.delay := atoi_d32 _
  have hlogRead : atoi (d32Text item.lastlogsize).val = item.lastlogsize := atoi_d32 _
  rw [parseCheckRow, hstring, hstring, hstring, hstring, hkeyField, hdelay, hlog, horigField]
  dsimp only [Option.map_some]
  rw [hdelayRead, hlogRead]
  by_cases hnil : (expandKey item).val = []
  · rw [if_neg (fun h => h.1 hnil), if_pos hnil]
  · rw [if_pos ⟨hnil, d32Text_ne_nil _, d32Text_ne_nil _⟩, if_neg hnil]
    have hsame : ((if expandKey item ≠ item.key then some item.key else none).filter
        (fun s : CString => s.val ≠ [])).getD (expandKey item) =
        if item.key.val = [] then expandKey item else item.key := by
      by_cases hkeys : expandKey item = item.key
      · rw [if_neg (not_not.mpr hkeys), if_neg (hkeys ▸ hnil), hkeys]
        rfl
      · rw [if_pos hkeys]
        by_cases hempty : item.key.val = [] <;> simp [Option.filter, hempty]
    rw [hsame]
    rfl

end

variable {garbage : Mem} {db : CheckDb} {expandKey : CheckItemRow → CString} {refreshUnsupported now : ℤ}
  {strerror hostname : CString}

/-- The loop over the items that are sent. -/
theorem foldl_checks (m : ActiveMetrics) (items : List CheckItemRow) :
    items.foldl (fun m item => if (expandKey item).val = [] then m else m.addCheck (item.check expandKey)) m =
      m.addChecks ((items.map (CheckItemRow.check expandKey)).filter fun c => c.key.val ≠ []) := by
  induction items generalizing m with
  | nil => rfl
  | cons item items ih =>
      rw [List.foldl_cons, List.map_cons, ih]
      by_cases hnil : (item.check expandKey).key.val = []
      · rw [List.filter_cons_of_neg (by simpa using hnil)]
        exact congrArg (ActiveMetrics.addChecks · _) (if_pos hnil)
      · rw [List.filter_cons_of_pos (by simpa using hnil)]
        exact congrArg (ActiveMetrics.addChecks · _) (if_neg hnil)

/-- The answer with a list. -/
theorem parseListOfChecks_success {items : List CheckItemRow}
    (hitems : ∀ item ∈ items, Transferable (expandKey item) ∧ Transferable item.key) (m : ActiveMetrics) :
    parseListOfChecks m (jsonRun garbage zbxJsonStatBufLen (successFields.map JsonField.op ++
        .addarray (some (literal "data")) :: (items.map (checkFields expandKey)).flatMap recordOps)).text =
      some (m.disableAll.addChecks
        ((items.map (CheckItemRow.check expandKey)).filter fun c => c.key.val ≠ [])) := by
  have hmessage : ReadableMessage successFields (literal "data") (items.map (checkFields expandKey)) [] := by
    refine ⟨?_, List.forall_mem_map.mpr fun item hitem => ?_, by simp, by decide, by decide, by decide⟩
    · intro f hf
      obtain rfl := List.mem_singleton.mp hf
      exact readable_string (by decide) (by decide)
    · exact readable_checkFields (hitems item hitem).1 (hitems item hitem).2
  have hdocument := (jsonDocument_message successFields (literal "data") (items.map (checkFields expandKey))).2
  have hopen := zbxJsonOpen_jsonRun garbage zbxJsonStatBufLen (by rw [hdocument]; exact valid_messageMembers hmessage)
  rw [hdocument] at hopen
  have hresponse := jsonString_message hmessage [] (literal "response") (by decide)
    (f := ⟨_, literal "success", .string⟩) rfl (by decide : _ < maxStringLen)
  obtain ⟨p, t, hp, hbrackets⟩ := zbxJsonPairByName_message hmessage []
  rw [parseListOfChecks, hopen]
  dsimp only
  rw [hresponse]
  dsimp only
  rw [if_neg (by simp), hp]
  dsimp only
  rw [hbrackets]
  dsimp only
  have hbody : ∀ item ∈ items, ∀ m tail,
      parseCheck m (Members.nodeText true (recordMembers (checkFields expandKey item)) ++ tail) =
        some (if (expandKey item).val = [] then m else m.addCheck (item.check expandKey), true) := by
    intro item hitem m tail
    have hread := readable_checkFields (hitems item hitem).1 (hitems item hitem).2
    rw [parseCheck, zbxJsonBracketsOpen_nodeText (valid_recordMembers hread) tail]
    dsimp only
    rw [parseCheckRow_checkFields (hitems item hitem).1 (hitems item hitem).2]
    rfl
  have hrows : ∀ item ∈ items, ∀ f ∈ checkFields expandKey item, f.Readable :=
    fun item hitem => readable_checkFields (hitems item hitem).1 (hitems item hitem).2
  rw [jsonWhile_records hrows t hbody m.disableAll, foldl_checks]
  rfl

/-- The answer without a list. -/
theorem parseListOfChecks_failed {error : CString} (herror : Transferable error) (m : ActiveMetrics) :
    parseListOfChecks m (jsonRun garbage zbxJsonStatBufLen ((failedFields error).map JsonField.op)).text =
      some m.disableAll := by
  have hread : ∀ f ∈ failedFields error, f.Readable := by
    intro f hf
    rcases List.mem_cons.mp hf with rfl | hf
    · exact readable_string (by decide) (by decide)
    · obtain rfl := List.mem_singleton.mp hf
      exact readable_string (by decide) herror.2
  have hdocument := jsonDocument_record (failedFields error)
  have hopen := zbxJsonOpen_jsonRun garbage zbxJsonStatBufLen (by rw [hdocument]; exact valid_recordMembers hread)
  rw [hdocument] at hopen
  have hlen : ∀ name f, fieldOf (failedFields error) name = some f → f.value.val.length < maxStringLen := by
    intro name f hf
    rcases List.mem_cons.mp (List.mem_of_find?_eq_some hf) with rfl | hmem
    · decide
    · obtain rfl := List.mem_singleton.mp hmem
      exact herror.1
  have hstring := fun name => jsonString_record hread [] name (hlen name)
  have hresponse : fieldOf (failedFields error) (literal "response") =
      some ⟨literal "response", literal "failed", .string⟩ := rfl
  rw [parseListOfChecks, hopen]
  dsimp only
  rw [hstring, hstring, hresponse]
  dsimp only [Option.map_some]
  rw [if_pos (by decide)]

theorem transferable_hostNotFound (h : Transferable hostname) : Transferable (hostNotFound hostname) := by
  refine ⟨(List.length_take_le _ _).trans_lt (by decide), fun c hc => ?_⟩
  have hmem := List.mem_of_mem_take hc
  rw [List.mem_append, List.mem_append] at hmem
  have hfront : ∀ c ∈ bytes "host [", jsonClean c = true := by decide
  have hback : ∀ c ∈ bytes "] not found", jsonClean c = true := by decide
  rcases hmem with hmem | hmem | hmem
  · exact hfront c hmem
  · exact h.2 c hmem
  · exact hback c hmem

/-- What the server makes of the request. -/
theorem sendListOfActiveChecksJson_request (h : Transferable hostname) :
    sendListOfActiveChecksJson db expandKey refreshUnsupported now strerror
        (nodeRange true (recordMembers (activeChecksRequest hostname)) []) =
      some (match getHostidByHost db hostname with
        | none => (failedFields (hostNotFound hostname)).map JsonField.op
        | some hostid => successFields.map JsonField.op ++ .addarray (some (literal "data")) ::
            ((activeCheckItems db refreshUnsupported now hostid).map (checkFields expandKey)).flatMap recordOps) := by
  have hread : ∀ f ∈ activeChecksRequest hostname, f.Readable := readable_activeChecksRequest h
  have hhost : jsonString (nodeRange true (recordMembers (activeChecksRequest hostname)) []) (literal "host")
      maxStringLen = some (some hostname) :=
    jsonString_record hread [] (literal "host") fun f hf => by
      obtain rfl := Option.some.inj hf
      exact h.1
  rw [sendListOfActiveChecksJson, hhost]
  rfl

/-- The list of the agent is made again from what the server has. -/
theorem refreshActiveChecks_eq (hhost : Transferable hostname)
    (hitems : ∀ item ∈ db.items, Transferable (expandKey item) ∧ Transferable item.key) (m : ActiveMetrics) :
    refreshActiveChecks garbage db expandKey refreshUnsupported now strerror hostname m =
      some (m.disableAll.addChecks (listedChecks db expandKey refreshUnsupported now hostname)) := by
  have hdocument := jsonDocument_record (activeChecksRequest hostname)
  have hopen := zbxJsonOpen_jsonRun garbage zbxJsonStatBufLen
    (by rw [hdocument]; exact valid_recordMembers (readable_activeChecksRequest hhost))
  rw [hdocument] at hopen
  rw [refreshActiveChecks, hopen]
  dsimp only
  rw [sendListOfActiveChecksJson_request hhost, Option.bind_some, listedChecks]
  cases getHostidByHost db hostname with
  | none => exact parseListOfChecks_failed (transferable_hostNotFound hhost) m
  | some hostid => exact parseListOfChecks_success (fun item hitem => hitems item (List.mem_filter.mp hitem).1) m

/-- **What an agent checks** after it has asked for its active checks: the
metric of a key is that of the items that the server has for the key, and
disabled when there are none; metrics stay where they are. -/
theorem refreshActiveChecks_find (hhost : Transferable hostname)
    (hitems : ∀ item ∈ db.items, Transferable (expandKey item) ∧ Transferable item.key) (m : ActiveMetrics) :
    ∃ m', refreshActiveChecks garbage db expandKey refreshUnsupported now strerror hostname m = some m' ∧
      m.keys <+: m'.keys ∧
      ∀ key, m'.find key = listedMetric ((m.find key).map fun x => { x with status := .notsupported })
        (checksOf (listedChecks db expandKey refreshUnsupported now hostname) key) := by
  refine ⟨_, refreshActiveChecks_eq hhost hitems m, ?_, fun key => find_refreshed m _ key⟩
  have hkeys : m.disableAll.keys = m.keys := List.map_map
  exact hkeys ▸ keys_addChecks m.disableAll _

/-- A host with a log that is listed with another refresh interval, and with the
macro of a key expanded. -/
def webDb : CheckDb where
  hosts := [⟨10, literal "web", 0, 0⟩]
  items :=
    [⟨10, 7, 0, 0, literal "log[/var/log]", 30, 0⟩, ⟨10, 7, 0, 0, literal "ping[\x7bIP\x7d]", 60, 0⟩,
      ⟨10, 0, 0, 0, literal "agent.ping", 60, 0⟩]
  isLocal := fun _ => true

/-- The keys of its items. -/
def webKey (item : CheckItemRow) : CString :=
  if item.key = literal "ping[\x7bIP\x7d]" then literal "ping[10.0.0.1]" else item.key

/-- The agent of the host has read some of the log, and has a metric that is not
listed any more. -/
def webMetrics : ActiveMetrics where
  metrics :=
    [⟨literal "log[/var/log]", literal "log[/var/log]", 60, 500, .active, 4096⟩,
      ⟨literal "vfs.old", literal "vfs.old", 60, 500, .active, 0⟩]
  nodup := by decide

theorem refreshActiveChecks_find_web :
    ∃ m', refreshActiveChecks (fun _ => 0) webDb webKey 0 450 (literal "") (literal "web") webMetrics = some m' ∧
      m'.find (literal "log[/var/log]") =
        some ⟨literal "log[/var/log]", literal "log[/var/log]", 30, 0, .active, 4096⟩ ∧
      m'.find (literal "ping[10.0.0.1]") =
        some ⟨literal "ping[10.0.0.1]", literal "ping[\x7bIP\x7d]", 60, 0, .active, 0⟩ ∧
      m'.find (literal "vfs.old") = some ⟨literal "vfs.old", literal "vfs.old", 60, 500, .notsupported, 0⟩ ∧
      m'.find (literal "agent.ping") = none := by
  have hhost : Transferable (literal "web") := by decide
  have hitems : ∀ item ∈ webDb.items, Transferable (webKey item) ∧ Transferable item.key := by decide
  obtain ⟨m', hrefresh, -, hfind⟩ := refreshActiveChecks_find hhost hitems webMetrics
  exact ⟨m', hrefresh, (hfind _).trans (by decide), (hfind _).trans (by decide), (hfind _).trans (by decide),
    (hfind _).trans (by decide)⟩

end Zabbix
