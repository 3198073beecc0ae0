import Zabbix.DbEscape
import Zabbix.Ids.Reserved
import Zabbix.Proxyconfig.Values

/-!
# Zabbix.Discovery.Discoverer

Network discovery on the server (`zabbix_server/discoverer/discoverer.c`).

For each address of a rule the services are checked one after the other.  A host,
and a service of it, is registered when a check finds it up for the first time;
what happens to it afterwards are events, of the object and of its identifier.
What a check comes to is the input here (`CheckResult`), with the time at which it
did; the order of the addresses and of the checks is that of the input.
-/

namespace Zabbix

open Ascii

/-! ## the tables -/

/-- `DOBJECT_STATUS_UP` -/
def dobjectStatusUp : ℤ := 0

/-- `DOBJECT_STATUS_DOWN` -/
def dobjectStatusDown : ℤ := 1

/-- `DOBJECT_STATUS_DISCOVER` -/
def dobjectStatusDiscover : ℤ := 2

/-- `DOBJECT_STATUS_LOST` -/
def dobjectStatusLost : ℤ := 3

/-- `EVENT_OBJECT_DHOST` -/
def eventObjectDhost : ℤ := 1

/-- `EVENT_OBJECT_DSERVICE` -/
def eventObjectDservice : ℤ := 2

/-- `DHOST_IP_LEN`, and `HOST_IP_LEN` and `PROXY_DHISTORY_IP_LEN` -/
def dhostIpLen : ℕ := 39

/-- `DSERVICE_KEY_LEN`, and `ITEM_KEY_LEN` and `PROXY_DHISTORY_KEY_LEN` -/
def dserviceKeyLen : ℕ := 255

/-- `DSERVICE_VALUE_LEN`, and `PROXY_DHISTORY_VALUE_LEN` -/
def dserviceValueLen : ℕ := 255

/-- The text of a column that is only set to what `DBdyn_escape_string_len` makes of
strings, for up to `n` bytes. -/
structure StoredText (n : ℕ) where
  text : CString
  noCr : cr ∉ text.val
  fits : text.val.length ≤ n
deriving DecidableEq

/-- What is stored of a string. -/
def storedText (n : ℕ) (src : CString) : StoredText n where
  text := ⟨(kept src.val).take n, fun h => not_mem_kept src.property (List.mem_of_mem_take h)⟩
  noCr := fun h => by simpa [kept] using List.mem_of_mem_take h
  fits := List.length_take_le ..

/-- The literal is read as what is stored. -/
theorem storedText_literalBody (b : Backend) (rule : UnescapeRule) (n : ℕ) (src : CString) :
    LiteralBody b rule (dbDynEscapeStringLen b src.val n) (storedText n src).text.val :=
  ((escape_readBack b rule src).2.1 n).1

theorem StoredText.ext {n : ℕ} {t t' : StoredText n} (h : t.text = t'.text) : t = t' := by
  cases t
  cases t'
  cases h
  rfl

/-- Storing again changes nothing. -/
@[simp] theorem storedText_text {n : ℕ} (t : StoredText n) : storedText n t.text = t := by
  apply StoredText.ext
  apply Subtype.ext
  change (kept t.text.val).take n = t.text.val
  rw [kept_of_not_mem t.noCr, List.take_of_length_le t.fits]

/-- A row of `dhosts`. -/
structure DhostRow where
  dhostid : ℕ
  druleid : ℕ
  ip : StoredText dhostIpLen
  status : ℤ
  lastup : ℤ
  lastdown : ℤ
deriving DecidableEq

/-- A row of `dservices`. -/
structure DserviceRow where
  dserviceid : ℕ
  dhostid : ℕ
  type : ℤ
  key_ : StoredText dserviceKeyLen
  value : StoredText dserviceValueLen
  port : ℤ
  status : ℤ
  lastup : ℤ
  lastdown : ℤ
deriving DecidableEq

/-- What an event is about. -/
structure DiscoveryEvent where
  object : ℤ
  objectid : ℕ
  value : ℤ
deriving DecidableEq

/-- The tables, and the events that `process_event` was called for, the last one
first.  `hostIds` and `serviceIds` are the last identifiers in the slots that the
cache has for `dhosts.dhostid` and `dservices.dserviceid`. -/
structure Discovery where
  dhosts : List DhostRow
  dservices : List DserviceRow
  hostIds : Option ℕ
  serviceIds : Option ℕ
  events : List DiscoveryEvent
deriving DecidableEq

/-! ## the records of the program -/

/-- `DB_DHOST` -/
structure DbDhost where
  dhostid : ℕ
  druleid : ℕ
  ip : CString
  status : ℤ
  lastup : ℤ
  lastdown : ℤ
deriving DecidableEq

/-- `DB_DSERVICE` -/
structure DbDservice where
  dserviceid : ℕ
  dhostid : ℕ
  type : ℤ
  port : ℤ
  status : ℤ
  lastup : ℤ
  lastdown : ℤ
  value : CString
  key_ : CString
deriving DecidableEq

/-- The fields of `DB_DCHECK` that are looked at behind `discover_service`. -/
structure DbDcheck where
  druleid : ℕ
  type : ℤ
  key_ : CString
  status : ℤ
  value : CString
deriving DecidableEq

/-- The empty string. -/
def emptyString : CString := CString.empty

/-- `memset(&dhost, 0, sizeof(dhost))`, with the rule. -/
def DbDhost.fresh (druleid : ℕ) : DbDhost := ⟨0, druleid, emptyString, 0, 0, 0⟩

/-- `memset(&service, 0, sizeof(service))` -/
def DbDservice.zero : DbDservice := ⟨0, 0, 0, 0, 0, 0, 0, emptyString, emptyString⟩

/-! ## identifiers -/

section

variable {schema : Schema} (nodeid : ℕ) (c : Column schema)

/-- The identifier behind which `DCget_nextid` hands out the next one. -/
def slotLastid (slot : Option ℕ) (column : List ℕ) : ℕ := slot.getD (fillLastid nodeid c column)

/-- `DBget_maxid` for a column that has a slot in the cache, which is left with the
identifier; `none` when the node has no identifier left. -/
def dbGetMaxidCached (slot : Option ℕ) (column : List ℕ) : Option ℕ :=
  if slotLastid nodeid c slot column < c.max nodeid then some (slotLastid nodeid c slot column + 1) else none

/-- It is what `DCget_nextid` hands out, and leaves in the slot. -/
theorem dbGetMaxidCached_of_dcGetNextid {ids ids' : List ZbxDcId} {column : List ℕ} {range : IdRange}
    (hpacked : Packed ids)
    (h : dcGetNextid c.tablename c.fieldname 1 (fillLastid nodeid c column) ids = some (range, ids'))
    (hmax : range.nextid ≤ c.max nodeid) :
    dbGetMaxidCached nodeid c (slotOf c.tablename c.fieldname ids) column = some range.nextid ∧
      slotOf c.tablename c.fieldname ids' = some range.nextid := by
  obtain ⟨rfl, hslot, -⟩ := dcGetNextid_spec c.isName_tablename c.isName_fieldname hpacked h
  exact ⟨if_pos hmax, hslot⟩

/-- A slot in the range of the node that is not below the identifiers in the table. -/
structure SlotKept (slot : Option ℕ) (column : List ℕ) : Prop where
  min_le : ∀ lastid, slot = some lastid → c.min nodeid ≤ lastid
  le_lastid : ∀ lastid, slot = some lastid → ∀ id ∈ column, id ≤ c.max nodeid → id ≤ lastid

variable {nodeid} {c}

theorem SlotKept.le_slotLastid {slot : Option ℕ} {column : List ℕ} (h : SlotKept nodeid c slot column) :
    c.min nodeid ≤ slotLastid nodeid c slot column ∧
      ∀ id ∈ column, id ≤ c.max nodeid → id ≤ slotLastid nodeid c slot column := by
  cases slot with
  | some lastid => exact ⟨h.min_le lastid rfl, h.le_lastid lastid rfl⟩
  | none =>
      obtain ⟨hmin, hle⟩ := le_fillLastid nodeid c column
      refine ⟨hmin, fun id hid hmax => ?_⟩
      by_cases hlow : c.min nodeid ≤ id
      · exact hle id hid hlow hmax
      · exact (Nat.lt_of_not_le hlow).le.trans hmin

/-- The next identifier is new in the table, and the slot is kept. -/
theorem SlotKept.next {slot : Option ℕ} {column : List ℕ} (h : SlotKept nodeid c slot column) {id : ℕ}
    (hid : dbGetMaxidCached nodeid c slot column = some id) :
    id ∉ column ∧ id ≠ 0 ∧ c.min nodeid ≤ id ∧ id ≤ c.max nodeid ∧
      SlotKept nodeid c (some id) (column ++ [id]) := by
  obtain ⟨hmin, hle⟩ := h.le_slotLastid
  rw [dbGetMaxidCached] at hid
  split at hid
  · next hmax =>
    obtain rfl := Option.some.inj hid
    generalize slotLastid nodeid c slot column = lastid at hmin hle hmax
    refine ⟨fun hmem => absurd (hle _ hmem hmax) (by omega), by omega, by omega, hmax, ?_, ?_⟩
    · rintro _ ⟨⟩
      omega
    · rintro _ ⟨⟩ old hold hlow
      rcases List.mem_append.mp hold with hold | hold
      · exact Nat.le_succ_of_le (hle old hold hlow)
      · exact (List.mem_singleton.mp hold).le
  · cases hid

end

/-! ## the functions -/

namespace Discovery

variable (s : Discovery)

/-- `add_event` -/
def addEvent (object : ℤ) (objectid : ℕ) (value : ℤ) : Discovery :=
  { s with events := ⟨object, objectid, value⟩ :: s.events }

/-- `update_dhost` -/
def updateDhost (dhost : DbDhost) : Discovery :=
  { s with
    dhosts := s.dhosts.map fun row =>
      if row.dhostid = dhost.dhostid then
        { row with status := dhost.status, lastup := dhost.lastup, lastdown := dhost.lastdown }
      else row }

/-- `update_dservice` -/
def updateDservice (service : DbDservice) : Discovery :=
  { s with
    dservices := s.dservices.map fun row =>
      if row.dserviceid = service.dserviceid then
        { row with
          status := service.status
          lastup := service.lastup
          lastdown := service.lastdown
          value := storedText dserviceValueLen service.value }
      else row }

/-- `update_dservice_value` -/
def updateDserviceValue (service : DbDservice) : Discovery :=
  { s with
    dservices := s.dservices.map fun row =>
      if row.dserviceid = service.dserviceid then { row with value := storedText dserviceValueLen service.value }
      else row }

/-- The insert into `dhosts`, whose key is unique. -/
def insertDhost (row : DhostRow) : Discovery :=
  if ∃ r ∈ s.dhosts, r.dhostid = row.dhostid then s else { s with dhosts := s.dhosts ++ [row] }

/-- The insert into `dservices`, whose key is unique. -/
def insertDservice (row : DserviceRow) : Discovery :=
  if ∃ r ∈ s.dservices, r.dserviceid = row.dserviceid then s else { s with dservices := s.dservices ++ [row] }

/-- The identifiers in `dhosts`. -/
def dhostids : List ℕ := s.dhosts.map DhostRow.dhostid

/-- The identifiers in `dservices`. -/
def dserviceids : List ℕ := s.dservices.map DserviceRow.dserviceid

end Discovery

/-- The condition of `DBnode_local`. -/
def dbNodeLocal (configNodeid : ℤ) (id : ℕ) : Bool :=
  configNodeid = -1 ∨
    (configNodeid * 100000000000000 ≤ id ∧ (id : ℤ) ≤ configNodeid * 100000000000000 + 99999999999999)

/-- The default of the columns `key_` and `value`. -/
def zeroText : StoredText 255 := ⟨⟨bytes "0", by decide⟩, by decide, by decide⟩

/-- The select of `register_host`. -/
def Discovery.findDhost (configNodeid : ℤ) (s : Discovery) (druleid : ℕ) (ip : StoredText dhostIpLen) :
    Option DhostRow :=
  s.dhosts.find? fun row => row.druleid = druleid ∧ row.ip = ip ∧ dbNodeLocal configNodeid row.dhostid

/-- The select of `register_service`. -/
def Discovery.findDservice (s : Discovery) (dhostid : ℕ) (type port : ℤ) (key : StoredText dserviceKeyLen) :
    Option DserviceRow :=
  s.dservices.find? fun row => row.dhostid = dhostid ∧ row.type = type ∧ row.port = port ∧ row.key_ = key

variable {schema : Schema} (configNodeid : ℤ) (ch cs : Column schema)

/-- `register_host`; `none` when the node has no identifier left. -/
def registerHost (s : Discovery) (dhost : DbDhost) (ip : CString) (status : ℤ) : Option (Discovery × DbDhost) :=
  match s.findDhost configNodeid dhost.druleid (storedText dhostIpLen ip) with
  | none =>
      if status = dobjectStatusUp then
        (dbGetMaxidCached (nodeOf configNodeid) ch s.hostIds s.dhostids).map fun dhostid =>
          -- the insert leaves the columns `status`, `lastup` and `lastdown` out
          ({ s with hostIds := some dhostid }.insertDhost
              ⟨dhostid, dhost.druleid, storedText dhostIpLen ip, 0, 0, 0⟩,
            { dhost with
              dhostid := dhostid
              status := dobjectStatusDown
              ip := strlcpyString ip (dhostIpLen + 1) })
      else some (s, dhost)
  | some row =>
      some (s,
        { dhost with
          dhostid := row.dhostid
          status := row.status
          lastup := row.lastup
          lastdown := row.lastdown
          ip := strlcpyString row.ip.text (dhostIpLen + 1) })

/-- `register_service`, without the address, which is only logged; `none` when the
node has no identifier left. -/
def registerService (s : Discovery) (service : DbDservice) (port status : ℤ) : Option (Discovery × DbDservice) :=
  match s.findDservice service.dhostid service.type port (storedText dserviceKeyLen service.key_) with
  | none =>
      if status = dobjectStatusUp then
        (dbGetMaxidCached (nodeOf configNodeid) cs s.serviceIds s.dserviceids).map fun dserviceid =>
          ({ s with serviceIds := some dserviceid }.insertDservice
              ⟨dserviceid, service.dhostid, service.type, storedText dserviceKeyLen service.key_, zeroText, port,
                dobjectStatusDown, 0, 0⟩,
            { service with dserviceid := dserviceid, port := port, status := dobjectStatusDown })
      else some (s, service)
  | some row =>
      some (s,
        { service with
          dserviceid := row.dserviceid
          port := port
          status := row.status
          lastup := row.lastup
          lastdown := row.lastdown
          value := strlcpyString row.value.text (dserviceValueLen + 1) })

/-- `update_service_status` -/
def updateServiceStatus (s : Discovery) (service : DbDservice) (check : DbDcheck) (now : ℤ) : Discovery :=
  let s :=
    if check.status = dobjectStatusUp then
      if service.status = dobjectStatusDown ∨ service.lastup = 0 then
        (s.updateDservice
            { service with status := check.status, lastdown := 0, lastup := now, value := check.value }).addEvent
          eventObjectDservice service.dserviceid dobjectStatusDiscover
      else if service.value ≠ check.value then s.updateDserviceValue { service with value := check.value }
      else s
    else if service.status = dobjectStatusUp ∨ service.lastdown = 0 then
      (s.updateDservice { service with status := check.status, lastdown := now, lastup := 0 }).addEvent
        eventObjectDservice service.dserviceid dobjectStatusLost
    else s
  s.addEvent eventObjectDservice service.dserviceid check.status

/-- `update_host_status` -/
def updateHostStatus (s : Discovery) (dhost : DbDhost) (status now : ℤ) : Discovery :=
  let s :=
    if status = dobjectStatusUp then
      if dhost.status = dobjectStatusDown ∨ dhost.lastup = 0 then
        (s.updateDhost { dhost with status := status, lastdown := 0, lastup := now }).addEvent
          eventObjectDhost dhost.dhostid dobjectStatusDiscover
      else s
    else if dhost.status = dobjectStatusUp ∨ dhost.lastdown = 0 then
      (s.updateDhost { dhost with status := status, lastdown := now, lastup := 0 }).addEvent
        eventObjectDhost dhost.dhostid dobjectStatusLost
    else s
  s.addEvent eventObjectDhost dhost.dhostid status

/-- The service of a check, in front of `register_service`. -/
def serviceOf (dhostid : ℕ) (check : DbDcheck) : DbDservice :=
  { DbDservice.zero with
    dhostid := dhostid
    type := check.type
    key_ := strlcpyString check.key_ (dserviceKeyLen + 1) }

/-- `update_service` -/
def updateService (s : Discovery) (dhost : DbDhost) (check : DbDcheck) (ip : CString) (port now : ℤ) :
    Option (Discovery × DbDhost) := do
  let (s, dhost) ←
    if dhost.dhostid = 0 then registerHost configNodeid ch s dhost ip check.status else some (s, dhost)
  let (s, service) ←
    if dhost.dhostid > 0 then registerService configNodeid cs s (serviceOf dhost.dhostid check) port check.status
    else some (s, DbDservice.zero)
  if service.dserviceid = 0 then some (s, dhost) else some (updateServiceStatus s service check now, dhost)

/-! ## a rule -/

/-- A byte of an address. -/
def isIpByte (c : UInt8) : Bool := (48 ≤ c ∧ c ≤ 58) ∨ (97 ≤ c ∧ c ≤ 102) ∨ (65 ≤ c ∧ c ≤ 70) ∨ c = 46

/-- An address, as `process_rule` prints it. -/
structure IpText where
  text : CString
  fits : text.val.length ≤ dhostIpLen
  chars : ∀ c ∈ text.val, isIpByte c = true
deriving DecidableEq

/-- What `discover_service` comes to for one port of a check, and when. -/
structure CheckResult where
  type : ℕ
  key_ : CString
  value : CString
  port : ℤ
  up : Bool
  now : ℤ
deriving DecidableEq

/-- The results for an address, and the time before the first one. -/
structure AddressVisit where
  druleid : ℕ
  ip : IpText
  now : ℤ
  checks : List CheckResult
deriving DecidableEq

/-- `check->status` -/
def CheckResult.status (r : CheckResult) : ℤ := if r.up then dobjectStatusUp else dobjectStatusDown

/-- The check that is updated. -/
def CheckResult.check (r : CheckResult) (druleid : ℕ) : DbDcheck := ⟨druleid, r.type, r.key_, r.status, r.value⟩

/-- `*host_status` after a check. -/
def nextHostStatus (hostStatus : ℤ) (r : CheckResult) : ℤ :=
  if hostStatus = -1 ∨ r.status = dobjectStatusUp then r.status else hostStatus

/-- The round of the loop of `process_check`, on the server. -/
def processCheck (druleid : ℕ) (ip : IpText) (st : Discovery × DbDhost × ℤ) (r : CheckResult) :
    Option (Discovery × DbDhost × ℤ) :=
  (updateService configNodeid ch cs st.1 st.2.1 (r.check druleid) ip.text r.port r.now).map fun (s, dhost) =>
    (s, dhost, nextHostStatus st.2.2 r)

/-- The round of the loop of `process_rule`, on the server. -/
def processAddress (s : Discovery) (visit : AddressVisit) : Option Discovery :=
  (visit.checks.foldlM (processCheck configNodeid ch cs visit.druleid visit.ip)
      (s, DbDhost.fresh visit.druleid, -1)).map fun (s, dhost, hostStatus) =>
    if dhost.dhostid = 0 then s else updateHostStatus s dhost hostStatus visit.now

/-- Addresses one after the other, of any rules. -/
def processRules (s : Discovery) (visits : List AddressVisit) : Option Discovery :=
  visits.foldlM (processAddress configNodeid ch cs) s

end Zabbix
