import Zabbix.Discovery.Proxy

/-!
# Zabbix.Discovery.Replay

Discovery through a proxy against direct discovery.

The server's own loop remembers the host of an address from one check to the next;
a replay looks it up for every record.  Both come to the same, as long as there is a
host in the end (`Follows`): only for an address where none has been registered the
replay goes on where the loop stops, with the identifier 0.
-/

namespace Zabbix

open Ascii

/-! ## texts -/

theorem receivedText_of_clean {len : ℕ} {s : CString} (hlen : s.val.length < len)
    (h : ∀ c ∈ s.val, jsonClean c = true) : receivedText len s = s := by
  apply Subtype.ext
  rw [receivedText, decoded_of_clean h, List.take_of_length_le (le_roomOf hlen), bufferString_val s.property]

theorem strlcpyString_of_lt {siz : ℕ} {s : CString} (h : s.val.length < siz) : strlcpyString s siz = s :=
  Subtype.ext (List.take_of_length_le (Nat.le_sub_one_of_lt h))

theorem storedText_of_fits {n : ℕ} {s : CString} (hcr : cr ∉ s.val) (hfits : s.val.length ≤ n) :
    (storedText n s).text = s := by
  apply Subtype.ext
  change (kept s.val).take n = s.val
  rw [kept_of_not_mem hcr, List.take_of_length_le hfits]

/-- An address comes as it is through all columns and buffers. -/
theorem IpText.stored (ip : IpText) : (storedText dhostIpLen ip.text).text = ip.text := by
  refine storedText_of_fits (fun hcr => ?_) ip.fits
  exact absurd (ip.chars cr hcr) (by decide)

theorem IpText.received (ip : IpText) :
    receivedText (dhostIpLen + 1) (storedText dhostIpLen ip.text).text = ip.text := by
  have hclean : ∀ c : UInt8, isIpByte c = true → jsonClean c = true := forall_byte (by decide +kernel)
  rw [ip.stored]
  exact receivedText_of_clean (Nat.lt_succ_of_le ip.fits) fun c hc => hclean c (ip.chars c hc)

/-- A key that is cut nowhere but at its end, and that is read as it was sent. -/
structure KeyIntact (key : CString) : Prop where
  short : cr ∈ key.val → key.val.length ≤ dserviceKeyLen
  clean : ∀ c ∈ (storedText dserviceKeyLen key).text.val, jsonClean c = true

/-- The key that a service is looked up by is the same for a replayed record. -/
theorem KeyIntact.received {key : CString} (h : KeyIntact key) :
    storedText dserviceKeyLen (strlcpyString (receivedText (dserviceKeyLen + 1)
        (storedText dserviceKeyLen key).text) (dserviceKeyLen + 1)) =
      storedText dserviceKeyLen (strlcpyString key (dserviceKeyLen + 1)) := by
  have hfits := Nat.lt_succ_of_le (storedText dserviceKeyLen key).fits
  rw [receivedText_of_clean hfits h.clean, strlcpyString_of_lt hfits, storedText_text]
  apply StoredText.ext
  apply Subtype.ext
  change (kept key.val).take dserviceKeyLen = (kept (key.val.take dserviceKeyLen)).take dserviceKeyLen
  by_cases hcr : cr ∈ key.val
  · rw [List.take_of_length_le (h.short hcr)]
  · rw [kept_of_not_mem hcr, kept_of_not_mem fun hmem => hcr (List.mem_of_mem_take hmem), List.take_take, min_self]

/-- A value that is read as it was sent. -/
def ValueIntact (value : CString) : Prop := ∀ c ∈ (storedText dserviceValueLen value).text.val, jsonClean c = true

theorem ValueIntact.received {value : CString} (h : ValueIntact value) :
    receivedText (dserviceValueLen + 1) (storedText dserviceValueLen value).text =
      (storedText dserviceValueLen value).text :=
  receivedText_of_clean (Nat.lt_succ_of_le (storedText dserviceValueLen value).fits) h

/-! ## the state -/

section

variable {schema : Schema} {configNodeid : ℤ} {ch cs : Column schema}

/-- What holds of the tables: hosts have identifiers, which are not above the slot
of the cache; the key of `dservices` is unique; and events have an object. -/
structure Discovery.Sound (configNodeid : ℤ) (ch : Column schema) (s : Discovery) : Prop where
  hosts : ∀ row ∈ s.dhosts, row.dhostid ≠ 0
  hostIds : SlotKept (nodeOf configNodeid) ch s.hostIds s.dhostids
  serviceKey : s.dserviceids.Nodup
  events : ∀ e ∈ s.events, e.objectid ≠ 0

variable {s s' : Discovery}

theorem Discovery.Sound.addEvent (h : s.Sound configNodeid ch) {object value : ℤ} {objectid : ℕ} (hid : objectid ≠ 0) :
    (s.addEvent object objectid value).Sound configNodeid ch where
  hosts := h.hosts
  hostIds := h.hostIds
  serviceKey := h.serviceKey
  events := fun e he => by
    rcases List.mem_cons.mp he with rfl | he
    · exact hid
    · exact h.events e he

theorem dhostids_updateDhost (s : Discovery) (dhost : DbDhost) : (s.updateDhost dhost).dhostids = s.dhostids := by
  rw [Discovery.dhostids, Discovery.updateDhost, List.map_map]
  refine List.map_congr_left fun row _ => ?_
  simp only [Function.comp_apply]
  split <;> rfl

theorem Discovery.Sound.updateDhost (h : s.Sound configNodeid ch) (dhost : DbDhost) :
    (s.updateDhost dhost).Sound configNodeid ch where
  hosts := by
    intro row hrow
    have hmem : row.dhostid ∈ (s.updateDhost dhost).dhostids := List.mem_map_of_mem hrow
    rw [dhostids_updateDhost] at hmem
    obtain ⟨old, hold, hid⟩ := List.mem_map.mp hmem
    exact hid ▸ h.hosts old hold
  hostIds := by
    rw [dhostids_updateDhost]
    exact h.hostIds
  serviceKey := h.serviceKey
  events := h.events

/-- Another table `dservices`. -/
theorem Discovery.Sound.withServices (h : s.Sound configNodeid ch) {rows : List DserviceRow}
    (hkey : (rows.map DserviceRow.dserviceid).Nodup) (ids : Option ℕ) :
    Discovery.Sound configNodeid ch { s with dservices := rows, serviceIds := ids } :=
  ⟨h.hosts, h.hostIds, hkey, h.events⟩

/-- Rows that keep their keys. -/
theorem Discovery.Sound.mapServices (h : s.Sound configNodeid ch) {f : DserviceRow → DserviceRow}
    (hf : ∀ row, (f row).dserviceid = row.dserviceid) :
    Discovery.Sound configNodeid ch { s with dservices := s.dservices.map f } := by
  refine h.withServices ?_ s.serviceIds
  have hkeys : DserviceRow.dserviceid ∘ f = DserviceRow.dserviceid := funext hf
  rw [List.map_map, hkeys]
  exact h.serviceKey

theorem Discovery.Sound.updateDservice (h : s.Sound configNodeid ch) (service : DbDservice) :
    (s.updateDservice service).Sound configNodeid ch :=
  h.mapServices fun row => by split <;> rfl

theorem Discovery.Sound.updateDserviceValue (h : s.Sound configNodeid ch) (service : DbDservice) :
    (s.updateDserviceValue service).Sound configNodeid ch :=
  h.mapServices fun row => by split <;> rfl

theorem Discovery.Sound.insertDservice (h : s.Sound configNodeid ch) (row : DserviceRow) (ids : Option ℕ) :
    ({ s with serviceIds := ids }.insertDservice row).Sound configNodeid ch := by
  rw [Discovery.insertDservice]
  split
  · exact h.withServices h.serviceKey ids
  · next hnew =>
    refine h.withServices ?_ ids
    rw [List.map_append, List.map_singleton, List.nodup_append]
    refine ⟨h.serviceKey, List.nodup_singleton _, fun a ha b hb hab => hnew ?_⟩
    obtain ⟨r, hr, rfl⟩ := List.mem_map.mp ha
    exact ⟨r, hr, hab.trans (List.mem_singleton.mp hb)⟩

/-! ## hosts -/

/-- The identifiers that a node hands out are its own. -/
theorem dbNodeLocal_of_range (hnode : 0 ≤ configNodeid ∧ configNodeid ≤ 999) {id : ℕ}
    (hmin : ch.min (nodeOf configNodeid) ≤ id) (hmax : id ≤ ch.max (nodeOf configNodeid)) :
    dbNodeLocal configNodeid id = true := by
  obtain ⟨nodeid, rfl⟩ := Int.eq_ofNat_of_zero_le hnode.1
  have hnodeid : nodeOf nodeid = nodeid := by
    rw [nodeOf, if_pos hnode.1]
    rfl
  rw [hnodeid, Column.max, maxId] at hmax
  rw [hnodeid, Column.min, minId] at hmin
  have hle : nodeid ≤ 999 := by omega
  simp only [dbNodeLocal, decide_eq_true_eq]
  right
  split at hmax <;> split at hmin <;> omega

/-- A new host, with the next identifier. -/
theorem Discovery.Sound.insertDhost (hs : s.Sound configNodeid ch) {id : ℕ}
    (hid : dbGetMaxidCached (nodeOf configNodeid) ch s.hostIds s.dhostids = some id) (druleid : ℕ)
    (ip : StoredText dhostIpLen) :
    ({ s with hostIds := some id }.insertDhost ⟨id, druleid, ip, 0, 0, 0⟩).Sound configNodeid ch := by
  obtain ⟨hnew, hne, -, -, hslot⟩ := hs.hostIds.next hid
  have hfresh : ¬∃ r ∈ s.dhosts, r.dhostid = id := fun ⟨r, hr, hrid⟩ => hnew (hrid ▸ List.mem_map_of_mem hr)
  rw [Discovery.insertDhost, if_neg hfresh]
  refine ⟨fun row hrow => ?_, ?_, hs.serviceKey, hs.events⟩
  · rcases List.mem_append.mp hrow with hrow | hrow
    · exact hs.hosts row hrow
    · rw [List.mem_singleton.mp hrow]
      exact hne
  · rw [Discovery.dhostids, List.map_append]
    exact hslot

/-- It is found afterwards. -/
theorem findDhost_insertDhost {druleid id : ℕ} {ip : StoredText dhostIpLen}
    (hfind : s.findDhost configNodeid druleid ip = none) (hfresh : id ∉ s.dhostids)
    (hlocal : dbNodeLocal configNodeid id = true) :
    ({ s with hostIds := some id }.insertDhost ⟨id, druleid, ip, 0, 0, 0⟩).findDhost configNodeid
      druleid ip = some ⟨id, druleid, ip, 0, 0, 0⟩ := by
  have hnew : ¬∃ r ∈ s.dhosts, r.dhostid = id := fun ⟨r, hr, hrid⟩ => hfresh (hrid ▸ List.mem_map_of_mem hr)
  rw [Discovery.insertDhost, if_neg hnew, Discovery.findDhost, List.find?_append]
  rw [Discovery.findDhost] at hfind
  rw [hfind, Option.none_or, List.find?_singleton]
  simp [hlocal]

/-- What `register_host` does for a host that nothing is known of. -/
inductive Registered (configNodeid : ℤ) (ch : Column schema) (s : Discovery) (druleid : ℕ) (ip : CString) (status : ℤ) :
    Discovery × DbDhost → Prop
  | unknown : s.findDhost configNodeid druleid (storedText dhostIpLen ip) = none → status ≠ dobjectStatusUp →
      Registered configNodeid ch s druleid ip status (s, DbDhost.fresh druleid)
  | new {s' : Discovery} {dhost : DbDhost} {row : DhostRow} :
      s.findDhost configNodeid druleid (storedText dhostIpLen ip) = none → status = dobjectStatusUp →
      s'.findDhost configNodeid druleid (storedText dhostIpLen ip) = some row → dhost.dhostid = row.dhostid →
      dhost.status = dobjectStatusDown → row.lastup = 0 → dhost.druleid = druleid → s'.Sound configNodeid ch →
      s'.dservices = s.dservices → Registered configNodeid ch s druleid ip status (s', dhost)
  | known {row : DhostRow} {dhost : DbDhost} :
      s.findDhost configNodeid druleid (storedText dhostIpLen ip) = some row → dhost.dhostid = row.dhostid →
      dhost.status = row.status → dhost.lastup = row.lastup → dhost.lastdown = row.lastdown →
      dhost.druleid = druleid → Registered configNodeid ch s druleid ip status (s, dhost)

theorem Registered.sound {druleid : ℕ} {ip : CString} {status : ℤ} {st : Discovery × DbDhost}
    (h : Registered configNodeid ch s druleid ip status st) (hs : s.Sound configNodeid ch) :
    st.1.Sound configNodeid ch := by
  cases h with
  | unknown => exact hs
  | new _ _ _ _ _ _ _ hsound => exact hsound
  | known => exact hs

theorem registerHost_known {druleid : ℕ} {ip : CString} {row : DhostRow}
    (h : s.findDhost configNodeid druleid (storedText dhostIpLen ip) = some row) (status : ℤ) :
    registerHost configNodeid ch s (DbDhost.fresh druleid) ip status =
      some (s, ⟨row.dhostid, druleid, strlcpyString row.ip.text (dhostIpLen + 1), row.status, row.lastup,
        row.lastdown⟩) := by
  rw [registerHost]
  simp only [DbDhost.fresh, h]

theorem registerHost_fresh (hnode : 0 ≤ configNodeid ∧ configNodeid ≤ 999) (hs : s.Sound configNodeid ch)
    {druleid : ℕ} {ip : CString} {status : ℤ} {r : Discovery × DbDhost}
    (h : registerHost configNodeid ch s (DbDhost.fresh druleid) ip status = some r) :
    Registered configNodeid ch s druleid ip status r := by
  rw [registerHost] at h
  simp only [DbDhost.fresh] at h
  cases hfind : s.findDhost configNodeid druleid (storedText dhostIpLen ip) with
  | some row =>
      rw [hfind] at h
      obtain rfl := Option.some.inj h
      exact .known hfind rfl rfl rfl rfl rfl
  | none =>
      rw [hfind] at h
      dsimp only at h
      by_cases hup : status = dobjectStatusUp
      · rw [if_pos hup] at h
        obtain ⟨id, hid, rfl⟩ := Option.map_eq_some_iff.mp h
        obtain ⟨hfresh, -, hmin, hmax, -⟩ := hs.hostIds.next hid
        have hlocal := dbNodeLocal_of_range hnode hmin hmax
        have hnew := hs.insertDhost hid druleid (storedText dhostIpLen ip)
        refine .new hfind hup (findDhost_insertDhost hfind hfresh hlocal) rfl rfl rfl rfl hnew ?_
        rw [Discovery.insertDhost]
        split <;> rfl
      · rw [if_neg hup] at h
        obtain rfl := Option.some.inj h
        exact .unknown hfind hup

/-! ## services -/

/-- What `register_service` does for the service of a check. -/
inductive ServiceRegistered (configNodeid : ℤ) (ch : Column schema) (s : Discovery) (status : ℤ) :
    Discovery × DbDservice → Prop
  | unknown {service : DbDservice} : service.dserviceid = 0 → ServiceRegistered configNodeid ch s status (s, service)
  | new {s' : Discovery} {service : DbDservice} :
      status = dobjectStatusUp → service.status = dobjectStatusDown → s'.dhosts = s.dhosts →
      (s.Sound configNodeid ch → s'.Sound configNodeid ch) → ServiceRegistered configNodeid ch s status (s', service)
  | known {service : DbDservice} {row : DserviceRow} :
      row ∈ s.dservices → row.dserviceid = service.dserviceid → service.value = row.value.text →
      ServiceRegistered configNodeid ch s status (s, service)

theorem registerService_registered {dhostid : ℕ} {check : DbDcheck} {port : ℤ} {r : Discovery × DbDservice}
    (h : registerService configNodeid cs s (serviceOf dhostid check) port check.status = some r) :
    ServiceRegistered configNodeid ch s check.status r := by
  rw [registerService] at h
  split at h
  · split at h
    · next hup =>
      obtain ⟨range, -, rfl⟩ := Option.map_eq_some_iff.mp h
      refine .new hup rfl ?_ fun hs => hs.insertDservice ..
      rw [Discovery.insertDservice]
      split <;> rfl
    · obtain rfl := Option.some.inj h
      exact .unknown rfl
  · next row hrow =>
    obtain rfl := Option.some.inj h
    exact .known (List.mem_of_find?_eq_some hrow) rfl
      (strlcpyString_of_lt (Nat.lt_succ_of_le row.value.fits))

/-- Another key that is stored as the same text. -/
theorem registerService_key {service : DbDservice} {key : CString} (port status : ℤ)
    (h : storedText dserviceKeyLen key = storedText dserviceKeyLen service.key_) :
    registerService configNodeid cs s { service with key_ := key } port status =
      (registerService configNodeid cs s service port status).map fun r => (r.1, { r.2 with key_ := key }) := by
  simp only [registerService, h]
  split
  · split
    · rw [Option.map_map]
      rfl
    · rfl
  · rfl

/-- An update to what is stored already. -/
theorem updateDserviceValue_self (hkey : s.dserviceids.Nodup) {row : DserviceRow} (hrow : row ∈ s.dservices)
    {service : DbDservice} (hid : row.dserviceid = service.dserviceid)
    (hvalue : row.value = storedText dserviceValueLen service.value) : s.updateDserviceValue service = s := by
  have hsame : s.dservices.map (fun row : DserviceRow =>
      if row.dserviceid = service.dserviceid then { row with value := storedText dserviceValueLen service.value }
      else row) = s.dservices := by
    refine (List.map_congr_left fun r hr => ?_).trans (List.map_id _)
    by_cases hr' : r.dserviceid = service.dserviceid
    · obtain rfl := List.inj_on_of_nodup_map hkey hr hrow (hr'.trans hid.symm)
      rw [if_pos hr', ← hvalue]
      rfl
    · rw [if_neg hr']
      rfl
  rw [Discovery.updateDserviceValue, hsame]

/-- A value that comes back as it is stored leads to the same. -/
theorem updateServiceStatus_value {service : DbDservice} {check : DbDcheck}
    (hservice : (check.status = dobjectStatusUp ∧ service.status = dobjectStatusDown) ∨ s.dserviceids.Nodup ∧
      ∃ row ∈ s.dservices, row.dserviceid = service.dserviceid ∧ service.value = row.value.text)
    {value : CString} (hvalue : check.status = dobjectStatusUp → value = (storedText dserviceValueLen check.value).text)
    (now : ℤ) :
    updateServiceStatus s service { check with value := value } now = updateServiceStatus s service check now := by
  by_cases hup : check.status = dobjectStatusUp
  · obtain rfl := hvalue hup
    simp only [updateServiceStatus, hup, if_true]
    by_cases hdown : service.status = dobjectStatusDown ∨ service.lastup = 0
    · rw [if_pos hdown, if_pos hdown]
      simp only [Discovery.updateDservice, storedText_text]
    · rw [if_neg hdown, if_neg hdown]
      obtain ⟨hkey, row, hrow, hid, hrowvalue⟩ := hservice.resolve_left fun h => hdown (.inl h.2)
      by_cases heq : service.value = check.value
      · -- the value in the table is one that is stored, and so it is not changed
        have hsame : service.value = (storedText dserviceValueLen check.value).text := by
          rw [← heq, hrowvalue, storedText_text]
        rw [if_neg (not_not.mpr hsame), if_neg (not_not.mpr heq)]
      · rw [if_pos heq]
        by_cases hsame : service.value = (storedText dserviceValueLen check.value).text
        · have hself : s.updateDserviceValue { service with value := check.value } = s :=
            updateDserviceValue_self hkey hrow hid (StoredText.ext (hrowvalue.symm.trans hsame))
          rw [if_neg (not_not.mpr hsame), hself]
        · rw [if_pos hsame]
          simp only [Discovery.updateDserviceValue, storedText_text]
  · simp only [updateServiceStatus, if_neg hup]

/-- The part of `update_service` behind the host. -/
def updateHostService (configNodeid : ℤ) (cs : Column schema) (s : Discovery) (dhostid : ℕ) (check : DbDcheck)
    (port now : ℤ) : Option Discovery :=
  (registerService configNodeid cs s (serviceOf dhostid check) port check.status).map fun (s, service) =>
    if service.dserviceid = 0 then s else updateServiceStatus s service check now

theorem updateService_of_pos {dhost : DbDhost} (h : dhost.dhostid ≠ 0) (check : DbDcheck) (ip : CString) (port now : ℤ) :
    updateService configNodeid ch cs s dhost check ip port now =
      (updateHostService configNodeid cs s dhost.dhostid check port now).map fun s => (s, dhost) := by
  rw [updateService, if_neg h, updateHostService]
  simp only [Option.bind_eq_bind, Option.bind_some, if_pos (Nat.pos_of_ne_zero h)]
  cases registerService configNodeid cs s (serviceOf dhost.dhostid check) port check.status with
  | none => rfl
  | some r =>
      simp only [Option.bind_some, Option.map_some]
      split <;> rfl

theorem updateService_of_zero {dhost : DbDhost} (h : dhost.dhostid = 0) (check : DbDcheck) (ip : CString) (port now : ℤ) :
    updateService configNodeid ch cs s dhost check ip port now =
      (registerHost configNodeid ch s dhost ip check.status).bind fun r =>
        if r.2.dhostid = 0 then some r
        else (updateHostService configNodeid cs r.1 r.2.dhostid check port now).map fun s => (s, r.2) := by
  rw [updateService, if_pos h]
  cases registerHost configNodeid ch s dhost ip check.status with
  | none => rfl
  | some r =>
      simp only [Option.bind_eq_bind, Option.bind_some]
      by_cases hid : r.2.dhostid = 0
      · rw [if_pos hid, if_neg (by omega)]
        rfl
      · have hpos := @updateService_of_pos _ configNodeid ch cs r.1 r.2 hid check ip port now
        rw [if_neg hid, ← hpos, updateService, if_neg hid]
        rfl

/-- What comes behind the host leaves the hosts as they are. -/
theorem updateHostService_keeps {dhostid : ℕ} {check : DbDcheck} {port now : ℤ}
    (h : updateHostService configNodeid cs s dhostid check port now = some s') :
    s'.dhosts = s.dhosts ∧ (s.Sound configNodeid ch → s'.Sound configNodeid ch) := by
  obtain ⟨⟨s₁, service⟩, hregister, rfl⟩ := Option.map_eq_some_iff.mp h
  dsimp only
  have hstatus (s₁ : Discovery) (service : DbDservice) (hid : service.dserviceid ≠ 0) :
      (updateServiceStatus s₁ service check now).dhosts = s₁.dhosts ∧
        (s₁.Sound configNodeid ch → (updateServiceStatus s₁ service check now).Sound configNodeid ch) := by
    rw [updateServiceStatus]
    split
    · split
      · exact ⟨rfl, fun hs => ((hs.updateDservice _).addEvent hid).addEvent hid⟩
      · split
        · exact ⟨rfl, fun hs => (hs.updateDserviceValue _).addEvent hid⟩
        · exact ⟨rfl, fun hs => hs.addEvent hid⟩
    · split
      · exact ⟨rfl, fun hs => ((hs.updateDservice _).addEvent hid).addEvent hid⟩
      · exact ⟨rfl, fun hs => hs.addEvent hid⟩
  have hboth (hdhosts : s₁.dhosts = s.dhosts) (hsound : s.Sound configNodeid ch → s₁.Sound configNodeid ch) :
      let s' := if service.dserviceid = 0 then s₁ else updateServiceStatus s₁ service check now
      s'.dhosts = s.dhosts ∧ (s.Sound configNodeid ch → s'.Sound configNodeid ch) := by
    by_cases hid : service.dserviceid = 0
    · rw [if_pos hid]
      exact ⟨hdhosts, hsound⟩
    · rw [if_neg hid]
      obtain ⟨hsame, hkeeps⟩ := hstatus s₁ service hid
      exact ⟨hsame.trans hdhosts, fun hs => hkeeps (hsound hs)⟩
  cases @registerService_registered _ configNodeid ch cs s _ _ _ _ hregister with
  | unknown => exact hboth rfl id
  | new _ _ hdhosts hsound => exact hboth hdhosts hsound
  | known => exact hboth rfl id

/-- **A check of a known host, replayed**, for a key and a value that arrive. -/
theorem updateHostService_received (hkey : s.dserviceids.Nodup) {dhostid : ℕ} {check : DbDcheck}
    (hintact : KeyIntact check.key_) (hvalue : check.status = dobjectStatusUp → ValueIntact check.value)
    (ip : CString) (clock port now : ℤ) :
    updateHostService configNodeid cs s dhostid (receivedCheck (proxyUpdateService check ip port clock)) port now =
      updateHostService configNodeid cs s dhostid check port now := by
  have hregister := @registerService_key _ configNodeid cs s (serviceOf dhostid check) _ port check.status
    hintact.received
  rw [updateHostService, updateHostService]
  change Option.map _ (registerService configNodeid cs s
    { serviceOf dhostid check with
      key_ := strlcpyString (receivedText (dserviceKeyLen + 1) (storedText dserviceKeyLen check.key_).text)
        (dserviceKeyLen + 1) } port check.status) = _
  rw [hregister, Option.map_map]
  cases hr : registerService configNodeid cs s (serviceOf dhostid check) port check.status with
  | none => rfl
  | some r =>
      obtain ⟨s₁, service⟩ := r
      simp only [Option.map_some, Function.comp_apply]
      by_cases hid : service.dserviceid = 0
      · rw [if_pos hid, if_pos hid]
      rw [if_neg hid, if_neg hid]
      refine congrArg some (updateServiceStatus_value ?_ (fun hup => (hvalue hup).received) now)
      cases @registerService_registered _ configNodeid cs cs s _ _ _ _ hr with
      | unknown hzero => exact absurd hzero hid
      | new hup hdown => exact .inl ⟨hup, hdown⟩
      | known hrow hrowid hrowvalue => exact .inr ⟨hkey, _, hrow, hrowid, hrowvalue⟩

/-! ## an address -/

/-- A result whose texts arrive. -/
structure CheckIntact (r : CheckResult) : Prop where
  key : KeyIntact r.key_
  value : r.up = true → ValueIntact r.value

/-- What the loop remembers of a host after some checks: nothing, when there is
none; or what a look at the table would bring up again; or that the host is new,
which makes no difference for one that is up. -/
inductive Follows (configNodeid : ℤ) (s₀ : Discovery) (druleid : ℕ) (ip : IpText) (done : List CheckResult)
    (s : Discovery) : DbDhost → Prop
  | none : s.dhosts = s₀.dhosts →
      (∀ r ∈ done, r.up = false ∧ s.findDhost configNodeid druleid (storedText dhostIpLen ip.text) = Option.none) →
      Follows configNodeid s₀ druleid ip done s (DbDhost.fresh druleid)
  | known {dhost : DbDhost} {row : DhostRow} :
      s.findDhost configNodeid druleid (storedText dhostIpLen ip.text) = some row → row.dhostid ≠ 0 →
      dhost.dhostid = row.dhostid → dhost.status = row.status → dhost.lastup = row.lastup →
      dhost.lastdown = row.lastdown → Follows configNodeid s₀ druleid ip done s dhost
  | new {dhost : DbDhost} {row : DhostRow} :
      s.findDhost configNodeid druleid (storedText dhostIpLen ip.text) = some row → row.dhostid ≠ 0 →
      dhost.dhostid = row.dhostid → dhost.status = dobjectStatusDown → row.lastup = 0 →
      (∃ r ∈ done, r.up = true) → Follows configNodeid s₀ druleid ip done s dhost

theorem findDhost_congr (h : s'.dhosts = s.dhosts) (druleid : ℕ) (ip : StoredText dhostIpLen) :
    s'.findDhost configNodeid druleid ip = s.findDhost configNodeid druleid ip := by
  rw [Discovery.findDhost, Discovery.findDhost, h]

/-- A host that is there keeps being followed. -/
theorem Follows.mono {s₀ : Discovery} {druleid : ℕ} {ip : IpText} {done done' : List CheckResult} {dhost : DbDhost}
    (h : Follows configNodeid s₀ druleid ip done s dhost) (hid : dhost.dhostid ≠ 0) (hdhosts : s'.dhosts = s.dhosts)
    (hdone : done ⊆ done') : Follows configNodeid s₀ druleid ip done' s' dhost := by
  have hfind := @findDhost_congr configNodeid _ _ hdhosts druleid (storedText dhostIpLen ip.text)
  cases h with
  | none => exact absurd rfl hid
  | known hrow hpos hrowid hstatus hlastup hlastdown =>
      exact .known (hfind.trans hrow) hpos hrowid hstatus hlastup hlastdown
  | new hrow hpos hrowid hstatus hlastup hup =>
      obtain ⟨r', hr', hup⟩ := hup
      exact .new (hfind.trans hrow) hpos hrowid hstatus hlastup ⟨r', hdone hr', hup⟩

/-- What has been registered for a check is followed behind it. -/
theorem Registered.follows (hs : s.Sound configNodeid ch) {s₀ : Discovery} {druleid : ℕ} {ip : IpText}
    {done : List CheckResult} {r : CheckResult} (hdhosts : s.dhosts = s₀.dhosts)
    (hdone : ∀ r ∈ done, r.up = false ∧
      s.findDhost configNodeid druleid (storedText dhostIpLen ip.text) = Option.none)
    {st : Discovery × DbDhost} (h : Registered configNodeid ch s druleid ip.text r.status st) :
    Follows configNodeid s₀ druleid ip (done ++ [r]) st.1 st.2 ∧ st.1.Sound configNodeid ch := by
  have hpos {s : Discovery} (hs : s.Sound configNodeid ch) {row : DhostRow}
      (hrow : s.findDhost configNodeid druleid (storedText dhostIpLen ip.text) = some row) : row.dhostid ≠ 0 :=
    hs.hosts row (List.mem_of_find?_eq_some hrow)
  cases h with
  | unknown hnone hdown =>
      refine ⟨.none hdhosts fun r' hr' => ?_, hs⟩
      rcases List.mem_append.mp hr' with hr' | hr'
      · exact hdone r' hr'
      · rw [List.mem_singleton.mp hr']
        refine ⟨?_, hnone⟩
        by_contra hup
        exact hdown (if_pos (by simpa using hup))
  | new hnone hup hrow hid hstatus hlastup hrule hsound hservices =>
      refine ⟨.new hrow (hpos hsound hrow) hid hstatus hlastup ⟨r, List.mem_append_right _ (List.mem_singleton_self r), ?_⟩,
        hsound⟩
      by_contra hdown
      rw [CheckResult.status, if_neg hdown] at hup
      exact absurd hup (by decide)
  | known hrow hid hstatus hlastup hlastdown hrule =>
      exact ⟨.known hrow (hpos hs hrow) hid hstatus hlastup hlastdown, hs⟩

/-- What the update of a service leaves to be followed. -/
theorem updateService_follows (hnode : 0 ≤ configNodeid ∧ configNodeid ≤ 999) (hs : s.Sound configNodeid ch)
    {s₀ : Discovery} {druleid : ℕ} {ip : IpText} {done : List CheckResult} {dhost : DbDhost}
    (h : Follows configNodeid s₀ druleid ip done s dhost) {r : CheckResult} {st : Discovery × DbDhost}
    (hst : updateService configNodeid ch cs s dhost (r.check druleid) ip.text r.port r.now = some st) :
    Follows configNodeid s₀ druleid ip (done ++ [r]) st.1 st.2 ∧ st.1.Sound configNodeid ch := by
  by_cases hid : dhost.dhostid = 0
  · cases h with
    | known _ hpos hrowid => exact absurd (hrowid.symm.trans hid) hpos
    | new _ hpos hrowid => exact absurd (hrowid.symm.trans hid) hpos
    | none hdhosts hdone =>
        rw [updateService_of_zero hid] at hst
        obtain ⟨st₁, hregister, hst⟩ := Option.bind_eq_some_iff.mp hst
        obtain ⟨hfollows, hsound⟩ := (registerHost_fresh hnode hs hregister).follows hs hdhosts hdone
        by_cases hid₁ : st₁.2.dhostid = 0
        · rw [if_pos hid₁] at hst
          obtain rfl := Option.some.inj hst
          exact ⟨hfollows, hsound⟩
        · rw [if_neg hid₁] at hst
          obtain ⟨s₂, hservice, rfl⟩ := Option.map_eq_some_iff.mp hst
          obtain ⟨hdhosts₂, hsound₂⟩ := @updateHostService_keeps _ configNodeid ch cs _ _ _ _ _ _ hservice
          exact ⟨hfollows.mono hid₁ hdhosts₂ (List.Subset.refl _), hsound₂ hsound⟩
  · rw [updateService_of_pos hid] at hst
    obtain ⟨s₂, hservice, rfl⟩ := Option.map_eq_some_iff.mp hst
    obtain ⟨hdhosts₂, hsound₂⟩ := @updateHostService_keeps _ configNodeid ch cs _ _ _ _ _ _ hservice
    exact ⟨h.mono hid hdhosts₂ (List.subset_append_left ..), hsound₂ hs⟩

/-- **A check, replayed**: a look at the table for every record comes to the same as
what the loop remembers. -/
theorem updateService_replayed (hnode : 0 ≤ configNodeid ∧ configNodeid ≤ 999) (hs : s.Sound configNodeid ch)
    {s₀ : Discovery} {druleid : ℕ} {ip : IpText} {done : List CheckResult} {dhost : DbDhost}
    (h : Follows configNodeid s₀ druleid ip done s dhost) {r : CheckResult} (hintact : CheckIntact r) (ahead : ℤ) :
    processDiscoveryRecord configNodeid ch cs 0 ahead s
        (proxyUpdateService (r.check druleid) ip.text r.port (r.now + ahead)) =
      (updateService configNodeid ch cs s dhost (r.check druleid) ip.text r.port r.now).map Prod.fst := by
  have htype : ¬(r.type : ℤ) = -1 := by omega
  have htime : 0 - (ahead - (r.now + ahead)) = r.now := by ring
  have hvalue : r.status = dobjectStatusUp → ValueIntact r.value := by
    intro hup
    apply hintact.value
    by_contra hdown
    rw [CheckResult.status, if_neg hdown] at hup
    exact absurd hup (by decide)
  have hservice (s : Discovery) (hkey : s.dserviceids.Nodup) (dhostid : ℕ) :=
    @updateHostService_received _ configNodeid cs s hkey dhostid (r.check druleid) hintact.key hvalue ip.text
      (r.now + ahead) r.port r.now
  rw [processDiscoveryRecord]
  change (if (r.type : ℤ) = -1 then _ else Option.map _ (updateService configNodeid ch cs s (DbDhost.fresh druleid)
    (receivedCheck (proxyUpdateService (r.check druleid) ip.text r.port (r.now + ahead)))
    (receivedText (dhostIpLen + 1) (storedText dhostIpLen ip.text).text) r.port
    (0 - (ahead - (r.now + ahead))))) = _
  rw [if_neg htype, htime, ip.received, updateService_of_zero rfl]
  change Option.map _ ((registerHost configNodeid ch s (DbDhost.fresh druleid) ip.text r.status).bind _) = _
  by_cases hid : dhost.dhostid = 0
  · obtain rfl : dhost = DbDhost.fresh druleid := by
      cases h with
      | none => rfl
      | known _ hpos hrowid => exact absurd (hrowid.symm.trans hid) hpos
      | new _ hpos hrowid => exact absurd (hrowid.symm.trans hid) hpos
    rw [updateService_of_zero hid]
    change _ = Option.map _ ((registerHost configNodeid ch s (DbDhost.fresh druleid) ip.text r.status).bind _)
    cases hregister : registerHost configNodeid ch s (DbDhost.fresh druleid) ip.text r.status with
    | none => rfl
    | some st =>
        have hsound := (registerHost_fresh hnode hs hregister).sound hs
        simp only [Option.bind_some]
        split
        · rfl
        · rw [hservice st.1 hsound.serviceKey]
  · obtain ⟨row, hrow, hrowid⟩ : ∃ row, s.findDhost configNodeid druleid (storedText dhostIpLen ip.text) = some row ∧
        dhost.dhostid = row.dhostid := by
      cases h with
      | none => exact absurd rfl hid
      | known hrow _ hrowid => exact ⟨_, hrow, hrowid⟩
      | new hrow _ hrowid => exact ⟨_, hrow, hrowid⟩
    rw [updateService_of_pos hid, registerHost_known hrow, Option.bind_some, if_neg (hrowid ▸ hid),
      hservice s hs.serviceKey, hrowid, Option.map_map, Option.map_map]
    rfl

theorem nextHostStatus_up (checks : List CheckResult) : checks.foldl nextHostStatus dobjectStatusUp = dobjectStatusUp := by
  induction checks with
  | nil => rfl
  | cons r checks ih =>
      have hnext : nextHostStatus dobjectStatusUp r = dobjectStatusUp := by
        rw [nextHostStatus]
        split
        · next h => exact h.resolve_left (by decide)
        · rfl
      rw [List.foldl_cons, hnext, ih]

/-- A host with a service that is up is up. -/
theorem hostStatus_up {checks : List CheckResult} (h : ∃ r ∈ checks, r.up = true) (hostStatus : ℤ) :
    checks.foldl nextHostStatus hostStatus = dobjectStatusUp := by
  induction checks generalizing hostStatus with
  | nil =>
      obtain ⟨r, hr, -⟩ := h
      cases hr
  | cons r checks ih =>
      rw [List.foldl_cons]
      by_cases hup : r.up = true
      · have hstatus : r.status = dobjectStatusUp := if_pos hup
        rw [nextHostStatus, if_pos (.inr hstatus), hstatus, nextHostStatus_up]
      · obtain ⟨r', hr', hup'⟩ := h
        rcases List.mem_cons.mp hr' with rfl | hr'
        · exact absurd hup' hup
        · exact ih ⟨r', hr', hup'⟩ _

/-- The status of a host, for what is remembered and for what is in the table. -/
theorem updateHostStatus_congr (s : Discovery) {dhost dhost' : DbDhost} (hid : dhost.dhostid = dhost'.dhostid)
    {status : ℤ}
    (h : (dhost.status = dhost'.status ∧ dhost.lastup = dhost'.lastup ∧ dhost.lastdown = dhost'.lastdown) ∨
      (status = dobjectStatusUp ∧ dhost.status = dobjectStatusDown ∧ dhost'.lastup = 0)) (now : ℤ) :
    updateHostStatus s dhost status now = updateHostStatus s dhost' status now := by
  rcases h with ⟨hstatus, hlastup, hlastdown⟩ | ⟨hup, hdown, hlastup⟩
  · simp only [updateHostStatus, Discovery.updateDhost, hid, hstatus, hlastup, hlastdown]
  · simp only [updateHostStatus, Discovery.updateDhost, if_pos hup, hid, if_pos (Or.inl hdown), if_pos (Or.inr hlastup)]

/-- **The host, replayed**, when there is one. -/
theorem updateHost_replayed {s₀ : Discovery} {druleid : ℕ} {ip : IpText} {checks : List CheckResult} {dhost : DbDhost}
    (h : Follows configNodeid s₀ druleid ip checks s dhost) (hid : dhost.dhostid ≠ 0) (now ahead : ℤ) :
    processDiscoveryRecord configNodeid ch cs 0 ahead s
        (proxyUpdateHost druleid ip.text (checks.foldl nextHostStatus (-1)) (now + ahead)) =
      some (updateHostStatus s dhost (checks.foldl nextHostStatus (-1)) now) := by
  have htime : 0 - (ahead - (now + ahead)) = now := by ring
  rw [processDiscoveryRecord]
  change Option.map _ (registerHost configNodeid ch s (DbDhost.fresh druleid)
    (receivedText (dhostIpLen + 1) (storedText dhostIpLen ip.text).text) (checks.foldl nextHostStatus (-1))) = _
  rw [ip.received]
  cases h with
  | none => exact absurd rfl hid
  | known hrow _ hrowid hstatus hlastup hlastdown =>
      rw [registerHost_known hrow]
      refine congrArg some ?_
      change updateHostStatus s _ _ (0 - (ahead - (now + ahead))) = _
      rw [htime]
      exact (updateHostStatus_congr s hrowid (.inl ⟨hstatus, hlastup, hlastdown⟩) now).symm
  | new hrow _ hrowid hstatus hlastup hup =>
      rw [registerHost_known hrow]
      refine congrArg some ?_
      change updateHostStatus s _ _ (0 - (ahead - (now + ahead))) = _
      rw [htime]
      exact (updateHostStatus_congr s hrowid (.inr ⟨hostStatus_up hup _, hstatus, hlastup⟩) now).symm

/-- The checks of an address, replayed. -/
theorem processChecks_replayed (hnode : 0 ≤ configNodeid ∧ configNodeid ≤ 999) (hs : s.Sound configNodeid ch)
    {s₀ : Discovery} {druleid : ℕ} {ip : IpText} {done checks : List CheckResult} {dhost : DbDhost}
    (h : Follows configNodeid s₀ druleid ip done s dhost) (hintact : ∀ r ∈ checks, CheckIntact r) (hostStatus ahead : ℤ) :
    (checks.map fun r => proxyUpdateService (r.check druleid) ip.text r.port (r.now + ahead)).foldlM
        (processDiscoveryRecord configNodeid ch cs 0 ahead) s =
      (checks.foldlM (processCheck configNodeid ch cs druleid ip) (s, dhost, hostStatus)).map Prod.fst ∧
    ∀ st, checks.foldlM (processCheck configNodeid ch cs druleid ip) (s, dhost, hostStatus) = some st →
      st.1.Sound configNodeid ch ∧ Follows configNodeid s₀ druleid ip (done ++ checks) st.1 st.2.1 ∧
        st.2.2 = checks.foldl nextHostStatus hostStatus := by
  induction checks generalizing s done dhost hostStatus with
  | nil =>
      refine ⟨rfl, fun st hst => ?_⟩
      obtain rfl := Option.some.inj hst
      exact ⟨hs, (List.append_nil done).symm ▸ h, rfl⟩
  | cons r checks ih =>
      have hstep := @updateService_replayed _ configNodeid ch cs s hnode hs s₀ druleid ip done dhost h r
        (hintact r List.mem_cons_self) ahead
      rw [List.map_cons, List.foldlM_cons, List.foldlM_cons, hstep, processCheck]
      cases hst : updateService configNodeid ch cs s dhost (r.check druleid) ip.text r.port r.now with
      | none => exact ⟨rfl, fun st h => nomatch h⟩
      | some st₁ =>
          obtain ⟨hfollows, hsound⟩ := updateService_follows hnode hs h hst
          have hrest := ih hsound hfollows (fun r hr => hintact r (List.mem_cons_of_mem _ hr))
            (nextHostStatus hostStatus r)
          rw [List.append_assoc] at hrest
          exact hrest

/-- An address for which something was checked, whose host there is in the end, and
whose keys and values arrive. -/
structure Agreeing (configNodeid : ℤ) (s : Discovery) (visit : AddressVisit) : Prop where
  checked : visit.checks ≠ []
  host : (s.findDhost configNodeid visit.druleid (storedText dhostIpLen visit.ip.text)).isSome ∨
    ∃ r ∈ visit.checks, r.up = true
  intact : ∀ r ∈ visit.checks, CheckIntact r

/-- There is a host behind the checks. -/
theorem Agreeing.dhostid_ne {s₀ : Discovery} {visit : AddressVisit} (h : Agreeing configNodeid s₀ visit)
    {dhost : DbDhost} (hfollows : Follows configNodeid s₀ visit.druleid visit.ip visit.checks s dhost) :
    dhost.dhostid ≠ 0 := by
  cases hfollows with
  | known _ hpos hrowid => exact hrowid ▸ hpos
  | new _ hpos hrowid => exact hrowid ▸ hpos
  | none hdhosts hdone =>
      exfalso
      rcases h.host with hsome | ⟨r, hr, hup⟩
      · obtain ⟨r, hr⟩ := List.exists_mem_of_ne_nil _ h.checked
        rw [← findDhost_congr hdhosts, (hdone r hr).2] at hsome
        cases hsome
      · rw [(hdone r hr).1] at hup
        cases hup

theorem recordAddress_shift (visit : AddressVisit) (ahead : ℤ) :
    recordAddress (visit.shift ahead) =
      (visit.checks.map fun r => proxyUpdateService (r.check visit.druleid) visit.ip.text r.port (r.now + ahead)) ++
        [proxyUpdateHost visit.druleid visit.ip.text (visit.checks.foldl nextHostStatus (-1)) (visit.now + ahead)] := by
  rw [recordAddress, AddressVisit.shift, List.map_map, List.foldl_map]
  rfl

/-- **An address, replayed.** -/
theorem processAddress_replayed (hnode : 0 ≤ configNodeid ∧ configNodeid ≤ 999) (hs : s.Sound configNodeid ch)
    {visit : AddressVisit} (h : Agreeing configNodeid s visit) (ahead : ℤ) :
    (recordAddress (visit.shift ahead)).foldlM (processDiscoveryRecord configNodeid ch cs 0 ahead) s =
      processAddress configNodeid ch cs s visit ∧
    ∀ s', processAddress configNodeid ch cs s visit = some s' → s'.Sound configNodeid ch := by
  have hstart : Follows configNodeid s visit.druleid visit.ip [] s (DbDhost.fresh visit.druleid) :=
    .none rfl fun r hr => nomatch hr
  obtain ⟨hreplay, hall⟩ := @processChecks_replayed _ configNodeid ch cs s hnode hs _ _ _ _ _ _ hstart
    h.intact (-1) ahead
  rw [recordAddress_shift, List.foldlM_append, hreplay, processAddress]
  cases hst : visit.checks.foldlM (processCheck configNodeid ch cs visit.druleid visit.ip)
      (s, DbDhost.fresh visit.druleid, -1) with
  | none => exact ⟨rfl, fun s' hs' => nomatch hs'⟩
  | some st =>
      obtain ⟨s₁, dhost, hostStatus⟩ := st
      obtain ⟨hsound, hfollows, hstatus⟩ := hall _ hst
      dsimp only at hsound hfollows hstatus
      rw [List.nil_append] at hfollows
      have hid := h.dhostid_ne hfollows
      have hhost := @updateHost_replayed _ configNodeid ch cs _ _ _ _ _ _ hfollows hid visit.now ahead
      constructor
      · simp only [Option.map_some, Option.bind_eq_bind, Option.bind_some, List.foldlM_cons, List.foldlM_nil, hhost,
          if_neg hid, hstatus]
        rfl
      · intro s' hs'
        obtain rfl := Option.some.inj hs'
        dsimp only
        rw [if_neg hid]
        rw [updateHostStatus]
        split
        · split
          · exact ((hsound.updateDhost _).addEvent hid).addEvent hid
          · exact hsound.addEvent hid
        · split
          · exact ((hsound.updateDhost _).addEvent hid).addEvent hid
          · exact hsound.addEvent hid

/-- Every address of a run is such a one, in the state before it. -/
def AgreeingRun (configNodeid : ℤ) (ch cs : Column schema) : Discovery → List AddressVisit → Prop
  | _, [] => True
  | s, visit :: visits => Agreeing configNodeid s visit ∧
      ∀ s', processAddress configNodeid ch cs s visit = some s' → AgreeingRun configNodeid ch cs s' visits

theorem processRules_replayed (hnode : 0 ≤ configNodeid ∧ configNodeid ≤ 999) (hs : s.Sound configNodeid ch)
    {visits : List AddressVisit} (h : AgreeingRun configNodeid ch cs s visits) (ahead : ℤ) :
    (visits.flatMap fun visit => recordAddress (visit.shift ahead)).foldlM
        (processDiscoveryRecord configNodeid ch cs 0 ahead) s =
      processRules configNodeid ch cs s visits ∧
    ∀ s', processRules configNodeid ch cs s visits = some s' → s'.Sound configNodeid ch := by
  induction visits generalizing s with
  | nil =>
      refine ⟨rfl, fun s' hs' => ?_⟩
      obtain rfl := Option.some.inj hs'
      exact hs
  | cons visit visits ih =>
      obtain ⟨hreplay, hsound⟩ := processAddress_replayed hnode hs h.1 ahead
      rw [List.flatMap_cons, List.foldlM_append, hreplay, processRules, List.foldlM_cons]
      cases hst : processAddress configNodeid ch cs s visit with
      | none => exact ⟨rfl, fun s' hs' => nomatch hs'⟩
      | some s₁ => exact ih (hsound s₁ hst) (h.2 s₁ hst)

/-- Only the difference of the clocks is looked at. -/
theorem processDiscoveryRecord_clock {now hosttime ahead : ℤ} (h : hosttime = now + ahead) :
    processDiscoveryRecord configNodeid ch cs now hosttime = processDiscoveryRecord configNodeid ch cs 0 ahead := by
  funext s row
  have htime : now - (hosttime - row.clock) = 0 - (ahead - row.clock) := by
    rw [h]
    ring
  rw [processDiscoveryRecord, processDiscoveryRecord, htime]

theorem processDiscoveryData_eq {messages : List DiscoveryMessage} {ahead : ℤ}
    (h : ∀ m ∈ messages, m.hosttime = m.now + ahead) (s : Discovery) :
    messages.foldlM (processDiscoveryData configNodeid ch cs) s =
      (messages.flatMap DiscoveryMessage.rows).foldlM (processDiscoveryRecord configNodeid ch cs 0 ahead) s := by
  induction messages generalizing s with
  | nil => rfl
  | cons m messages ih =>
      rw [List.foldlM_cons, List.flatMap_cons, List.foldlM_append, processDiscoveryData,
        processDiscoveryRecord_clock (h m List.mem_cons_self)]
      refine congrArg _ (funext fun s => ?_)
      exact ih (fun m hm => h m (List.mem_cons_of_mem _ hm)) s

/-- **Through a proxy it is the same**: the server comes to the same tables and to
the same events when it replays what a proxy has recorded, in messages of any size,
as when it had found it out itself, for addresses with a host in the end; and no
event is about the identifier 0. -/
theorem discovery_through_proxy (hnode : 0 ≤ configNodeid ∧ configNodeid ≤ 999) {s : Discovery}
    (hs : s.Sound configNodeid ch) {visits : List AddressVisit} (h : AgreeingRun configNodeid ch cs s visits)
    (ahead : ℤ) {messages : List DiscoveryMessage}
    (hrows : messages.flatMap DiscoveryMessage.rows = visits.flatMap fun visit => recordAddress (visit.shift ahead))
    (hclock : ∀ m ∈ messages, m.hosttime = m.now + ahead) :
    messages.foldlM (processDiscoveryData configNodeid ch cs) s = processRules configNodeid ch cs s visits ∧
      ∀ s', processRules configNodeid ch cs s visits = some s' → ∀ e ∈ s'.events, e.objectid ≠ 0 := by
  obtain ⟨hreplay, hsound⟩ := processRules_replayed hnode hs h ahead
  rw [processDiscoveryData_eq hclock, hrows]
  exact ⟨hreplay, fun s' hs' => (hsound s' hs').events⟩

end

/-- `dhosts` -/
def dhostsTable : ZbxTable where
  table := ⟨bytes "dhosts", by decide⟩
  recid := ⟨bytes "dhostid", by decide⟩
  sync := true
  fields := [⟨⟨bytes "dhostid", by decide⟩, .id, true, false, false⟩]

/-- `dservices` -/
def dservicesTable : ZbxTable where
  table := ⟨bytes "dservices", by decide⟩
  recid := ⟨bytes "dserviceid", by decide⟩
  sync := true
  fields := [⟨⟨bytes "dserviceid", by decide⟩, .id, true, false, false⟩]

/-- A schema with what has been discovered. -/
def discoverySchema : Schema where
  tables := [dhostsTable, dservicesTable]
  table_name := by decide
  field_name := by decide

/-- `dhosts.dhostid` -/
def dhostid : Column discoverySchema where
  tablename := ⟨bytes "dhosts", by decide⟩
  fieldname := ⟨bytes "dhostid", by decide⟩
  table := dhostsTable
  field := ⟨⟨bytes "dhostid", by decide⟩, .id, true, false, false⟩
  dbGetTable_eq := by decide
  dbGetField_eq := by decide

/-- `dservices.dserviceid` -/
def dserviceid : Column discoverySchema where
  tablename := ⟨bytes "dservices", by decide⟩
  fieldname := ⟨bytes "dserviceid", by decide⟩
  table := dservicesTable
  field := ⟨⟨bytes "dserviceid", by decide⟩, .id, true, false, false⟩
  dbGetTable_eq := by decide
  dbGetField_eq := by decide

/-- Nothing has been discovered yet. -/
def nothingDiscovered : Discovery := ⟨[], [], none, none, []⟩

theorem nothingDiscovered_sound : nothingDiscovered.Sound 0 dhostid where
  hosts := fun _ h => nomatch h
  hostIds := ⟨(fun _ h => nomatch h), fun _ h => nomatch h⟩
  serviceKey := List.nodup_nil
  events := fun _ h => nomatch h

/-- A check of a port. -/
def portCheck (port : ℤ) (up : Bool) (now : ℤ) : CheckResult :=
  ⟨8, ⟨bytes "", by decide⟩, ⟨bytes "", by decide⟩, port, up, now⟩

/-- An address. -/
def someAddress : IpText := ⟨⟨bytes "10.0.0.7", by decide⟩, by decide, by decide⟩

/-- A port that is found, and lost again. -/
def foundAndLost : List AddressVisit :=
  [⟨2, someAddress, 1000, [portCheck 22 false 1001, portCheck 80 true 1002]⟩,
    ⟨2, someAddress, 2000, [portCheck 80 false 2001]⟩]

/-- The proxy's clock is five seconds ahead, and it sends a message for each address. -/
theorem discovery_through_proxy_found :
    [⟨1500, 1505, recordAddress (foundAndLost[0].shift 5)⟩, ⟨2500, 2505, recordAddress (foundAndLost[1].shift 5)⟩].foldlM
        (processDiscoveryData 0 dhostid dserviceid) nothingDiscovered =
      processRules 0 dhostid dserviceid nothingDiscovered foundAndLost ∧
    (processRules 0 dhostid dserviceid nothingDiscovered foundAndLost).map Discovery.events =
      some [⟨1, 2, 1⟩, ⟨1, 2, 3⟩, ⟨2, 2, 1⟩, ⟨2, 2, 3⟩, ⟨1, 2, 0⟩, ⟨1, 2, 2⟩, ⟨2, 2, 0⟩, ⟨2, 2, 2⟩] := by
  have hintact (port : ℤ) (up : Bool) (now : ℤ) : CheckIntact (portCheck port up now) :=
    ⟨⟨(fun h => nomatch h), fun _ h => nomatch h⟩, fun _ _ h => nomatch h⟩
  have hrun : AgreeingRun 0 dhostid dserviceid nothingDiscovered foundAndLost := by
    refine ⟨⟨by decide, .inr ⟨portCheck 80 true 1002, by decide, rfl⟩, ?_⟩, fun s' hs' => ⟨⟨by decide, .inl ?_, ?_⟩, ?_⟩⟩
    · intro r hr
      simp only [List.mem_cons, List.not_mem_nil, or_false] at hr
      rcases hr with rfl | rfl <;> exact hintact ..
    · have hfound : (processAddress 0 dhostid dserviceid nothingDiscovered foundAndLost[0]).all
          (fun s' => (s'.findDhost 0 2 (storedText dhostIpLen someAddress.text)).isSome) = true := by decide
      change processAddress 0 dhostid dserviceid nothingDiscovered foundAndLost[0] = _ at hs'
      rw [hs'] at hfound
      exact hfound
    · intro r hr
      rw [List.mem_singleton.mp hr]
      exact hintact ..
    · exact fun _ _ => trivial
  refine ⟨And.left (discovery_through_proxy (by decide) nothingDiscovered_sound hrun 5 (by decide) ?_),
    by decide⟩
  intro m hm
  simp only [List.mem_cons, List.not_mem_nil, or_false] at hm
  rcases hm with rfl | rfl <;> rfl

/-- A host that nobody has ever seen is lost. -/
theorem discovery_unknown_host :
    nothingDiscovered.Sound 0 dhostid ∧
    processRules 0 dhostid dserviceid nothingDiscovered [⟨2, someAddress, 1000, [portCheck 80 false 1001]⟩] =
      some nothingDiscovered ∧
    processDiscoveryData 0 dhostid dserviceid nothingDiscovered
        ⟨1500, 1500, recordAddress ⟨2, someAddress, 1000, [portCheck 80 false 1001]⟩⟩ =
      some { nothingDiscovered with
        events := [⟨eventObjectDhost, 0, dobjectStatusDown⟩, ⟨eventObjectDhost, 0, dobjectStatusLost⟩] } :=
  ⟨nothingDiscovered_sound, by decide, by decide⟩

end Zabbix
