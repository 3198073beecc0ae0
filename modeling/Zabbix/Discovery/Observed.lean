import Zabbix.Discovery.Edges
import Zabbix.Discovery.Replay

/-!
# Zabbix.Discovery.Observed

What a run of discovery rules shows of each host and each service.

A check changes what is shown of its own service alone, and the end of an address
what is shown of its own host, each as `Shown.next` says; so after a run an object
is as the results for it have left it, one after the other.

* `updateHostService_shown` — a check of a known host;
* `checks_observed` and `processAddress_shown` — the checks of an address, and its end;
* `discovery_traced` — a run, and the checks of one more address.
-/

namespace Zabbix

variable {schema : Schema} {configNodeid : ℤ} {ch cs : Column schema} {s s' : Discovery}

/-! ## what is shown -/

/-- The values of the events about an object, the last one first. -/
def valuesOf (events : List DiscoveryEvent) (object : ℤ) (objectid : ℕ) : List ℤ :=
  (events.filter fun e => e.object = object ∧ e.objectid = objectid).map DiscoveryEvent.value

/-- What a host is found by. -/
structure HostKey where
  druleid : ℕ
  ip : IpText
deriving DecidableEq

/-- What a service of a host is found by. -/
structure RowKey where
  dhostid : ℕ
  type : ℤ
  port : ℤ
  key_ : StoredText dserviceKeyLen
deriving DecidableEq

/-- What a service is known by. -/
structure ServiceKey where
  host : HostKey
  type : ℤ
  port : ℤ
  key_ : StoredText dserviceKeyLen
deriving DecidableEq

namespace Discovery

def hostRow (configNodeid : ℤ) (s : Discovery) (k : HostKey) : Option DhostRow :=
  s.findDhost configNodeid k.druleid (storedText dhostIpLen k.ip.text)

def serviceRow (s : Discovery) (k : RowKey) : Option DserviceRow := s.findDservice k.dhostid k.type k.port k.key_

/-- What is shown of a host. -/
def shownHost (configNodeid : ℤ) (s : Discovery) (k : HostKey) : Option Shown :=
  (s.hostRow configNodeid k).map fun row =>
    ⟨row.status, row.lastup, row.lastdown, valuesOf s.events eventObjectDhost row.dhostid⟩

def shownRow (s : Discovery) (k : RowKey) : Option Shown :=
  (s.serviceRow k).map fun row =>
    ⟨row.status, row.lastup, row.lastdown, valuesOf s.events eventObjectDservice row.dserviceid⟩

/-- What is shown of a service. -/
def shownService (configNodeid : ℤ) (s : Discovery) (k : ServiceKey) : Option Shown :=
  (s.hostRow configNodeid k.host).bind fun row => s.shownRow ⟨row.dhostid, k.type, k.port, k.key_⟩

end Discovery

/-- What holds of the tables: the identifiers are keys, and those that will be
handed out are behind them; services belong to hosts, and events to rows. -/
structure Discovery.Kept (configNodeid : ℤ) (ch cs : Column schema) (s : Discovery) : Prop where
  hostIds : SlotKept (nodeOf configNodeid) ch s.hostIds s.dhostids
  serviceIds : SlotKept (nodeOf configNodeid) cs s.serviceIds s.dserviceids
  hostKey : s.dhostids.Nodup
  serviceKey : s.dserviceids.Nodup
  hosts : ∀ row ∈ s.dhosts, row.dhostid ≠ 0
  services : ∀ row ∈ s.dservices, row.dserviceid ≠ 0
  owners : ∀ row ∈ s.dservices, row.dhostid ∈ s.dhostids
  hostEvents : ∀ e ∈ s.events, e.object = eventObjectDhost → e.objectid ∈ s.dhostids
  serviceEvents : ∀ e ∈ s.events, e.object = eventObjectDservice → e.objectid ∈ s.dserviceids

/-! ## events -/

/-- Some events about an object. -/
def eventsOf (object : ℤ) (objectid : ℕ) (values : List ℤ) : List DiscoveryEvent :=
  values.map fun value => ⟨object, objectid, value⟩

theorem valuesOf_append (es es' : List DiscoveryEvent) (object : ℤ) (objectid : ℕ) :
    valuesOf (es ++ es') object objectid = valuesOf es object objectid ++ valuesOf es' object objectid := by
  rw [valuesOf, List.filter_append, List.map_append]
  rfl

@[simp] theorem valuesOf_eventsOf (object : ℤ) (objectid : ℕ) (values : List ℤ) :
    valuesOf (eventsOf object objectid values) object objectid = values := by
  rw [valuesOf, eventsOf, List.filter_eq_self.mpr, List.map_map]
  · exact List.map_id _
  · intro e he
    obtain ⟨value, -, rfl⟩ := List.mem_map.mp he
    simp

theorem valuesOf_eventsOf_ne {object object' : ℤ} {objectid objectid' : ℕ}
    (h : (object, objectid) ≠ (object', objectid')) (values : List ℤ) :
    valuesOf (eventsOf object objectid values) object' objectid' = [] := by
  rw [valuesOf, eventsOf, List.filter_eq_nil_iff.mpr, List.map_nil]
  intro e he
  obtain ⟨value, -, rfl⟩ := List.mem_map.mp he
  simpa using h

theorem valuesOf_eq_nil {es : List DiscoveryEvent} {object : ℤ} {objectid : ℕ}
    (h : ∀ e ∈ es, e.object = object → e.objectid ≠ objectid) : valuesOf es object objectid = [] := by
  rw [valuesOf, List.filter_eq_nil_iff.mpr, List.map_nil]
  intro e he hkey
  obtain ⟨hobject, hid⟩ := of_decide_eq_true hkey
  exact h e he hobject hid

theorem mem_eventsOf {e : DiscoveryEvent} {object : ℤ} {objectid : ℕ} {values : List ℤ}
    (h : e ∈ eventsOf object objectid values) : e.object = object ∧ e.objectid = objectid := by
  obtain ⟨value, -, rfl⟩ := List.mem_map.mp h
  exact ⟨rfl, rfl⟩

/-! ## a service -/

/-- The row is that of the key. -/
def RowKey.Of (k : RowKey) (row : DserviceRow) : Prop :=
  row.dhostid = k.dhostid ∧ row.type = k.type ∧ row.port = k.port ∧ row.key_ = k.key_

instance (k : RowKey) (row : DserviceRow) : Decidable (k.Of row) := inferInstanceAs (Decidable (_ ∧ _))

theorem serviceRow_eq (s : Discovery) (k : RowKey) : s.serviceRow k = s.dservices.find? fun row => k.Of row := rfl

theorem RowKey.Of.unique {k k' : RowKey} {row : DserviceRow} (h : k.Of row) (h' : k'.Of row) : k = k' := by
  obtain ⟨h₁, h₂, h₃, h₄⟩ := h
  obtain ⟨h₁', h₂', h₃', h₄'⟩ := h'
  cases k
  cases k'
  simp_all

/-- The key of the service of a check. -/
def rowKeyOf (dhostid : ℕ) (check : DbDcheck) (port : ℤ) : RowKey :=
  ⟨dhostid, check.type, port, storedText dserviceKeyLen (serviceOf dhostid check).key_⟩

/-- A row keeps its keys. -/
structure KeepsKey (g : DserviceRow → DserviceRow) : Prop where
  id : ∀ row, (g row).dserviceid = row.dserviceid
  key : ∀ (k : RowKey) row, k.Of (g row) ↔ k.Of row

/-- What an update of a service does to the rows and to the events. -/
structure DserviceUpdate (service : DbDservice) (r : EdgeResult) (g : DserviceRow → DserviceRow) (values : List ℤ) :
    Prop where
  keeps : KeepsKey g
  others : ∀ row, row.dserviceid ≠ service.dserviceid → g row = row
  shown : ∀ row es, row.dserviceid = service.dserviceid → row.status = service.status → row.lastup = service.lastup →
    row.lastdown = service.lastdown → (⟨(g row).status, (g row).lastup, (g row).lastdown, values ++ es⟩ : Shown) =
      (⟨row.status, row.lastup, row.lastdown, es⟩ : Shown).update r

theorem DserviceUpdate.of_ite {service : DbDservice} {r : EdgeResult} {f : DserviceRow → DserviceRow} {values : List ℤ}
    (hf : KeepsKey f)
    (hshown : ∀ row es, row.status = service.status → row.lastup = service.lastup → row.lastdown = service.lastdown →
      (⟨(f row).status, (f row).lastup, (f row).lastdown, values ++ es⟩ : Shown) =
        (⟨row.status, row.lastup, row.lastdown, es⟩ : Shown).update r) :
    DserviceUpdate service r (fun row => if row.dserviceid = service.dserviceid then f row else row) values where
  keeps :=
    { id := fun row => by
        split
        · exact hf.id row
        · rfl
      key := fun k row => by
        split
        · exact hf.key k row
        · rfl }
  others := fun row hne => if_neg hne
  shown := fun row es hid hstatus hlastup hlastdown => by
    rw [if_pos hid]
    exact hshown row es hstatus hlastup hlastdown

theorem updateServiceStatus_form (s : Discovery) (service : DbDservice) {check : DbDcheck} {up : Bool}
    (hup : check.status = dobjectStatus up) (now : ℤ) :
    ∃ g values, DserviceUpdate service ⟨up, now⟩ g values ∧
      updateServiceStatus s service check now =
        { s with
          dservices := s.dservices.map g
          events := eventsOf eventObjectDservice service.dserviceid values ++ s.events } := by
  rw [updateServiceStatus, hup]
  cases up with
  | true =>
      rw [if_pos (show dobjectStatus true = dobjectStatusUp from rfl)]
      by_cases hchange : service.status = dobjectStatusDown ∨ service.lastup = 0
      · rw [if_pos hchange]
        refine ⟨_, [dobjectStatusUp, dobjectStatusDiscover], .of_ite (f := fun row => { row with
          status := dobjectStatusUp
          lastup := now
          lastdown := 0
          value := storedText dserviceValueLen check.value }) ⟨fun _ => rfl, fun _ _ => Iff.rfl⟩ ?_, rfl⟩
        intro row es hrow hlastup hlastdown
        rw [Shown.update, if_pos rfl, if_pos (by rwa [hrow, hlastup])]
        rfl
      · rw [if_neg hchange]
        by_cases hvalue : service.value = check.value
        · rw [if_neg (not_not.mpr hvalue)]
          refine ⟨id, [dobjectStatusUp], ⟨⟨fun _ => rfl, fun _ _ => Iff.rfl⟩, fun _ _ => rfl, ?_⟩, ?_⟩
          · intro row es hid hrow hlastup hlastdown
            rw [Shown.update, if_pos rfl, if_neg (by rwa [hrow, hlastup])]
            rfl
          · rw [List.map_id]
            rfl
        · rw [if_pos hvalue]
          refine ⟨_, [dobjectStatusUp], .of_ite
            (f := fun row => { row with value := storedText dserviceValueLen check.value })
            ⟨fun _ => rfl, fun _ _ => Iff.rfl⟩ ?_, rfl⟩
          intro row es hrow hlastup hlastdown
          rw [Shown.update, if_pos rfl, if_neg (by rwa [hrow, hlastup])]
          rfl
  | false =>
      rw [if_neg (show ¬dobjectStatus false = dobjectStatusUp by decide)]
      by_cases hchange : service.status = dobjectStatusUp ∨ service.lastdown = 0
      · rw [if_pos hchange]
        refine ⟨_, [dobjectStatusDown, dobjectStatusLost], .of_ite (f := fun row => { row with
          status := dobjectStatusDown
          lastup := 0
          lastdown := now
          value := storedText dserviceValueLen service.value }) ⟨fun _ => rfl, fun _ _ => Iff.rfl⟩ ?_, rfl⟩
        intro row es hrow hlastup hlastdown
        rw [Shown.update, if_neg Bool.false_ne_true, if_pos (by rwa [hrow, hlastdown])]
        rfl
      · rw [if_neg hchange]
        refine ⟨id, [dobjectStatusDown], ⟨⟨fun _ => rfl, fun _ _ => Iff.rfl⟩, fun _ _ => rfl, ?_⟩, ?_⟩
        · intro row es hid hrow hlastup hlastdown
          rw [Shown.update, if_neg Bool.false_ne_true, if_neg (by rwa [hrow, hlastdown])]
          rfl
        · rw [List.map_id]
          rfl

theorem KeepsKey.dhostid {g : DserviceRow → DserviceRow} (hg : KeepsKey g) (row : DserviceRow) :
    (g row).dhostid = row.dhostid :=
  ((hg.key ⟨row.dhostid, row.type, row.port, row.key_⟩ row).mpr ⟨rfl, rfl, rfl, rfl⟩).1

theorem serviceRow_map {g : DserviceRow → DserviceRow} (hg : KeepsKey g) (s : Discovery) (es : List DiscoveryEvent)
    (k : RowKey) :
    Discovery.serviceRow { s with dservices := s.dservices.map g, events := es } k = (s.serviceRow k).map g := by
  have hsame : (fun row => decide (k.Of row)) ∘ g = fun row => decide (k.Of row) :=
    funext fun row => decide_eq_decide.mpr (hg.key k row)
  rw [serviceRow_eq, serviceRow_eq, List.find?_map, hsame]

theorem of_serviceRow {k : RowKey} {row : DserviceRow} (h : s.serviceRow k = some row) : row ∈ s.dservices ∧ k.Of row := by
  rw [serviceRow_eq] at h
  exact ⟨List.mem_of_find?_eq_some h, of_decide_eq_true (@List.find?_some _ _ row _ h)⟩

/-- An update of a service changes what is shown of it, and nothing else. -/
theorem DserviceUpdate.shownRow {service : DbDservice} {r : EdgeResult} {g : DserviceRow → DserviceRow} {values : List ℤ}
    (h : DserviceUpdate service r g values) (hkey : s.dserviceids.Nodup) {k : RowKey} {row : DserviceRow}
    (hrow : s.serviceRow k = some row) (hid : row.dserviceid = service.dserviceid) (hstatus : row.status = service.status)
    (hlastup : row.lastup = service.lastup) (hlastdown : row.lastdown = service.lastdown) (k' : RowKey) :
    Discovery.shownRow { s with
        dservices := s.dservices.map g
        events := eventsOf eventObjectDservice service.dserviceid values ++ s.events } k' =
      if k' = k then Shown.next (s.shownRow k) r else s.shownRow k' := by
  obtain ⟨hmem, hof⟩ := of_serviceRow hrow
  rw [Discovery.shownRow, serviceRow_map h.keeps, Option.map_map]
  by_cases hsame : k' = k
  · obtain rfl := hsame
    rw [if_pos rfl, hrow, Discovery.shownRow, hrow, Option.map_some, Option.map_some, Shown.next,
      ← h.shown row _ hid hstatus hlastup hlastdown, Function.comp_apply, h.keeps.id, valuesOf_append, hid,
      valuesOf_eventsOf]
  · rw [if_neg hsame, Discovery.shownRow]
    cases hrow' : s.serviceRow k' with
    | none => rfl
    | some row' =>
        obtain ⟨hmem', hof'⟩ := of_serviceRow hrow'
        have hne : row'.dserviceid ≠ service.dserviceid := by
          intro heq
          obtain rfl := List.inj_on_of_nodup_map hkey hmem' hmem (heq.trans hid.symm)
          exact hsame (hof'.unique hof)
        have hother : (eventObjectDservice, service.dserviceid) ≠ (eventObjectDservice, row'.dserviceid) :=
          fun heq => hne (Prod.mk.inj heq).2.symm
        rw [Option.map_some, Option.map_some, Function.comp_apply, h.others row' hne, valuesOf_append,
          valuesOf_eventsOf_ne hother, List.nil_append]

theorem Discovery.Kept.updateService (hs : s.Kept configNodeid ch cs) {g : DserviceRow → DserviceRow} (hg : KeepsKey g)
    {id : ℕ} (hid : id ∈ s.dserviceids) (values : List ℤ) :
    Discovery.Kept configNodeid ch cs { s with
      dservices := s.dservices.map g
      events := eventsOf eventObjectDservice id values ++ s.events } := by
  have hids : (s.dservices.map g).map DserviceRow.dserviceid = s.dserviceids := by
    rw [List.map_map]
    exact List.map_congr_left fun row _ => hg.id row
  refine ⟨hs.hostIds, ?_, hs.hostKey, ?_, hs.hosts, ?_, ?_, ?_, ?_⟩
  · rw [Discovery.dserviceids, hids]
    exact hs.serviceIds
  · rw [Discovery.dserviceids, hids]
    exact hs.serviceKey
  · intro row hrow
    obtain ⟨old, hold, rfl⟩ := List.mem_map.mp hrow
    exact hg.id old ▸ hs.services old hold
  · intro row hrow
    obtain ⟨old, hold, rfl⟩ := List.mem_map.mp hrow
    exact hg.dhostid old ▸ hs.owners old hold
  · intro e he hobject
    rcases List.mem_append.mp he with he | he
    · rw [(mem_eventsOf he).1] at hobject
      exact absurd hobject (by decide)
    · exact hs.hostEvents e he hobject
  · intro e he hobject
    rw [Discovery.dserviceids, hids]
    rcases List.mem_append.mp he with he | he
    · rw [(mem_eventsOf he).2]
      exact hid
    · exact hs.serviceEvents e he hobject

/-- A new row of a service. -/
def newServiceRow (k : RowKey) (dserviceid : ℕ) : DserviceRow :=
  ⟨dserviceid, k.dhostid, k.type, k.key_, zeroText, k.port, dobjectStatusDown, 0, 0⟩

/-- A new service, with the next identifier. -/
theorem Discovery.Kept.insertService (hs : s.Kept configNodeid ch cs) {k : RowKey} (howner : k.dhostid ∈ s.dhostids)
    {id : ℕ} (hid : dbGetMaxidCached (nodeOf configNodeid) cs s.serviceIds s.dserviceids = some id)
    (hnone : s.serviceRow k = none) :
    let s' := { s with serviceIds := some id, dservices := s.dservices ++ [newServiceRow k id] }
    { s with serviceIds := some id }.insertDservice (newServiceRow k id) = s' ∧
      s'.Kept configNodeid ch cs ∧ s'.serviceRow k = some (newServiceRow k id) ∧
      ∀ k', s'.shownRow k' = if k' = k then some Shown.registered else s.shownRow k' := by
  obtain ⟨hnew, hne, -, -, hslot⟩ := hs.serviceIds.next hid
  intro s'
  have hids : s'.dserviceids = s.dserviceids ++ [id] := by
    rw [Discovery.dserviceids, List.map_append]
    rfl
  have hrow (k' : RowKey) : s'.serviceRow k' =
      (s.serviceRow k').or (if k' = k then some (newServiceRow k id) else none) := by
    rw [serviceRow_eq, serviceRow_eq, List.find?_append, List.find?_singleton]
    congr 1
    refine if_congr ?_ rfl rfl
    rw [decide_eq_true_iff]
    exact ⟨fun hof => hof.unique ⟨rfl, rfl, rfl, rfl⟩, fun heq => heq ▸ ⟨rfl, rfl, rfl, rfl⟩⟩
  refine ⟨?_, ?_, ?_, fun k' => ?_⟩
  · rw [Discovery.insertDservice, if_neg]
    rintro ⟨row, hrow, (hrowid : row.dserviceid = id)⟩
    exact hnew (hrowid ▸ List.mem_map_of_mem hrow)
  · refine ⟨hs.hostIds, ?_, hs.hostKey, ?_, hs.hosts, ?_, ?_, hs.hostEvents, ?_⟩
    · rw [hids]
      exact hslot
    · rw [hids, List.nodup_append]
      exact ⟨hs.serviceKey, List.nodup_singleton _, fun a ha b hb hab => hnew (List.mem_singleton.mp hb ▸ hab ▸ ha)⟩
    · intro row hrow
      rcases List.mem_append.mp hrow with hrow | hrow
      · exact hs.services row hrow
      · rw [List.mem_singleton.mp hrow]
        exact hne
    · intro row hrow
      rcases List.mem_append.mp hrow with hrow | hrow
      · exact hs.owners row hrow
      · rw [List.mem_singleton.mp hrow]
        exact howner
    · intro e he hobject
      rw [hids]
      exact List.mem_append_left _ (hs.serviceEvents e he hobject)
  · rw [hrow, hnone, if_pos rfl]
    rfl
  · rw [Discovery.shownRow, hrow, Discovery.shownRow]
    by_cases hsame : k' = k
    · obtain rfl := hsame
      have hnil : valuesOf s.events eventObjectDservice id = [] :=
        valuesOf_eq_nil fun e he hobject heq => hnew (heq ▸ hs.serviceEvents e he hobject)
      rw [hnone, if_pos rfl, if_pos rfl, Option.none_or, Option.map_some]
      exact congrArg (fun es => some (⟨dobjectStatusDown, 0, 0, es⟩ : Shown)) hnil
    · rw [if_neg hsame, if_neg hsame, Option.or_none]

/-- The hosts, and what is shown of them, are the same. -/
structure SameHosts (s s' : Discovery) : Prop where
  dhosts : s'.dhosts = s.dhosts
  values : ∀ dhostid, valuesOf s'.events eventObjectDhost dhostid = valuesOf s.events eventObjectDhost dhostid

theorem SameHosts.append {rows : List DserviceRow} {ids : Option ℕ} {dserviceid : ℕ} {values : List ℤ} :
    SameHosts s { s with
      dservices := rows
      serviceIds := ids
      events := eventsOf eventObjectDservice dserviceid values ++ s.events } where
  dhosts := rfl
  values := fun dhostid => by
    have hother : (eventObjectDservice, dserviceid) ≠ (eventObjectDhost, dhostid) :=
      fun heq => absurd (Prod.mk.inj heq).1 (by decide)
    rw [valuesOf_append, valuesOf_eventsOf_ne hother, List.nil_append]

/-- The record of the program has what the row has. -/
structure DbDservice.Mirrors (service : DbDservice) (row : DserviceRow) : Prop where
  dserviceid : row.dserviceid = service.dserviceid
  status : row.status = service.status
  lastup : row.lastup = service.lastup
  lastdown : row.lastdown = service.lastdown

/-- `register_service` leaves a service that is down unknown, or makes sure that
there is a row, of which the record is a copy. -/
theorem registerService_kept (hs : s.Kept configNodeid ch cs) {dhostid : ℕ} (howner : dhostid ∈ s.dhostids)
    {check : DbDcheck} {up : Bool} (hup : check.status = dobjectStatus up) {port : ℤ} {service : DbDservice}
    (h : registerService configNodeid cs s (serviceOf dhostid check) port check.status = some (s', service)) :
    (service.dserviceid = 0 ∧ s' = s ∧ up = false ∧ s.shownRow (rowKeyOf dhostid check port) = none) ∨
      ∃ row, s'.Kept configNodeid ch cs ∧ SameHosts s s' ∧ s'.serviceRow (rowKeyOf dhostid check port) = some row ∧
        service.Mirrors row ∧ (s.shownRow (rowKeyOf dhostid check port) = none → up = true) ∧
        ∀ k, s'.shownRow k =
          if k = rowKeyOf dhostid check port then
            some ((s.shownRow (rowKeyOf dhostid check port)).getD Shown.registered)
          else s.shownRow k := by
  have hfind : s.findDservice (serviceOf dhostid check).dhostid (serviceOf dhostid check).type port
      (storedText dserviceKeyLen (serviceOf dhostid check).key_) = s.serviceRow (rowKeyOf dhostid check port) := rfl
  rw [registerService, hfind] at h
  cases hrow : s.serviceRow (rowKeyOf dhostid check port) with
  | some row =>
      rw [hrow] at h
      obtain ⟨rfl, rfl⟩ := Prod.mk.inj (Option.some.inj h)
      have hshown : s.shownRow (rowKeyOf dhostid check port) =
          some ⟨row.status, row.lastup, row.lastdown, valuesOf s.events eventObjectDservice row.dserviceid⟩ := by
        rw [Discovery.shownRow, hrow, Option.map_some]
      refine .inr ⟨row, hs, ⟨rfl, fun _ => rfl⟩, hrow, ⟨rfl, rfl, rfl, rfl⟩, ?_, fun k => ?_⟩
      · intro hnone
        rw [hshown] at hnone
        cases hnone
      · by_cases hsame : k = rowKeyOf dhostid check port
        · rw [if_pos hsame, hsame, hshown, Option.getD_some]
        · rw [if_neg hsame]
  | none =>
      rw [hrow] at h
      have hunknown : s.shownRow (rowKeyOf dhostid check port) = none := by rw [Discovery.shownRow, hrow, Option.map_none]
      rw [hunknown]
      cases up with
      | false =>
          have hdown : check.status ≠ dobjectStatusUp := by
            rw [hup]
            decide
          have h : (if check.status = dobjectStatusUp then _ else _) = _ := h
          rw [if_neg hdown] at h
          obtain ⟨rfl, rfl⟩ := Prod.mk.inj (Option.some.inj h)
          exact .inl ⟨rfl, rfl, rfl, rfl⟩
      | true =>
          have hisup : check.status = dobjectStatusUp := hup
          have h : (if check.status = dobjectStatusUp then _ else _) = _ := h
          rw [if_pos hisup] at h
          obtain ⟨id, hid, hnew⟩ := Option.map_eq_some_iff.mp h
          obtain ⟨hinsert, hkept, hnewrow, hshown⟩ := hs.insertService (k := rowKeyOf dhostid check port) howner hid hrow
          obtain ⟨hstate, rfl⟩ := Prod.mk.inj hnew
          obtain rfl := hstate.symm.trans hinsert
          have hsame := @SameHosts.append s (s.dservices ++ [newServiceRow (rowKeyOf dhostid check port) id]) (some id) 0 []
          exact .inr ⟨_, hkept, hsame, hnewrow, ⟨rfl, rfl, rfl, rfl⟩, fun _ => rfl, hshown⟩

/-- **A check of a known host** changes what is shown of its service. -/
theorem updateHostService_shown (hs : s.Kept configNodeid ch cs) {dhostid : ℕ} (howner : dhostid ∈ s.dhostids)
    {check : DbDcheck} {up : Bool} (hup : check.status = dobjectStatus up) {port now : ℤ}
    (h : updateHostService configNodeid cs s dhostid check port now = some s') :
    s'.Kept configNodeid ch cs ∧ SameHosts s s' ∧
      ∀ k, s'.shownRow k =
        if k = rowKeyOf dhostid check port then Shown.next (s.shownRow k) ⟨up, now⟩ else s.shownRow k := by
  obtain ⟨⟨s₁, service⟩, hregister, rfl⟩ := Option.map_eq_some_iff.mp h
  dsimp only
  obtain ⟨hid, rfl, rfl, hunknown⟩ | ⟨row, hkept, hsame, hrow, hmirrors, hknown, hshown⟩ :=
    registerService_kept hs howner hup hregister
  · rw [if_pos hid]
    refine ⟨hs, ⟨rfl, fun _ => rfl⟩, fun k => ?_⟩
    by_cases hsame : k = rowKeyOf dhostid check port
    · rw [if_pos hsame, hsame, hunknown]
      rfl
    · rw [if_neg hsame]
  · have hmem := (of_serviceRow hrow).1
    rw [if_neg (hmirrors.dserviceid ▸ hkept.services row hmem)]
    obtain ⟨g, values, hupdate, hform⟩ := updateServiceStatus_form s₁ service hup now
    rw [hform]
    have hid : service.dserviceid ∈ s₁.dserviceids := hmirrors.dserviceid ▸ List.mem_map_of_mem hmem
    have hevents := @SameHosts.append s₁ (s₁.dservices.map g) s₁.serviceIds service.dserviceid values
    refine ⟨hkept.updateService hupdate.keeps hid values,
      ⟨hevents.dhosts.trans hsame.dhosts, fun id => (hevents.values id).trans (hsame.values id)⟩, fun k => ?_⟩
    rw [hupdate.shownRow hkept.serviceKey hrow hmirrors.dserviceid hmirrors.status hmirrors.lastup hmirrors.lastdown,
      hshown, hshown, if_pos rfl]
    by_cases hkey : k = rowKeyOf dhostid check port
    · rw [if_pos hkey, if_pos hkey, hkey]
      cases hbefore : s.shownRow (rowKeyOf dhostid check port) with
      | none =>
          rw [hknown hbefore]
          rfl
      | some v => rfl
    · rw [if_neg hkey, if_neg hkey, if_neg hkey]

/-! ## a host -/

/-- The row is that of the key. -/
def HostKey.Of (configNodeid : ℤ) (k : HostKey) (row : DhostRow) : Prop :=
  row.druleid = k.druleid ∧ row.ip = storedText dhostIpLen k.ip.text ∧ dbNodeLocal configNodeid row.dhostid

instance (k : HostKey) (row : DhostRow) : Decidable (k.Of configNodeid row) := inferInstanceAs (Decidable (_ ∧ _))

theorem hostRow_eq (s : Discovery) (k : HostKey) :
    s.hostRow configNodeid k = s.dhosts.find? fun row => k.Of configNodeid row := rfl

theorem of_hostRow {k : HostKey} {row : DhostRow} (h : s.hostRow configNodeid k = some row) :
    row ∈ s.dhosts ∧ k.Of configNodeid row := by
  rw [hostRow_eq] at h
  exact ⟨List.mem_of_find?_eq_some h, of_decide_eq_true (@List.find?_some _ _ row _ h)⟩

theorem IpText.eq_of_stored {ip ip' : IpText}
    (h : storedText dhostIpLen ip.text = storedText dhostIpLen ip'.text) : ip = ip' := by
  have htext : ip.text = ip'.text := by rw [← ip.stored, h, ip'.stored]
  cases ip
  cases ip'
  cases htext
  rfl

theorem HostKey.Of.unique {k k' : HostKey} {row : DhostRow} (h : k.Of configNodeid row) (h' : k'.Of configNodeid row) :
    k = k' := by
  obtain ⟨hdruleid, hip, -⟩ := h
  obtain ⟨hdruleid', hip', -⟩ := h'
  have hips := IpText.eq_of_stored (hip.symm.trans hip')
  cases k
  cases k'
  simp_all

/-- Hosts with one identifier are one host. -/
theorem Discovery.Kept.hostRow_unique (hs : s.Kept configNodeid ch cs) {k k' : HostKey} {row row' : DhostRow}
    (h : s.hostRow configNodeid k = some row) (h' : s.hostRow configNodeid k' = some row')
    (hid : row'.dhostid = row.dhostid) : k' = k := by
  obtain ⟨hmem, hof⟩ := of_hostRow h
  obtain ⟨hmem', hof'⟩ := of_hostRow h'
  obtain rfl := List.inj_on_of_nodup_map hs.hostKey hmem' hmem hid
  exact hof'.unique hof

/-- A row keeps its keys. -/
def KeepsHost (g : DhostRow → DhostRow) : Prop :=
  ∀ row, (g row).dhostid = row.dhostid ∧ (g row).druleid = row.druleid ∧ (g row).ip = row.ip

/-- What an update of a host does to the rows and to the events.  The record of a
new host is down, whatever its row is. -/
structure DhostUpdate (dhost : DbDhost) (r : EdgeResult) (g : DhostRow → DhostRow) (values : List ℤ) : Prop where
  keeps : KeepsHost g
  others : ∀ row, row.dhostid ≠ dhost.dhostid → g row = row
  shown : ∀ row es, row.dhostid = dhost.dhostid →
    (row.status = dhost.status ∧ row.lastup = dhost.lastup ∧ row.lastdown = dhost.lastdown) ∨
      (r.up = true ∧ dhost.status = dobjectStatusDown) →
    (⟨(g row).status, (g row).lastup, (g row).lastdown, values ++ es⟩ : Shown) =
      (⟨dhost.status, dhost.lastup, dhost.lastdown, es⟩ : Shown).update r

theorem DhostUpdate.of_write {dhost : DbDhost} {r : EdgeResult} {v : Shown}
    (hshown : ∀ es, (⟨v.status, v.lastup, v.lastdown, v.events ++ es⟩ : Shown) =
      (⟨dhost.status, dhost.lastup, dhost.lastdown, es⟩ : Shown).update r) :
    DhostUpdate dhost r (fun row =>
      if row.dhostid = dhost.dhostid then
        { row with status := v.status, lastup := v.lastup, lastdown := v.lastdown }
      else row) v.events where
  keeps := fun row => by
    dsimp only
    split
    · exact ⟨rfl, rfl, rfl⟩
    · exact ⟨rfl, rfl, rfl⟩
  others := fun row hne => if_neg hne
  shown := fun row es hid _ => by
    rw [if_pos hid]
    exact hshown es

theorem updateHostStatus_form (s : Discovery) (dhost : DbDhost) {status : ℤ} {up : Bool} (hup : status = dobjectStatus up)
    (now : ℤ) :
    ∃ g values, DhostUpdate dhost ⟨up, now⟩ g values ∧
      updateHostStatus s dhost status now =
        { s with
          dhosts := s.dhosts.map g
          events := eventsOf eventObjectDhost dhost.dhostid values ++ s.events } := by
  rw [updateHostStatus, hup]
  cases up with
  | true =>
      rw [if_pos (show dobjectStatus true = dobjectStatusUp from rfl)]
      by_cases hchange : dhost.status = dobjectStatusDown ∨ dhost.lastup = 0
      · rw [if_pos hchange]
        refine ⟨_, _, @DhostUpdate.of_write dhost ⟨true, now⟩
          ⟨dobjectStatusUp, now, 0, [dobjectStatusUp, dobjectStatusDiscover]⟩ fun es => ?_, rfl⟩
        rw [Shown.update, if_pos rfl, if_pos hchange]
        rfl
      · rw [if_neg hchange]
        refine ⟨id, [dobjectStatusUp], ⟨fun _ => ⟨rfl, rfl, rfl⟩, fun _ _ => rfl, ?_⟩, ?_⟩
        · intro row es _ hrow
          obtain ⟨hstatus, hlastup, hlastdown⟩ := hrow.resolve_right fun h => hchange (.inl h.2)
          rw [Shown.update, if_pos rfl, if_neg hchange, ← hstatus, ← hlastup, ← hlastdown]
          rfl
        · rw [List.map_id]
          rfl
  | false =>
      rw [if_neg (show ¬dobjectStatus false = dobjectStatusUp by decide)]
      by_cases hchange : dhost.status = dobjectStatusUp ∨ dhost.lastdown = 0
      · rw [if_pos hchange]
        refine ⟨_, _, @DhostUpdate.of_write dhost ⟨false, now⟩
          ⟨dobjectStatusDown, 0, now, [dobjectStatusDown, dobjectStatusLost]⟩ fun es => ?_, rfl⟩
        rw [Shown.update, if_neg Bool.false_ne_true, if_pos hchange]
        rfl
      · rw [if_neg hchange]
        refine ⟨id, [dobjectStatusDown], ⟨fun _ => ⟨rfl, rfl, rfl⟩, fun _ _ => rfl, ?_⟩, ?_⟩
        · intro row es _ hrow
          obtain ⟨hstatus, hlastup, hlastdown⟩ := hrow.resolve_right fun h => Bool.false_ne_true h.1
          rw [Shown.update, if_neg Bool.false_ne_true, if_neg hchange, ← hstatus, ← hlastup, ← hlastdown]
          rfl
        · rw [List.map_id]
          rfl

theorem hostRow_map {g : DhostRow → DhostRow} (hg : KeepsHost g) (s : Discovery) (es : List DiscoveryEvent) (k : HostKey) :
    Discovery.hostRow configNodeid { s with dhosts := s.dhosts.map g, events := es } k =
      (s.hostRow configNodeid k).map g := by
  have hsame : (fun row => decide (k.Of configNodeid row)) ∘ g = fun row => decide (k.Of configNodeid row) := by
    refine funext fun row => decide_eq_decide.mpr ?_
    obtain ⟨hid, hdruleid, hip⟩ := hg row
    rw [HostKey.Of, HostKey.Of, hid, hdruleid, hip]
  rw [hostRow_eq, hostRow_eq, List.find?_map, hsame]

/-- An update of a host changes what is shown of it, and nothing else. -/
theorem DhostUpdate.shownHost {dhost : DbDhost} {r : EdgeResult} {g : DhostRow → DhostRow} {values : List ℤ}
    (h : DhostUpdate dhost r g values) (hs : s.Kept configNodeid ch cs) {k : HostKey} {row : DhostRow}
    (hrow : s.hostRow configNodeid k = some row) (hid : row.dhostid = dhost.dhostid)
    (hmirror : (row.status = dhost.status ∧ row.lastup = dhost.lastup ∧ row.lastdown = dhost.lastdown) ∨
      (r.up = true ∧ dhost.status = dobjectStatusDown)) (k' : HostKey) :
    Discovery.shownHost configNodeid { s with
        dhosts := s.dhosts.map g
        events := eventsOf eventObjectDhost dhost.dhostid values ++ s.events } k' =
      if k' = k then
        some ((⟨dhost.status, dhost.lastup, dhost.lastdown, valuesOf s.events eventObjectDhost dhost.dhostid⟩ : Shown).update r)
      else s.shownHost configNodeid k' := by
  rw [Discovery.shownHost, hostRow_map h.keeps, Option.map_map]
  by_cases hsame : k' = k
  · obtain rfl := hsame
    rw [if_pos rfl, hrow, Option.map_some, ← h.shown row _ hid hmirror, Function.comp_apply, (h.keeps row).1,
      valuesOf_append, hid, valuesOf_eventsOf]
  · rw [if_neg hsame, Discovery.shownHost]
    cases hrow' : s.hostRow configNodeid k' with
    | none => rfl
    | some row' =>
        have hne : row'.dhostid ≠ dhost.dhostid := fun heq => hsame (hs.hostRow_unique hrow hrow' (heq.trans hid.symm))
        have hother : (eventObjectDhost, dhost.dhostid) ≠ (eventObjectDhost, row'.dhostid) :=
          fun heq => hne (Prod.mk.inj heq).2.symm
        rw [Option.map_some, Option.map_some, Function.comp_apply, h.others row' hne, valuesOf_append,
          valuesOf_eventsOf_ne hother, List.nil_append]

theorem shownService_updateHost {g : DhostRow → DhostRow} (hg : KeepsHost g) (s : Discovery) (dhostid : ℕ)
    (values : List ℤ) (k : ServiceKey) :
    Discovery.shownService configNodeid { s with
        dhosts := s.dhosts.map g
        events := eventsOf eventObjectDhost dhostid values ++ s.events } k =
      s.shownService configNodeid k := by
  have hevents (dserviceid : ℕ) :
      valuesOf (eventsOf eventObjectDhost dhostid values ++ s.events) eventObjectDservice dserviceid =
        valuesOf s.events eventObjectDservice dserviceid := by
    have hother : (eventObjectDhost, dhostid) ≠ (eventObjectDservice, dserviceid) :=
      fun heq => absurd (Prod.mk.inj heq).1 (by decide)
    rw [valuesOf_append, valuesOf_eventsOf_ne hother, List.nil_append]
  rw [Discovery.shownService, hostRow_map hg, Discovery.shownService, Option.bind_map]
  refine Option.bind_congr fun row _ => ?_
  rw [Function.comp_apply, (hg row).1]
  refine Option.map_congr fun row _ => ?_
  rw [← hevents]

theorem Discovery.Kept.updateHost (hs : s.Kept configNodeid ch cs) {g : DhostRow → DhostRow} (hg : KeepsHost g) {id : ℕ}
    (hid : id ∈ s.dhostids) (values : List ℤ) :
    Discovery.Kept configNodeid ch cs { s with
      dhosts := s.dhosts.map g
      events := eventsOf eventObjectDhost id values ++ s.events } := by
  have hids : (s.dhosts.map g).map DhostRow.dhostid = s.dhostids := by
    rw [List.map_map]
    exact List.map_congr_left fun row _ => (hg row).1
  refine ⟨?_, hs.serviceIds, ?_, hs.serviceKey, ?_, hs.services, ?_, ?_, ?_⟩
  · rw [Discovery.dhostids, hids]
    exact hs.hostIds
  · rw [Discovery.dhostids, hids]
    exact hs.hostKey
  · intro row hrow
    obtain ⟨old, hold, rfl⟩ := List.mem_map.mp hrow
    exact (hg old).1 ▸ hs.hosts old hold
  · rw [Discovery.dhostids, hids]
    exact hs.owners
  · intro e he hobject
    rw [Discovery.dhostids, hids]
    rcases List.mem_append.mp he with he | he
    · rw [(mem_eventsOf he).2]
      exact hid
    · exact hs.hostEvents e he hobject
  · intro e he hobject
    rcases List.mem_append.mp he with he | he
    · rw [(mem_eventsOf he).1] at hobject
      exact absurd hobject (by decide)
    · exact hs.serviceEvents e he hobject

/-- A new host, with the next identifier: it has no events and no services. -/
theorem Discovery.Kept.insertHost (hnode : 0 ≤ configNodeid ∧ configNodeid ≤ 999) (hs : s.Kept configNodeid ch cs)
    {k : HostKey} {id : ℕ} (hid : dbGetMaxidCached (nodeOf configNodeid) ch s.hostIds s.dhostids = some id)
    (hnone : s.hostRow configNodeid k = none) :
    let row : DhostRow := ⟨id, k.druleid, storedText dhostIpLen k.ip.text, 0, 0, 0⟩
    let s' := { s with hostIds := some id, dhosts := s.dhosts ++ [row] }
    { s with hostIds := some id }.insertDhost row = s' ∧
      s'.Kept configNodeid ch cs ∧ s'.hostRow configNodeid k = some row ∧ id ≠ 0 ∧
      valuesOf s.events eventObjectDhost id = [] ∧
      (∀ k', k' ≠ k → s'.shownHost configNodeid k' = s.shownHost configNodeid k') ∧
      ∀ k', s'.shownService configNodeid k' = s.shownService configNodeid k' := by
  obtain ⟨hnew, hne, hmin, hmax, hslot⟩ := hs.hostIds.next hid
  have hlocal := @dbNodeLocal_of_range _ configNodeid ch hnode id hmin hmax
  intro row s'
  have hids : s'.dhostids = s.dhostids ++ [id] := by
    rw [Discovery.dhostids, List.map_append]
    rfl
  have hrow (k' : HostKey) : s'.hostRow configNodeid k' =
      (s.hostRow configNodeid k').or (if k' = k then some row else none) := by
    rw [hostRow_eq, hostRow_eq, List.find?_append, List.find?_singleton]
    congr 1
    refine if_congr ?_ rfl rfl
    rw [decide_eq_true_iff]
    have hof : k.Of configNodeid row := ⟨rfl, rfl, hlocal⟩
    exact ⟨fun hof' => hof'.unique hof, fun heq => heq ▸ hof⟩
  have hother (k' : HostKey) (hne : k' ≠ k) : s'.hostRow configNodeid k' = s.hostRow configNodeid k' := by
    rw [hrow, if_neg hne, Option.or_none]
  have hfound : s'.hostRow configNodeid k = some row := by
    rw [hrow, hnone, if_pos rfl, Option.none_or]
  refine ⟨?_, ?_, hfound, hne, ?_, fun k' hne => ?_, fun k' => ?_⟩
  · rw [Discovery.insertDhost, if_neg]
    rintro ⟨old, hold, (holdid : old.dhostid = id)⟩
    exact hnew (holdid ▸ List.mem_map_of_mem hold)
  · refine ⟨?_, hs.serviceIds, ?_, hs.serviceKey, ?_, hs.services, ?_, ?_, hs.serviceEvents⟩
    · rw [hids]
      exact hslot
    · rw [hids, List.nodup_append]
      exact ⟨hs.hostKey, List.nodup_singleton _, fun a ha b hb hab => hnew (List.mem_singleton.mp hb ▸ hab ▸ ha)⟩
    · intro old hold
      rcases List.mem_append.mp hold with hold | hold
      · exact hs.hosts old hold
      · rw [List.mem_singleton.mp hold]
        exact hne
    · intro old hold
      rw [hids]
      exact List.mem_append_left _ (hs.owners old hold)
    · intro e he hobject
      rw [hids]
      exact List.mem_append_left _ (hs.hostEvents e he hobject)
  · exact valuesOf_eq_nil fun e he hobject heq => hnew (heq ▸ hs.hostEvents e he hobject)
  · rw [Discovery.shownHost, hother k' hne]
    rfl
  · rw [Discovery.shownService, Discovery.shownService]
    by_cases hsame : k'.host = k
    · -- no service belongs to the new host
      have hunowned : s'.serviceRow ⟨id, k'.type, k'.port, k'.key_⟩ = none := by
        rw [serviceRow_eq, List.find?_eq_none]
        intro old hold hof
        have hownerid : old.dhostid = id := (of_decide_eq_true hof).1
        exact hnew (hownerid ▸ hs.owners old hold)
      rw [hsame, hfound, hnone, Option.bind_some, Option.bind_none, Discovery.shownRow, hunowned, Option.map_none]
    · rw [hother _ hsame]
      rfl

/-- The record of the program has what the row has. -/
structure DbDhost.Mirrors (dhost : DbDhost) (row : DhostRow) : Prop where
  dhostid : row.dhostid = dhost.dhostid
  status : row.status = dhost.status
  lastup : row.lastup = dhost.lastup
  lastdown : row.lastdown = dhost.lastdown

/-- The record is that of a host that has just been registered. -/
structure DbDhost.Registered (dhost : DbDhost) (s : Discovery) : Prop where
  status : dhost.status = dobjectStatusDown
  lastup : dhost.lastup = 0
  lastdown : dhost.lastdown = 0
  events : valuesOf s.events eventObjectDhost dhost.dhostid = []

/-- What `register_host` does for an address at which no host is remembered. -/
inductive HostRegistered (configNodeid : ℤ) (ch cs : Column schema) (s : Discovery) (k : HostKey) (up : Bool) :
    Discovery × DbDhost → Prop
  | unknown : up = false → s.hostRow configNodeid k = none →
      HostRegistered configNodeid ch cs s k up (s, DbDhost.fresh k.druleid)
  | known {row : DhostRow} {dhost : DbDhost} : s.hostRow configNodeid k = some row → dhost.Mirrors row →
      HostRegistered configNodeid ch cs s k up (s, dhost)
  | new {s' : Discovery} {row : DhostRow} {dhost : DbDhost} : up = true → s.hostRow configNodeid k = none →
      s'.Kept configNodeid ch cs → s'.hostRow configNodeid k = some row → row.dhostid = dhost.dhostid →
      dhost.Registered s' → (∀ k', k' ≠ k → s'.shownHost configNodeid k' = s.shownHost configNodeid k') →
      (∀ k', s'.shownService configNodeid k' = s.shownService configNodeid k') →
      HostRegistered configNodeid ch cs s k up (s', dhost)

theorem registerHost_kept (hnode : 0 ≤ configNodeid ∧ configNodeid ≤ 999) (hs : s.Kept configNodeid ch cs)
    {k : HostKey} {status : ℤ} {up : Bool} (hup : status = dobjectStatus up) {st : Discovery × DbDhost}
    (h : registerHost configNodeid ch s (DbDhost.fresh k.druleid) k.ip.text status = some st) :
    HostRegistered configNodeid ch cs s k up st := by
  cases hrow : s.hostRow configNodeid k with
  | some row =>
      obtain rfl := Option.some.inj ((registerHost_known hrow status).symm.trans h)
      exact .known hrow ⟨rfl, rfl, rfl, rfl⟩
  | none =>
      have hfind : s.findDhost configNodeid (DbDhost.fresh k.druleid).druleid (storedText dhostIpLen k.ip.text) = none :=
        hrow
      rw [registerHost, hfind] at h
      have h : (if status = dobjectStatusUp then _ else _) = _ := h
      cases up with
      | false =>
          rw [if_neg (by rw [hup]; decide)] at h
          obtain rfl := Option.some.inj h
          exact .unknown rfl hrow
      | true =>
          have hisup : status = dobjectStatusUp := hup
          rw [if_pos hisup] at h
          obtain ⟨id, hid, rfl⟩ := Option.map_eq_some_iff.mp h
          obtain ⟨hinsert, hkept, hfound, hne, hvalues, hhosts, hservices⟩ := hs.insertHost hnode hid hrow
          have hinsert : Discovery.insertDhost { s with hostIds := some id }
              ⟨id, (DbDhost.fresh k.druleid).druleid, storedText dhostIpLen k.ip.text, 0, 0, 0⟩ = _ := hinsert
          rw [hinsert]
          exact .new rfl hrow hkept hfound rfl ⟨rfl, rfl, rfl, hvalues⟩ hhosts hservices

/-! ## the checks of an address -/

/-- The key of the service that a result is for. -/
def CheckResult.keyOf (host : HostKey) (r : CheckResult) : ServiceKey :=
  ⟨host, r.type, r.port, storedText dserviceKeyLen (strlcpyString r.key_ (dserviceKeyLen + 1))⟩

/-- The results for a service, of the checks of an address. -/
def resultsFor (k : ServiceKey) (host : HostKey) (checks : List CheckResult) : List EdgeResult :=
  (checks.filter fun r => r.keyOf host = k).map fun r => ⟨r.up, r.now⟩

theorem foldl_resultsFor_append (k : ServiceKey) (host : HostKey) (done : List CheckResult) (r : CheckResult)
    (v : Option Shown) :
    (resultsFor k host (done ++ [r])).foldl Shown.next v =
      if k = r.keyOf host then Shown.next ((resultsFor k host done).foldl Shown.next v) ⟨r.up, r.now⟩
      else (resultsFor k host done).foldl Shown.next v := by
  rw [resultsFor, List.filter_append, List.map_append, List.foldl_append, List.filter_singleton]
  by_cases hsame : k = r.keyOf host
  · rw [if_pos hsame, decide_eq_true hsame.symm]
    rfl
  · rw [if_neg hsame, decide_eq_false fun h => hsame h.symm]
    rfl

/-- A check of a host that has a row. -/
theorem updateHostService_observed (hs : s.Kept configNodeid ch cs) {k : HostKey} {row : DhostRow}
    (hrow : s.hostRow configNodeid k = some row) (r : CheckResult)
    (h : updateHostService configNodeid cs s row.dhostid (r.check k.druleid) r.port r.now = some s') :
    s'.Kept configNodeid ch cs ∧ SameHosts s s' ∧
      ∀ k', s'.shownService configNodeid k' =
        if k' = r.keyOf k then Shown.next (s.shownService configNodeid k') ⟨r.up, r.now⟩
        else s.shownService configNodeid k' := by
  have howner : row.dhostid ∈ s.dhostids := List.mem_map_of_mem (of_hostRow hrow).1
  have hstatus : (r.check k.druleid).status = dobjectStatus r.up := rfl
  obtain ⟨hkept, hsame, hshown⟩ := updateHostService_shown hs howner hstatus h
  refine ⟨hkept, hsame, fun k' => ?_⟩
  have hhost : s'.hostRow configNodeid k'.host = s.hostRow configNodeid k'.host := by
    rw [hostRow_eq, hostRow_eq, hsame.dhosts]
  rw [Discovery.shownService, hhost, Discovery.shownService]
  by_cases hkey : k' = r.keyOf k
  · obtain rfl := hkey
    have hrow' : s.hostRow configNodeid (r.keyOf k).host = some row := hrow
    rw [if_pos rfl, hrow', Option.bind_some, Option.bind_some, hshown]
    exact if_pos rfl
  · rw [if_neg hkey]
    refine Option.bind_congr fun row' hrow' => ?_
    rw [hshown, if_neg]
    intro heq
    obtain ⟨hid, htype, hport, hkeys⟩ := RowKey.mk.inj heq
    have hhost := hs.hostRow_unique hrow hrow' hid
    exact hkey ((ServiceKey.mk.injEq ..).mpr ⟨hhost, htype, hport, hkeys⟩)

theorem SameHosts.shownHost (h : SameHosts s s') (k : HostKey) :
    s'.hostRow configNodeid k = s.hostRow configNodeid k ∧ s'.shownHost configNodeid k = s.shownHost configNodeid k := by
  have hrow : s'.hostRow configNodeid k = s.hostRow configNodeid k := by
    rw [hostRow_eq, hostRow_eq, h.dhosts]
  refine ⟨hrow, ?_⟩
  rw [Discovery.shownHost, hrow, Discovery.shownHost]
  exact Option.map_congr fun row _ => by rw [h.values]

/-- What the loop remembers of the host after some checks: nothing, when no check
was made or the host is unknown; what the row has; or that the host is new. -/
inductive Remembered (configNodeid : ℤ) (s₀ : Discovery) (k : HostKey) (done : List CheckResult) (s : Discovery)
    (dhost : DbDhost) : Prop
  | nothing : dhost = DbDhost.fresh k.druleid → (∀ r ∈ done, r.up = false) →
      done = [] ∨ s.hostRow configNodeid k = none → s.shownHost configNodeid k = s₀.shownHost configNodeid k →
      Remembered configNodeid s₀ k done s dhost
  | known {row : DhostRow} : done ≠ [] → s.hostRow configNodeid k = some row → dhost.Mirrors row →
      s.shownHost configNodeid k = s₀.shownHost configNodeid k → Remembered configNodeid s₀ k done s dhost
  | new {row : DhostRow} : (∃ r ∈ done, r.up = true) → s.hostRow configNodeid k = some row →
      row.dhostid = dhost.dhostid → dhost.Registered s → s₀.shownHost configNodeid k = none →
      Remembered configNodeid s₀ k done s dhost

/-- The tables after some checks of an address. -/
structure Checked (configNodeid : ℤ) (ch cs : Column schema) (s₀ : Discovery) (k : HostKey) (done : List CheckResult)
    (st : Discovery × DbDhost × ℤ) : Prop where
  kept : st.1.Kept configNodeid ch cs
  hostStatus : st.2.2 = done.foldl nextHostStatus (-1)
  services : ∀ k', st.1.shownService configNodeid k' =
    (resultsFor k' k done).foldl Shown.next (s₀.shownService configNodeid k')
  others : ∀ k', k' ≠ k → st.1.shownHost configNodeid k' = s₀.shownHost configNodeid k'
  remembered : Remembered configNodeid s₀ k done st.1 st.2.1

/-- A check behind which the host has a row. -/
theorem Checked.update {s₀ s₁ : Discovery} {k : HostKey} {done : List CheckResult} {st : Discovery × DbDhost × ℤ}
    (h : Checked configNodeid ch cs s₀ k done st) {r : CheckResult} {row : DhostRow} {dhost : DbDhost}
    (hkept : s₁.Kept configNodeid ch cs) (hrow : s₁.hostRow configNodeid k = some row)
    (hid : row.dhostid = dhost.dhostid)
    (hservices : ∀ k', s₁.shownService configNodeid k' = st.1.shownService configNodeid k')
    (hothers : ∀ k', k' ≠ k → s₁.shownHost configNodeid k' = st.1.shownHost configNodeid k')
    (hremembered : Remembered configNodeid s₀ k (done ++ [r]) s₁ dhost)
    (hupdate : updateHostService configNodeid cs s₁ dhost.dhostid (r.check k.druleid) r.port r.now = some s') :
    Checked configNodeid ch cs s₀ k (done ++ [r]) (s', dhost, nextHostStatus st.2.2 r) := by
  rw [← hid] at hupdate
  obtain ⟨hkept', hsame, hshown⟩ := updateHostService_observed hkept hrow r hupdate
  have hhost (k' : HostKey) := @SameHosts.shownHost configNodeid _ _ hsame k'
  refine ⟨hkept', ?_, fun k' => ?_, fun k' hne => ?_, ?_⟩
  · rw [List.foldl_append, ← h.hostStatus]
    rfl
  · rw [hshown, foldl_resultsFor_append, hservices, h.services]
  · exact (hhost k').2.trans ((hothers k' hne).trans (h.others k' hne))
  · cases hremembered with
    | nothing _ _ hunknown _ =>
        rw [hrow] at hunknown
        obtain hnil | hnone := hunknown
        · exact absurd hnil (List.append_ne_nil_of_right_ne_nil _ (List.cons_ne_nil _ _))
        · cases hnone
    | known hne hrow' hmirrors hshown' =>
        exact .known hne ((hhost k).1.trans hrow') hmirrors ((hhost k).2.trans hshown')
    | new hup hrow' hid' hregistered hnone =>
        refine .new hup ((hhost k).1.trans hrow') hid' ⟨hregistered.status, hregistered.lastup, hregistered.lastdown, ?_⟩ hnone
        exact (hsame.values _).trans hregistered.events

/-- A check for which `update_service` goes on with a host that has a row. -/
theorem updateService_known {s₁ : Discovery} {dhost : DbDhost} {row : DhostRow} {k : HostKey} (hs : s₁.Kept configNodeid ch cs)
    (hrow : s₁.hostRow configNodeid k = some row) (hid : row.dhostid = dhost.dhostid) : dhost.dhostid ≠ 0 :=
  hid ▸ hs.hosts row (of_hostRow hrow).1

/-- One more check. -/
theorem Checked.step (hnode : 0 ≤ configNodeid ∧ configNodeid ≤ 999) {s₀ : Discovery} {k : HostKey}
    {done : List CheckResult} {st st' : Discovery × DbDhost × ℤ} (h : Checked configNodeid ch cs s₀ k done st)
    {r : CheckResult} (hcheck : processCheck configNodeid ch cs k.druleid k.ip st r = some st') :
    Checked configNodeid ch cs s₀ k (done ++ [r]) st' := by
  have hne : done ++ [r] ≠ [] := List.append_ne_nil_of_right_ne_nil _ (List.cons_ne_nil _ _)
  obtain ⟨⟨s', dhost'⟩, hupdate, rfl⟩ := Option.map_eq_some_iff.mp hcheck
  cases h.remembered with
  | known hdone hrow hmirrors hshown =>
      rw [updateService_of_pos (updateService_known h.kept hrow hmirrors.dhostid)] at hupdate
      obtain ⟨s', hservice, heq⟩ := Option.map_eq_some_iff.mp hupdate
      obtain ⟨rfl, rfl⟩ := Prod.mk.inj heq
      exact h.update h.kept hrow hmirrors.dhostid (fun _ => rfl) (fun _ _ => rfl) (.known hne hrow hmirrors hshown) hservice
  | new hup hrow hid hregistered hnone =>
      rw [updateService_of_pos (updateService_known h.kept hrow hid)] at hupdate
      obtain ⟨s', hservice, heq⟩ := Option.map_eq_some_iff.mp hupdate
      obtain ⟨rfl, rfl⟩ := Prod.mk.inj heq
      obtain ⟨r', hr', hr'up⟩ := hup
      exact h.update h.kept hrow hid (fun _ => rfl) (fun _ _ => rfl)
        (.new ⟨r', List.mem_append_left _ hr', hr'up⟩ hrow hid hregistered hnone) hservice
  | nothing hfresh hdown hunknown hshown =>
      rw [hfresh, updateService_of_zero rfl] at hupdate
      obtain ⟨⟨s₁, dhost⟩, hregister, hrest⟩ := Option.bind_eq_some_iff.mp hupdate
      have hregistered := registerHost_kept hnode h.kept (show (r.check k.druleid).status = dobjectStatus r.up from rfl) hregister
      cases hregistered with
      | unknown hrdown hnone =>
          obtain ⟨rfl, rfl⟩ := Prod.mk.inj (Option.some.inj hrest)
          have hservice (k' : ServiceKey) (hk' : k'.host = k) : st.1.shownService configNodeid k' = none := by
            rw [Discovery.shownService, hk', hnone, Option.bind_none]
          refine ⟨h.kept, ?_, fun k' => ?_, h.others, .nothing rfl ?_ (.inr hnone) hshown⟩
          · rw [List.foldl_append, ← h.hostStatus]
            rfl
          · rw [foldl_resultsFor_append, ← h.services]
            by_cases hkey : k' = r.keyOf k
            · have hhost : k'.host = k := congrArg ServiceKey.host hkey
              rw [if_pos hkey, hservice k' hhost, hrdown]
              rfl
            · rw [if_neg hkey]
          · intro r' hr'
            rcases List.mem_append.mp hr' with hr' | hr'
            · exact hdown r' hr'
            · rw [List.mem_singleton.mp hr', hrdown]
      | known hrow hmirrors =>
          dsimp only at hrest
          rw [if_neg (updateService_known h.kept hrow hmirrors.dhostid)] at hrest
          obtain ⟨s', hservice, heq⟩ := Option.map_eq_some_iff.mp hrest
          obtain ⟨rfl, rfl⟩ := Prod.mk.inj heq
          exact h.update h.kept hrow hmirrors.dhostid (fun _ => rfl) (fun _ _ => rfl) (.known hne hrow hmirrors hshown)
            hservice
      | new hup hnone hkept hrow hid hregistered hothers hservices =>
          dsimp only at hrest
          rw [if_neg (updateService_known hkept hrow hid)] at hrest
          obtain ⟨s', hservice, heq⟩ := Option.map_eq_some_iff.mp hrest
          obtain ⟨rfl, rfl⟩ := Prod.mk.inj heq
          have hunknown : s₀.shownHost configNodeid k = none := by
            rw [← hshown, Discovery.shownHost, hnone, Option.map_none]
          exact h.update hkept hrow hid hservices hothers
            (.new ⟨r, List.mem_append_right _ (List.mem_singleton_self r), hup⟩ hrow hid hregistered hunknown) hservice

/-- **The checks of an address**, one after the other. -/
theorem checks_observed (hnode : 0 ≤ configNodeid ∧ configNodeid ≤ 999) (hs : s.Kept configNodeid ch cs) {k : HostKey}
    {checks : List CheckResult} {st : Discovery × DbDhost × ℤ}
    (h : checks.foldlM (processCheck configNodeid ch cs k.druleid k.ip) (s, DbDhost.fresh k.druleid, -1) = some st) :
    Checked configNodeid ch cs s k checks st := by
  have hrest : ∀ (checks done : List CheckResult) (st₁ : Discovery × DbDhost × ℤ),
      Checked configNodeid ch cs s k done st₁ →
      checks.foldlM (processCheck configNodeid ch cs k.druleid k.ip) st₁ = some st →
      Checked configNodeid ch cs s k (done ++ checks) st := by
    intro checks
    induction checks with
    | nil =>
        intro done st₁ hdone hst
        obtain rfl := Option.some.inj hst
        rwa [List.append_nil]
    | cons r checks ih =>
        intro done st₁ hdone hst
        rw [List.foldlM_cons] at hst
        obtain ⟨st₂, hstep, hst⟩ := Option.bind_eq_some_iff.mp hst
        rw [List.append_cons]
        exact ih _ st₂ (hdone.step hnode hstep) hst
  refine hrest checks [] _ ⟨hs, rfl, fun _ => rfl, fun _ _ => rfl, ?_⟩ h
  exact .nothing rfl (fun _ hr => nomatch hr) (.inl rfl) rfl

/-! ## an address -/

/-- The key of the host at an address. -/
def AddressVisit.host (visit : AddressVisit) : HostKey := ⟨visit.druleid, visit.ip⟩

/-- The result for the host, if there is any for a service: it is up if a service is. -/
def hostResults (k : HostKey) (visit : AddressVisit) : List EdgeResult :=
  if visit.host = k ∧ visit.checks ≠ [] then [⟨visit.checks.any CheckResult.up, visit.now⟩] else []

/-- The results for a service. -/
def serviceResults (k : ServiceKey) (visit : AddressVisit) : List EdgeResult := resultsFor k visit.host visit.checks

/-- The status of a host is that of its services. -/
theorem foldl_nextHostStatus {checks : List CheckResult} (hne : checks ≠ []) :
    checks.foldl nextHostStatus (-1) = dobjectStatus (checks.any CheckResult.up) := by
  cases hany : checks.any CheckResult.up with
  | true =>
      obtain ⟨r, hr, hup⟩ := List.any_eq_true.mp hany
      exact hostStatus_up ⟨r, hr, hup⟩ _
  | false =>
      have hdown : ∀ r ∈ checks, r.status = dobjectStatusDown := by
        intro r hr
        have hr : ¬r.up = true := List.any_eq_false.mp hany r hr
        rw [CheckResult.status, if_neg hr]
      have hrest : ∀ checks : List CheckResult, (∀ r ∈ checks, r.status = dobjectStatusDown) →
          checks.foldl nextHostStatus dobjectStatusDown = dobjectStatusDown := by
        intro checks hdown
        induction checks with
        | nil => rfl
        | cons r checks ih =>
            obtain ⟨hr, hchecks⟩ := List.forall_mem_cons.mp hdown
            have hstep : nextHostStatus dobjectStatusDown r = dobjectStatusDown := by
              rw [nextHostStatus, hr]
              rfl
            rw [List.foldl_cons, hstep]
            exact ih hchecks
      obtain ⟨r, checks, rfl⟩ := List.exists_cons_of_ne_nil hne
      obtain ⟨hr, hchecks⟩ := List.forall_mem_cons.mp hdown
      have hstep : nextHostStatus (-1) r = dobjectStatusDown := by
        rw [nextHostStatus, hr]
        rfl
      rw [List.foldl_cons, hstep]
      exact hrest checks hchecks

/-- **The end of an address** changes what is shown of its host. -/
theorem processAddress_shown (hnode : 0 ≤ configNodeid ∧ configNodeid ≤ 999) (hs : s.Kept configNodeid ch cs)
    {visit : AddressVisit} (h : processAddress configNodeid ch cs s visit = some s') :
    s'.Kept configNodeid ch cs ∧
      (∀ k, s'.shownHost configNodeid k = (hostResults k visit).foldl Shown.next (s.shownHost configNodeid k)) ∧
      ∀ k, s'.shownService configNodeid k =
        (serviceResults k visit).foldl Shown.next (s.shownService configNodeid k) := by
  obtain ⟨⟨s₁, dhost, hostStatus⟩, hchecks, rfl⟩ := Option.map_eq_some_iff.mp h
  have hchecked := checks_observed hnode hs (k := visit.host) hchecks
  obtain ⟨hkept, hstatus, hservices, hothers, hremembered⟩ := hchecked
  dsimp only at hkept hstatus hservices hothers hremembered ⊢
  have hrest (k : HostKey) (hne : k ≠ visit.host) :
      (hostResults k visit).foldl Shown.next (s.shownHost configNodeid k) = s₁.shownHost configNodeid k := by
    rw [hostResults, if_neg fun hk => hne hk.1.symm]
    exact (hothers k hne).symm
  have hown (hne : visit.checks ≠ []) :
      (hostResults visit.host visit).foldl Shown.next (s.shownHost configNodeid visit.host) =
        Shown.next (s.shownHost configNodeid visit.host) ⟨visit.checks.any CheckResult.up, visit.now⟩ := by
    rw [hostResults, if_pos ⟨rfl, hne⟩]
    rfl
  -- the update of the host, for what is remembered of it
  have hupdate {row : DhostRow} (hne : visit.checks ≠ []) (hrow : s₁.hostRow configNodeid visit.host = some row)
      (hid : row.dhostid = dhost.dhostid)
      (hmirror : (row.status = dhost.status ∧ row.lastup = dhost.lastup ∧ row.lastdown = dhost.lastdown) ∨
        (visit.checks.any CheckResult.up = true ∧ dhost.status = dobjectStatusDown))
      (hshown : some ((⟨dhost.status, dhost.lastup, dhost.lastdown,
          valuesOf s₁.events eventObjectDhost dhost.dhostid⟩ : Shown).update
            ⟨visit.checks.any CheckResult.up, visit.now⟩) =
        Shown.next (s.shownHost configNodeid visit.host) ⟨visit.checks.any CheckResult.up, visit.now⟩) :
      (updateHostStatus s₁ dhost hostStatus visit.now).Kept configNodeid ch cs ∧
        (∀ k, (updateHostStatus s₁ dhost hostStatus visit.now).shownHost configNodeid k =
          (hostResults k visit).foldl Shown.next (s.shownHost configNodeid k)) ∧
        ∀ k, (updateHostStatus s₁ dhost hostStatus visit.now).shownService configNodeid k =
          (serviceResults k visit).foldl Shown.next (s.shownService configNodeid k) := by
    obtain ⟨g, values, hform, heq⟩ :=
      updateHostStatus_form s₁ dhost (hstatus.trans (foldl_nextHostStatus hne)) visit.now
    have hmem : dhost.dhostid ∈ s₁.dhostids := hid ▸ List.mem_map_of_mem (of_hostRow hrow).1
    rw [heq]
    refine ⟨hkept.updateHost hform.keeps hmem values, fun k => ?_, fun k => ?_⟩
    · rw [hform.shownHost hkept hrow hid hmirror]
      by_cases hk : k = visit.host
      · rw [if_pos hk, hk, hown hne, hshown]
      · rw [if_neg hk, hrest k hk]
    · rw [shownService_updateHost hform.keeps, hservices]
      rfl
  cases hremembered with
  | nothing hfresh hdown hunknown hshown =>
      have hid : dhost.dhostid = 0 := congrArg DbDhost.dhostid hfresh
      rw [if_pos hid]
      refine ⟨hkept, fun k => ?_, hservices⟩
      by_cases hk : k = visit.host
      · obtain rfl := hk
        obtain hnil | hnone := hunknown
        · rw [hostResults, if_neg fun hne => hne.2 hnil]
          exact hshown
        · have hnone : s₁.shownHost configNodeid visit.host = none := by
            rw [Discovery.shownHost, hnone, Option.map_none]
          have hany : visit.checks.any CheckResult.up = false := by
            rw [List.any_eq_false]
            exact fun r hr => by simp [hdown r hr]
          rw [hnone, hostResults, ← hshown, hnone, hany]
          split <;> rfl
      · exact (hrest k hk).symm
  | known hne hrow hmirrors hshown =>
      rw [if_neg (updateService_known hkept hrow hmirrors.dhostid)]
      refine hupdate hne hrow hmirrors.dhostid (.inl ⟨hmirrors.status, hmirrors.lastup, hmirrors.lastdown⟩) ?_
      rw [← hshown, Discovery.shownHost, hrow, Option.map_some, Shown.next, hmirrors.status, hmirrors.lastup,
        hmirrors.lastdown, hmirrors.dhostid]
  | new hup hrow hid hregistered hnone =>
      rw [if_neg (updateService_known hkept hrow hid)]
      obtain ⟨r, hr, hrup⟩ := hup
      have hany : visit.checks.any CheckResult.up = true := List.any_eq_true.mpr ⟨r, hr, hrup⟩
      refine hupdate (List.ne_nil_of_mem hr) hrow hid (.inr ⟨hany, hregistered.status⟩) ?_
      rw [hnone, hregistered.status, hregistered.lastup, hregistered.lastdown, hregistered.events, hany]
      rfl

/-! ## runs -/

theorem processRules_shown (hnode : 0 ≤ configNodeid ∧ configNodeid ≤ 999) (hs : s.Kept configNodeid ch cs)
    {visits : List AddressVisit} (h : processRules configNodeid ch cs s visits = some s') :
    s'.Kept configNodeid ch cs ∧
      (∀ k, s'.shownHost configNodeid k = (visits.flatMap (hostResults k)).foldl Shown.next (s.shownHost configNodeid k)) ∧
      ∀ k, s'.shownService configNodeid k =
        (visits.flatMap (serviceResults k)).foldl Shown.next (s.shownService configNodeid k) := by
  induction visits generalizing s with
  | nil =>
      obtain rfl := Option.some.inj h
      exact ⟨hs, fun _ => rfl, fun _ => rfl⟩
  | cons visit visits ih =>
      rw [processRules, List.foldlM_cons] at h
      obtain ⟨s₁, hstep, hrest⟩ := Option.bind_eq_some_iff.mp h
      obtain ⟨hkept, hhosts, hservices⟩ := processAddress_shown hnode hs hstep
      obtain ⟨hkept', hhosts', hservices'⟩ := ih hkept hrest
      refine ⟨hkept', fun k => ?_, fun k => ?_⟩
      · rw [List.flatMap_cons, List.foldl_append, ← hhosts, hhosts']
      · rw [List.flatMap_cons, List.foldl_append, ← hservices, hservices']

/-- The clock is not at its zero, which is no time in the tables. -/
def AddressVisit.Timed (visit : AddressVisit) : Prop := visit.now ≠ 0 ∧ ∀ r ∈ visit.checks, r.now ≠ 0

instance (visit : AddressVisit) : Decidable visit.Timed := inferInstanceAs (Decidable (_ ∧ _))

theorem serviceResults_timed {k : ServiceKey} {visits : List AddressVisit} (h : ∀ visit ∈ visits, visit.Timed) :
    ∀ r ∈ visits.flatMap (serviceResults k), r.now ≠ 0 := by
  intro r hr
  obtain ⟨visit, hvisit, hr⟩ := List.mem_flatMap.mp hr
  obtain ⟨check, hcheck, rfl⟩ := List.mem_map.mp hr
  exact (h visit hvisit).2 check (List.mem_of_mem_filter hcheck)

theorem hostResults_timed {k : HostKey} {visits : List AddressVisit} (h : ∀ visit ∈ visits, visit.Timed) :
    ∀ r ∈ visits.flatMap (hostResults k), r.now ≠ 0 := by
  intro r hr
  obtain ⟨visit, hvisit, hr⟩ := List.mem_flatMap.mp hr
  rw [hostResults] at hr
  split at hr
  · rw [List.mem_singleton.mp hr]
    exact (h visit hvisit).1
  · cases hr

/-- **Hosts and services are traced**: in every run, and behind every check of the
address that comes next, a host or a service that had no row at the start is shown
as the results for it since its registration have left it. -/
theorem discovery_traced (hnode : 0 ≤ configNodeid ∧ configNodeid ≤ 999) {s₀ : Discovery}
    (hs₀ : s₀.Kept configNodeid ch cs) {visits : List AddressVisit} {current : AddressVisit}
    (htimed : ∀ visit ∈ visits ++ [current], visit.Timed) {dhost : DbDhost} {hostStatus : ℤ}
    (hrun : processRules configNodeid ch cs s₀ visits = some s)
    (hcurrent : current.checks.foldlM (processCheck configNodeid ch cs current.druleid current.ip)
      (s, DbDhost.fresh current.druleid, -1) = some (s', dhost, hostStatus)) :
    (∀ k, s₀.shownHost configNodeid k = none →
      Traced (visits.flatMap (hostResults k)) (s.shownHost configNodeid k)) ∧
    ∀ k, s₀.shownService configNodeid k = none →
      Traced ((visits ++ [current]).flatMap (serviceResults k)) (s'.shownService configNodeid k) := by
  obtain ⟨hkept, hhosts, hservices⟩ := processRules_shown hnode hs₀ hrun
  have hchecked := checks_observed hnode hkept (k := current.host) hcurrent
  refine ⟨fun k hk => ?_, fun k hk => ?_⟩
  · rw [hhosts, hk]
    exact traced_foldl (hostResults_timed fun visit hvisit => htimed visit (List.mem_append_left _ hvisit))
  · have hshown : s'.shownService configNodeid k =
        ((visits ++ [current]).flatMap (serviceResults k)).foldl Shown.next none := by
      rw [List.flatMap_append, List.foldl_append, ← hk, ← hservices, List.flatMap_singleton]
      exact hchecked.services k
    rw [hshown]
    exact traced_foldl (serviceResults_timed htimed)

theorem nothingDiscovered_kept : nothingDiscovered.Kept 0 dhostid dserviceid where
  hostIds := ⟨(fun _ h => nomatch h), fun _ h => nomatch h⟩
  serviceIds := ⟨(fun _ h => nomatch h), fun _ h => nomatch h⟩
  hostKey := List.nodup_nil
  serviceKey := List.nodup_nil
  hosts := fun _ h => nomatch h
  services := fun _ h => nomatch h
  owners := fun _ h => nomatch h
  hostEvents := fun _ h => nomatch h
  serviceEvents := fun _ h => nomatch h

/-- A port that is found, lost and found again. -/
theorem discovery_traced_found :
    ∃ s s' dhost hostStatus, processRules 0 dhostid dserviceid nothingDiscovered foundAndLost = some s ∧
      [portCheck 80 true 3001].foldlM (processCheck 0 dhostid dserviceid 2 someAddress) (s, DbDhost.fresh 2, -1) =
        some (s', dhost, hostStatus) ∧
      Traced [⟨true, 1000⟩, ⟨false, 2000⟩] (s.shownHost 0 ⟨2, someAddress⟩) ∧
      Traced [⟨true, 1002⟩, ⟨false, 2001⟩, ⟨true, 3001⟩]
        (s'.shownService 0 ((portCheck 80 true 3001).keyOf ⟨2, someAddress⟩)) := by
  have hsome : ((processRules 0 dhostid dserviceid nothingDiscovered foundAndLost).bind fun s =>
      ([portCheck 80 true 3001].foldlM (processCheck 0 dhostid dserviceid 2 someAddress)
        (s, DbDhost.fresh 2, -1)).map fun st => (s, st)).isSome = true := by decide
  obtain ⟨⟨s, s', dhost, hostStatus⟩, hst⟩ := Option.isSome_iff_exists.mp hsome
  obtain ⟨s₁, hrun, hst⟩ := Option.bind_eq_some_iff.mp hst
  obtain ⟨st, hcurrent, heq⟩ := Option.map_eq_some_iff.mp hst
  obtain ⟨rfl, rfl⟩ := Prod.mk.inj heq
  obtain ⟨hhosts, hservices⟩ := @discovery_traced _ 0 dhostid dserviceid s₁ s' (by decide) nothingDiscovered
    nothingDiscovered_kept foundAndLost ⟨2, someAddress, 3000, [portCheck 80 true 3001]⟩ (by decide) dhost hostStatus
    hrun hcurrent
  exact ⟨s₁, s', dhost, hostStatus, hrun, hcurrent, hhosts ⟨2, someAddress⟩ (by decide),
    hservices ((portCheck 80 true 3001).keyOf ⟨2, someAddress⟩) (by decide)⟩

end Zabbix
