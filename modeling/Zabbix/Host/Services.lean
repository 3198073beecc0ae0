import Zabbix.Host.Tables
import Zabbix.Services.Tree

/-!
# Zabbix.Host.Services

The deletion of services, after which the statuses of all services are computed anew
(`DBdelete_service` and `DBupdate_services_status_all` of `libs/zbxdbhigh/host.c`).

The identifier of the trigger of a service that has none below it is read with `sscanf`,
also where it is NULL.
-/

namespace Zabbix.Host

open Cascade Outcome Propagate

/-- What ends a call in the services, for the caller. -/
def HostStop.ofService : ServiceStop → HostStop
  | .exit => .exit
  | .deeper => .deeper

/-! ## the statuses of all services -/

/-- `UPDATE services SET triggerid = null WHERE serviceid = ..` -/
def clearTrigger (s : ServiceState) (serviceid : ℕ) : ServiceState :=
  { s with
    services := s.services.map fun row => if row.serviceid = serviceid then { row with triggerid := none } else row
    key := by
      rw [List.map_map]
      convert s.key using 2
      funext row
      simp only [Function.comp_apply]
      split <;> rfl }

/-- `DBclear_parents_from_trigger` -/
def dbClearParentsFromTrigger (s : ServiceState) (serviceid : ℕ) : ServiceState :=
  if serviceid ≠ 0 then clearTrigger s serviceid
  else
    ((s.services.filter fun row => (∃ l ∈ s.links, l.serviceupid = row.serviceid) ∧ row.triggerid ≠ none).map
      ServiceRow.serviceid).foldl clearTrigger s

/-- The services with none below them: the first select of `DBupdate_services_status_all`. -/
def unlinkedServices (s : ServiceState) : List ServiceRow :=
  s.services.filter fun row => ∀ l ∈ s.links, l.serviceupid ≠ row.serviceid

/-- For each service, the greatest of those directly below it that have none below them: the second select. -/
def lowestServices (s : ServiceState) : List ℕ :=
  (s.links.map ServiceLink.serviceupid).dedup.filterMap fun serviceupid =>
    ((s.links.filter fun l => l.serviceupid = serviceupid ∧ ∀ l' ∈ s.links, l'.serviceupid ≠ l.servicedownid).map
      ServiceLink.servicedownid).max?

variable {schema : Schema} (nodeid : ℕ) (c : Column schema)

/-- The first loop of `DBupdate_services_status_all`. -/
def updateUnlinked (clock : ℤ) (s : ServiceState) (row : ServiceRow) : Except HostStop ServiceState :=
  match row.triggerid with
  | none => .error .null
  | some triggerid =>
      let status := dbGetServiceStatus s row.serviceid row.algorithm triggerid
      (dbAddServiceAlarm nodeid c (s.updateService row.serviceid status) row.serviceid status clock).mapError
        .ofService

/-- `DBupdate_services_status_all`; `c` is `service_alarms.servicealarmid`, and up to `depth` calls of
`DBupdate_services_rec` are nested. -/
def dbUpdateServicesStatusAll (answers : ServiceAnswers) (depth : ℕ) (s : ServiceState) :
    Except HostStop ServiceState := do
  let s := dbClearParentsFromTrigger s 0
  let s ← (answers.leaves (unlinkedServices s)).foldlM
    (fun s row => updateUnlinked nodeid c (answers.time [row.serviceid]) s row) s
  (lowestServices s).foldlM
    (fun s serviceid => (dbUpdateServicesRec nodeid c answers depth [] s serviceid).mapError .ofService) s

/-! ## the deletion -/

/-- The columns of a trigger that the services look at. -/
def Trigger.service (row : Trigger) : ServiceTrigger := ⟨row.triggerid, row.priority, row.status, row.value⟩

/-- The four statements of `DBdelete_service`. -/
def HostDb.deleteServiceRows (db : HostDb) (serviceid : ℕ) : HostDb :=
  { db with
    services :=
      { db.services with
        alarms := db.services.alarms.filter (·.serviceid ≠ serviceid)
        alarmKey := db.services.alarmKey.sublist (List.filter_sublist.map _)
        links := db.services.links.filter fun l => ¬(l.servicedownid = serviceid ∨ l.serviceupid = serviceid)
        services := db.services.services.filter (·.serviceid ≠ serviceid)
        key := db.services.key.sublist (List.filter_sublist.map _) }
    servicesTimes := db.servicesTimes.filter (· ≠ serviceid) }

/-- What is not the same in each call of `DBupdate_services_status_all`; a service is deleted once at most. -/
structure RecountAnswers where
  answers : (serviceid : ℕ) → ServiceAnswers
  depth : ℕ

variable (recount : RecountAnswers)

/-- `DBdelete_service` -/
def dbDeleteService (db : HostDb) (serviceid : ℕ) : Result := do
  let db := db.deleteServiceRows serviceid
  let services ← dbUpdateServicesStatusAll nodeid c (recount.answers serviceid) recount.depth
    { db.services with triggers := db.triggers.map Trigger.service }
  .ok (true, { db with services := services })

/-- `select serviceid from services where triggerid=..` -/
def HostDb.servicesOf (db : HostDb) (triggerid : ℕ) : List ℕ :=
  (db.services.services.filter (·.triggerid = some triggerid)).map ServiceRow.serviceid

/-- `DBdelete_services_by_triggerid` -/
def dbDeleteServicesByTriggerid (db : HostDb) (triggerid : ℕ) : Result :=
  untilFail (dbDeleteService nodeid c recount) (db.servicesOf triggerid) db

/-! ## what the statuses have nothing to do with -/

/-- Services are neither added nor removed, and triggers are not given to any. -/
structure SameServices (s s' : ServiceState) : Prop where
  links : s'.links = s.links
  serviceids : s'.services.map ServiceRow.serviceid = s.services.map ServiceRow.serviceid
  triggerid : ∀ row ∈ s'.services, ∀ triggerid, row.triggerid = some triggerid →
    ∃ old ∈ s.services, old.serviceid = row.serviceid ∧ old.triggerid = some triggerid

variable {s s' s'' : ServiceState} {nodeid} {c} {recount}

theorem SameServices.refl (s : ServiceState) : SameServices s s := ⟨rfl, rfl, fun row hrow _ h => ⟨row, hrow, rfl, h⟩⟩

theorem SameServices.trans (h : SameServices s s') (h' : SameServices s' s'') : SameServices s s'' where
  links := h'.links.trans h.links
  serviceids := h'.serviceids.trans h.serviceids
  triggerid := fun row hrow triggerid htrigger => by
    obtain ⟨mid, hmid, hid, hmidtrigger⟩ := h'.triggerid row hrow triggerid htrigger
    obtain ⟨old, hold, hid', holdtrigger⟩ := h.triggerid mid hmid triggerid hmidtrigger
    exact ⟨old, hold, hid'.trans hid, holdtrigger⟩

/-- Where nothing but statuses differs. -/
theorem SameServices.of_fixed (hlinks : s'.links = s.links)
    (hservices : s'.services.map ServiceRow.fixed = s.services.map ServiceRow.fixed) : SameServices s s' where
  links := hlinks
  serviceids := by
    have h := congrArg (List.map ServiceRow.serviceid) hservices
    rwa [List.map_map, List.map_map] at h
  triggerid := fun row hrow triggerid htrigger => by
    have hmem : row.fixed ∈ s.services.map ServiceRow.fixed := hservices ▸ List.mem_map_of_mem hrow
    obtain ⟨old, hold, hfixed⟩ := List.mem_map.mp hmem
    have hid : old.fixed.serviceid = row.fixed.serviceid := by rw [hfixed]
    have htriggerid : old.fixed.triggerid = row.fixed.triggerid := by rw [hfixed]
    exact ⟨old, hold, hid, htriggerid.trans htrigger⟩

/-- What each step of a loop keeps. -/
theorem SameServices.foldlM {β : Type} {ε : Type} {step : ServiceState → β → Except ε ServiceState}
    (hstep : ∀ s b s', step s b = .ok s' → SameServices s s') {bs : List β} (h : bs.foldlM step s = .ok s') :
    SameServices s s' := by
  induction bs generalizing s with
  | nil =>
      cases h
      exact .refl _
  | cons b bs ih =>
      rw [List.foldlM_cons] at h
      obtain ⟨s₁, hfirst, h⟩ := bind_eq_ok h
      exact (hstep s b s₁ hfirst).trans (ih h)

theorem sameServices_clearTrigger (s : ServiceState) (serviceid : ℕ) : SameServices s (clearTrigger s serviceid) where
  links := rfl
  serviceids := by
    rw [clearTrigger, List.map_map]
    refine List.map_congr_left fun row _ => ?_
    simp only [Function.comp_apply]
    split <;> rfl
  triggerid := fun row hrow triggerid htrigger => by
    obtain ⟨old, hold, rfl⟩ := List.mem_map.mp hrow
    split at htrigger
    · cases htrigger
    · next hne => exact ⟨old, hold, by rw [if_neg hne], htrigger⟩

theorem sameServices_clearParents (s : ServiceState) (serviceid : ℕ) :
    SameServices s (dbClearParentsFromTrigger s serviceid) := by
  rw [dbClearParentsFromTrigger]
  split
  · exact sameServices_clearTrigger s serviceid
  · have hloop : ∀ (ids : List ℕ) (t : ServiceState), SameServices s t → SameServices s (ids.foldl clearTrigger t) := by
      intro ids
      induction ids with
      | nil => exact fun _ => id
      | cons b ids ih => exact fun t ht => ih _ (ht.trans (sameServices_clearTrigger t b))
    exact hloop _ s (.refl s)

theorem sameServices_addAlarm {serviceid : ℕ} {status clock : ℤ}
    (h : dbAddServiceAlarm nodeid c s serviceid status clock = .ok s') : SameServices s s' := by
  obtain ⟨hservices, hlinks, -⟩ := ((ServiceState.dbAddServiceAlarm_ends s serviceid status clock).of_ok h).1
  exact .of_fixed hlinks (by rw [hservices])

theorem sameServices_updateService (s : ServiceState) (serviceid : ℕ) (status : ℤ) :
    SameServices s (s.updateService serviceid status) :=
  have h := ServiceState.updateService_sameTree serviceid status
  .of_fixed h.links h.services

theorem sameServices_updateParent {clock algorithm : ℤ} {serviceupid : ℕ}
    (h : updateParent nodeid c clock s serviceupid algorithm = .ok s') : SameServices s s' := by
  rw [updateParent] at h
  split at h
  · cases h
    exact .refl s
  · split at h
    · dsimp only at h
      cases halarm : dbAddServiceAlarm nodeid c s serviceupid (dbGetServiceStatus s serviceupid algorithm 0) clock with
      | error stop =>
          rw [halarm] at h
          cases h
      | ok s₁ =>
          rw [halarm] at h
          cases h
          exact (sameServices_addAlarm halarm).trans (sameServices_updateService s₁ _ _)
    · cases h
      exact .refl s

theorem sameServices_rec {answers : ServiceAnswers} {depth serviceid : ℕ} {way : List ℕ}
    (h : dbUpdateServicesRec nodeid c answers depth way s serviceid = .ok s') : SameServices s s' := by
  induction depth generalizing way s s' serviceid with
  | zero => cases h
  | succ depth ih =>
      rw [dbUpdateServicesRec] at h
      obtain ⟨s₁, hfirst, h⟩ := bind_eq_ok h
      exact (SameServices.foldlM (fun _ _ _ => sameServices_updateParent) hfirst).trans
        (SameServices.foldlM (fun _ _ _ => ih) h)

theorem sameServices_statusAll {answers : ServiceAnswers} {depth : ℕ}
    (h : dbUpdateServicesStatusAll nodeid c answers depth s = .ok s') : SameServices s s' := by
  rw [dbUpdateServicesStatusAll] at h
  obtain ⟨s₁, hfirst, h⟩ := bind_eq_ok h
  refine (sameServices_clearParents s 0).trans (.trans (.foldlM ?_ hfirst) (.foldlM ?_ h))
  · intro t row t' hstep
    rw [updateUnlinked] at hstep
    split at hstep
    · cases hstep
    · exact (sameServices_updateService t _ _).trans (sameServices_addAlarm (mapError_eq_ok.mp hstep))
  · exact fun t serviceid t' hstep => sameServices_rec (mapError_eq_ok.mp hstep)

/-! ## what is deleted -/

/-- The services that are gone are those of a set, with the links of theirs, and triggers are not given to any. -/
structure ServicesGone (gone : Set ℕ) (s s' : ServiceState) : Prop where
  serviceids : ∀ id, id ∈ s'.services.map ServiceRow.serviceid ↔ id ∈ s.services.map ServiceRow.serviceid ∧ id ∉ gone
  links : ∀ l, l ∈ s'.links ↔ l ∈ s.links ∧ l.serviceupid ∉ gone ∧ l.servicedownid ∉ gone
  triggerid : ∀ row ∈ s'.services, ∀ triggerid, row.triggerid = some triggerid →
    ∃ old ∈ s.services, old.serviceid = row.serviceid ∧ old.triggerid = some triggerid

theorem ServicesGone.refl (s : ServiceState) : ServicesGone ∅ s s where
  serviceids := fun _ => by simp
  links := fun _ => by simp
  triggerid := fun row hrow _ h => ⟨row, hrow, rfl, h⟩

theorem ServicesGone.trans {gone gone' : Set ℕ} (h : ServicesGone gone s s') (h' : ServicesGone gone' s' s'') :
    ServicesGone (gone ∪ gone') s s'' where
  serviceids := fun id => by rw [h'.serviceids, h.serviceids, Set.mem_union, not_or, and_assoc]
  links := fun l => by
    rw [h'.links, h.links, Set.mem_union, Set.mem_union, not_or, not_or, and_assoc]
    refine and_congr_right fun _ => ?_
    constructor
    · rintro ⟨⟨hup, hdown⟩, hup', hdown'⟩
      exact ⟨⟨hup, hup'⟩, hdown, hdown'⟩
    · rintro ⟨⟨hup, hup'⟩, hdown, hdown'⟩
      exact ⟨⟨hup, hdown⟩, hup', hdown'⟩
  triggerid := fun row hrow triggerid htrigger => by
    obtain ⟨mid, hmid, hid, hmidtrigger⟩ := h'.triggerid row hrow triggerid htrigger
    obtain ⟨old, hold, hid', holdtrigger⟩ := h.triggerid mid hmid triggerid hmidtrigger
    exact ⟨old, hold, hid'.trans hid, holdtrigger⟩

theorem SameServices.gone (h : SameServices s s') : ServicesGone ∅ s s' where
  serviceids := fun id => by rw [h.serviceids]; simp
  links := fun l => by rw [h.links]; simp
  triggerid := h.triggerid

/-- What the four statements delete. -/
theorem servicesGone_deleteServiceRows (db : HostDb) (serviceid : ℕ) :
    ServicesGone {serviceid} db.services (db.deleteServiceRows serviceid).services where
  serviceids := fun id => by
    simp only [HostDb.deleteServiceRows, List.mem_map, List.mem_filter, decide_eq_true_eq, Set.mem_singleton_iff]
    constructor
    · rintro ⟨row, ⟨hrow, hne⟩, rfl⟩
      exact ⟨⟨row, hrow, rfl⟩, hne⟩
    · rintro ⟨⟨row, hrow, rfl⟩, hne⟩
      exact ⟨row, ⟨hrow, hne⟩, rfl⟩
  links := fun l => by
    simp only [HostDb.deleteServiceRows, List.mem_filter, decide_eq_true_eq, Set.mem_singleton_iff, not_or]
    exact and_congr_right fun _ => And.comm
  triggerid := fun row hrow _ h => ⟨row, List.mem_of_mem_filter hrow, rfl, h⟩

/-- The tables but those of the services. -/
def HostDb.withoutServices (db : HostDb) : HostDb := { db with services := noServices, servicesTimes := [] }

/-- `DBdelete_service`, when it returns: it succeeds. -/
theorem dbDeleteService_gone {db : HostDb} {serviceid : ℕ} {r : Bool × HostDb}
    (h : dbDeleteService nodeid c recount db serviceid = .ok r) :
    r.1 = true ∧ r.2.withoutServices = db.withoutServices ∧ ServicesGone {serviceid} db.services r.2.services := by
  rw [dbDeleteService] at h
  obtain ⟨services, hstatus, h⟩ := bind_eq_ok h
  cases h
  have hsame := (sameServices_statusAll hstatus).gone
  have hgone := (servicesGone_deleteServiceRows db serviceid).trans
    ⟨hsame.serviceids, hsame.links, hsame.triggerid⟩
  rw [Set.union_empty] at hgone
  exact ⟨rfl, rfl, hgone⟩

/-- **The services of a trigger** are gone when `DBdelete_services_by_triggerid` returns, which succeeds then. -/
theorem dbDeleteServicesByTriggerid_gone {db : HostDb} {triggerid : ℕ} {r : Bool × HostDb}
    (h : dbDeleteServicesByTriggerid nodeid c recount db triggerid = .ok r) :
    r.1 = true ∧ r.2.withoutServices = db.withoutServices ∧
      (∃ gone, ServicesGone gone db.services r.2.services) ∧
      ∀ row ∈ r.2.services.services, row.triggerid ≠ some triggerid := by
  have hloop : ∀ (ids : List ℕ) (t : HostDb) (r : Bool × HostDb),
      untilFail (dbDeleteService nodeid c recount) ids t = .ok r →
      r.1 = true ∧ r.2.withoutServices = t.withoutServices ∧ ServicesGone {b | b ∈ ids} t.services r.2.services := by
    intro ids
    induction ids with
    | nil =>
        intro t r h
        cases h
        refine ⟨rfl, rfl, ?_⟩
        simpa using ServicesGone.refl t.services
    | cons b ids ih =>
        intro t r h
        rcases untilFail_cons_ok h with ⟨t', hfirst, h⟩ | ⟨hfirst, hfalse⟩
        · obtain ⟨-, hsame, hgone⟩ := dbDeleteService_gone hfirst
          obtain ⟨htrue, hsame', hgone'⟩ := ih t' r h
          refine ⟨htrue, hsame'.trans hsame, ?_⟩
          convert hgone.trans hgone' using 1
          ext x
          simp
        · exact absurd (dbDeleteService_gone hfirst).1 (by rw [hfalse]; exact Bool.false_ne_true)
  obtain ⟨htrue, hsame, hgone⟩ := hloop _ db r h
  refine ⟨htrue, hsame, ⟨_, hgone⟩, fun row hrow htrigger => ?_⟩
  obtain ⟨old, hold, hid, holdtrigger⟩ := hgone.triggerid row hrow triggerid htrigger
  refine ((hgone.serviceids row.serviceid).mp (List.mem_map_of_mem hrow)).2 (List.mem_map.mpr ⟨old, ?_, hid⟩)
  exact List.mem_filter.mpr ⟨hold, decide_eq_true holdtrigger⟩

end Zabbix.Host
