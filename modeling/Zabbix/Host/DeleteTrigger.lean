import Zabbix.Host.Services

/-!
# Zabbix.Host.DeleteTrigger

The deletion of a trigger, with the triggers that are linked to it and with all that refers to them
(`DBdelete_trigger` of `libs/zbxdbhigh/host.c`).

The select for the links of a map element has the word `where` twice, and the database does not understand it.
The links of the elements that are deleted stay.
-/

namespace Zabbix.Host

open Cascade Outcome Propagate Relation

/-! ## the functions -/

/-- `SYSMAP_ELEMENT_TYPE_TRIGGER` -/
def sysmapElementTypeTrigger : ℤ := 2

/-- `CONDITION_TYPE_TRIGGER` -/
def conditionTypeTrigger : ℤ := 2

/-- `ACTION_STATUS_DISABLED` -/
def actionStatusDisabled : ℤ := 1

/-- The two statements for a row that is read in `DBdelete_dependencies_by_triggerid`. -/
def HostDb.deleteDependency (db : HostDb) (row : TriggerDepend) : HostDb :=
  { db with
    triggers := db.triggers.map fun t =>
      if t.triggerid = row.triggeridUp then { t with depLevel := t.depLevel - 1 } else t
    triggerDepends := db.triggerDepends.filter fun d =>
      ¬(d.triggeridUp = row.triggeridUp ∧ d.triggeridDown = row.triggeridDown) }

/-- `DBdelete_dependencies_by_triggerid` -/
def dbDeleteDependenciesByTriggerid (db : HostDb) (triggerid : ℕ) : HostDb :=
  (db.triggerDepends.filter (·.triggeridDown = triggerid)).foldl HostDb.deleteDependency db

/-- `DBdelete_link` -/
def dbDeleteLink (db : HostDb) (linkid : ℕ) : HostDb :=
  { db with
    sysmapsLinks := db.sysmapsLinks.filter (·.linkid ≠ linkid)
    sysmapsLinkTriggers := db.sysmapsLinkTriggers.filter (·.linkid ≠ linkid) }

/-- What is read from a select that the database does not understand. -/
def refused : List ℕ := []

/-- `DBdelete_sysmaps_element` -/
def dbDeleteSysmapsElement (db : HostDb) (selementid : ℕ) : HostDb :=
  -- `select linkid from sysmaps_links where  where selementid1=.. or selementid2=..`
  let db := refused.foldl dbDeleteLink db
  { db with sysmapsElements := db.sysmapsElements.filter (·.selementid ≠ selementid) }

/-- `DBdelete_sysmaps_elements_with_triggerid` -/
def dbDeleteSysmapsElementsWithTriggerid (db : HostDb) (triggerid : ℕ) : HostDb :=
  ((db.sysmapsElements.filter fun e => e.elementid = triggerid ∧ e.elementtype = sysmapElementTypeTrigger).map
    SysmapElement.selementid).dedup.foldl dbDeleteSysmapsElement db

/-- The condition that the select for the actions and the delete of the conditions have. -/
def ActionCondition.isFor (row : ActionCondition) (triggerid : ℕ) : Prop :=
  row.conditiontype = conditionTypeTrigger ∧ row.value = triggerid

instance (row : ActionCondition) (triggerid : ℕ) : Decidable (row.isFor triggerid) :=
  inferInstanceAs (Decidable (_ ∧ _))

/-- `update actions set status=.. where actionid=..` -/
def HostDb.disableAction (db : HostDb) (actionid : ℕ) : HostDb :=
  { db with
    actions := db.actions.map fun a => if a.actionid = actionid then { a with status := actionStatusDisabled } else a }

/-- The statements of `DBdelete_trigger` itself. -/
def HostDb.deleteTriggerRows (db : HostDb) (triggerid : ℕ) : HostDb :=
  let db :=
    { db with
      triggerDepends := db.triggerDepends.filter (·.triggeridUp ≠ triggerid)
      functions := db.functions.filter (·.triggerid ≠ triggerid)
      events := db.events.filter fun e => ¬(e.objectid = triggerid ∧ e.object = eventObjectTrigger)
      sysmapsLinkTriggers := db.sysmapsLinkTriggers.filter (·.triggerid ≠ triggerid) }
  let db := ((db.conditions.filter (·.isFor triggerid)).map ActionCondition.actionid).dedup.foldl HostDb.disableAction db
  { db with
    conditions := db.conditions.filter fun row => ¬row.isFor triggerid
    triggers := db.triggers.filter (·.triggerid ≠ triggerid) }

/-- `select triggerid from triggers where templateid=..` -/
def HostDb.linkedTriggers (db : HostDb) (triggerid : ℕ) : List ℕ :=
  (db.triggers.filter (·.templateid = triggerid)).map Trigger.triggerid

variable {schema : Schema} (nodeid : ℕ) (c : Column schema) (recount : RecountAnswers)

/-- `DBdelete_trigger`, with up to `depth` calls nested; `c` is `service_alarms.servicealarmid`. -/
def dbDeleteTrigger : (depth : ℕ) → (db : HostDb) → (triggerid : ℕ) → Result
  | 0, _, _ => .error .deeper
  | depth + 1, db, triggerid =>
      if ∃ row ∈ db.triggers, row.triggerid = triggerid then do
        let r ← untilFail (dbDeleteTrigger depth) (db.linkedTriggers triggerid) db
        if r.1 then
          let db := dbDeleteDependenciesByTriggerid r.2 triggerid
          let r ← dbDeleteServicesByTriggerid nodeid c recount db triggerid
          if r.1 then
            let db := dbDeleteSysmapsElementsWithTriggerid r.2 triggerid
            .ok (true, db.deleteTriggerRows triggerid)
          else .ok r
        else .ok r
      else .ok (false, db)

/-! ## what refers to a trigger -/

/-- The trigger `b` is linked to the trigger `a`. -/
def HostDb.TriggerLinked (db : HostDb) (a b : ℕ) : Prop := ∃ row ∈ db.triggers, row.templateid = a ∧ row.triggerid = b

/-- What `dep_level` is for: it is the number of the triggers that depend on the trigger. -/
def HostDb.DepLevels (db : HostDb) : Prop :=
  ∀ row ∈ db.triggers, row.depLevel = db.triggerDepends.countP (·.triggeridUp = row.triggerid)

/-- The map element shows one of the triggers. -/
def SysmapElement.Shows (triggers : Set ℕ) (e : SysmapElement) : Prop :=
  e.elementtype = sysmapElementTypeTrigger ∧ e.elementid ∈ triggers

/-- An end of the link is such a map element. -/
def SysmapLink.EndsAt (elements : SysmapElement → Prop) (db : HostDb) (l : SysmapLink) : Prop :=
  ∃ e ∈ db.sysmapsElements, elements e ∧ (l.selementid1 = e.selementid ∨ l.selementid2 = e.selementid)

/-- What the deletion of triggers is for: no row refers to them any more, or to what has gone with them. -/
structure TriggersDeleted (gone : Set ℕ) (db db' : HostDb) : Prop where
  triggers : ∀ row ∈ db'.triggers, row.triggerid ∉ gone ∧ row.templateid ∉ gone
  functions : ∀ row ∈ db'.functions, row.triggerid ∉ gone
  depends : ∀ row ∈ db'.triggerDepends, row.triggeridDown ∉ gone ∧ row.triggeridUp ∉ gone
  events : ∀ e ∈ db'.events, e.object = eventObjectTrigger → e.objectid ∉ gone
  services : ∀ row ∈ db'.services.services, ∀ triggerid, row.triggerid = some triggerid → triggerid ∉ gone
  servicesLinks : ∀ row ∈ db.services.services, row.serviceid ∉ db'.services.services.map ServiceRow.serviceid →
    ∀ l ∈ db'.services.links, l.serviceupid ≠ row.serviceid ∧ l.servicedownid ≠ row.serviceid
  elements : ∀ e ∈ db'.sysmapsElements, ¬e.Shows gone
  links : ∀ l ∈ db'.sysmapsLinks, ¬l.EndsAt (·.Shows gone) db
  linkTriggers : ∀ row ∈ db'.sysmapsLinkTriggers, row.triggerid ∉ gone ∧
    ∀ l ∈ db.sysmapsLinks, l.EndsAt (·.Shows gone) db → row.linkid ≠ l.linkid
  conditions : ∀ row ∈ db'.conditions, ∀ triggerid ∈ gone, ¬row.isFor triggerid
  depLevels : db'.DepLevels

/-- There is a trigger with the identifier. -/
def HostDb.HasTrigger (db : HostDb) (triggerid : ℕ) : Prop := triggerid ∈ db.triggers.map Trigger.triggerid

/-- There is a map element with the identifier. -/
def HostDb.HasElement (db : HostDb) (selementid : ℕ) : Prop :=
  selementid ∈ db.sysmapsElements.map SysmapElement.selementid

instance (db : HostDb) (triggerid : ℕ) : Decidable (db.HasTrigger triggerid) :=
  inferInstanceAs (Decidable (_ ∈ _))

instance (db : HostDb) (selementid : ℕ) : Decidable (db.HasElement selementid) :=
  inferInstanceAs (Decidable (_ ∈ _))

/-- No row refers to one that is not there. -/
structure HostDb.Intact (db : HostDb) : Prop where
  functions : ∀ row ∈ db.functions, db.HasTrigger row.triggerid
  depends : ∀ row ∈ db.triggerDepends, db.HasTrigger row.triggeridDown ∧ db.HasTrigger row.triggeridUp
  events : ∀ e ∈ db.events, e.object = eventObjectTrigger → db.HasTrigger e.objectid
  services : ∀ row ∈ db.services.services, ∀ triggerid ∈ row.triggerid, db.HasTrigger triggerid
  servicesLinks : ∀ l ∈ db.services.links, l.serviceupid ∈ db.services.services.map ServiceRow.serviceid ∧
    l.servicedownid ∈ db.services.services.map ServiceRow.serviceid
  elements : ∀ e ∈ db.sysmapsElements, e.elementtype = sysmapElementTypeTrigger → db.HasTrigger e.elementid
  links : ∀ l ∈ db.sysmapsLinks, db.HasElement l.selementid1 ∧ db.HasElement l.selementid2
  linkTriggers : ∀ row ∈ db.sysmapsLinkTriggers, db.HasTrigger row.triggerid ∧
    row.linkid ∈ db.sysmapsLinks.map SysmapLink.linkid
  conditions : ∀ row ∈ db.conditions, row.conditiontype = conditionTypeTrigger → db.HasTrigger row.value

/-! ## what the statements leave -/

variable {db db' db'' : HostDb} {triggerid : ℕ} {nodeid} {c} {recount}

theorem mem_linkedTriggers {b : ℕ} : b ∈ db.linkedTriggers triggerid ↔ db.TriggerLinked triggerid b := by
  simp [HostDb.linkedTriggers, HostDb.TriggerLinked, and_assoc]

/-- The loop over the rows of `trigger_depends`. -/
theorem foldl_deleteDependency (rows : List TriggerDepend) (db : HostDb) :
    rows.foldl HostDb.deleteDependency db =
      { db with
        triggers := db.triggers.map fun t =>
          { t with depLevel := t.depLevel - rows.countP (·.triggeridUp = t.triggerid) }
        triggerDepends := db.triggerDepends.filter (· ∉ rows) } := by
  induction rows generalizing db with
  | nil => simp
  | cons row rows ih =>
      rw [List.foldl_cons, ih]
      simp only [HostDb.deleteDependency, List.map_map, List.filter_filter]
      congr 1
      · refine List.map_congr_left fun t _ => ?_
        simp only [Function.comp_apply, List.countP_cons]
        by_cases hid : t.triggerid = row.triggeridUp
        · rw [if_pos hid, if_pos (decide_eq_true hid.symm)]
          push_cast
          rw [← sub_sub, sub_right_comm]
        · rw [if_neg hid, if_neg (by simpa using Ne.symm hid), Nat.add_zero]
      · refine List.filter_congr fun d _ => ?_
        have heq : (d.triggeridUp = row.triggeridUp ∧ d.triggeridDown = row.triggeridDown) ↔ d = row := by
          cases d
          cases row
          simp [and_comm]
        rw [Bool.eq_iff_iff]
        simp only [heq, Bool.and_eq_true, decide_eq_true_eq, List.mem_cons, not_or]
        exact And.comm

/-- What `DBdelete_dependencies_by_triggerid` leaves. -/
theorem dbDeleteDependenciesByTriggerid_eq (db : HostDb) (triggerid : ℕ) :
    dbDeleteDependenciesByTriggerid db triggerid =
      { db with
        triggers := db.triggers.map fun t =>
          { t with depLevel := t.depLevel - db.triggerDepends.countP fun d =>
              d.triggeridUp = t.triggerid ∧ d.triggeridDown = triggerid }
        triggerDepends := db.triggerDepends.filter (·.triggeridDown ≠ triggerid) } := by
  rw [dbDeleteDependenciesByTriggerid, foldl_deleteDependency]
  congr 1
  · refine List.map_congr_left fun t _ => ?_
    rw [List.countP_filter]
    simp only [Bool.decide_and]
  · refine List.filter_congr fun d hd => ?_
    simp [hd]

/-- What `DBdelete_sysmaps_elements_with_triggerid` leaves: the links as they were. -/
theorem dbDeleteSysmapsElementsWithTriggerid_eq (db : HostDb) (triggerid : ℕ) :
    dbDeleteSysmapsElementsWithTriggerid db triggerid =
      { db with
        sysmapsElements := db.sysmapsElements.filter fun e =>
          e.selementid ∉ (db.sysmapsElements.filter fun e =>
            e.elementid = triggerid ∧ e.elementtype = sysmapElementTypeTrigger).map SysmapElement.selementid } := by
  have hloop : ∀ (ids : List ℕ) (db : HostDb), ids.foldl dbDeleteSysmapsElement db =
      { db with sysmapsElements := db.sysmapsElements.filter fun e => e.selementid ∉ ids } := by
    intro ids
    induction ids with
    | nil => simp
    | cons id ids ih =>
        intro db
        rw [List.foldl_cons, ih]
        simp only [dbDeleteSysmapsElement, refused, List.foldl_nil, List.filter_filter]
        congr 1
        refine List.filter_congr fun e _ => ?_
        rw [Bool.eq_iff_iff]
        simp only [Bool.and_eq_true, decide_eq_true_eq, List.mem_cons, not_or]
        exact And.comm
  rw [dbDeleteSysmapsElementsWithTriggerid, hloop]
  simp only [List.mem_dedup]

/-- The statements of `DBdelete_trigger` itself. -/
theorem deleteTriggerRows_eq (db : HostDb) (triggerid : ℕ) :
    ∃ actions, db.deleteTriggerRows triggerid =
      { db with
        triggerDepends := db.triggerDepends.filter (·.triggeridUp ≠ triggerid)
        functions := db.functions.filter (·.triggerid ≠ triggerid)
        events := db.events.filter fun e => ¬(e.objectid = triggerid ∧ e.object = eventObjectTrigger)
        sysmapsLinkTriggers := db.sysmapsLinkTriggers.filter (·.triggerid ≠ triggerid)
        actions := actions
        conditions := db.conditions.filter fun row => ¬row.isFor triggerid
        triggers := db.triggers.filter (·.triggerid ≠ triggerid) } := by
  have hloop : ∀ (ids : List ℕ) (db : HostDb), ∃ actions, ids.foldl HostDb.disableAction db =
      { db with actions := actions } := by
    intro ids
    induction ids with
    | nil => exact fun db => ⟨db.actions, rfl⟩
    | cons id ids ih =>
        intro db
        obtain ⟨actions, hactions⟩ := ih (db.disableAction id)
        exact ⟨actions, hactions⟩
  obtain ⟨actions, hactions⟩ := hloop _ _
  exact ⟨actions, by rw [HostDb.deleteTriggerRows, hactions]⟩

/-! ## what is left without some triggers -/

/-- The tables that the deletion of a trigger leaves as they are. -/
def HostDb.withoutTriggers (db : HostDb) : HostDb :=
  { db with
    functions := []
    triggers := []
    triggerDepends := []
    events := []
    services := noServices
    servicesTimes := []
    sysmapsElements := []
    sysmapsLinkTriggers := []
    conditions := []
    actions := [] }

/-- What is left when some triggers are deleted. -/
structure TriggersRest (gone : Set ℕ) (db db' : HostDb) : Prop where
  linked : ∀ a b, db'.TriggerLinked a b ↔ db.TriggerLinked a b ∧ b ∉ gone
  key : (db.triggers.map Trigger.triggerid).Nodup → (db'.triggers.map Trigger.triggerid).Nodup
  functions : db'.functions = without gone Function.triggerid db.functions
  depends : ∀ d ∈ db'.triggerDepends, d ∈ db.triggerDepends ∧ d.triggeridDown ∉ gone ∧ d.triggeridUp ∉ gone
  events : ∀ e ∈ db'.events, e ∈ db.events ∧ (e.object = eventObjectTrigger → e.objectid ∉ gone)
  services : ∃ services, ServicesGone services db.services db'.services
  triggerid : ∀ row ∈ db'.services.services, ∀ triggerid, row.triggerid = some triggerid → triggerid ∉ gone
  elements : ∀ e ∈ db'.sysmapsElements, e ∈ db.sysmapsElements ∧ ¬e.Shows gone
  linkTriggers : ∀ row ∈ db'.sysmapsLinkTriggers, row ∈ db.sysmapsLinkTriggers ∧ row.triggerid ∉ gone
  conditions : ∀ row ∈ db'.conditions, row ∈ db.conditions ∧ ∀ triggerid ∈ gone, ¬row.isFor triggerid
  depLevels : db.DepLevels → db'.DepLevels
  others : db'.withoutTriggers = db.withoutTriggers

theorem TriggersRest.refl (db : HostDb) : TriggersRest ∅ db db where
  linked := by simp
  key := id
  functions := without_empty.symm
  depends := by simp
  events := by simp
  services := ⟨∅, .refl _⟩
  triggerid := by simp
  elements := by simp [SysmapElement.Shows]
  linkTriggers := by simp
  conditions := by simp
  depLevels := id
  others := rfl

theorem TriggersRest.trans {gone gone' : Set ℕ} (h : TriggersRest gone db db') (h' : TriggersRest gone' db' db'') :
    TriggersRest (gone ∪ gone') db db'' where
  linked := fun a b => by rw [h'.linked, h.linked, Set.mem_union, not_or, and_assoc]
  key := fun hkey => h'.key (h.key hkey)
  functions := by rw [h'.functions, h.functions, without_without]
  depends := fun d hd => by
    obtain ⟨hd', hdown', hup'⟩ := h'.depends d hd
    obtain ⟨hd, hdown, hup⟩ := h.depends d hd'
    exact ⟨hd, fun hmem => hmem.elim hdown hdown', fun hmem => hmem.elim hup hup'⟩
  events := fun e he => by
    obtain ⟨he', hobject'⟩ := h'.events e he
    obtain ⟨he, hobject⟩ := h.events e he'
    exact ⟨he, fun htrigger hmem => hmem.elim (hobject htrigger) (hobject' htrigger)⟩
  services := by
    obtain ⟨services, hservices⟩ := h.services
    obtain ⟨services', hservices'⟩ := h'.services
    exact ⟨_, hservices.trans hservices'⟩
  triggerid := fun row hrow triggerid htrigger hmem => by
    obtain ⟨services', hservices'⟩ := h'.services
    obtain ⟨old, hold, -, holdtrigger⟩ := hservices'.triggerid row hrow triggerid htrigger
    exact hmem.elim (h.triggerid old hold triggerid holdtrigger) (h'.triggerid row hrow triggerid htrigger)
  elements := fun e he => by
    obtain ⟨he', hshows'⟩ := h'.elements e he
    obtain ⟨he, hshows⟩ := h.elements e he'
    exact ⟨he, fun ⟨htype, hmem⟩ => hmem.elim (fun hmem => hshows ⟨htype, hmem⟩) fun hmem => hshows' ⟨htype, hmem⟩⟩
  linkTriggers := fun row hrow => by
    obtain ⟨hrow', hid'⟩ := h'.linkTriggers row hrow
    obtain ⟨hrow, hid⟩ := h.linkTriggers row hrow'
    exact ⟨hrow, fun hmem => hmem.elim hid hid'⟩
  conditions := fun row hrow => by
    obtain ⟨hrow', hfor'⟩ := h'.conditions row hrow
    obtain ⟨hrow, hfor⟩ := h.conditions row hrow'
    exact ⟨hrow, fun triggerid hmem => hmem.elim (hfor triggerid) (hfor' triggerid)⟩
  depLevels := fun hlevels => h'.depLevels (h.depLevels hlevels)
  others := h'.others.trans h.others

/-- The levels follow the rows that are deleted. -/
theorem depLevels_deleteDependencies (h : db.DepLevels) (triggerid : ℕ) :
    (dbDeleteDependenciesByTriggerid db triggerid).DepLevels := by
  rw [dbDeleteDependenciesByTriggerid_eq]
  intro row hrow
  obtain ⟨old, hold, rfl⟩ := List.mem_map.mp hrow
  have hcount := List.countP_eq_countP_filter_add db.triggerDepends (fun d => decide (d.triggeridUp = old.triggerid))
    fun d => decide (d.triggeridDown = triggerid)
  simp only [h old hold, List.countP_filter] at hcount ⊢
  rw [hcount]
  push_cast
  have hsame : ∀ d : TriggerDepend, decide (d.triggeridUp = old.triggerid ∧ d.triggeridDown = triggerid) =
      (decide (d.triggeridUp = old.triggerid) && decide (d.triggeridDown = triggerid)) := fun d => Bool.decide_and _ _
  simp only [hsame, add_sub_cancel_left, decide_not]

/-- **The statements for one trigger**, when the triggers that are linked to it are gone. -/
theorem triggersRest_statements (db : HostDb) (triggerid : ℕ) {r : Bool × HostDb}
    (h : dbDeleteServicesByTriggerid nodeid c recount (dbDeleteDependenciesByTriggerid db triggerid) triggerid = .ok r) :
    TriggersRest {triggerid} db
      ((dbDeleteSysmapsElementsWithTriggerid r.2 triggerid).deleteTriggerRows triggerid) := by
  obtain ⟨-, hothers, hservices, htriggerid⟩ := dbDeleteServicesByTriggerid_gone h
  obtain ⟨actions, hrows⟩ := deleteTriggerRows_eq (dbDeleteSysmapsElementsWithTriggerid r.2 triggerid) triggerid
  rw [hrows, dbDeleteSysmapsElementsWithTriggerid_eq]
  have hlevels := fun h : db.DepLevels => depLevels_deleteDependencies h triggerid
  rw [dbDeleteDependenciesByTriggerid_eq] at hothers hservices hlevels
  have htriggers := congrArg HostDb.triggers hothers
  have hdepends := congrArg HostDb.triggerDepends hothers
  have hfunctions := congrArg HostDb.functions hothers
  have hevents := congrArg HostDb.events hothers
  have helements := congrArg HostDb.sysmapsElements hothers
  have hlinkTriggers := congrArg HostDb.sysmapsLinkTriggers hothers
  have hconditions := congrArg HostDb.conditions hothers
  simp only [HostDb.withoutServices] at htriggers hdepends hfunctions hevents helements hlinkTriggers hconditions
  refine ⟨?_, ?_, ?_, ?_, ?_, hservices, ?_, ?_, ?_, ?_, ?_, ?_⟩
  · intro a b
    simp only [HostDb.TriggerLinked, htriggers, List.mem_filter, List.mem_map, decide_eq_true_eq, Set.mem_singleton_iff]
    constructor
    · rintro ⟨_, ⟨⟨old, hold, rfl⟩, hne⟩, rfl, rfl⟩
      exact ⟨⟨old, hold, rfl, rfl⟩, hne⟩
    · rintro ⟨⟨old, hold, rfl, rfl⟩, hne⟩
      exact ⟨_, ⟨⟨old, hold, rfl⟩, hne⟩, rfl, rfl⟩
  · intro hkey
    refine List.Nodup.sublist (List.filter_sublist.map _) ?_
    change (r.2.triggers.map Trigger.triggerid).Nodup
    rw [htriggers, List.map_map]
    exact hkey
  · rw [without_singleton, ← hfunctions]
  · intro d hd
    simp only [hdepends, List.mem_filter, decide_eq_true_eq] at hd
    exact ⟨hd.1.1, hd.1.2, hd.2⟩
  · intro e he
    simp only [hevents, List.mem_filter, decide_eq_true_eq, not_and'] at he
    exact ⟨he.1, he.2⟩
  · intro row hrow id hid hmem
    rw [Set.mem_singleton_iff.mp hmem] at hid
    exact htriggerid row hrow hid
  · intro e he
    simp only [helements, List.mem_filter, decide_eq_true_eq, List.mem_map, not_exists, not_and] at he
    exact ⟨he.1, fun ⟨htype, hmem⟩ => he.2 e ⟨he.1, hmem, htype⟩ rfl⟩
  · intro row hrow
    simp only [hlinkTriggers, List.mem_filter, decide_eq_true_eq] at hrow
    exact ⟨hrow.1, hrow.2⟩
  · intro row hrow
    simp only [hconditions, List.mem_filter, decide_eq_true_eq] at hrow
    refine ⟨hrow.1, fun id hid => ?_⟩
    rw [Set.mem_singleton_iff.mp hid]
    exact hrow.2
  · intro hlevel row hrow
    obtain ⟨hrow, hne⟩ := List.mem_filter.mp hrow
    have hne : row.triggerid ≠ triggerid := of_decide_eq_true hne
    have hold := hlevels hlevel row (by rw [← htriggers]; exact hrow)
    change row.depLevel =
      ((r.2.triggerDepends.filter fun d => d.triggeridUp ≠ triggerid).countP fun d => d.triggeridUp = row.triggerid)
    rw [hold, ← hdepends, List.countP_filter]
    congr 1
    refine List.countP_congr fun d _ => ?_
    simp only [decide_eq_true_eq, Bool.and_eq_true]
    exact ⟨fun hup => ⟨hup, fun hid => hne (hup.symm.trans hid)⟩, And.left⟩
  · have h := congrArg HostDb.withoutTriggers hothers
    exact h

/-! ## the deletion -/

/-- One more deletion. -/
theorem TriggersRest.delete {nodes : List ℕ} (h : TriggersRest (Under db.TriggerLinked {b | b ∈ nodes}) db db') {a : ℕ}
    (h' : TriggersRest (Under db'.TriggerLinked {a}) db' db'') :
    TriggersRest (Under db.TriggerLinked {b | b ∈ nodes ++ [a]}) db db'' := by
  have hrest := h.trans h'
  rw [Removes.under_union h.linked {a}] at hrest
  convert hrest using 2
  ext b
  simp [or_comm]

/-- **The deletion of a trigger**, when it succeeds: what is left is what is left without the trigger and all that are
linked below it. -/
theorem dbDeleteTrigger_rest {depth : ℕ} (h : dbDeleteTrigger nodeid c recount depth db triggerid = .ok (true, db')) :
    TriggersRest (Under db.TriggerLinked {triggerid}) db db' := by
  induction depth generalizing db db' triggerid with
  | zero => cases h
  | succ depth ih =>
      rw [dbDeleteTrigger] at h
      split at h
      · obtain ⟨r, hloop, h⟩ := bind_eq_ok h
        split at h
        · next htrue =>
            obtain ⟨r', hservices, h⟩ := bind_eq_ok h
            rw [if_pos (dbDeleteServicesByTriggerid_gone hservices).1] at h
            cases h
            have hr : r = (true, r.2) := Prod.ext htrue rfl
            have hlinked : TriggersRest (Under db.TriggerLinked {b | b ∈ db.linkedTriggers triggerid}) db r.2 := by
              refine untilFail_true (J := fun done s => TriggersRest (Under db.TriggerLinked {b | b ∈ done}) db s)
                (hloop.trans (congrArg Except.ok hr)) (fun done a _ s s' hcall hs => hs.delete (ih hcall)) ?_
              simpa using TriggersRest.refl db
            have hrest := hlinked.trans (triggersRest_statements r.2 triggerid hservices)
            have hunder : Under db.TriggerLinked {b | b ∈ db.linkedTriggers triggerid} ∪ {triggerid} =
                Under db.TriggerLinked {triggerid} := under_children fun b => mem_linkedTriggers
            rwa [hunder] at hrest
        · next hfalse =>
            cases h
            exact absurd rfl hfalse
      · cases h

/-- Two triggers that one is linked to are the same, where the key of `triggers` is unique. -/
theorem triggerLinked_parent (hkey : (db.triggers.map Trigger.triggerid).Nodup) (a a' b : ℕ)
    (h : db.TriggerLinked a b) (h' : db.TriggerLinked a' b) : a = a' := by
  obtain ⟨row, hrow, rfl, hid⟩ := h
  obtain ⟨row', hrow', rfl, hid'⟩ := h'
  rw [List.inj_on_of_nodup_map hkey hrow hrow' (hid.trans hid'.symm)]

/-- **A deletion succeeds** when it is of a trigger that there is, and no way in the linkage leads back: if anything
stops it, then it is services. -/
theorem dbDeleteTrigger_ends (hacyclic : Acyclic db.TriggerLinked) (hkey : (db.triggers.map Trigger.triggerid).Nodup)
    {height : ℕ → ℕ} (hheight : ∀ a b, db.TriggerLinked a b → height b < height a) {depth : ℕ}
    (hdepth : height triggerid < depth) (htrigger : ∃ row ∈ db.triggers, row.triggerid = triggerid) :
    Ends (fun _ => ∃ row ∈ db.services.services, ∃ b ∈ Under db.TriggerLinked {triggerid}, row.triggerid = some b)
      (fun r => r.1 = true) (dbDeleteTrigger nodeid c recount depth db triggerid) := by
  induction depth generalizing db triggerid with
  | zero => omega
  | succ depth ih =>
      rw [dbDeleteTrigger, if_pos htrigger]
      have hnodup : (db.linkedTriggers triggerid).Nodup := hkey.sublist (List.filter_sublist.map _)
      have hold : ∀ {s : HostDb} {gone : Set ℕ}, TriggersRest gone db s → ∀ row ∈ s.services.services, ∀ b,
          row.triggerid = some b → ∃ row ∈ db.services.services, row.triggerid = some b := by
        intro s gone hs row hrow b hb
        obtain ⟨services, hservices⟩ := hs.services
        obtain ⟨old, hold, -, holdb⟩ := hservices.triggerid row hrow b hb
        exact ⟨old, hold, holdb⟩
      refine (untilFail_ends (J := fun done s => TriggersRest (Under db.TriggerLinked {b | b ∈ done}) db s)
        ?_ (by simpa using TriggersRest.refl db)).bind ?_
      · intro done a rest s has hs
        have ha : db.TriggerLinked triggerid a := mem_linkedTriggers.mp (by rw [has]; simp)
        have hthere : a ∉ Under db.TriggerLinked {b | b ∈ done} := by
          rintro ⟨x, hx, hxa⟩
          have hx' : db.TriggerLinked triggerid x :=
            mem_linkedTriggers.mp (by rw [has]; exact List.mem_append_left _ hx)
          have hne : x ≠ a := by
            rintro rfl
            rw [has] at hnodup
            exact (List.nodup_append.mp hnodup).2.2 x hx x List.mem_cons_self rfl
          exact not_below_sibling hacyclic (triggerLinked_parent hkey) hx' ha hne hxa
        have hmono : ∀ x y, s.TriggerLinked x y → db.TriggerLinked x y := fun x y hxy => ((hs.linked x y).mp hxy).1
        obtain ⟨row, hrow, -, hid⟩ := (hs.linked triggerid a).mpr ⟨ha, hthere⟩
        have hlt := hheight _ _ ha
        have hcall := ih (fun x hx => hacyclic x (TransGen.mono hmono x x hx)) (hs.key hkey)
          (fun x y hxy => hheight x y (hmono x y hxy)) (by omega) ⟨row, hrow, hid⟩
        cases hcallr : dbDeleteTrigger nodeid c recount depth s a with
        | error stop =>
            rw [hcallr] at hcall
            cases hcall with
            | error hstop =>
                obtain ⟨row, hrow, b, hb, hrowb⟩ := hstop
                obtain ⟨old, hold, holdb⟩ := hold hs row hrow b hrowb
                refine .error ⟨old, hold, b, ?_, holdb⟩
                have hab := mem_under_singleton.mp hb
                exact mem_under_singleton.mpr (.head ha (ReflTransGen.mono hmono _ _ hab))
        | ok r =>
            rw [hcallr] at hcall
            cases hcall with
            | ok htrue =>
                have hr : r = (true, r.2) := Prod.ext htrue rfl
                exact .ok ⟨htrue, hs.delete (dbDeleteTrigger_rest (hcallr.trans (congrArg Except.ok hr)))⟩
      · rintro r ⟨htrue, hr⟩
        rw [if_pos htrue]
        dsimp only
        cases hservices : dbDeleteServicesByTriggerid nodeid c recount
          (dbDeleteDependenciesByTriggerid r.2 triggerid) triggerid with
        | error stop =>
            refine .error ?_
            have hne : (dbDeleteDependenciesByTriggerid r.2 triggerid).servicesOf triggerid ≠ [] := by
              intro hnil
              rw [dbDeleteServicesByTriggerid, hnil] at hservices
              cases hservices
            obtain ⟨id, hid⟩ := List.exists_mem_of_ne_nil _ hne
            rw [dbDeleteDependenciesByTriggerid_eq] at hid
            obtain ⟨row, hrow, -⟩ := List.mem_map.mp hid
            obtain ⟨hrow, hrowt⟩ := List.mem_filter.mp hrow
            obtain ⟨old, hold, holdt⟩ := hold hr row hrow triggerid (of_decide_eq_true hrowt)
            exact ⟨old, hold, triggerid, mem_under_singleton.mpr .refl, holdt⟩
        | ok r' =>
            have htrue' := (dbDeleteServicesByTriggerid_gone hservices).1
            rw [ok_bind, if_pos htrue']
            exact .ok rfl

/-- The other tables are as they were. -/
theorem TriggersRest.table {β : Type} {gone : Set ℕ} (h : TriggersRest gone db db') (f : HostDb → β)
    (hf : ∀ db : HostDb, f db.withoutTriggers = f db) : f db' = f db := by
  rw [← hf db', h.others, hf db]

theorem TriggersRest.sysmapsLinks {gone : Set ℕ} (h : TriggersRest gone db db') : db'.sysmapsLinks = db.sysmapsLinks :=
  h.table HostDb.sysmapsLinks fun _ => rfl

/-- What refers to the triggers is gone, but for links of map elements. -/
theorem TriggersRest.deleted {nodes : Set ℕ} (h : TriggersRest (Under db.TriggerLinked nodes) db db')
    (hlevels : db.DepLevels) (hlinks : ∀ l ∈ db.sysmapsLinks, ¬l.EndsAt (·.Shows (Under db.TriggerLinked nodes)) db) :
    TriggersDeleted (Under db.TriggerLinked nodes) db db' where
  triggers := fun row hrow => by
    obtain ⟨hlinked, hid⟩ := (h.linked row.templateid row.triggerid).mp ⟨row, hrow, rfl, rfl⟩
    exact ⟨hid, fun htemplate => hid (Under.tail htemplate (.single hlinked))⟩
  functions := fun row hrow => by
    rw [h.functions] at hrow
    exact (mem_without.mp hrow).2
  depends := fun d hd => (h.depends d hd).2
  events := fun e he => (h.events e he).2
  services := h.triggerid
  servicesLinks := fun row hrow hgone l hl => by
    obtain ⟨services, hservices⟩ := h.services
    have hmem : row.serviceid ∈ services := by
      by_contra hmem
      exact hgone ((hservices.serviceids row.serviceid).mpr ⟨List.mem_map_of_mem hrow, hmem⟩)
    obtain ⟨-, hup, hdown⟩ := (hservices.links l).mp hl
    exact ⟨fun heq => hup (heq ▸ hmem), fun heq => hdown (heq ▸ hmem)⟩
  elements := fun e he => (h.elements e he).2
  links := fun l hl => hlinks l (h.sysmapsLinks ▸ hl)
  linkTriggers := fun row hrow => ⟨(h.linkTriggers row hrow).2, fun l hl hend => absurd hend (hlinks l hl)⟩
  conditions := fun row hrow => (h.conditions row hrow).2
  depLevels := h.depLevels hlevels

/-- **The deletion of a trigger**, when it succeeds, leaves nothing that refers to the trigger, to one that is linked
below it, or to a map element that has gone with them, if and only if no link had an end at such an element. -/
theorem dbDeleteTrigger_deleted_iff {schema : Schema} (nodeid : ℕ) (c : Column schema) (recount : RecountAnswers)
    {depth : ℕ} {db db' : HostDb} {triggerid : ℕ} (hlevels : db.DepLevels)
    (h : dbDeleteTrigger nodeid c recount depth db triggerid = .ok (true, db')) :
    TriggersDeleted (Under db.TriggerLinked {triggerid}) db db' ↔
      ∀ l ∈ db.sysmapsLinks, ¬l.EndsAt (·.Shows (Under db.TriggerLinked {triggerid})) db := by
  have hrest := dbDeleteTrigger_rest h
  constructor
  · intro hdeleted l hl
    exact hdeleted.links l (hrest.sysmapsLinks ▸ hl)
  · exact hrest.deleted hlevels

/-- The rows of a table are last first, and up to nine calls are nested. -/
def recountLastFirst : RecountAnswers := ⟨fun _ => lastFirst, 9⟩

/-- A trigger, with no text. -/
def plainTrigger (triggerid templateid : ℕ) (depLevel : ℤ) : Trigger where
  triggerid := triggerid
  expression := []
  description := []
  url := []
  comments := []
  status := 0
  value := 0
  priority := 0
  depLevel := depLevel
  templateid := templateid
  type := 0

/-- A trigger with a linked one, which depends on a third one and has a service; a map shows both. -/
def referredDb : HostDb :=
  { HostDb.empty with
    triggers := [plainTrigger 1 0 0, plainTrigger 2 1 0, plainTrigger 3 0 1]
    triggerDepends := [⟨2, 3⟩]
    functions := [⟨11, 21, 1, [], []⟩, ⟨12, 22, 2, [], []⟩, ⟨13, 22, 3, [], []⟩]
    services :=
      { noServices with
        services := [⟨1, 0, 1, some 3⟩, ⟨2, 0, 1, some 2⟩]
        key := by decide }
    sysmapsElements := [⟨1, 1, 2⟩, ⟨2, 2, 2⟩, ⟨3, 3, 2⟩, ⟨4, 2, 4⟩]
    sysmapsLinks := [⟨1, 3, 4⟩]
    sysmapsLinkTriggers := [⟨1, 2⟩]
    conditions := [⟨1, 2, 1⟩] }

theorem depLevels_referredDb : referredDb.DepLevels := by
  unfold HostDb.DepLevels
  decide

/-- The two triggers that the map shows are gone, and no link is left without an end. -/
theorem dbDeleteTrigger_referred :
    ∃ db', dbDeleteTrigger 0 servicealarmid recountLastFirst 2 referredDb 1 = .ok (true, db') ∧
      (TriggersDeleted (Under referredDb.TriggerLinked {1}) referredDb db' ↔
        ∀ l ∈ referredDb.sysmapsLinks, ¬l.EndsAt (·.Shows (Under referredDb.TriggerLinked {1})) referredDb) := by
  have hcall : (dbDeleteTrigger 0 servicealarmid recountLastFirst 2 referredDb 1).map Prod.fst = .ok true := by decide
  cases h : dbDeleteTrigger 0 servicealarmid recountLastFirst 2 referredDb 1 with
  | error stop =>
      rw [h] at hcall
      cases hcall
  | ok r =>
      rw [h] at hcall
      obtain ⟨_, db'⟩ := r
      cases hcall
      exact ⟨db', rfl, dbDeleteTrigger_deleted_iff 0 servicealarmid recountLastFirst depLevels_referredDb h⟩

/-- A trigger that a map shows, next to an image, with a link between the two. -/
def linkedElementDb : HostDb :=
  { HostDb.empty with
    triggers := [plainTrigger 1 0 0]
    sysmapsElements := [⟨1, 1, 2⟩, ⟨2, 5, 4⟩]
    sysmapsLinks := [⟨1, 1, 2⟩] }

theorem intact_linkedElementDb : linkedElementDb.Intact := by
  constructor <;> decide

/-- The link keeps an end that is no longer there. -/
theorem not_dbDeleteTrigger_linkedElement :
    linkedElementDb.Intact ∧ linkedElementDb.DepLevels ∧
      ∃ db', dbDeleteTrigger 0 servicealarmid recountLastFirst 1 linkedElementDb 1 = .ok (true, db') ∧
        db'.sysmapsElements = [⟨2, 5, 4⟩] ∧ db'.sysmapsLinks = [⟨1, 1, 2⟩] ∧
        ¬TriggersDeleted (Under linkedElementDb.TriggerLinked {1}) linkedElementDb db' := by
  refine ⟨intact_linkedElementDb, by unfold HostDb.DepLevels; decide, _, rfl, rfl, rfl, fun hdeleted => ?_⟩
  refine hdeleted.links ⟨1, 1, 2⟩ List.mem_cons_self ⟨⟨1, 1, 2⟩, List.mem_cons_self, ⟨rfl, ?_⟩, .inl rfl⟩
  exact mem_under_singleton.mpr .refl

end Zabbix.Host
