import Zabbix.Lib.Outcome
import Zabbix.Services.Service

/-!
# Zabbix.Services.Tree

The tree of services stays consistent: the status of a service is the greatest,
or the least, of those directly below it (`ServiceState.Consistent`).

What a call of `DBupdate_services_rec` does is a list of computations
(`Recomputed`), one for each service that is met.  It is the order in which the
services are met that matters, not the order in which the database returns them:
a service is always computed again after anything below it has been
(`dbUpdateServicesRec_climbs`), so the last computation sees final values.
-/

namespace Zabbix

open Outcome Propagate

/-! ## what a consistent tree is -/

namespace ServiceState

/-- `b` is directly above `a`. -/
def Up (s : ServiceState) (a b : ℕ) : Prop := ⟨b, a⟩ ∈ s.links

/-- The statuses of the services directly below one. -/
def childStatuses (s : ServiceState) (serviceid : ℕ) : Set ℤ :=
  {status | ∃ row ∈ s.services, s.Up row.serviceid serviceid ∧ row.status = status}

/-- The status of a service is what its algorithm makes of those below it. -/
def Right (s : ServiceState) (serviceid : ℕ) : Prop :=
  ∀ row ∈ s.services, row.serviceid = serviceid → (s.childStatuses serviceid).Nonempty →
    (row.algorithm = serviceAlgorithmMax → IsGreatest (s.childStatuses serviceid) row.status) ∧
      (row.algorithm = serviceAlgorithmMin → IsLeast (s.childStatuses serviceid) row.status)

/-- The status of every service is right. -/
def Consistent (s : ServiceState) : Prop := ∀ serviceid, s.Right serviceid

/-- Only services with nothing below them have a trigger. -/
def OnlyLeaves (s : ServiceState) : Prop :=
  ∀ row ∈ s.services, row.triggerid ≠ none → ∀ a, ¬s.Up a row.serviceid

/-- A service of the trigger, or one that is above such a service. -/
def Concerned (s : ServiceState) (triggerid serviceid : ℕ) : Prop :=
  ∃ row ∈ s.services, row.triggerid = some triggerid ∧ Relation.ReflTransGen s.Up row.serviceid serviceid

/-- No two alarms of a service with none of them in between have the same value. -/
def NoRepeat (s : ServiceState) : Prop :=
  ∀ a ∈ s.alarms, ∀ b ∈ s.alarms, a.serviceid = b.serviceid → a.servicealarmid < b.servicealarmid →
    (∀ d ∈ s.alarms, d.serviceid = a.serviceid →
      ¬(a.servicealarmid < d.servicealarmid ∧ d.servicealarmid < b.servicealarmid)) →
    a.value ≠ b.value

/-- The identifiers of the alarms are ones that the node has handed out, or lower
ones. -/
structure OwnAlarms {schema : Schema} (nodeid : ℕ) (c : Column schema) (s : ServiceState) : Prop where
  notBelow : NotBelow nodeid c s.ids (s.alarms.map ServiceAlarm.servicealarmid)
  le : ∀ a ∈ s.alarms, a.servicealarmid ≤ c.max nodeid

/-- Nothing but statuses of services differs in the tree. -/
structure SameTree (s s' : ServiceState) : Prop where
  links : s'.links = s.links
  triggers : s'.triggers = s.triggers
  services : s'.services.map ServiceRow.fixed = s.services.map ServiceRow.fixed

/-- The alarms stay as they have to be. -/
structure AlarmsKept {schema : Schema} (nodeid : ℕ) (c : Column schema) (s s' : ServiceState) : Prop where
  own : s.OwnAlarms nodeid c → s'.OwnAlarms nodeid c
  noRepeat : s.OwnAlarms nodeid c → s.NoRepeat → s'.NoRepeat

variable {s s' s'' : ServiceState} {schema : Schema} {nodeid : ℕ} {c : Column schema}

@[refl] theorem SameTree.refl (s : ServiceState) : s.SameTree s := ⟨rfl, rfl, rfl⟩

theorem SameTree.trans (h : s.SameTree s') (h' : s'.SameTree s'') : s.SameTree s'' :=
  ⟨h'.links.trans h.links, h'.triggers.trans h.triggers, h'.services.trans h.services⟩

@[refl] theorem AlarmsKept.refl (s : ServiceState) : AlarmsKept nodeid c s s := ⟨id, fun _ => id⟩

theorem AlarmsKept.trans (h : AlarmsKept nodeid c s s') (h' : AlarmsKept nodeid c s' s'') : AlarmsKept nodeid c s s'' :=
  ⟨fun hown => h'.own (h.own hown), fun hown hrepeat => h'.noRepeat (h.own hown) (h.noRepeat hown hrepeat)⟩

theorem SameTree.up_iff (h : s.SameTree s') {a b : ℕ} : s'.Up a b ↔ s.Up a b := by
  rw [Up, Up, h.links]

theorem Right.congr {serviceid : ℕ} (h : s.Right serviceid) (hservices : s'.services = s.services)
    (hlinks : s'.links = s.links) : s'.Right serviceid := by
  have hchild : s'.childStatuses serviceid = s.childStatuses serviceid := by
    simp only [childStatuses, Up, hservices, hlinks]
  intro row hrow
  rw [hchild]
  exact h row (hservices ▸ hrow)

/-- The key of `services` is unique. -/
theorem eq_of_serviceid {row row' : ServiceRow} (h : row ∈ s.services) (h' : row' ∈ s.services)
    (hid : row.serviceid = row'.serviceid) : row = row' :=
  List.inj_on_of_nodup_map s.key h h' hid

theorem service_eq_some {serviceid : ℕ} {row : ServiceRow} (h : s.service serviceid = some row) :
    row ∈ s.services ∧ row.serviceid = serviceid :=
  ⟨List.mem_of_find?_eq_some h, by simpa using List.find?_some h⟩

theorem service_eq_none {serviceid : ℕ} (h : s.service serviceid = none) {row : ServiceRow} (hrow : row ∈ s.services) :
    row.serviceid ≠ serviceid :=
  fun hid => List.find?_eq_none.mp h row hrow (decide_eq_true hid)

/-- A row of a service has one with the same columns in the other tables. -/
theorem SameTree.service_fixed (h : s.SameTree s') (serviceid : ℕ) :
    (s'.service serviceid).map ServiceRow.fixed = (s.service serviceid).map ServiceRow.fixed := by
  have hfind (rows : List ServiceRow) :
      (rows.find? (·.serviceid = serviceid)).map ServiceRow.fixed =
        (rows.map ServiceRow.fixed).find? (·.serviceid = serviceid) := by
    rw [List.find?_map]
    rfl
  rw [service, service, hfind, hfind, h.services]

/-! ## the update of a status -/

theorem mem_updateService {serviceid : ℕ} {status : ℤ} {row : ServiceRow} :
    row ∈ (s.updateService serviceid status).services ↔
      ∃ old ∈ s.services, (if old.serviceid = serviceid then { old with status := status } else old) = row :=
  List.mem_map

theorem mem_updateService_of_ne {serviceid : ℕ} {status : ℤ} {row : ServiceRow} (h : row ∈ s.services)
    (hne : row.serviceid ≠ serviceid) : row ∈ (s.updateService serviceid status).services :=
  mem_updateService.mpr ⟨row, h, if_neg hne⟩

theorem updateService_sameTree (serviceid : ℕ) (status : ℤ) : s.SameTree (s.updateService serviceid status) where
  links := rfl
  triggers := rfl
  services := by
    rw [updateService, List.map_map]
    refine List.map_congr_left fun row _ => ?_
    simp only [Function.comp_apply]
    split <;> rfl

theorem updateService_alarmsKept (serviceid : ℕ) (status : ℤ) :
    AlarmsKept nodeid c s (s.updateService serviceid status) :=
  ⟨fun h => ⟨h.notBelow, h.le⟩, fun _ h => h⟩

/-- Statuses below a service that the updated one is not below. -/
theorem childStatuses_updateService {serviceid b : ℕ} {status : ℤ} (h : ¬s.Up serviceid b) :
    (s.updateService serviceid status).childStatuses b = s.childStatuses b := by
  ext v
  constructor
  · rintro ⟨row, hrow, hup, rfl⟩
    obtain ⟨old, hold, rfl⟩ := mem_updateService.mp hrow
    by_cases hid : old.serviceid = serviceid
    · rw [if_pos hid] at hup
      exact absurd (hid ▸ hup) h
    · rw [if_neg hid] at hup ⊢
      exact ⟨old, hold, hup, rfl⟩
  · rintro ⟨row, hrow, hup, rfl⟩
    exact ⟨row, mem_updateService_of_ne hrow fun hid => h (hid ▸ hup), hup, rfl⟩

theorem Right.updateService {serviceid b : ℕ} {status : ℤ} (h : s.Right b) (hne : b ≠ serviceid)
    (hup : ¬s.Up serviceid b) : (s.updateService serviceid status).Right b := by
  intro row hrow hid
  rw [childStatuses_updateService hup]
  obtain ⟨old, hold, rfl⟩ := mem_updateService.mp hrow
  by_cases hold' : old.serviceid = serviceid
  · rw [if_pos hold'] at hid
    exact absurd (hid.symm.trans hold') hne
  · rw [if_neg hold'] at hid ⊢
    exact h old hold hid

/-! ## the status that is computed -/

theorem mem_statusesBelow {serviceid : ℕ} {status : ℤ} :
    status ∈ s.statusesBelow serviceid ↔ status ∈ s.childStatuses serviceid := by
  simp only [statusesBelow, childStatuses, Up, List.mem_flatMap, List.mem_filter, List.mem_map, decide_eq_true_eq,
    Set.mem_ofPred_eq]
  constructor
  · rintro ⟨l, ⟨hl, rfl⟩, row, ⟨hrow, hdown⟩, rfl⟩
    exact ⟨row, hrow, hdown ▸ hl, rfl⟩
  · rintro ⟨row, hrow, hup, rfl⟩
    exact ⟨_, ⟨hup, rfl⟩, row, ⟨hrow, rfl⟩, rfl⟩

/-- Without a trigger, a `0` in the first row is what is returned anyway. -/
theorem dbGetServiceStatus_eq (s : ServiceState) (serviceid : ℕ) {algorithm : ℤ}
    (h : algorithm = serviceAlgorithmMax ∨ algorithm = serviceAlgorithmMin) :
    dbGetServiceStatus s serviceid algorithm 0 =
      (if algorithm = serviceAlgorithmMax then (s.statusesBelow serviceid).max?
        else (s.statusesBelow serviceid).min?).getD 0 := by
  simp only [dbGetServiceStatus, ne_eq, not_true_eq_false, if_false, if_pos h]
  split
  · next row hrow =>
    rw [hrow, Option.getD_some]
    split <;> omega
  · next hrow => rw [hrow, Option.getD_none]

theorem dbGetServiceStatus_max {serviceid : ℕ} (hne : (s.childStatuses serviceid).Nonempty) :
    IsGreatest (s.childStatuses serviceid) (dbGetServiceStatus s serviceid serviceAlgorithmMax 0) := by
  rw [dbGetServiceStatus_eq s serviceid (.inl rfl), if_pos rfl]
  cases hmax : (s.statusesBelow serviceid).max? with
  | none =>
      obtain ⟨v, hv⟩ := hne
      rw [← mem_statusesBelow, List.max?_eq_none_iff.mp hmax] at hv
      cases hv
  | some v =>
      obtain ⟨hmem, hle⟩ := List.max?_eq_some_iff.mp hmax
      exact ⟨mem_statusesBelow.mp hmem, fun w hw => hle w (mem_statusesBelow.mpr hw)⟩

theorem dbGetServiceStatus_min {serviceid : ℕ} (hne : (s.childStatuses serviceid).Nonempty) :
    IsLeast (s.childStatuses serviceid) (dbGetServiceStatus s serviceid serviceAlgorithmMin 0) := by
  rw [dbGetServiceStatus_eq s serviceid (.inr rfl), if_neg (by decide)]
  cases hmin : (s.statusesBelow serviceid).min? with
  | none =>
      obtain ⟨v, hv⟩ := hne
      rw [← mem_statusesBelow, List.min?_eq_none_iff.mp hmin] at hv
      cases hv
  | some v =>
      obtain ⟨hmem, hle⟩ := List.min?_eq_some_iff.mp hmin
      exact ⟨mem_statusesBelow.mp hmem, fun w hw => hle w (mem_statusesBelow.mpr hw)⟩

/-! ## alarms -/

/-- The last alarm of a service is not the one that is to be added. -/
theorem value_ne_of_latest {serviceid : ℕ} {status : ℤ} (h : latestServiceAlarm s serviceid status = false)
    {a : ServiceAlarm} (ha : a ∈ s.alarms) (hid : a.serviceid = serviceid)
    (hlast : ∀ d ∈ s.alarms, d.serviceid = serviceid → d.servicealarmid ≤ a.servicealarmid) : a.value ≠ status := by
  have hsorted := List.pairwise_insertionSort (fun a b : ServiceAlarm => a.servicealarmid ≥ b.servicealarmid)
    (s.alarms.filter (·.serviceid = serviceid))
  have hmem (d : ServiceAlarm) : d ∈ (s.alarms.filter (·.serviceid = serviceid)).insertionSort
      (fun a b => a.servicealarmid ≥ b.servicealarmid) ↔ d ∈ s.alarms ∧ d.serviceid = serviceid := by
    rw [List.mem_insertionSort, List.mem_filter, decide_eq_true_eq]
  rw [latestServiceAlarm] at h
  cases hrows : (s.alarms.filter (·.serviceid = serviceid)).insertionSort
      (fun a b => a.servicealarmid ≥ b.servicealarmid) with
  | nil =>
      have := (hmem a).mpr ⟨ha, hid⟩
      rw [hrows] at this
      cases this
  | cons row rows =>
      rw [hrows] at h hsorted hmem
      have hrow := (hmem row).mp List.mem_cons_self
      have hle : a.servicealarmid ≤ row.servicealarmid := by
        rcases List.mem_cons.mp ((hmem a).mpr ⟨ha, hid⟩) with rfl | hin
        · exact le_rfl
        · exact (List.pairwise_cons.mp hsorted).1 a hin
      have heq : a = row :=
        List.inj_on_of_nodup_map s.alarmKey ha hrow.1 (le_antisymm hle (hlast row hrow.1 hrow.2))
      subst heq
      exact fun hvalue => by simp [hvalue] at h

@[simp] theorem insertAlarm_services (row : ServiceAlarm) : (s.insertAlarm row).services = s.services := by
  rw [insertAlarm]
  split <;> rfl

@[simp] theorem insertAlarm_links (row : ServiceAlarm) : (s.insertAlarm row).links = s.links := by
  rw [insertAlarm]
  split <;> rfl

@[simp] theorem insertAlarm_triggers (row : ServiceAlarm) : (s.insertAlarm row).triggers = s.triggers := by
  rw [insertAlarm]
  split <;> rfl

@[simp] theorem insertAlarm_ids (row : ServiceAlarm) : (s.insertAlarm row).ids = s.ids := by
  rw [insertAlarm]
  split <;> rfl

theorem mem_insertAlarm {row a : ServiceAlarm} (h : a ∈ (s.insertAlarm row).alarms) : a = row ∨ a ∈ s.alarms := by
  rw [insertAlarm] at h
  split at h
  · exact .inr h
  · exact List.mem_cons.mp h

theorem mem_insertAlarm_of_mem {row a : ServiceAlarm} (h : a ∈ s.alarms) : a ∈ (s.insertAlarm row).alarms := by
  rw [insertAlarm]
  split
  · exact h
  · exact List.mem_cons_of_mem _ h

/-- An alarm behind all others, with a value that the last one of its service does
not have. -/
theorem NoRepeat.insertAlarm (h : s.NoRepeat) {row : ServiceAlarm}
    (hlast : ∀ a ∈ s.alarms, a.servicealarmid < row.servicealarmid)
    (hvalue : latestServiceAlarm s row.serviceid row.value = false) : (s.insertAlarm row).NoRepeat := by
  intro a ha b hb hservice hlt hbetween
  rcases mem_insertAlarm ha with rfl | hold
  · rcases mem_insertAlarm hb with rfl | hb'
    · exact absurd hlt (lt_irrefl _)
    · exact absurd hlt (hlast b hb').asymm
  · rcases mem_insertAlarm hb with rfl | hb'
    · refine value_ne_of_latest hvalue hold hservice fun d hd hid => ?_
      by_contra hlater
      exact hbetween d (mem_insertAlarm_of_mem hd) (hid.trans hservice.symm) ⟨not_le.mp hlater, hlast d hd⟩
    · exact h a hold b hb' hservice hlt fun d hd => hbetween d (mem_insertAlarm_of_mem hd)

theorem dbAddServiceAlarm_ends (s : ServiceState) (serviceid : ℕ) (status clock : ℤ) :
    Ends (· = .exit)
      (fun s' => (s'.services = s.services ∧ s'.links = s.links ∧ s'.triggers = s.triggers) ∧ AlarmsKept nodeid c s s')
      (dbAddServiceAlarm nodeid c s serviceid status clock) := by
  rw [dbAddServiceAlarm]
  cases hlatest : latestServiceAlarm s serviceid status with
  | true => exact .ok ⟨⟨rfl, rfl, rfl⟩, .refl s⟩
  | false =>
      rw [if_neg Bool.false_ne_true, dbGetMaxidNum_eq]
      by_cases hmax : lastId nodeid c s.ids (s.alarms.map ServiceAlarm.servicealarmid) < c.max nodeid
      · rw [if_pos hmax]
        generalize hlastid : lastId nodeid c s.ids (s.alarms.map ServiceAlarm.servicealarmid) = lastid at hmax
        dsimp only
        refine .ok ⟨⟨by simp, by simp, by simp⟩, ?_, ?_⟩
        · intro hown
          constructor
          · rw [insertAlarm_ids]
            intro nextid hnext id hid hle
            obtain rfl := Option.some.inj hnext
            obtain ⟨a, ha, rfl⟩ := List.mem_map.mp hid
            rcases mem_insertAlarm ha with rfl | ha
            · exact le_rfl
            · have hle' := le_lastId hown.notBelow (List.mem_map_of_mem ha) hle
              rw [hlastid] at hle'
              exact Nat.le_succ_of_le hle'
          · intro a ha
            rcases mem_insertAlarm ha with rfl | ha
            · exact hmax
            · exact hown.le a ha
        · intro hown hrepeat
          refine @NoRepeat.insertAlarm { s with ids := some (lastid + 1) } hrepeat
            ⟨lastid + 1, serviceid, clock, status⟩ (fun a ha => ?_) hlatest
          have hle := le_lastId hown.notBelow (List.mem_map_of_mem ha) (hown.le a ha)
          exact Nat.lt_succ_of_le (hlastid ▸ hle)
      · rw [if_neg hmax]
        exact .error rfl

end ServiceState

open ServiceState

/-! ## one computation -/

section

variable {schema : Schema} (nodeid : ℕ) (c : Column schema)

/-- What the computation of `serviceid` does: its status becomes right, and those
of the services directly above may become wrong. -/
structure Recomputed (serviceid : ℕ) (s s' : ServiceState) : Prop where
  tree : s.SameTree s'
  alarms : AlarmsKept nodeid c s s'
  others : ∀ row ∈ s.services, row.serviceid ≠ serviceid → row ∈ s'.services
  none : ∀ row ∈ s.services, row.algorithm = serviceAlgorithmNone → row ∈ s'.services
  self : s'.Right serviceid
  right : ∀ b, b ≠ serviceid → ¬s.Up serviceid b → s.Right b → s'.Right b

variable {nodeid} {c} {s s' : ServiceState}

/-- Nothing is done, and there is nothing to compute. -/
theorem Recomputed.refl {serviceid : ℕ} (h : s.Right serviceid) : Recomputed nodeid c serviceid s s :=
  ⟨.refl s, .refl s, fun _ h _ => h, fun _ h _ => h, h, fun _ _ _ h => h⟩

/-- The status that is computed is right. -/
theorem right_computed {serviceid : ℕ} {row : ServiceRow} (hrow : s.service serviceid = some row)
    (halgorithm : row.algorithm = serviceAlgorithmMax ∨ row.algorithm = serviceAlgorithmMin)
    (hloop : ¬s.Up serviceid serviceid) :
    (s.updateService serviceid (dbGetServiceStatus s serviceid row.algorithm 0)).Right serviceid := by
  obtain ⟨hmem, hid⟩ := service_eq_some hrow
  intro row' hrow' hid'
  rw [childStatuses_updateService hloop]
  obtain ⟨old, hold, rfl⟩ := mem_updateService.mp hrow'
  have holdid : old.serviceid = serviceid := by
    by_contra hne
    rw [if_neg hne] at hid'
    exact hne hid'
  rw [if_pos holdid]
  obtain rfl := eq_of_serviceid hold hmem (holdid.trans hid.symm)
  intro hne
  exact ⟨fun hmax => hmax ▸ dbGetServiceStatus_max hne, fun hmin => hmin ▸ dbGetServiceStatus_min hne⟩

/-- **One computation**, or the exit. -/
theorem updateParent_ends {serviceid : ℕ} {row : ServiceRow} (clock : ℤ) (hrow : s.service serviceid = some row)
    (hloop : ¬s.Up serviceid serviceid) :
    Ends (· = .exit) (fun s' => Recomputed nodeid c serviceid s s')
      (updateParent nodeid c clock s serviceid row.algorithm) := by
  obtain ⟨hmem, hid⟩ := service_eq_some hrow
  have hrefl (hmax : row.algorithm ≠ serviceAlgorithmMax) (hmin : row.algorithm ≠ serviceAlgorithmMin) :
      Recomputed nodeid c serviceid s s := by
    refine .refl fun row' hrow' hid' _ => ?_
    obtain rfl := eq_of_serviceid hrow' hmem (hid'.trans hid.symm)
    exact ⟨fun h => absurd h hmax, fun h => absurd h hmin⟩
  rw [updateParent]
  by_cases hnone : row.algorithm = serviceAlgorithmNone
  · rw [if_pos hnone]
    exact .ok (hrefl (by rw [hnone]; decide) (by rw [hnone]; decide))
  rw [if_neg hnone]
  by_cases halgorithm : row.algorithm = serviceAlgorithmMax ∨ row.algorithm = serviceAlgorithmMin
  · rw [if_pos halgorithm]
    dsimp only
    generalize hstatus : dbGetServiceStatus s serviceid row.algorithm 0 = status
    refine Ends.map ((dbAddServiceAlarm_ends s serviceid status clock).mono ?_)
    rintro s₁ ⟨⟨hservices, hlinks, htriggers⟩, halarms⟩
    have htree : s.SameTree s₁ := ⟨hlinks, htriggers, by rw [hservices]⟩
    constructor
    case tree => exact htree.trans (updateService_sameTree ..)
    case alarms => exact halarms.trans (updateService_alarmsKept ..)
    case others => exact fun row' hrow' hne => mem_updateService_of_ne (hservices ▸ hrow') hne
    case none =>
      intro row' hrow' hnone'
      refine mem_updateService_of_ne (hservices ▸ hrow') fun hid' => hnone ?_
      rw [← eq_of_serviceid hrow' hmem (hid'.trans hid.symm)]
      exact hnone'
    case self =>
      have hright := right_computed hrow halgorithm hloop
      rw [hstatus] at hright
      exact hright.congr (congrArg (List.map _) hservices) hlinks
    case right =>
      intro b hne hup hright
      exact (hright.congr hservices hlinks).updateService hne (fun h => hup (htree.up_iff.mp h))
  · rw [if_neg halgorithm]
    exact .ok (hrefl (fun h => halgorithm (.inl h)) (fun h => halgorithm (.inr h)))

/-! ## climbs -/

theorem Steps.sameTree {nodes : List ℕ} {s₀ : ServiceState} (h : Steps (Recomputed nodeid c) nodes s s')
    (hs : s₀.SameTree s) : s₀.SameTree s' :=
  h.invariant (fun _ _ _ _ hstep htree => htree.trans hstep.tree) hs

/-- The first loop of `DBupdate_services_rec`, with the rows of a select before it. -/
theorem updateParents_ends {s₀ : ServiceState} (hloop : ∀ a, ¬s₀.Up a a) (clock : ℕ → ℤ) (links : List ServiceLink)
    (htree : s₀.SameTree s) :
    Ends (· = .exit) (fun s' => Steps (Recomputed nodeid c) (links.map ServiceLink.serviceupid) s s')
      ((s₀.parentRows links).foldlM (fun s row => updateParent nodeid c (clock row.1) s row.1 row.2) s) := by
  induction links generalizing s with
  | nil => exact .ok (.nil s)
  | cons l links ih =>
      have hfixed := htree.service_fixed l.serviceupid
      rw [ServiceState.parentRows, List.filterMap_cons]
      cases hrow₀ : s₀.service l.serviceupid with
      | none =>
          rw [hrow₀, Option.map_none, Option.map_eq_none_iff] at hfixed
          have hright : s.Right l.serviceupid := fun row hrow hid => absurd hid (service_eq_none hfixed hrow)
          exact (ih htree).mono fun s' hsteps => .cons (.refl hright) hsteps
      | some row₀ =>
          rw [hrow₀, Option.map_some, Option.map_eq_some_iff] at hfixed
          obtain ⟨row, hrow, hfixed⟩ := hfixed
          have halgorithm : row.algorithm = row₀.algorithm :=
            (congrArg ServiceRow.algorithm hfixed : row.fixed.algorithm = row₀.fixed.algorithm)
          rw [Option.map_some, List.foldlM_cons, ← halgorithm]
          refine (updateParent_ends _ hrow fun hup => hloop _ (htree.up_iff.mp hup)).bind fun s₁ hstep => ?_
          exact (ih (htree.trans hstep.tree)).mono fun s' hsteps => .cons hstep hsteps

theorem mem_linksFrom {s : ServiceState} {links : List ServiceLink} {a b : ℕ} (hperm : links.Perm (s.linksFrom a)) :
    b ∈ links.map ServiceLink.serviceupid ↔ s.Up a b := by
  rw [(hperm.map _).mem_iff, List.mem_map]
  constructor
  · rintro ⟨l, hl, rfl⟩
    obtain ⟨hl, hdown⟩ := List.mem_filter.mp hl
    rw [← of_decide_eq_true hdown]
    exact hl
  · exact fun hup => ⟨_, List.mem_filter.mpr ⟨hup, decide_eq_true rfl⟩, rfl⟩

/-- What a call does. -/
def ClimbsFrom (nodeid : ℕ) (c : Column schema) (s₀ : ServiceState) (serviceid : ℕ) (s s' : ServiceState) : Prop :=
  ∃ nodes, Reaches s₀.Up serviceid nodes ∧ Steps (Recomputed nodeid c) nodes s s'

/-- The second loop of `DBupdate_services_rec`. -/
theorem followParents_ends {s₀ : ServiceState} {call : ServiceState → ℕ → Except ServiceStop ServiceState}
    {followed : List ServiceLink}
    (hcall : ∀ s, ∀ l ∈ followed, s₀.SameTree s →
      Ends (· = .exit) (ClimbsFrom nodeid c s₀ l.serviceupid s) (call s l.serviceupid))
    (htree : s₀.SameTree s) :
    Ends (· = .exit)
      (fun s' => ∃ nodes, Climbs s₀.Up (followed.map ServiceLink.serviceupid) nodes ∧
        Steps (Recomputed nodeid c) nodes s s')
      (followed.foldlM (fun s l => call s l.serviceupid) s) := by
  induction followed generalizing s with
  | nil => exact .ok ⟨[], .nil, .nil s⟩
  | cons l followed ih =>
      rw [List.foldlM_cons]
      refine (hcall s l List.mem_cons_self htree).bind ?_
      rintro s₁ ⟨nodes, hreach, hsteps⟩
      refine (ih (fun s l hl => hcall s l (List.mem_cons_of_mem _ hl)) (Steps.sameTree hsteps htree)).mono ?_
      rintro s₂ ⟨nodes', hclimbs, hsteps'⟩
      exact ⟨nodes ++ nodes', .cons hreach hclimbs, hsteps.append hsteps'⟩

/-- **A call of `DBupdate_services_rec`** computes what is above a service, and
each again after anything below it. -/
theorem dbUpdateServicesRec_climbs (answers : ServiceAnswers) {s₀ : ServiceState} (hloop : ∀ a, ¬s₀.Up a a)
    {height : ℕ → ℕ} (hheight : ∀ a b, s₀.Up a b → height b < height a) {depth : ℕ} (way : List ℕ) {serviceid : ℕ}
    (htree : s₀.SameTree s) (hdepth : height serviceid < depth) :
    Ends (· = .exit) (ClimbsFrom nodeid c s₀ serviceid s)
      (dbUpdateServicesRec nodeid c answers depth way s serviceid) := by
  induction depth generalizing way s serviceid with
  | zero => omega
  | succ depth ih =>
      have hup (s : ServiceState) (htree : s₀.SameTree s) {links : List ServiceLink}
          (hperm : links.Perm (s.linksFrom serviceid)) (b : ℕ) :
          b ∈ links.map ServiceLink.serviceupid ↔ s₀.Up serviceid b :=
        (mem_linksFrom hperm).trans htree.up_iff
      rw [dbUpdateServicesRec]
      have hcomputed := hup s htree (answers.perm_updated (serviceid :: way) _)
      generalize answers.updated (serviceid :: way) (s.linksFrom serviceid) = computed at hcomputed
      have hloop' (a : ℕ) : ¬s.Up a a := fun h => hloop a (htree.up_iff.mp h)
      refine (updateParents_ends hloop' (fun b => answers.time (b :: serviceid :: way)) computed
        (.refl s)).bind fun s₁ hsteps₁ => ?_
      have htree₁ := Steps.sameTree hsteps₁ htree
      have hstarts := hup s₁ htree₁ (answers.perm_followed (serviceid :: way) _)
      generalize answers.followed (serviceid :: way) (s₁.linksFrom serviceid) = followed at hstarts
      have hclimbs := @followParents_ends _ nodeid c _ s₀
        (dbUpdateServicesRec nodeid c answers depth (serviceid :: way)) followed
        (fun s l hl htree => ih (serviceid :: way) htree (by
          have := hheight _ _ ((hstarts _).mp (List.mem_map_of_mem hl))
          omega)) htree₁
      refine hclimbs.mono ?_
      rintro s₂ ⟨nodes, hclimbs, hsteps₂⟩
      exact ⟨_, .of_climbs hcomputed hstarts hclimbs, hsteps₁.append hsteps₂⟩

/-! ## the services of a trigger -/

/-- What is done for one service of the trigger. -/
structure LeafUpdated (nodeid : ℕ) (c : Column schema) (s₀ : ServiceState) (leaf : ServiceRow) (status : ℤ)
    (s s' : ServiceState) : Prop where
  tree : s₀.SameTree s'
  consistent : s'.Consistent
  alarms : AlarmsKept nodeid c s s'
  others : ∀ row ∈ s.services, row.serviceid ≠ leaf.serviceid →
    ¬Relation.TransGen s₀.Up leaf.serviceid row.serviceid → row ∈ s'.services
  none : ∀ row ∈ s.services, row.algorithm = serviceAlgorithmNone → row.serviceid ≠ leaf.serviceid →
    row ∈ s'.services
  leaf : { leaf with status := status } ∈ s'.services

/-- The service gets its status. -/
theorem mem_updateService_leaf {s₀ : ServiceState} (htree : s₀.SameTree s) {leaf : ServiceRow}
    (hleaf : leaf ∈ s₀.services) (status : ℤ) :
    { leaf with status := status } ∈ (s.updateService leaf.serviceid status).services := by
  have hmem : leaf.fixed ∈ s.services.map ServiceRow.fixed := by
    rw [htree.services]
    exact List.mem_map_of_mem hleaf
  obtain ⟨row, hrow, hfixed⟩ := List.mem_map.mp hmem
  have hid : row.serviceid = leaf.serviceid :=
    (congrArg ServiceRow.serviceid hfixed : row.fixed.serviceid = leaf.fixed.serviceid)
  refine mem_updateService.mpr ⟨row, hrow, ?_⟩
  rw [if_pos hid]
  exact (congrArg (fun row : ServiceRow => { row with status := status }) hfixed :
    { row.fixed with status := status } = { leaf.fixed with status := status })

/-- **One service of the trigger**: all is right again afterwards. -/
theorem updateLeaf_ends (answers : ServiceAnswers) {s₀ : ServiceState} (hacyclic : Acyclic s₀.Up) {height : ℕ → ℕ}
    (hheight : ∀ a b, s₀.Up a b → height b < height a) {leaf : ServiceRow} (hleaf : leaf ∈ s₀.services)
    (hbelow : ∀ a, ¬s₀.Up a leaf.serviceid) (htree : s₀.SameTree s) (hconsistent : s.Consistent) {depth : ℕ}
    (hdepth : height leaf.serviceid < depth) (status : ℤ) :
    Ends (· = .exit) (LeafUpdated nodeid c s₀ leaf status s)
      (updateLeaf nodeid c answers depth status s leaf.serviceid) := by
  have hloop (a : ℕ) : ¬s₀.Up a a := fun hup => hacyclic a (.single hup)
  rw [updateLeaf]
  refine (dbAddServiceAlarm_ends (s.updateService leaf.serviceid status) leaf.serviceid status _).bind ?_
  rintro s₁ ⟨⟨hservices, hlinks, htriggers⟩, halarms⟩
  have htree₁ : s₀.SameTree s₁ :=
    (htree.trans (updateService_sameTree leaf.serviceid status)).trans ⟨hlinks, htriggers, by rw [hservices]⟩
  refine (dbUpdateServicesRec_climbs answers hloop hheight [] htree₁ hdepth).mono ?_
  rintro s₂ ⟨nodes, hreach, hsteps⟩
  have hkeep {row : ServiceRow} (hrow : row ∈ s₁.services)
      (habove : ¬Relation.TransGen s₀.Up leaf.serviceid row.serviceid) : row ∈ s₂.services :=
    hsteps.invariant
      (fun b hb _ _ hstep hmem => hstep.others row hmem fun hid => habove (hid ▸ hreach.above b hb)) hrow
  constructor
  case tree => exact Steps.sameTree hsteps htree₁
  case alarms =>
    refine AlarmsKept.trans ?_ (hsteps.invariant (I := AlarmsKept nodeid c s₁)
      (fun _ _ _ _ hstep hkept => hkept.trans hstep.alarms) (.refl s₁))
    exact (updateService_alarmsKept leaf.serviceid status).trans halarms
  case others =>
    exact fun row hrow hne habove => hkeep (hservices ▸ mem_updateService_of_ne hrow hne) habove
  case none =>
    intro row hrow hnone hne
    exact hsteps.invariant (fun _ _ _ _ hstep hmem => hstep.none row hmem hnone)
      (hservices ▸ mem_updateService_of_ne hrow hne)
  case leaf => exact hkeep (hservices ▸ mem_updateService_leaf htree hleaf status) (hacyclic _)
  case consistent =>
    intro b
    have hinv (a : ℕ) (t t' : ServiceState) (hstep : Recomputed nodeid c a t t') (ht : s₀.SameTree t) :
        s₀.SameTree t' := ht.trans hstep.tree
    refine right_of_covers ServiceState.Right hinv (fun _ _ _ hstep _ => hstep.self)
      (fun a b t t' hstep ht hne hup hright => hstep.right b hne (fun h => hup (ht.up_iff.mp h)) hright)
      hreach.covers hsteps htree₁ ?_
    by_cases hup : s₀.Up leaf.serviceid b
    · exact .inl (hreach.direct b hup)
    · right
      have hright : (s.updateService leaf.serviceid status).Right b := by
        by_cases hb : b = leaf.serviceid
        · -- there is nothing below it
          rintro row - - ⟨_, child, -, hchild, -⟩
          rw [hb] at hchild
          exact absurd (htree.up_iff.mp hchild) (hbelow child.serviceid)
        · exact (hconsistent b).updateService hb fun h => hup (htree.up_iff.mp h)
      exact hright.congr hservices hlinks

/-- The loop of `DBupdate_services`. -/
theorem updateLeaves_ends (answers : ServiceAnswers) {s₀ : ServiceState} (hacyclic : Acyclic s₀.Up) {height : ℕ → ℕ}
    (hheight : ∀ a b, s₀.Up a b → height b < height a) {depth : ℕ} (hdepth : ∀ a, height a < depth) (status : ℤ)
    {leaves : List ServiceRow} (hleaves : ∀ leaf ∈ leaves, leaf ∈ s₀.services ∧ ∀ a, ¬s₀.Up a leaf.serviceid)
    (htree : s₀.SameTree s) (hconsistent : s.Consistent) :
    Ends (· = .exit)
      (fun s' => Steps (fun leaf => LeafUpdated nodeid c s₀ leaf status) leaves s s')
      (leaves.foldlM (fun s row => updateLeaf nodeid c answers depth status s row.serviceid) s) := by
  induction leaves generalizing s with
  | nil => exact .ok (.nil s)
  | cons leaf leaves ih =>
      rw [List.foldlM_cons]
      obtain ⟨hleaf, hbelow⟩ := hleaves leaf List.mem_cons_self
      refine (updateLeaf_ends answers hacyclic hheight hleaf hbelow htree hconsistent (hdepth _) status).bind ?_
      intro s₁ hstep
      refine (ih (fun leaf hmem => hleaves leaf (List.mem_cons_of_mem _ hmem)) hstep.tree hstep.consistent).mono ?_
      exact fun s₂ hsteps => .cons hstep hsteps

/-- What `DBupdate_services` does. -/
structure ServicesUpdated (nodeid : ℕ) (c : Column schema) (triggerid : ℕ) (status : ℤ) (s s' : ServiceState) :
    Prop where
  tree : s.SameTree s'
  consistent : s'.Consistent
  leaves : ∀ row ∈ s.services, row.triggerid = some triggerid → { row with status := status } ∈ s'.services
  others : ∀ row ∈ s.services, ¬s.Concerned triggerid row.serviceid → row ∈ s'.services
  none : ∀ row ∈ s.services, row.algorithm = serviceAlgorithmNone → row.triggerid ≠ some triggerid →
    row ∈ s'.services
  alarms : s.OwnAlarms nodeid c → s.NoRepeat → s'.NoRepeat

/-- What the steps for the services of a trigger come to. -/
theorem servicesUpdated_of_steps {triggerid : ℕ} {status : ℤ} (hconsistent : s.Consistent) {leaves : List ServiceRow}
    (hmem : ∀ row, row ∈ leaves ↔ row ∈ s.services ∧ row.triggerid = some triggerid)
    (hbelow : ∀ leaf ∈ leaves, ∀ a, ¬s.Up a leaf.serviceid)
    (h : Steps (fun leaf => LeafUpdated nodeid c s leaf status) leaves s s') :
    ServicesUpdated nodeid c triggerid status s s' := by
  have hnotAbove (leaf : ServiceRow) (hleaf : leaf ∈ leaves) (a : ℕ) :
      ¬Relation.TransGen s.Up a leaf.serviceid := by
    intro htrans
    obtain ⟨b, -, hup⟩ := Relation.TransGen.tail'_iff.mp htrans
    exact hbelow leaf hleaf b hup
  constructor
  case tree => exact h.invariant (fun _ _ _ _ hstep _ => hstep.tree) (.refl s)
  case consistent => exact h.invariant (fun _ _ _ _ hstep _ => hstep.consistent) hconsistent
  case alarms =>
    exact (h.invariant (I := AlarmsKept nodeid c s) (fun _ _ _ _ hstep hkept => hkept.trans hstep.alarms)
      (.refl s)).noRepeat
  case leaves =>
    intro row hrow htrigger
    refine h.established (J := fun leaf t => { leaf with status := status } ∈ t.services)
      (fun _ _ _ _ hstep => hstep.leaf) ?_ ((hmem row).mpr ⟨hrow, htrigger⟩)
    intro a ha b hb t t' hstep hat
    by_cases hid : a.serviceid = b.serviceid
    · obtain rfl := s.eq_of_serviceid ((hmem a).mp ha).1 ((hmem b).mp hb).1 hid
      exact hstep.leaf
    · exact hstep.others _ hat hid (hnotAbove a ha _)
  case others =>
    intro row hrow hconcerned
    refine h.invariant (fun leaf hleaf _ _ hstep hat => hstep.others row hat ?_ ?_) hrow
    · intro hid
      exact hconcerned ⟨leaf, ((hmem leaf).mp hleaf).1, ((hmem leaf).mp hleaf).2, hid ▸ .refl⟩
    · intro htrans
      exact hconcerned ⟨leaf, ((hmem leaf).mp hleaf).1, ((hmem leaf).mp hleaf).2, htrans.to_reflTransGen⟩
  case none =>
    intro row hrow hnone htrigger
    refine h.invariant (fun leaf hleaf _ _ hstep hat => hstep.none row hat hnone ?_) hrow
    intro hid
    obtain rfl := s.eq_of_serviceid hrow ((hmem leaf).mp hleaf).1 hid
    exact htrigger ((hmem row).mp hleaf).2

variable (nodeid) (c) in
/-- **A consistent tree stays so**: in a graph without cycles, whatever the order
of the rows, `DBupdate_services` comes to its end, or to the exit when there are no
identifiers left.  The services of the trigger have the status then, and each
service above has what it should have. -/
theorem dbUpdateServices_consistent (answers : ServiceAnswers) {s : ServiceState} (hacyclic : Acyclic s.Up)
    (hleaves : s.OnlyLeaves) (hconsistent : s.Consistent) {depth : ℕ} (hdepth : s.links.length < depth)
    (triggerid : ℕ) (status : ℤ) :
    Ends (· = .exit) (ServicesUpdated nodeid c triggerid status s)
      (dbUpdateServices nodeid c answers depth s triggerid status) := by
  obtain ⟨height, hle, hheight⟩ := exists_height hacyclic (s.links.map ServiceLink.serviceupid).toFinset
    fun a b hup => List.mem_toFinset.mpr (List.mem_map_of_mem hup)
  have hcard : (s.links.map ServiceLink.serviceupid).toFinset.card ≤ s.links.length := by
    simpa using List.toFinset_card_le (s.links.map ServiceLink.serviceupid)
  rw [dbUpdateServices]
  have hmem (row : ServiceRow) : row ∈ answers.leaves (s.services.filter (·.triggerid = some triggerid)) ↔
      row ∈ s.services ∧ row.triggerid = some triggerid := by
    rw [(answers.perm_leaves _).mem_iff, List.mem_filter, decide_eq_true_eq]
  have hbelow (leaf : ServiceRow) (hleaf : leaf ∈ answers.leaves (s.services.filter (·.triggerid = some triggerid)))
      (a : ℕ) : ¬s.Up a leaf.serviceid := by
    obtain ⟨hrow, htrigger⟩ := (hmem leaf).mp hleaf
    exact hleaves leaf hrow (by simp [htrigger]) a
  refine (updateLeaves_ends answers hacyclic hheight (fun a => ?_) status
    (fun leaf hleaf => ⟨((hmem leaf).mp hleaf).1, hbelow leaf hleaf⟩) (.refl s) hconsistent).mono ?_
  · have := hle a
    omega
  · exact fun s' hsteps => servicesUpdated_of_steps hconsistent hmem hbelow hsteps

end

/-- A tree in which all have the same status is consistent. -/
theorem consistent_of_eq {s : ServiceState} {status : ℤ} (h : ∀ row ∈ s.services, row.status = status) :
    s.Consistent := by
  rintro b row hrow - ⟨v, child, hchild, hup, rfl⟩
  have hall (w : ℤ) (hw : w ∈ s.childStatuses b) : w = row.status := by
    obtain ⟨other, hother, -, rfl⟩ := hw
    rw [h other hother, h row hrow]
  have hmem : row.status ∈ s.childStatuses b := ⟨child, hchild, hup, by rw [h child hchild, h row hrow]⟩
  exact ⟨fun _ => ⟨hmem, fun w hw => (hall w hw).le⟩, fun _ => ⟨hmem, fun w hw => (hall w hw).ge⟩⟩

/-- `service_alarms` -/
def serviceAlarmsTable : ZbxTable where
  table := ⟨bytes "service_alarms", by decide⟩
  recid := ⟨bytes "servicealarmid", by decide⟩
  sync := false
  fields := [⟨⟨bytes "servicealarmid", by decide⟩, .id, true, false, false⟩]

/-- A schema with the alarms of services. -/
def serviceSchema : Schema where
  tables := [serviceAlarmsTable]
  table_name := by
    rintro t ht
    rw [List.mem_singleton.mp ht]
    exact ⟨by decide, by decide⟩
  field_name := by
    rintro t ht f hf
    rw [List.mem_singleton.mp ht] at hf
    rw [List.mem_singleton.mp hf]
    exact ⟨by decide, by decide⟩

/-- `service_alarms.servicealarmid` -/
def servicealarmid : Column serviceSchema where
  tablename := ⟨bytes "service_alarms", by decide⟩
  fieldname := ⟨bytes "servicealarmid", by decide⟩
  table := serviceAlarmsTable
  field := ⟨⟨bytes "servicealarmid", by decide⟩, .id, true, false, false⟩
  dbGetTable_eq := by decide
  dbGetField_eq := by decide

/-- The last row first. -/
def lastFirst : ServiceAnswers where
  leaves := List.reverse
  updated := fun _ => List.reverse
  followed := fun _ => List.reverse
  time := fun way => way.length
  perm_leaves := List.reverse_perm
  perm_updated := fun _ => List.reverse_perm
  perm_followed := fun _ => List.reverse_perm

/-- Two services of a trigger and what is above them; 5 is above 3, 4 and 1. -/
def sharedServices : ServiceState where
  services := [⟨1, 0, 0, some 13⟩, ⟨2, 0, 1, some 14⟩, ⟨3, 0, 1, none⟩, ⟨4, 0, 0, none⟩, ⟨5, 0, 1, none⟩,
    ⟨6, 0, 2, none⟩]
  key := by decide
  links := [⟨5, 1⟩, ⟨3, 1⟩, ⟨3, 2⟩, ⟨5, 3⟩, ⟨4, 1⟩, ⟨5, 4⟩, ⟨6, 5⟩, ⟨6, 3⟩]
  triggers := []
  alarms := [⟨7, 3, 0, 0⟩]
  alarmKey := by decide
  ids := some 7

/-- The services above a trigger of priority 4. -/
theorem dbUpdateServices_shared :
    ∃ s', dbUpdateServices 0 servicealarmid lastFirst 9 sharedServices 13 4 = .ok s' ∧ s'.Consistent ∧ s'.NoRepeat ∧
      s'.services.map ServiceRow.status = [4, 0, 4, 0, 4, 4] := by
  have hacyclic : Acyclic sharedServices.Up :=
    acyclic_of_lt id fun a b hup => (by decide : ∀ l ∈ sharedServices.links, l.servicedownid < l.serviceupid) _ hup
  have hleaves : sharedServices.OnlyLeaves := by
    have hdown : ∀ row ∈ sharedServices.services, row.triggerid ≠ none →
        ∀ l ∈ sharedServices.links, l.serviceupid ≠ row.serviceid := by decide
    exact fun row hrow htrigger a hup => hdown row hrow htrigger _ hup rfl
  have hconsistent : sharedServices.Consistent :=
    consistent_of_eq (by decide : ∀ row ∈ sharedServices.services, row.status = 0)
  have hends : Ends (· = .exit) (ServicesUpdated 0 servicealarmid 13 4 sharedServices)
      (dbUpdateServices 0 servicealarmid lastFirst 9 sharedServices 13 4) :=
    dbUpdateServices_consistent 0 servicealarmid lastFirst hacyclic hleaves hconsistent
      (by decide : sharedServices.links.length < 9) 13 4
  have hstatus : (dbUpdateServices 0 servicealarmid lastFirst 9 sharedServices 13 4).toOption.map
      (fun s => s.services.map ServiceRow.status) = some [4, 0, 4, 0, 4, 4] := by decide
  cases hcall : dbUpdateServices 0 servicealarmid lastFirst 9 sharedServices 13 4 with
  | error stop =>
      rw [hcall] at hstatus
      cases hstatus
  | ok s' =>
      rw [hcall] at hstatus
      have hupdated := hends.of_ok hcall
      refine ⟨s', rfl, hupdated.consistent, hupdated.alarms ⟨?_, by decide⟩ ?_, Option.some.inj hstatus⟩
      · intro nextid hnext id hid _
        obtain rfl := Option.some.inj hnext
        exact (List.mem_singleton.mp hid).le
      · intro a ha b hb _ hlt
        rw [List.mem_singleton.mp ha, List.mem_singleton.mp hb] at hlt
        exact absurd hlt (lt_irrefl _)

/-- A service of a trigger that is alone. -/
def aloneService (algorithm : ℤ) : ServiceState where
  services := [⟨1, 0, algorithm, some 13⟩]
  key := by simp
  links := []
  triggers := []
  alarms := []
  alarmKey := by simp
  ids := none

/-- The same service on a node with a child node, whose last alarm has come in
since then. -/
def childAlarms : ServiceState :=
  { aloneService serviceAlgorithmMax with
    alarms := [⟨200000000000005, 1, 20, 0⟩, ⟨100000000000001, 1, 10, 3⟩]
    alarmKey := by decide
    ids := some 100000000000001 }

/-- A service that is not computed gets the status of its trigger; and an alarm of
another node hides one with the same value. -/
theorem dbUpdateServices_changed_repeated :
    (∃ s s', Acyclic s.Up ∧ s.OnlyLeaves ∧ s.Consistent ∧ dbUpdateServices 0 servicealarmid lastFirst 1 s 13 4 = .ok s' ∧
      ∃ row ∈ s.services, row.algorithm = serviceAlgorithmNone ∧ row ∉ s'.services) ∧
    ∃ s s', Acyclic s.Up ∧ s.OnlyLeaves ∧ s.Consistent ∧ s.NoRepeat ∧
      dbUpdateServices 1 servicealarmid lastFirst 1 s 13 3 = .ok s' ∧ ¬s'.NoRepeat := by
  have hacyclic (algorithm : ℤ) : Acyclic (aloneService algorithm).Up := acyclic_of_lt id fun a b hup => nomatch hup
  have hleaves (algorithm : ℤ) : (aloneService algorithm).OnlyLeaves := fun row _ _ a hup => nomatch hup
  have hconsistent (algorithm : ℤ) : (aloneService algorithm).Consistent :=
    consistent_of_eq fun row hrow => by rw [List.mem_singleton.mp hrow]
  constructor
  · refine ⟨aloneService serviceAlgorithmNone, _, hacyclic _, hleaves _, hconsistent _, rfl, ⟨1, 0, 0, some 13⟩, ?_⟩
    exact ⟨by decide, rfl, by decide⟩
  · refine ⟨childAlarms, _, hacyclic serviceAlgorithmMax, hleaves serviceAlgorithmMax,
      hconsistent serviceAlgorithmMax, ?_, rfl, ?_⟩
    · intro a ha b hb _ hlt _
      simp only [childAlarms, List.mem_cons, List.not_mem_nil, or_false] at ha hb
      rcases ha with rfl | rfl <;> rcases hb with rfl | rfl <;> simp at hlt ⊢
    · intro hrepeat
      refine hrepeat ⟨100000000000001, 1, 10, 3⟩ (by decide) ⟨100000000000002, 1, 1, 3⟩ (by decide) rfl (by decide) ?_ rfl
      rintro d - - ⟨hlow, hhigh⟩
      dsimp only at hlow hhigh
      omega

end Zabbix
