import Zabbix.Ids.Allocation
import Zabbix.Triggers.Event
import Mathlib.Data.List.Sort
import Mathlib.Data.List.Chain

/-!
# Zabbix.Triggers.Notify

When a change of a trigger is notified.

The events of a trigger without dependencies carry the values it has had, so that
two of them in a row differ; then the last two events say what the last value
other than `UNKNOWN` was (`skipActions_iff`), and `process_actions` is run for
the changes between `TRUE` and `FALSE` only (`trigger_notifications`).
-/

namespace Zabbix

/-! ## values -/

/-- The value of the last event, the first of `vs`. -/
def lastValue (vs : List ℤ) : ℤ := vs.headD triggerValueUnknown

/-- The last value that is `TRUE` or `FALSE`; `FALSE` when there is none. -/
def lastKnown (vs : List ℤ) : ℤ :=
  (vs.find? fun v => v = triggerValueTrue ∨ v = triggerValueFalse).getD triggerValueFalse

/-- An event of the value `v`, behind events of the values `vs`, is a change
between `TRUE` and `FALSE`. -/
def Notifies (vs : List ℤ) (v : ℤ) : Prop :=
  (v = triggerValueTrue ∨ v = triggerValueFalse) ∧ v ≠ lastKnown vs

instance (vs : List ℤ) (v : ℤ) : Decidable (Notifies vs v) := inferInstanceAs (Decidable (_ ∧ _))

/-- The test of `add_trigger_info` looks back far enough. -/
theorem skipActions_iff {vs : List ℤ} (hcodes : ∀ v ∈ vs, ∃ u : TriggerValue, v = u.code) (hchain : vs.IsChain (· ≠ ·))
    (v : TriggerValue) (hv : v.code ≠ lastValue vs) :
    skipActions triggerTypeNormal (lastValue vs.tail) (lastValue vs) v.code = 0 ↔ Notifies vs v.code := by
  match vs, hcodes, hchain with
  | [], _, _ => cases v <;> decide
  | [x], hcodes, _ =>
      obtain ⟨u, rfl⟩ := hcodes x (by simp)
      cases u <;> cases v <;> first | decide | exact absurd rfl hv
  | x :: y :: rest, hcodes, hchain =>
      obtain ⟨u, rfl⟩ := hcodes x (by simp)
      obtain ⟨w, rfl⟩ := hcodes y (by simp)
      have huw : u.code ≠ w.code := (List.isChain_cons_cons.mp hchain).1
      cases u <;> cases v <;> first
        | exact absurd rfl hv
        | cases w <;> first
          | exact absurd rfl huw
          | simp [skipActions, skipsNormal, skipsFalse, Notifies, lastKnown, lastValue, TriggerValue.code,
              triggerTypeNormal, triggerValueTrue, triggerValueFalse, triggerValueUnknown]

/-! ## one event -/

namespace EventState

/-- The values of the events of a trigger. -/
def valuesOf (s : EventState) (triggerid : ℕ) : List ℤ := (s.eventsOf triggerid).map EventRow.value

/-- The identifiers in `events`. -/
def eventids (s : EventState) : List ℕ := s.events.map EventRow.eventid

variable {s : EventState} {u t : ℕ} {value lastchange : ℤ} {error : List UInt8}

@[simp] theorem eventsOf_updateTrigger : (s.updateTrigger u value lastchange error).eventsOf t = s.eventsOf t := rfl

@[simp] theorem eventids_updateTrigger : (s.updateTrigger u value lastchange error).eventids = s.eventids := rfl

theorem trigger_updateTrigger (t : ℕ) : (s.updateTrigger u value lastchange error).trigger t =
    (s.trigger t).map fun row =>
      if t = u then { row with value := value, lastchange := lastchange, error := error } else row := by
  rw [trigger, updateTrigger, List.find?_map, trigger]
  have hid : ((fun row : TriggerRecord => decide (row.triggerid = t)) ∘ fun row =>
      if row.triggerid = u then { row with value := value, lastchange := lastchange, error := error } else row) =
      fun row => decide (row.triggerid = t) := by
    funext row
    rw [Function.comp_apply]
    split <;> rfl
  rw [hid]
  apply Option.map_congr
  intro row hrow
  have ht : row.triggerid = t := by simpa using List.find?_some hrow
  subst ht
  rfl

theorem trigger_triggerid {row : TriggerRecord} (h : s.trigger t = some row) : row.triggerid = t := by
  simpa using List.find?_some h

end EventState

/-- The last two events, when they are in order. -/
theorem getLatestEventStatus_eq {s : EventState} {t : ℕ}
    (hsorted : (s.eventsOf t).Pairwise fun a b => a.eventid > b.eventid) :
    getLatestEventStatus s t = (lastValue (s.valuesOf t).tail, lastValue (s.valuesOf t)) := by
  rw [getLatestEventStatus, (hsorted.imp fun h => le_of_lt h).insertionSort_eq, EventState.valuesOf]
  match s.eventsOf t with
  | [] => rfl
  | [_] => rfl
  | _ :: _ :: _ => rfl

variable {schema : Schema} {nodeid : ℕ} {c : Column schema}

/-- What `process_event` comes to, for an event of a trigger. -/
structure Processed (nodeid : ℕ) (c : Column schema) (s : EventState) (event : DbEvent) (s' : EventState) : Prop where
  fresh : event.eventid = lastId nodeid c s.ids s.eventids + 1
  inRange : event.eventid ≤ c.max nodeid
  triggers : s'.triggers = s.triggers
  triggerDepends : s'.triggerDepends = s.triggerDepends
  events : s'.events = event.toEventRow :: s.events
  ids : s'.ids = some event.eventid
  actions : s'.actions = if event.skipActions = 0 then event :: s.actions else s.actions

theorem recordEvent_spec {s : EventState} (hids : NotBelow nodeid c s.ids s.eventids) {event : DbEvent}
    (hfresh : event.eventid = lastId nodeid c s.ids s.eventids + 1) (hmax : event.eventid ≤ c.max nodeid) :
    Processed nodeid c s event (recordEvent { s with ids := some event.eventid } event) := by
  have hnew : ¬∃ e ∈ s.events, e.eventid = event.eventid := by
    rintro ⟨e, he, heq⟩
    have := le_lastId hids (List.mem_map_of_mem he) (by omega)
    omega
  have hinsert : { s with ids := some event.eventid }.insertEvent event.toEventRow =
      { s with ids := some event.eventid, events := event.toEventRow :: s.events } := if_neg hnew
  rw [recordEvent, hinsert]
  constructor
  case fresh => exact hfresh
  case inRange => exact hmax
  all_goals by_cases hskip : event.skipActions = 0 <;> by_cases hobject : event.object = eventObjectTrigger <;>
    simp [hskip, hobject]

/-- The event of a trigger is told of the trigger and of its last two events. -/
theorem addTriggerInfo_triggerEvent {s : EventState} {row : TriggerRecord} (hrow : s.trigger row.triggerid = some row)
    (value clock : ℤ) :
    addTriggerInfo s (triggerEvent row.triggerid value clock) =
      { triggerEvent row.triggerid value clock with
        triggerPriority := row.priority
        triggerType := row.type
        skipActions :=
          skipActions row.type (getLatestEventStatus s row.triggerid).1 (getLatestEventStatus s row.triggerid).2 value } := by
  rw [addTriggerInfo, if_pos ⟨rfl, row.pos⟩]
  simp only [triggerEvent, hrow]

/-- `process_event` of a trigger: it does not return when no identifier is left. -/
theorem processEvent_spec {s : EventState} (hids : NotBelow nodeid c s.ids s.eventids) {row : TriggerRecord}
    (hrow : s.trigger row.triggerid = some row) (value clock : ℤ) :
    if lastId nodeid c s.ids s.eventids < c.max nodeid then
      ∃ event s', processEvent nodeid c s (triggerEvent row.triggerid value clock) = some s' ∧
        Processed nodeid c s event s' ∧
        event.toEventRow =
          ⟨event.eventid, eventSourceTriggers, eventObjectTrigger, row.triggerid, clock, value⟩ ∧
        event.skipActions =
          skipActions row.type (getLatestEventStatus s row.triggerid).1 (getLatestEventStatus s row.triggerid).2 value
    else processEvent nodeid c s (triggerEvent row.triggerid value clock) = none := by
  have hid : eventIdentifier nodeid c s 0 =
      if lastId nodeid c s.ids s.eventids < c.max nodeid then
        some (lastId nodeid c s.ids s.eventids + 1, some (lastId nodeid c s.ids s.eventids + 1))
      else none := by
    rw [eventIdentifier, if_pos rfl, dbGetMaxidNum_eq, EventState.eventids]
    split <;> rfl
  rw [processEvent, addTriggerInfo_triggerEvent hrow]
  dsimp only [triggerEvent]
  rw [hid]
  split
  · next hmax => exact ⟨_, _, rfl, recordEvent_spec hids rfl hmax, rfl, rfl⟩
  · rfl

/-! ## one call -/

/-- The value is another one, or `TRUE` once more. -/
def TriggerRecord.Changes (row : TriggerRecord) (value : ℤ) : Prop :=
  row.value ≠ value ∨ row.type = triggerTypeMultipleTrue ∧ value = triggerValueTrue

theorem TriggerRecord.changes_iff {row : TriggerRecord} (h : row.type = triggerTypeNormal) {value : ℤ} :
    row.Changes value ↔ row.value ≠ value := by
  simp [Changes, h, triggerTypeNormal, triggerTypeMultipleTrue]

variable {b : Backend} {s : EventState} {call : TriggerCall}

/-- A call for a trigger that does not change. -/
theorem call_unchanged {row : TriggerRecord} (hrow : s.trigger call.triggerid = some row)
    (h : ¬(row.Changes call.newValue.code ∧ s.dependentFails call.triggerid)) : s.call nodeid c b call = some s := by
  have hid := s.trigger_triggerid hrow
  rw [TriggerRecord.Changes] at h
  simp only [EventState.call, hrow, dbUpdateTriggerValue, hid]
  rw [if_neg h]
  rfl

/-- A call for a trigger that changes: there is an event, unless the last one has
the value already. -/
theorem call_changed {row : TriggerRecord} (hrow : s.trigger call.triggerid = some row)
    (h : row.Changes call.newValue.code) (hdependent : s.dependentFails call.triggerid) :
    s.call nodeid c b call =
      let s₁ := s.updateTrigger call.triggerid call.newValue.code call.now (errorLiteral b call.reason)
      if (getLatestEventStatus s call.triggerid).2 ≠ call.newValue.code ∨
          row.type = triggerTypeMultipleTrue ∧ call.newValue.code = triggerValueTrue then
        processEvent nodeid c s₁ (triggerEvent call.triggerid call.newValue.code call.now)
      else some s₁ := by
  have hid := s.trigger_triggerid hrow
  rw [TriggerRecord.Changes] at h
  simp only [EventState.call, hrow, dbUpdateTriggerValue, hid]
  rw [if_pos ⟨h, hdependent⟩, if_pos h]
  split
  · rw [Option.map_map]
    exact congrFun Option.map_id _
  · rfl

/-! ## the events of one trigger -/

/-- A trigger without dependencies is not dependent. -/
theorem dependentFails_of_independent {t : ℕ} (h : ∀ d ∈ s.triggerDepends, d.1 ≠ t) : s.dependentFails t = true := by
  have hnone : s.triggerDepends.filter (·.1 = t) = [] := by
    simpa [List.filter_eq_nil_iff] using h
  simp [EventState.dependentFails, triggerDependent, triggerDependentRec, fetchDependencies, TriggerDb.dependencies, hnone]

/-- What is known of a trigger of type `NORMAL`, without dependencies, whose
events have all been written by `DBupdate_trigger_value`. -/
structure Notifying (nodeid : ℕ) (c : Column schema) (t : ℕ) (s : EventState) : Prop where
  row : ∃ row, s.trigger t = some row ∧ row.type = triggerTypeNormal ∧ row.value = lastValue (s.valuesOf t)
  independent : ∀ d ∈ s.triggerDepends, d.1 ≠ t
  notBelow : NotBelow nodeid c s.ids s.eventids
  inRange : ∀ e ∈ s.eventsOf t, e.eventid ≤ c.max nodeid
  sorted : (s.eventsOf t).Pairwise fun a b => a.eventid > b.eventid
  codes : ∀ v ∈ s.valuesOf t, ∃ u : TriggerValue, v = u.code
  changing : (s.valuesOf t).IsChain (· ≠ ·)
  acted : ∀ a ∈ s.actions, a.toEventRow ∈ s.events
  notified : ∀ after e before, s.eventsOf t = after ++ e :: before →
    (s.actions.map DbEvent.toEventRow).count e = if Notifies (before.map EventRow.value) e.value then 1 else 0

namespace Notifying

variable {t : ℕ}

/-- The update of another trigger. -/
theorem updateTrigger (h : Notifying nodeid c t s) {u : ℕ} (hu : t ≠ u) (value lastchange : ℤ) (error : List UInt8) :
    Notifying nodeid c t (s.updateTrigger u value lastchange error) where
  row := by
    obtain ⟨row, hrow, hvalue⟩ := h.row
    exact ⟨row, by rw [EventState.trigger_updateTrigger, hrow, Option.map_some, if_neg hu], hvalue⟩
  independent := h.independent
  notBelow := h.notBelow
  inRange := h.inRange
  sorted := h.sorted
  codes := h.codes
  changing := h.changing
  acted := h.acted
  notified := h.notified

end Notifying

/-- A new event is none that has been there. -/
theorem Processed.not_mem {s' : EventState} {event : DbEvent} (hp : Processed nodeid c s event s')
    (hids : NotBelow nodeid c s.ids s.eventids) : event.toEventRow ∉ s.events := by
  intro hmem
  have hle := le_lastId hids (List.mem_map_of_mem hmem) hp.inRange
  have := hp.fresh
  omega

/-- The identifiers after an event. -/
theorem Processed.notBelow {s' : EventState} {event : DbEvent} (hp : Processed nodeid c s event s')
    (hids : NotBelow nodeid c s.ids s.eventids) : NotBelow nodeid c s'.ids s'.eventids := by
  intro nextid hnext id hid hmax
  rw [hp.ids] at hnext
  obtain rfl := Option.some.inj hnext
  rw [EventState.eventids, hp.events, List.map_cons] at hid
  rcases List.mem_cons.mp hid with rfl | hid
  · exact le_rfl
  · have hle := le_lastId hids hid hmax
    have := hp.fresh
    omega

/-- The actions that are run for an event. -/
theorem Processed.count {s' : EventState} {event : DbEvent} (hp : Processed nodeid c s event s') (e : EventRow) :
    (s'.actions.map DbEvent.toEventRow).count e =
      (s.actions.map DbEvent.toEventRow).count e + if event.skipActions = 0 ∧ event.toEventRow = e then 1 else 0 := by
  rw [hp.actions]
  by_cases hskip : event.skipActions = 0
  · simp [hskip, List.count_cons]
  · simp [hskip]

theorem Processed.acted {s' : EventState} {event : DbEvent} (hp : Processed nodeid c s event s')
    (h : ∀ a ∈ s.actions, a.toEventRow ∈ s.events) : ∀ a ∈ s'.actions, a.toEventRow ∈ s'.events := by
  intro a ha
  rw [hp.events]
  rw [hp.actions] at ha
  split at ha
  · rcases List.mem_cons.mp ha with rfl | ha
    · exact List.mem_cons_self
    · exact List.mem_cons_of_mem _ (h a ha)
  · exact List.mem_cons_of_mem _ (h a ha)

/-- The row of an event of a trigger. -/
def triggerEventRow (eventid triggerid : ℕ) (value clock : ℤ) : EventRow :=
  ⟨eventid, eventSourceTriggers, eventObjectTrigger, triggerid, clock, value⟩

namespace Notifying

variable {t : ℕ} {s' : EventState} {event : DbEvent} {value clock : ℤ}

/-- An event of another trigger. -/
theorem other (h : Notifying nodeid c t s) (hp : Processed nodeid c s event s') {u : ℕ} (hu : u ≠ t)
    (hevent : event.toEventRow = triggerEventRow event.eventid u value clock) : Notifying nodeid c t s' := by
  have hof : s'.eventsOf t = s.eventsOf t := by
    rw [EventState.eventsOf, hp.events, hevent, List.filter_cons_of_neg (by simp [triggerEventRow, hu])]
    rfl
  have hvalues : s'.valuesOf t = s.valuesOf t := by rw [EventState.valuesOf, hof, EventState.valuesOf]
  constructor
  case row =>
    rw [hvalues, EventState.trigger, hp.triggers]
    exact h.row
  case independent =>
    rw [hp.triggerDepends]
    exact h.independent
  case notBelow => exact hp.notBelow h.notBelow
  case inRange => rw [hof]; exact h.inRange
  case sorted => rw [hof]; exact h.sorted
  case codes => rw [hvalues]; exact h.codes
  case changing => rw [hvalues]; exact h.changing
  case acted => exact hp.acted h.acted
  case notified =>
    intro after e before hsplit
    rw [hof] at hsplit
    have he : e ∈ s.events := by
      have hmem : e ∈ s.eventsOf t := by simp [hsplit]
      exact List.mem_of_mem_filter hmem
    have hne : ¬(event.skipActions = 0 ∧ event.toEventRow = e) := by
      rintro ⟨-, rfl⟩
      exact hp.not_mem h.notBelow he
    rw [hp.count, if_neg hne]
    exact h.notified after e before hsplit

/-- An event of the trigger, whose value is not that of the last one. -/
theorem own (h : Notifying nodeid c t s) {v : TriggerValue} {now : ℤ} {error : List UInt8}
    (hv : v.code ≠ lastValue (s.valuesOf t))
    (hp : Processed nodeid c (s.updateTrigger t v.code now error) event s')
    (hevent : event.toEventRow = triggerEventRow event.eventid t v.code now)
    (hskip : event.skipActions =
      skipActions triggerTypeNormal (lastValue (s.valuesOf t).tail) (lastValue (s.valuesOf t)) v.code) :
    Notifying nodeid c t s' := by
  have hof : s'.eventsOf t = event.toEventRow :: s.eventsOf t := by
    have hpos : event.source = eventSourceTriggers ∧ event.object = eventObjectTrigger ∧ event.objectid = t :=
      ⟨congrArg EventRow.source hevent, congrArg EventRow.object hevent, congrArg EventRow.objectid hevent⟩
    rw [EventState.eventsOf, hp.events]
    exact List.filter_cons_of_pos (decide_eq_true hpos)
  have hvalue : event.value = v.code := congrArg EventRow.value hevent
  have hvalues : s'.valuesOf t = v.code :: s.valuesOf t := by
    rw [EventState.valuesOf, hof, List.map_cons, hvalue, EventState.valuesOf]
  constructor
  case row =>
    obtain ⟨row, hrow, htype, -⟩ := h.row
    refine ⟨{ row with value := v.code, lastchange := now, error := error }, ?_, htype, ?_⟩
    · rw [EventState.trigger, hp.triggers, ← EventState.trigger, EventState.trigger_updateTrigger, hrow,
        Option.map_some, if_pos rfl]
    · rw [hvalues]
      rfl
  case independent =>
    rw [hp.triggerDepends]
    exact h.independent
  case notBelow => exact hp.notBelow h.notBelow
  case inRange =>
    rw [hof]
    exact List.forall_mem_cons.mpr ⟨hp.inRange, h.inRange⟩
  case sorted =>
    rw [hof]
    refine List.pairwise_cons.mpr ⟨fun e he => ?_, h.sorted⟩
    have hle := le_lastId h.notBelow (List.mem_map_of_mem (List.mem_of_mem_filter he)) (h.inRange e he)
    have hfresh : event.eventid = lastId nodeid c s.ids s.eventids + 1 := hp.fresh
    omega
  case codes =>
    rw [hvalues]
    exact List.forall_mem_cons.mpr ⟨⟨v, rfl⟩, h.codes⟩
  case changing =>
    rw [hvalues]
    refine List.isChain_cons.mpr ⟨fun x hx => ?_, h.changing⟩
    rwa [lastValue, List.headD_eq_head?_getD, show (s.valuesOf t).head? = some x from hx] at hv
  case acted => exact hp.acted h.acted
  case notified =>
    intro after e before hsplit
    rw [hof] at hsplit
    have hnew : event.toEventRow ∉ s.events := hp.not_mem h.notBelow
    rw [hp.count]
    cases after with
    | nil =>
        -- the event itself: no action has been run for it before
        obtain ⟨rfl, hbefore⟩ := List.cons.inj hsplit
        have hnone : (s.actions.map DbEvent.toEventRow).count event.toEventRow = 0 := by
          rw [List.count_eq_zero, List.mem_map]
          rintro ⟨a, ha, heq⟩
          exact hnew (heq ▸ h.acted a ha)
        have hiff := skipActions_iff h.codes h.changing v hv
        rw [← hskip] at hiff
        change (s.actions.map DbEvent.toEventRow).count event.toEventRow + _ = _
        rw [hnone, hvalue, Nat.zero_add, ← hbefore]
        exact if_congr ((and_iff_left rfl).trans hiff) rfl rfl
    | cons a after =>
        have hbehind : s.eventsOf t = after ++ e :: before := (List.cons.inj hsplit).2
        have he : e ∈ s.events := by
          have hmem : e ∈ s.eventsOf t := by simp [hbehind]
          exact List.mem_of_mem_filter hmem
        have hne : ¬(event.skipActions = 0 ∧ event.toEventRow = e) := by
          rintro ⟨-, rfl⟩
          exact hnew he
        rw [if_neg hne]
        exact h.notified after e before hbehind

end Notifying

/-! ## runs -/

/-- An event takes one identifier. -/
theorem Processed.lastId_le {s' : EventState} {event : DbEvent} (hp : Processed nodeid c s event s') :
    lastId nodeid c s'.ids s'.eventids ≤ lastId nodeid c s.ids s.eventids + 1 := by
  have hmin := @min_le_lastId _ nodeid c s.ids s.eventids
  rw [hp.ids, ← hp.fresh]
  exact lastId_some_le (by rw [hp.fresh]; omega) hp.inRange _

/-- What a call comes to: the state keeps what is known, and at most one
identifier is taken; or none is left. -/
inductive CallResult (nodeid : ℕ) (c : Column schema) (t : ℕ) (s : EventState) : Option EventState → Prop
  | returns {s' : EventState} (h : Notifying nodeid c t s')
      (hids : lastId nodeid c s'.ids s'.eventids ≤ lastId nodeid c s.ids s.eventids + 1) : CallResult nodeid c t s (some s')
  | exits (h : c.max nodeid ≤ lastId nodeid c s.ids s.eventids) : CallResult nodeid c t s none

/-- `process_event` behind the update of the trigger. -/
theorem processEvent_updated (hids : NotBelow nodeid c s.ids s.eventids) {row : TriggerRecord} {u : ℕ}
    (hrow : s.trigger u = some row) (value now : ℤ) (error : List UInt8) :
    if lastId nodeid c s.ids s.eventids < c.max nodeid then
      ∃ event s', processEvent nodeid c (s.updateTrigger u value now error) (triggerEvent u value now) = some s' ∧
        Processed nodeid c (s.updateTrigger u value now error) event s' ∧
        event.toEventRow = triggerEventRow event.eventid u value now ∧
        event.skipActions =
          skipActions row.type (getLatestEventStatus s u).1 (getLatestEventStatus s u).2 value
    else processEvent nodeid c (s.updateTrigger u value now error) (triggerEvent u value now) = none := by
  obtain rfl := s.trigger_triggerid hrow
  have hrow₁ : (s.updateTrigger row.triggerid value now error).trigger row.triggerid =
      some { row with value := value, lastchange := now, error := error } := by
    rw [EventState.trigger_updateTrigger, hrow, Option.map_some, if_pos rfl]
  exact @processEvent_spec _ nodeid c (s.updateTrigger row.triggerid value now error) hids
    { row with value := value, lastchange := now, error := error } hrow₁ value now

/-- **One call.** -/
theorem Notifying.step {t : ℕ} (h : Notifying nodeid c t s) (b : Backend) (call : TriggerCall) :
    CallResult nodeid c t s (s.call nodeid c b call) := by
  cases hrow : s.trigger call.triggerid with
  | none =>
      rw [EventState.call, hrow]
      exact .returns h (Nat.le_succ _)
  | some row =>
      by_cases hchanges : row.Changes call.newValue.code ∧ s.dependentFails call.triggerid
      · rw [call_changed hrow hchanges.1 hchanges.2]
        have hprocess := processEvent_updated h.notBelow hrow call.newValue.code call.now (errorLiteral b call.reason)
        by_cases ht : call.triggerid = t
        · -- the value differs from that of the last event
          subst ht
          obtain ⟨row', hrow', htype, hvalue⟩ := h.row
          obtain rfl := Option.some.inj (hrow.symm.trans hrow')
          have hstatus := getLatestEventStatus_eq h.sorted
          have hv : call.newValue.code ≠ lastValue (s.valuesOf call.triggerid) := by
            rw [← hvalue]
            exact ((TriggerRecord.changes_iff htype).mp hchanges.1).symm
          dsimp only
          rw [if_pos (.inl (by rw [hstatus]; exact hv.symm))]
          split at hprocess
          · obtain ⟨event, s', hs', hp, hevent, hskip⟩ := hprocess
            rw [hs']
            rw [htype, hstatus] at hskip
            exact .returns (h.own hv hp hevent hskip) hp.lastId_le
          · next hmax =>
              rw [hprocess]
              exact .exits (Nat.not_lt.mp hmax)
        · have h₁ := h.updateTrigger (Ne.symm ht) call.newValue.code call.now (errorLiteral b call.reason)
          dsimp only
          split
          · split at hprocess
            · obtain ⟨event, s', hs', hp, hevent, -⟩ := hprocess
              rw [hs']
              exact .returns (h₁.other hp ht hevent) hp.lastId_le
            · next hmax =>
                rw [hprocess]
                exact .exits (Nat.not_lt.mp hmax)
          · exact .returns h₁ (Nat.le_succ _)
      · rw [call_unchanged hrow hchanges]
        exact .returns h (Nat.le_succ _)

/-- **All calls of a run.** -/
theorem Notifying.run {t : ℕ} (h : Notifying nodeid c t s) (b : Backend) (calls : List TriggerCall) :
    (∀ s', s.calls nodeid c b calls = some s' → Notifying nodeid c t s') ∧
    (lastId nodeid c s.ids s.eventids + calls.length ≤ c.max nodeid → (s.calls nodeid c b calls).isSome) := by
  induction calls generalizing s with
  | nil =>
      refine ⟨fun s' hs' => ?_, fun _ => rfl⟩
      obtain rfl := Option.some.inj hs'
      exact h
  | cons call calls ih =>
      rw [EventState.calls, List.foldlM_cons]
      have hstep := h.step b call
      revert hstep
      generalize s.call nodeid c b call = r
      rintro (⟨hs₁, hids⟩ | hmax)
      · obtain ⟨hall, hroom⟩ := ih hs₁
        refine ⟨hall, fun hlen => hroom ?_⟩
        rw [List.length_cons] at hlen
        omega
      · refine ⟨(fun s' hs' => nomatch hs'), fun hlen => ?_⟩
        rw [List.length_cons] at hlen
        omega

/-- A trigger of type `NORMAL` without dependencies, before its first event. -/
structure NewTrigger (nodeid : ℕ) (c : Column schema) (t : ℕ) (s : EventState) : Prop where
  row : ∃ row, s.trigger t = some row ∧ row.type = triggerTypeNormal ∧ row.value = triggerValueUnknown
  independent : ∀ d ∈ s.triggerDepends, d.1 ≠ t
  noEvents : s.eventsOf t = []
  notBelow : NotBelow nodeid c s.ids s.eventids
  noActions : s.actions = []

theorem NewTrigger.notifying {t : ℕ} (h : NewTrigger nodeid c t s) : Notifying nodeid c t s := by
  have hvalues : s.valuesOf t = [] := by rw [EventState.valuesOf, h.noEvents, List.map_nil]
  constructor
  case row => rw [hvalues]; exact h.row
  case independent => exact h.independent
  case notBelow => exact h.notBelow
  case inRange => simp [h.noEvents]
  case sorted => simp [h.noEvents]
  case codes => simp [hvalues]
  case changing => simp [hvalues]
  case acted => simp [h.noActions]
  case notified => simp [h.noEvents]

/-- **Changes between `TRUE` and `FALSE` are notified, once.**  In every run of
calls, for this trigger and for any others, its events (the last one first) have
changing values, the last of which is the value of the trigger, and
`process_actions` is run for an event, once, exactly when its value is `TRUE` or
`FALSE` and not the last such value before; and every run returns for which the
node has identifiers left. -/
theorem trigger_notifications {schema : Schema} (nodeid : ℕ) (c : Column schema) (b : Backend) {t : ℕ} {s : EventState}
    (hs : NewTrigger nodeid c t s) (calls : List TriggerCall) :
    (∀ s', s.calls nodeid c b calls = some s' →
      (s'.eventsOf t).Pairwise (fun e e' => e.eventid > e'.eventid) ∧
      (s'.valuesOf t).IsChain (· ≠ ·) ∧
      (∃ row, s'.trigger t = some row ∧ row.value = (s'.valuesOf t).headD triggerValueUnknown) ∧
      ∀ after e before, s'.eventsOf t = after ++ e :: before →
        (s'.actions.map DbEvent.toEventRow).count e =
          if Notifies (before.map EventRow.value) e.value then 1 else 0) ∧
    (lastId nodeid c s.ids s.eventids + calls.length ≤ c.max nodeid → (s.calls nodeid c b calls).isSome) := by
  obtain ⟨hall, hroom⟩ := hs.notifying.run b calls
  refine ⟨fun s' hs' => ?_, hroom⟩
  have h := hall s' hs'
  obtain ⟨row, hrow, -, hvalue⟩ := h.row
  exact ⟨h.sorted, h.changing, ⟨row, hrow, hvalue⟩, h.notified⟩

/-- Two triggers, the second of which depends on the first one, and an event of
discovery. -/
def twoTriggers : EventState :=
  { triggers := [⟨13, by decide, 0, 4, 2, 0, []⟩, ⟨14, by decide, 1, 2, 0, 0, []⟩]
    triggerDepends := [(14, 13)]
    events := [⟨100000000000007, 1, 1, 13, 5, 1⟩]
    ids := none
    actions := []
    services := [] }

/-- The calls for both. -/
def mixedCalls : List TriggerCall :=
  [⟨13, .false, 10, none⟩, ⟨14, .true, 11, none⟩, ⟨13, .unknown, 12, none⟩, ⟨13, .true, 13, none⟩,
    ⟨14, .true, 14, none⟩, ⟨13, .unknown, 15, none⟩, ⟨13, .true, 16, none⟩, ⟨13, .false, 17, none⟩]

/-- Of six events two are notified. -/
theorem trigger_notifications_mixed :
    NewTrigger 1 eventid 13 twoTriggers ∧
    ∃ s, twoTriggers.calls 1 eventid .mysql mixedCalls = some s ∧
      s.valuesOf 13 = [0, 1, 2, 1, 2, 0] ∧ ((s.actions.filter (·.objectid = 13)).map (·.clock)) = [17, 13] ∧
      (s.valuesOf 13).IsChain (· ≠ ·) := by
  have hnew : NewTrigger 1 eventid 13 twoTriggers :=
    { row := ⟨_, rfl, rfl, rfl⟩
      independent := by decide
      noEvents := by decide
      notBelow := fun _ h => nomatch h
      noActions := rfl }
  obtain ⟨hall, hroom⟩ := trigger_notifications 1 eventid .mysql hnew mixedCalls
  have hsome := hroom (by decide)
  have hvalues : (twoTriggers.calls 1 eventid .mysql mixedCalls).map (fun s => (s.valuesOf 13,
      (s.actions.filter (·.objectid = 13)).map (·.clock))) = some ([0, 1, 2, 1, 2, 0], [17, 13]) := by
    decide
  obtain ⟨s, hs⟩ := Option.isSome_iff_exists.mp hsome
  rw [hs, Option.map_some] at hvalues
  obtain ⟨h1, h2⟩ := Prod.mk.inj (Option.some.inj hvalues)
  exact ⟨hnew, s, hs, h1, h2, (hall s hs).2.1⟩

end Zabbix
