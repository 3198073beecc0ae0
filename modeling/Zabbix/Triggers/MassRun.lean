import Zabbix.Triggers.MassUpdate

/-!
# Zabbix.Triggers.MassRun

Triggers follow their items.

`DCmass_update_triggers` calls `DBupdate_trigger_value` with the value that a
trigger had when it was fetched, once for each of its items.  What is known of the
events of a trigger holds for such calls, too (`Notifying.update`): a call with an
old value finds the event of the call before it.  So the value of a trigger is
that of its expression after each pass, and every change has one event
(`triggers_follow`).
-/

namespace Zabbix

variable {schema : Schema} {nodeid : ℕ} {c : Column schema} {b : Backend} {s : EventState}

/-! ## calls with an old value -/

theorem toEventRow_addTriggerInfo (event : DbEvent) : (addTriggerInfo s event).toEventRow = event.toEventRow := by
  rw [addTriggerInfo]
  split
  · cases s.trigger event.objectid <;> rfl
  · rfl

/-- `process_event` of any trigger. -/
theorem processEvent_any (hids : NotBelow nodeid c s.ids s.eventids) (u : ℕ) (value clock : ℤ) :
    if lastId nodeid c s.ids s.eventids < c.max nodeid then
      ∃ event s', processEvent nodeid c s (triggerEvent u value clock) = some s' ∧ Processed nodeid c s event s' ∧
        event.toEventRow = triggerEventRow event.eventid u value clock
    else processEvent nodeid c s (triggerEvent u value clock) = none := by
  have hrow := toEventRow_addTriggerInfo (s := s) (triggerEvent u value clock)
  have hid : (addTriggerInfo s (triggerEvent u value clock)).eventid = 0 := congrArg EventRow.eventid hrow
  rw [processEvent]
  dsimp only
  rw [hid, eventIdentifier, if_pos rfl, dbGetMaxidNum_eq, ← EventState.eventids]
  generalize addTriggerInfo s (triggerEvent u value clock) = event at hrow
  split
  · next hmax =>
      refine ⟨_, _, rfl, recordEvent_spec hids rfl hmax, ?_⟩
      exact congrArg (fun row : EventRow => { row with eventid := lastId nodeid c s.ids s.eventids + 1 }) hrow
  · rfl

/-- `DBupdate_trigger_value`, whatever value the trigger is thought to have. -/
theorem dbUpdateTriggerValue_eq (u : DbTrigger) (newValue now : ℤ) (reason : Option CString) :
    (dbUpdateTriggerValue nodeid c b s u newValue now reason).map Prod.snd =
      if (u.value ≠ newValue ∨ u.type = triggerTypeMultipleTrue ∧ newValue = triggerValueTrue) ∧
          s.dependentFails u.triggerid then
        let s₁ := s.updateTrigger u.triggerid newValue now (errorLiteral b reason)
        if (getLatestEventStatus s u.triggerid).2 ≠ newValue ∨
            u.type = triggerTypeMultipleTrue ∧ newValue = triggerValueTrue then
          processEvent nodeid c s₁ (triggerEvent u.triggerid newValue now)
        else some s₁
      else some s := by
  rw [dbUpdateTriggerValue]
  dsimp only
  split
  · next h =>
      rw [if_pos h.1]
      split
      · rw [Option.map_map]
        exact congrFun Option.map_id _
      · rfl
  · rfl

namespace Notifying

variable {t : ℕ}

/-- The trigger is set to the value of its last event. -/
theorem again (h : Notifying nodeid c t s) {v : TriggerValue} (hv : v.code = lastValue (s.valuesOf t)) (now : ℤ)
    (error : List UInt8) : Notifying nodeid c t (s.updateTrigger t v.code now error) where
  row := by
    obtain ⟨row, hrow, htype, -⟩ := h.row
    exact ⟨{ row with value := v.code, lastchange := now, error := error },
      by rw [EventState.trigger_updateTrigger, hrow, Option.map_some, if_pos rfl], htype, hv⟩
  independent := h.independent
  notBelow := h.notBelow
  inRange := h.inRange
  sorted := h.sorted
  codes := h.codes
  changing := h.changing
  acted := h.acted
  notified := h.notified

end Notifying

/-- What a call comes to: the events of the trigger have certain values then, and
at most one identifier is taken; or none is left. -/
inductive UpdateResult (nodeid : ℕ) (c : Column schema) (t : ℕ) (s : EventState) (values : List ℤ) :
    Option EventState → Prop
  | returns {s' : EventState} (h : Notifying nodeid c t s') (hvalues : s'.valuesOf t = values)
      (hids : lastId nodeid c s'.ids s'.eventids ≤ lastId nodeid c s.ids s.eventids + 1) :
      UpdateResult nodeid c t s values (some s')
  | exits (h : c.max nodeid ≤ lastId nodeid c s.ids s.eventids) : UpdateResult nodeid c t s values none

theorem Processed.valuesOf_own {t : ℕ} {s' : EventState} {event : DbEvent} {value clock : ℤ}
    (hp : Processed nodeid c s event s') (hevent : event.toEventRow = triggerEventRow event.eventid t value clock) :
    s'.valuesOf t = value :: s.valuesOf t := by
  rw [EventState.valuesOf, EventState.eventsOf, hp.events, hevent]
  exact congrArg (List.map EventRow.value) (List.filter_cons_of_pos (decide_eq_true ⟨rfl, rfl, rfl⟩))

theorem Processed.valuesOf_other {t u : ℕ} {s' : EventState} {event : DbEvent} {value clock : ℤ}
    (hp : Processed nodeid c s event s') (hu : u ≠ t)
    (hevent : event.toEventRow = triggerEventRow event.eventid u value clock) : s'.valuesOf t = s.valuesOf t := by
  rw [EventState.valuesOf, EventState.eventsOf, hp.events, hevent,
    List.filter_cons_of_neg (by simp [triggerEventRow, hu])]
  rfl

/-- **A call with an old value.**  For a trigger of type `NORMAL` there is an event
only where both the old value and that of the last event differ. -/
theorem Notifying.update {t : ℕ} (h : Notifying nodeid c t s) (b : Backend) (u : DbTrigger)
    (hown : u.triggerid = t → u.type = triggerTypeNormal) (v : TriggerValue) (now : ℤ) (reason : Option CString) :
    UpdateResult nodeid c t s
      (if u.triggerid = t ∧ u.value ≠ v.code ∧ v.code ≠ lastValue (s.valuesOf t) then v.code :: s.valuesOf t
        else s.valuesOf t)
      ((dbUpdateTriggerValue nodeid c b s u v.code now reason).map Prod.snd) := by
  rw [dbUpdateTriggerValue_eq]
  by_cases ht : u.triggerid = t
  · obtain ⟨row, hrow, htype, -⟩ := h.row
    have hrepeated : ¬(u.type = triggerTypeMultipleTrue ∧ v.code = triggerValueTrue) := by
      rw [hown ht]
      rintro ⟨hmultiple, -⟩
      exact absurd hmultiple (by decide)
    have hstatus := getLatestEventStatus_eq h.sorted
    subst ht
    have hdependent := dependentFails_of_independent h.independent
    simp only [hrepeated, or_false, hdependent, and_true, true_and, hstatus]
    by_cases hv : u.value = v.code
    · rw [if_neg (fun hne => hne.1 hv), if_neg (not_not.mpr hv)]
      exact .returns h rfl (Nat.le_succ _)
    · by_cases hlast : v.code = lastValue (s.valuesOf u.triggerid)
      · rw [if_neg (fun hne => hne.2 hlast), if_pos hv, if_neg (not_not.mpr hlast.symm)]
        exact .returns (h.again hlast now _) rfl (Nat.le_succ _)
      · rw [if_pos ⟨hv, hlast⟩, if_pos hv, if_pos (Ne.symm hlast)]
        have hprocess := processEvent_updated h.notBelow hrow v.code now (errorLiteral b reason)
        split at hprocess
        · obtain ⟨event, s', hs', hp, hevent, hskip⟩ := hprocess
          rw [htype, hstatus] at hskip
          rw [hs']
          exact .returns (h.own hlast hp hevent hskip) (hp.valuesOf_own hevent) hp.lastId_le
        · next hmax =>
            rw [hprocess]
            exact .exits (Nat.not_lt.mp hmax)
  · rw [if_neg (fun hne => ht hne.1)]
    split
    · have h₁ := h.updateTrigger (Ne.symm ht) v.code now (errorLiteral b reason)
      dsimp only
      split
      · have hprocess := processEvent_any h₁.notBelow u.triggerid v.code now
        split at hprocess
        · obtain ⟨event, s', hs', hp, hevent⟩ := hprocess
          rw [hs']
          exact .returns (h₁.other hp ht hevent) (hp.valuesOf_other ht hevent) hp.lastId_le
        · next hmax =>
            rw [hprocess]
            exact .exits (Nat.not_lt.mp hmax)
      · exact .returns h₁ rfl (Nat.le_succ _)
    · exact .returns h rfl (Nat.le_succ _)

/-! ## the triggers of a pass -/

section

variable {config : MassConfig} {functions : List FunctionsRow} {history : List HistoryEntry} {t : ℕ}

/-- The values of the events of a trigger, the last one first, when it has been
evaluated. -/
def valuesAfter (outcome : EvalOutcome) (values : List ℤ) : List ℤ :=
  match outcome with
  | .succeed result =>
      if (resultValue result).code = lastValue values then values else (resultValue result).code :: values
  | _ => values

/-- What a fetched trigger comes to. -/
theorem Notifying.fetched {s : EventState} (h : Notifying config.nodeid config.eventid t s) {row : FetchedTrigger}
    {o : EvalOutcome} {values : List ℤ}
    (hrow : row.triggerid = t → row.type = triggerTypeNormal ∧ row.value = lastValue values ∧
      config.evaluateRow functions row = o)
    (hvalues : s.valuesOf t = values ∨ s.valuesOf t = valuesAfter o values) :
    (config.evaluateRow functions row = .outOfBounds ∧ config.updateTrigger functions history s row = none) ∨
      UpdateResult config.nodeid config.eventid t s
        (if row.triggerid = t ∧ (historyOf history row.itemid).isSome then valuesAfter o values else s.valuesOf t)
        (config.updateTrigger functions history s row) := by
  rw [MassConfig.updateTrigger]
  cases hfound : historyOf history row.itemid with
  | none =>
      rw [if_neg (fun hne => absurd hne.2 (by decide))]
      exact .inr (.returns h rfl (Nat.le_succ _))
  | some entry =>
      dsimp only
      cases hout : config.evaluateRow functions row with
      | outOfBounds => exact .inl ⟨rfl, rfl⟩
      | fail error =>
          refine .inr ?_
          split
          · next hown =>
              -- nothing changes
              obtain rfl := hout.symm.trans (hrow hown.1).2.2
              exact .returns h (hvalues.elim id id) (Nat.le_succ _)
          · exact .returns h rfl (Nat.le_succ _)
      | succeed result =>
          refine .inr ?_
          have hupdate := h.update config.backend row.toDbTrigger (fun ht => (hrow ht).1) (resultValue result) entry.clock none
          dsimp only
          by_cases ht : row.triggerid = t
          · obtain ⟨-, hold, ho⟩ := hrow ht
            obtain rfl := hout.symm.trans ho
            have hsame : (if row.triggerid = t ∧ row.value ≠ (resultValue result).code ∧
                (resultValue result).code ≠ lastValue (s.valuesOf t) then (resultValue result).code :: s.valuesOf t
                else s.valuesOf t) = valuesAfter (.succeed result) values := by
              have hkeep : lastValue (valuesAfter (.succeed result) values) = (resultValue result).code := by
                rw [valuesAfter]
                split
                · next heq => exact heq.symm
                · rfl
              rcases hvalues with heq | heq
              · rw [heq, hold, valuesAfter]
                split
                · next hnew => rw [if_neg hnew.2.2]
                · next hnot =>
                    rw [if_pos]
                    by_contra hne
                    exact hnot ⟨ht, Ne.symm hne, hne⟩
              · rw [heq, hkeep, if_neg (fun hne => hne.2.2 rfl)]
            rw [hsame] at hupdate
            rw [if_pos ⟨ht, rfl⟩]
            exact hupdate
          · rw [if_neg (fun hne => ht hne.1)] at hupdate
            rw [if_neg (fun hne => ht hne.1)]
            exact hupdate

/-- **All fetched triggers**, in any order. -/
theorem Notifying.allFetched {s : EventState} (h : Notifying config.nodeid config.eventid t s)
    {rows : List FetchedTrigger} {o : EvalOutcome} {values : List ℤ}
    (hrows : ∀ row ∈ rows, row.triggerid = t → row.type = triggerTypeNormal ∧ row.value = lastValue values ∧
      config.evaluateRow functions row = o)
    (hvalues : s.valuesOf t = values ∨ s.valuesOf t = valuesAfter o values) :
    (∀ s', rows.foldlM (config.updateTrigger functions history) s = some s' →
      Notifying config.nodeid config.eventid t s' ∧
      s'.valuesOf t = if ∃ row ∈ rows, row.triggerid = t ∧ (historyOf history row.itemid).isSome then valuesAfter o values
        else s.valuesOf t) ∧
    ((∀ row ∈ rows, config.evaluateRow functions row ≠ .outOfBounds) →
      lastId config.nodeid config.eventid s.ids s.eventids + rows.length ≤ config.eventid.max config.nodeid →
      (rows.foldlM (config.updateTrigger functions history) s).isSome) := by
  induction rows generalizing s with
  | nil =>
      refine ⟨fun s' hs' => ?_, fun _ _ => rfl⟩
      obtain rfl := Option.some.inj hs'
      exact ⟨h, by rw [if_neg (by rintro ⟨row, hmem, -⟩; cases hmem)]⟩
  | cons row rows ih =>
      rw [List.forall_mem_cons] at hrows
      have hstep := @fetched config functions history t s h row o values hrows.1 hvalues
      rw [List.foldlM_cons]
      rcases hstep with ⟨hout, hnone⟩ | hstep
      · rw [hnone]
        exact ⟨(fun s' hs' => nomatch hs'), fun hall => absurd hout (List.forall_mem_cons.mp hall).1⟩
      · revert hstep
        generalize config.updateTrigger functions history s row = r
        rintro (⟨h₁, hvalues₁, hids⟩ | hmax)
        · have hkept : (if row.triggerid = t ∧ (historyOf history row.itemid).isSome then valuesAfter o values
              else s.valuesOf t) = values ∨ (if row.triggerid = t ∧ (historyOf history row.itemid).isSome then
              valuesAfter o values else s.valuesOf t) = valuesAfter o values := by
            split
            · exact .inr rfl
            · exact hvalues
          obtain ⟨hall, hroom⟩ := ih h₁ hrows.2 (hvalues₁ ▸ hkept)
          refine ⟨fun s' hs' => ?_, fun hout hlen => ?_⟩
          · obtain ⟨h', hvalues'⟩ := hall s' hs'
            refine ⟨h', hvalues'.trans ?_⟩
            rw [hvalues₁]
            by_cases hrest : ∃ row ∈ rows, row.triggerid = t ∧ (historyOf history row.itemid).isSome
            · obtain ⟨other, hmem, hother⟩ := hrest
              rw [if_pos ⟨other, hmem, hother⟩, if_pos ⟨other, List.mem_cons_of_mem row hmem, hother⟩]
            · rw [if_neg hrest]
              refine if_congr ⟨fun hrow => ⟨row, List.mem_cons_self, hrow⟩, ?_⟩ rfl rfl
              rintro ⟨other, hmem, hother⟩
              rcases List.mem_cons.mp hmem with rfl | hmem
              · exact hother
              · exact absurd ⟨other, hmem, hother⟩ hrest
          · rw [List.length_cons] at hlen
            exact hroom (List.forall_mem_cons.mp hout).2 (by omega)
        · refine ⟨(fun s' hs' => nomatch hs'), fun _ hlen => ?_⟩
          rw [List.length_cons] at hlen
          omega

end

/-! ## a pass -/

section

variable {config : MassConfig} {p : MassPass} {t : ℕ} {s s' : MassState}

/-- The trigger has a supported item with a new value. -/
def MassPass.Concerns (p : MassPass) (s : MassState) (t : ℕ) : Prop :=
  ∃ f ∈ s.functions, f.triggerid = t ∧ (∃ i ∈ s.items, i.itemid = f.itemid ∧ i.status ≠ notsupportedStatus) ∧
    ∃ h ∈ p.history, h.itemid = f.itemid ∧ h.valueNull = false

instance : Decidable (p.Concerns s t) :=
  inferInstanceAs (Decidable (∃ f ∈ s.functions, f.triggerid = t ∧
    (∃ i ∈ s.items, i.itemid = f.itemid ∧ i.status ≠ notsupportedStatus) ∧
    ∃ h ∈ p.history, h.itemid = f.itemid ∧ h.valueNull = false))

theorem mem_selectTriggers {itemids : List ℕ} {row : FetchedTrigger} :
    row ∈ s.selectTriggers itemids ↔
      ∃ f ∈ s.functions, (f.itemid ∈ itemids ∧ ∃ i ∈ s.items, i.itemid = f.itemid ∧ i.status ≠ notsupportedStatus) ∧
        ∃ d, s.enabled f.triggerid = some d ∧ ∃ r, s.events.trigger f.triggerid = some r ∧
          ⟨⟨f.triggerid, r.type, r.value⟩, d.expression, f.itemid⟩ = row := by
  rw [MassState.selectTriggers, List.mem_dedup, List.mem_filterMap]
  refine exists_congr fun f => and_congr_right fun _ => ?_
  split
  · next h =>
      rw [and_iff_right h, Option.bind_eq_some_iff]
      exact exists_congr fun d => and_congr_right fun _ => Option.map_eq_some_iff
  · next h => simp only [reduceCtorEq, h, false_and]

theorem historyOf_of_mem {history : List HistoryEntry} (hdistinct : (history.map HistoryEntry.itemid).Nodup)
    {h : HistoryEntry} (hmem : h ∈ history) : historyOf history h.itemid = some h := by
  cases hfind : historyOf history h.itemid with
  | none => simpa using List.find?_eq_none.mp hfind h hmem
  | some h' =>
      have hid : h'.itemid = h.itemid := by simpa using List.find?_some hfind
      rw [List.inj_on_of_nodup_map hdistinct (List.mem_of_find?_eq_some hfind) hmem hid]

theorem itemid_of_historyOf {history : List HistoryEntry} {itemid : ℕ} {h : HistoryEntry}
    (hfind : historyOf history itemid = some h) : h.itemid = itemid := by
  simpa using List.find?_some hfind

theorem mem_functionItems {history : List HistoryEntry} {rows : List (FunctionKey × Option CString)} {itemid : ℕ} :
    itemid ∈ functionItems history rows ↔
      (historyOf history itemid).isSome ∧ ∃ row ∈ rows, row.1.itemid = itemid := by
  rw [functionItems, List.mem_filterMap, Option.isSome_iff_exists]
  constructor
  · rintro ⟨row, hrow, hitem⟩
    obtain ⟨h, hfind, rfl⟩ := Option.map_eq_some_iff.mp hitem
    have hid := itemid_of_historyOf hfind
    exact ⟨⟨h, by rw [hid]; exact hfind⟩, row, hrow, hid.symm⟩
  · rintro ⟨⟨h, hfind⟩, row, hrow, rfl⟩
    exact ⟨row, hrow, Option.map_eq_some_iff.mpr ⟨h, hfind, itemid_of_historyOf hfind⟩⟩

/-- Updates change the last value only. -/
theorem foldl_store_eq (us : List (FunctionKey × CString)) (f : FunctionsRow) :
    us.foldl FunctionsRow.store f = { f with lastvalue := (us.foldl FunctionsRow.store f).lastvalue } := by
  induction us generalizing f with
  | nil => rfl
  | cons u us ih =>
      rw [List.foldl_cons, ih, FunctionsRow.store]
      split <;> rfl

variable {functionRows : List (FunctionKey × Option CString)}

/-- The rows of a pass for a trigger. -/
theorem mem_fetched (hfunctions : functionRows.Perm (s.selectFunctions p.history)) {row : FetchedTrigger} :
    row ∈ (s.functionUpdate p.evaluate p.history functionRows).selectTriggers (functionItems p.history functionRows) ↔
      ∃ f ∈ s.functions, (((historyOf p.history f.itemid).isSome ∧ ∃ g ∈ s.functions, p.Selects s g ∧ g.itemid = f.itemid) ∧
        ∃ i ∈ s.items, i.itemid = f.itemid ∧ i.status ≠ notsupportedStatus) ∧
        ∃ d, s.enabled f.triggerid = some d ∧ ∃ r, s.events.trigger f.triggerid = some r ∧
          ⟨⟨f.triggerid, r.type, r.value⟩, d.expression, f.itemid⟩ = row := by
  have hitems : ∀ itemid, (∃ row ∈ functionRows, row.1.itemid = itemid) ↔
      ∃ g ∈ s.functions, p.Selects s g ∧ g.itemid = itemid := by
    intro itemid
    constructor
    · rintro ⟨row, hrow, rfl⟩
      obtain ⟨g, hg, hselects, rfl⟩ := mem_selectFunctions.mp (hfunctions.mem_iff.mp hrow)
      exact ⟨g, hg, hselects, rfl⟩
    · rintro ⟨g, hg, hselects, rfl⟩
      exact ⟨_, hfunctions.mem_iff.mpr (mem_selectFunctions.mpr ⟨g, hg, hselects, rfl⟩), rfl⟩
  rw [mem_selectTriggers, MassState.functionUpdate]
  dsimp only
  simp only [foldl_storeLastvalue, List.mem_map, exists_exists_and_eq_and]
  refine exists_congr fun f => and_congr_right fun _ => ?_
  rw [foldl_store_eq]
  dsimp only
  rw [mem_functionItems, hitems]
  rfl

/-- The rows that a pass fetches, in the order of the table. -/
def MassPass.fetched (p : MassPass) (s : MassState) : List FetchedTrigger :=
  (s.functionUpdate p.evaluate p.history (s.selectFunctions p.history)).selectTriggers
    (functionItems p.history (s.selectFunctions p.history))

/-- A trigger that is fetched is one of an item with a new value. -/
theorem exists_fetched_iff (hfunctions : functionRows.Perm (s.selectFunctions p.history)) {d : TriggerDefinition}
    (hd : s.enabled t = some d) {r : TriggerRecord} (hr : s.events.trigger t = some r) :
    (∃ row ∈ (s.functionUpdate p.evaluate p.history functionRows).selectTriggers
      (functionItems p.history functionRows), row.triggerid = t ∧ (historyOf p.history row.itemid).isSome) ↔
      p.Concerns s t := by
  constructor
  · rintro ⟨row, hrow, ht, -⟩
    obtain ⟨f, hf, ⟨⟨-, g, -, ⟨-, -, h, hh, hitem, hnull⟩, hg⟩, i, hi, hstatus⟩, d, -, r, -, rfl⟩ :=
      (mem_fetched hfunctions).mp hrow
    exact ⟨f, hf, ht, ⟨i, hi, hstatus⟩, h, hh, hitem.trans hg, hnull⟩
  · rintro ⟨f, hf, rfl, ⟨i, hi, hid, hstatus⟩, h, hh, hitem, hnull⟩
    have hfound : (historyOf p.history f.itemid).isSome := by
      rw [← hitem, historyOf_of_mem p.distinct hh]
      rfl
    have hselects : p.Selects s f := ⟨by rw [hd]; rfl, ⟨i, hi, hid⟩, h, hh, hitem, hnull⟩
    exact ⟨_, (mem_fetched hfunctions).mpr ⟨f, hf, ⟨⟨hfound, f, hf, hselects, rfl⟩, i, hi, hid, hstatus⟩, d, hd, r, hr, rfl⟩,
      rfl, hfound⟩

/-- What is known of a trigger and of the functions. -/
structure MassInvariant (config : MassConfig) (t : ℕ) (s : MassState) : Prop where
  notifying : Notifying config.nodeid config.eventid t s.events
  stored : StoredFunctions s.functions

/-- The rows of a trigger that a pass fetches are alike. -/
theorem fetched_alike (hfunctions : functionRows.Perm (s.selectFunctions p.history)) {r : TriggerRecord}
    (hr : s.events.trigger t = some r) {row : FetchedTrigger}
    (hrow : row ∈ (s.functionUpdate p.evaluate p.history functionRows).selectTriggers
      (functionItems p.history functionRows)) (ht : row.triggerid = t) :
    row.type = r.type ∧ row.value = r.value ∧ ∃ d, s.enabled t = some d ∧ row.expression = d.expression := by
  obtain ⟨f, -, -, d, hd, r', hr', rfl⟩ := (mem_fetched hfunctions).mp hrow
  obtain rfl : f.triggerid = t := ht
  obtain rfl := Option.some.inj (hr.symm.trans hr')
  exact ⟨rfl, rfl, d, hd, rfl⟩

/-- They come to one outcome. -/
theorem MassInvariant.outcome (h : MassInvariant config t s) (hfunctions : functionRows.Perm (s.selectFunctions p.history))
    {r : TriggerRecord} (hr : s.events.trigger t = some r) (functions : List FunctionsRow) :
    ∃ o, (∀ d, s.enabled t = some d →
        evaluateExpression (config.table functions) maxStringLen r.value d.expression = o) ∧
      ∀ row ∈ (s.functionUpdate p.evaluate p.history functionRows).selectTriggers (functionItems p.history functionRows),
        row.triggerid = t → row.type = triggerTypeNormal ∧ row.value = lastValue (s.events.valuesOf t) ∧
          config.evaluateRow functions row = o := by
  obtain ⟨r', hr', htype, hvalue⟩ := h.notifying.row
  obtain rfl := Option.some.inj (hr.symm.trans hr')
  have halike := @fetched_alike p t s functionRows hfunctions r hr
  cases hd : s.enabled t with
  | none =>
      refine ⟨.outOfBounds, (fun d hsome => nomatch hsome), fun row hrow ht => ?_⟩
      obtain ⟨-, -, d, hsome, -⟩ := halike hrow ht
      rw [hd] at hsome
      cases hsome
  | some d =>
      refine ⟨_, fun d' hsome => congrArg _ (congrArg _ (Option.some.inj hsome).symm), fun row hrow ht => ?_⟩
      obtain ⟨hrowType, hrowValue, d', hsome, hexpression⟩ := halike hrow ht
      obtain rfl := Option.some.inj (hd.symm.trans hsome)
      refine ⟨hrowType.trans htype, hrowValue.trans hvalue, ?_⟩
      rw [MassConfig.evaluateRow, hrowValue, hexpression]

/-- **One pass.** -/
theorem MassInvariant.pass (h : MassInvariant config t s) (hpass : p.Leads config s s') : MassInvariant config t s' ∧
    (∀ d row, s.enabled t = some d → s.events.trigger t = some row → s'.events.valuesOf t =
      if p.Concerns s t then
        valuesAfter (evaluateExpression (config.table s'.functions) maxStringLen row.value d.expression)
          (s.events.valuesOf t)
      else s.events.valuesOf t) ∧
    (s.enabled t = none → s'.events.valuesOf t = s.events.valuesOf t) := by
  obtain ⟨functionRows, triggerRows, hfunctions, htriggers, hrun⟩ := hpass
  obtain ⟨events, hfold, rfl⟩ := Option.map_eq_some_iff.mp hrun
  obtain ⟨r, hr, -⟩ := h.notifying.row
  obtain ⟨o, ho, hrows⟩ := h.outcome hfunctions hr
    (s.functionUpdate p.evaluate p.history functionRows).functions
  obtain ⟨hnotifying, hvalues⟩ := (h.notifying.allFetched
    (fun row hrow => hrows row (htriggers.mem_iff.mp hrow)) (.inl rfl)).1 events hfold
  refine ⟨⟨hnotifying, h.stored.functionUpdate⟩, fun d row hd hrow => ?_, fun hd => ?_⟩
  · obtain rfl := Option.some.inj (hr.symm.trans hrow)
    rw [hvalues, ho d hd]
    refine if_congr ?_ rfl rfl
    rw [← exists_fetched_iff hfunctions hd hr]
    exact exists_congr fun row => and_congr_left fun _ => htriggers.mem_iff
  · rw [hvalues, if_neg]
    rintro ⟨row, hrow, ht, -⟩
    obtain ⟨-, -, d, hsome, -⟩ := fetched_alike hfunctions hr (htriggers.mem_iff.mp hrow) ht
    rw [hd] at hsome
    cases hsome

/-- What is known of a trigger stays so. -/
theorem MassInvariant.run (h : MassInvariant config t s) (hrun : Relation.ReflTransGen (MassStep config) s s') :
    MassInvariant config t s' := by
  induction hrun with
  | refl => exact h
  | tail _ hstep ih =>
      cases hstep with
      | pass p hpass => exact (ih.pass hpass).1
      | configure items functions definitions hstored => exact ⟨ih.notifying, hstored⟩

/-- A pass comes to an end, where no expression is stored outside its buffer and
there are identifiers for as many events as triggers are fetched. -/
theorem MassInvariant.leads (h : MassInvariant config t s)
    (hout : ∀ row ∈ p.fetched s, config.evaluateRow
      (s.functionUpdate p.evaluate p.history (s.selectFunctions p.history)).functions row ≠ .outOfBounds)
    (hroom : lastId config.nodeid config.eventid s.events.ids s.events.eventids + (p.fetched s).length ≤
      config.eventid.max config.nodeid) : ∃ s', p.Leads config s s' := by
  obtain ⟨r, hr, -⟩ := h.notifying.row
  obtain ⟨o, -, hrows⟩ := h.outcome (List.Perm.refl (s.selectFunctions p.history)) hr
    (s.functionUpdate p.evaluate p.history (s.selectFunctions p.history)).functions
  obtain ⟨events, hfold⟩ := Option.isSome_iff_exists.mp
    ((@Notifying.allFetched config _ p.history t _ h.notifying _ o _ hrows (.inl rfl)).2 hout hroom)
  exact ⟨_, _, _, .refl _, .refl _, Option.map_eq_some_iff.mpr ⟨events, hfold, rfl⟩⟩

/-- What a pass makes of the functions. -/
theorem functions_of_leads (hstored : StoredFunctions s.functions) (hpass : p.Leads config s s') :
    ∃ g : FunctionsRow → Option CString, s'.functions = s.functions.map (fun f => { f with lastvalue := g f }) ∧
      ∀ f ∈ s.functions,
        (p.Selects s f → g f = ((p.value f.toFunctionKey).map storedLastvalue).or f.lastvalue) ∧
        ((∀ f' ∈ s.functions, p.Selects s f' → f'.toFunctionKey ≠ f.toFunctionKey) → g f = f.lastvalue) := by
  obtain ⟨functionRows, triggerRows, hfunctions, -, hrun⟩ := hpass
  obtain ⟨events, -, rfl⟩ := Option.map_eq_some_iff.mp hrun
  refine ⟨fun f => ((functionRows.filterMap (lastvalueUpdate p.evaluate p.history)).foldl FunctionsRow.store f).lastvalue,
    ?_, fun f hf => lastvalue_updates hstored hfunctions hf⟩
  rw [MassState.functionUpdate]
  dsimp only
  rw [foldl_storeLastvalue]
  exact List.map_congr_left fun f _ => foldl_store_eq _ f

/-- **Triggers follow their items.**  From a new trigger of type `NORMAL` without
dependencies on, whatever passes there have been and whatever has been changed
between them, a pass stores what the functions of its items come to; if the
trigger is enabled and one of these items is supported and its own, the trigger
has the value of its expression for the functions that are stored now, unless this
cannot be evaluated, and there is one event exactly when that is another value.
Else nothing happens to it.  Its events have changing values and are notified as
they should be. -/
theorem triggers_follow (config : MassConfig) {t : ℕ} {s₀ s : MassState}
    (hnew : NewTrigger config.nodeid config.eventid t s₀.events) (hstored : StoredFunctions s₀.functions)
    (hrun : Relation.ReflTransGen (MassStep config) s₀ s) (p : MassPass) :
    (∀ s', p.Leads config s s' →
      (∃ g : FunctionsRow → Option CString, s'.functions = s.functions.map (fun f => { f with lastvalue := g f }) ∧
        ∀ f ∈ s.functions,
          (p.Selects s f → g f = ((p.value f.toFunctionKey).map storedLastvalue).or f.lastvalue) ∧
          ((∀ f' ∈ s.functions, p.Selects s f' → f'.toFunctionKey ≠ f.toFunctionKey) → g f = f.lastvalue)) ∧
      (∀ d row, s.enabled t = some d → s.events.trigger t = some row → s'.events.valuesOf t =
        if p.Concerns s t then
          valuesAfter (evaluateExpression (config.table s'.functions) maxStringLen row.value d.expression)
            (s.events.valuesOf t)
        else s.events.valuesOf t) ∧
      (s.enabled t = none → s'.events.valuesOf t = s.events.valuesOf t) ∧
      (∃ row, s'.events.trigger t = some row ∧ row.value = (s'.events.valuesOf t).headD triggerValueUnknown) ∧
      (s'.events.valuesOf t).IsChain (· ≠ ·) ∧
      ∀ after e before, s'.events.eventsOf t = after ++ e :: before →
        (s'.events.actions.map DbEvent.toEventRow).count e =
          if Notifies (before.map EventRow.value) e.value then 1 else 0) ∧
    ((∀ row ∈ p.fetched s, config.evaluateRow
        (s.functionUpdate p.evaluate p.history (s.selectFunctions p.history)).functions row ≠ .outOfBounds) →
      lastId config.nodeid config.eventid s.events.ids s.events.eventids + (p.fetched s).length ≤
        config.eventid.max config.nodeid → ∃ s', p.Leads config s s') := by
  have hs : MassInvariant config t s := MassInvariant.run ⟨hnew.notifying, hstored⟩ hrun
  refine ⟨fun s' hpass => ?_, hs.leads⟩
  obtain ⟨hs', henabled, hdisabled⟩ := hs.pass hpass
  obtain ⟨row, hrow, -, hvalue⟩ := hs'.notifying.row
  exact ⟨functions_of_leads hs.stored hpass, henabled, hdisabled, ⟨row, hrow, hvalue⟩, hs'.notifying.changing,
    hs'.notifying.notified⟩

end

/-- A trigger of two items. -/
def sumDb : MassState where
  items := [⟨1, 0⟩, ⟨2, 0⟩]
  functions := [⟨⟨101, none⟩, ⟨1, literal "last", literal "0"⟩, 13⟩, ⟨⟨102, some (literal "0")⟩, ⟨2, literal "last", literal "0"⟩, 13⟩]
  definitions := [⟨13, 0, literal "\x7b101\x7d+\x7b102\x7d>5"⟩]
  events := twoTriggers

/-- Both have a new value. -/
def sumPass : MassPass where
  history := [⟨1, 20, false⟩, ⟨2, 21, false⟩]
  distinct := by decide
  evaluate key _ := some (if key.itemid = 1 then literal "3" else literal "4")

def sumConfig : MassConfig := ⟨eventsSchema, 1, eventid, .mysql, fun _ => []⟩

/-- 3 and 4 are more than 5. -/
theorem evaluateExpression_sumDb {functions : List FunctionsRow} (h : functions.map FunctionsRow.toFunctionRow =
    [⟨101, some (literal "3")⟩, ⟨102, some (literal "4")⟩]) :
    evaluateExpression (sumConfig.table functions) maxStringLen 2 (literal "\x7b101\x7d+\x7b102\x7d>5") = .succeed 1 := by
  have hscan : substituteFunctions ⟨[⟨101, some (literal "3")⟩, ⟨102, some (literal "4")⟩], sumConfig.name⟩
      (triggerExpression 2 (literal "\x7b101\x7d+\x7b102\x7d>5")) maxStringLen = ⟨[0, 1, 2, 3, 0, 1, 2, 3], .ok (bytes "3+4>5")⟩ := by
    rfl
  have hflat : strchr Ascii.rparen (strscpy (bytes "3+4>5")) = none := by decide
  have hsimple : (evaluateSimple maxStringLen (strscpy (bytes "3+4>5"))).1 = .succeed 1 := by decide +kernel
  have hloop : evaluateLoop maxStringLen (strscpy (bytes "3+4>5")) = .succeed 1 := by
    rw [evaluateLoop]
    split
    · exact hsimple
    · next heq => cases hflat.symm.trans heq
  have htruth : (if cmpDouble 1 0 = 0 then 0 else 1 : ℚ) = 1 := by decide +kernel
  rw [evaluateExpression, MassConfig.table, h, hscan]
  dsimp only
  rw [if_neg (by decide), evaluate, hloop]
  exact congrArg EvalOutcome.succeed htruth

/-- It is fetched twice, and has one event. -/
theorem triggers_follow_sum : ∃ s', sumPass.Leads sumConfig sumDb s' ∧ s'.events.valuesOf 13 = [1] ∧
    (sumPass.fetched sumDb).length = 2 := by
  have hnew : NewTrigger 1 eventid 13 twoTriggers :=
    { row := ⟨_, rfl, rfl, rfl⟩
      independent := by decide
      noEvents := by decide
      notBelow := fun _ h => nomatch h
      noActions := rfl }
  have hstored : StoredFunctions sumDb.functions := by
    rw [StoredFunctions]
    decide
  have hfetched : sumPass.fetched sumDb =
      [⟨⟨13, 0, 2⟩, literal "\x7b101\x7d+\x7b102\x7d>5", 1⟩, ⟨⟨13, 0, 2⟩, literal "\x7b101\x7d+\x7b102\x7d>5", 2⟩] := by
    decide
  obtain ⟨hfollow, hleads⟩ := @triggers_follow sumConfig 13 sumDb sumDb hnew hstored .refl sumPass
  obtain ⟨s', hs'⟩ := hleads (by
    rw [hfetched]
    have hvalue := @evaluateExpression_sumDb
      (sumDb.functionUpdate sumPass.evaluate sumPass.history (sumDb.selectFunctions sumPass.history)).functions rfl
    simp only [List.forall_mem_cons, MassConfig.evaluateRow, hvalue]
    simp) (by rw [hfetched]; decide)
  obtain ⟨⟨g, hfunctions, hg⟩, hvalues, -⟩ := hfollow s' hs'
  have hfirst := (hg _ List.mem_cons_self).1 ⟨rfl, ⟨_, List.mem_cons_self, rfl⟩, _, List.mem_cons_self, rfl, rfl⟩
  have hsecond := (hg _ (List.mem_cons_of_mem _ List.mem_cons_self)).1
    ⟨rfl, ⟨_, List.mem_cons_of_mem _ List.mem_cons_self, rfl⟩, _, List.mem_cons_of_mem _ List.mem_cons_self, rfl, rfl⟩
  have hrows : s'.functions.map FunctionsRow.toFunctionRow = [⟨101, some (literal "3")⟩, ⟨102, some (literal "4")⟩] := by
    have hboth : s'.functions.map FunctionsRow.toFunctionRow = [⟨101, g _⟩, ⟨102, g _⟩] := congrArg _ hfunctions
    rw [hboth, hfirst, hsecond]
    rfl
  refine ⟨s', hs', ?_, by rw [hfetched]; rfl⟩
  rw [hvalues _ _ rfl rfl, if_pos (by decide)]
  exact (congrArg (valuesAfter · []) (evaluateExpression_sumDb hrows)).trans (by decide)

end Zabbix
