import Zabbix.Escalator.Escalation

/-!
# Zabbix.Escalator.Recovery

Escalations that are stopped.

The escalator writes back what it has made of the row it read, whatever has
happened to the row since.  So a stop gets lost when it comes between the select
and the write-back of a row that was read as active; as long as none does, a
row that has been set to recovery stays so until its recovery is processed.
-/

namespace Zabbix

namespace EscalatorState

/-- The rows that have been read and not yet been written back, as they were
read. -/
def inFlight (s : EscalatorState) : List DbEscalation := s.current.toList.map (·.read) ++ s.result

/-- A step that does not stop an escalation which the escalator is working on. -/
def Quiet (s : EscalatorState) : EscalatorEvent → Prop
  | .stop actionid triggerid eventid =>
      eventid ∈ s.events → ∀ row ∈ s.inFlight, row.status = .active →
        ¬(row.actionid = actionid ∧ row.triggerid = triggerid)
  | .processEvent .. | .start .. | .select .. | .execute .. | .writeBack => True

/-- A row that has been read, and what has become of it in the table: if it was
read as active it has not been stopped since, and else it still is. -/
def Fresh (s : EscalatorState) (read row : DbEscalation) : Prop :=
  row.escalationid = read.escalationid ∧ row.actionid = read.actionid ∧ row.triggerid = read.triggerid ∧
    (read.status = .active ∧ row.status ≠ .recovery ∨
      read.status = .recovery ∧ row.status = .recovery ∧ read.rEventid ∈ s.events)

/-- What an execution comes to: a recovery is completed, and nothing else
becomes one. -/
structure Sound (x : Executed) : Prop where
  escalationid : x.escalation.escalationid = x.read.escalationid
  active : x.read.status = .active → x.escalation.status ≠ .recovery
  recovery : x.read.status = .recovery →
    x.escalation.status = .completed ∧ (x.recovered = true ∨ x.actionDeleted = true)

/-- The tables and what has been read of them fit together. -/
structure Consistent (s : EscalatorState) : Prop where
  nodup : (s.escalations.map (·.escalationid)).Nodup
  lt_nextid : ∀ row ∈ s.escalations, row.escalationid < s.nextid
  not_completed : ∀ row ∈ s.escalations, row.status ≠ .completed
  recovery : ∀ row ∈ s.escalations, row.status = .recovery → row.nextcheck = 0 ∧ row.rEventid ∈ s.events
  inFlight_nodup : (s.inFlight.map (·.escalationid)).Nodup
  fresh : ∀ read ∈ s.inFlight, ∃ row ∈ s.escalations, s.Fresh read row
  sound : ∀ x, s.current = some x → Sound x

/-! ## executions -/

theorem status_executeOperations (q : Selects) (action : EscAction) {e : DbEscalation}
    (h : e.status = .active) : (executeOperations q action e).status ≠ .recovery := by
  have hafter : statusAfter action ≠ .recovery := by
    rw [statusAfter]
    split <;> decide
  rw [executeOperations]
  split
  · exact hafter
  · dsimp only
    split
    · simp [h]
    · exact hafter

theorem escalationid_executeOperations (q : Selects) (action : EscAction) (e : DbEscalation) :
    (executeOperations q action e).escalationid = e.escalationid := by
  rw [executeOperations]
  split
  · rfl
  · dsimp only
    split <;> rfl

/-- **One execution**, of a row with an event. -/
theorem sound_executeEscalation (events : List ℕ) (q : Selects) {e : DbEscalation}
    (hstatus : e.status = .active ∨ e.status = .recovery)
    (hevent : e.status = .recovery → e.rEventid ∈ events) : Sound (executeEscalation events q e) := by
  have hcancel : ∀ (error : Bool) (x : DbEscalation),
      (if error then { x with status := .completed } else x).escalationid = x.escalationid := by
    intro error x
    cases error <;> rfl
  have hactive : ∀ (error : Bool) (x : DbEscalation), x.status ≠ .recovery →
      (if error then { x with status := .completed } else x).status ≠ .recovery := by
    intro error x hx
    cases error
    · exact hx
    · simp
  rw [executeEscalation]
  rcases hstatus with h | h
  · rw [h]
    cases q.action with
    | none => exact ⟨rfl, fun _ => by simp, fun hr => by simp [h] at hr⟩
    | some action =>
        refine ⟨?_, fun _ => hactive _ _ ?_, fun hr => by simp [h] at hr⟩
        · refine (hcancel _ _).trans ?_
          split
          · exact escalationid_executeOperations q action e
          · rfl
        · split
          · exact status_executeOperations q action h
          · rw [h]
            decide
  · rw [h]
    cases q.action with
    | none => exact ⟨rfl, fun _ => by simp, fun _ => ⟨by simp, .inr rfl⟩⟩
    | some action =>
        have hmem := hevent h
        refine ⟨?_, fun hr => by simp [h] at hr, fun _ => ⟨?_, .inl (by simpa using hmem)⟩⟩
        · refine (hcancel _ _).trans ?_
          rw [if_pos hmem]
          rfl
        · simp [hmem, processRecoveryMsg]

theorem read_executeEscalation (events : List ℕ) (q : Selects) (e : DbEscalation) :
    (executeEscalation events q e).read = e := by
  rw [executeEscalation]
  cases e.status <;> cases q.action <;> rfl

/-! ## one step -/

variable {s : EscalatorState}

theorem Fresh.mono {read row : DbEscalation} (h : s.Fresh read row) {s' : EscalatorState}
    (hevents : ∀ e ∈ s.events, e ∈ s'.events) : s'.Fresh read row := by
  obtain ⟨hid, haction, htrigger, hstatus⟩ := h
  refine ⟨hid, haction, htrigger, hstatus.imp_right ?_⟩
  rintro ⟨hread, hrow, hevent⟩
  exact ⟨hread, hrow, hevents _ hevent⟩

theorem Consistent.processEvent (h : s.Consistent) (eventid : ℕ) :
    (s.step (.processEvent eventid)).Consistent where
  nodup := h.nodup
  lt_nextid := h.lt_nextid
  not_completed := h.not_completed
  recovery row hrow hstatus := (h.recovery row hrow hstatus).imp_right (List.mem_cons_of_mem _)
  inFlight_nodup := h.inFlight_nodup
  fresh read hread :=
    let ⟨row, hrow, hfresh⟩ := h.fresh read hread
    ⟨row, hrow, hfresh.mono fun _ he => List.mem_cons_of_mem _ he⟩
  sound := h.sound

theorem Consistent.start (h : s.Consistent) (actionid triggerid eventid taken : ℕ) :
    (s.step (.start actionid triggerid eventid taken)).Consistent := by
  rw [step]
  split
  · constructor
    · rw [List.map_append, List.nodup_append]
      refine ⟨h.nodup, List.nodup_singleton _, ?_⟩
      rintro a ha b hb
      obtain ⟨row, hrow, rfl⟩ := List.mem_map.mp ha
      obtain rfl := List.mem_singleton.mp hb
      have hlt := h.lt_nextid row hrow
      change row.escalationid ≠ s.nextid + taken
      omega
    · rw [List.forall_mem_append]
      refine ⟨fun row hrow => ?_, fun row hrow => ?_⟩
      · have hlt := h.lt_nextid row hrow
        dsimp only
        omega
      · rw [List.mem_singleton.mp hrow]
        exact Nat.lt_succ_self _
    · rw [List.forall_mem_append]
      refine ⟨h.not_completed, fun row hrow => ?_⟩
      rw [List.mem_singleton.mp hrow]
      simp [dbStartEscalation]
    · rw [List.forall_mem_append]
      refine ⟨h.recovery, fun row hrow hstatus => ?_⟩
      rw [List.mem_singleton.mp hrow] at hstatus
      cases hstatus
    · exact h.inFlight_nodup
    · intro read hread
      obtain ⟨row, hrow, hfresh⟩ := h.fresh read hread
      exact ⟨row, List.mem_append_left _ hrow, hfresh⟩
    · exact h.sound
  · exact h

/-- A stop, of escalations that the escalator is not working on. -/
theorem Consistent.stop (h : s.Consistent) {actionid triggerid eventid : ℕ}
    (hquiet : s.Quiet (.stop actionid triggerid eventid)) :
    (s.step (.stop actionid triggerid eventid)).Consistent := by
  have hid : ∀ row, (dbStopEscalation actionid triggerid eventid row).escalationid = row.escalationid := by
    intro row
    rw [dbStopEscalation]
    split <;> rfl
  rw [step]
  split
  · rename_i hevent
    constructor
    · rw [List.map_map]
      have hmap : (fun row : DbEscalation => row.escalationid) ∘ dbStopEscalation actionid triggerid eventid =
          fun row => row.escalationid := funext hid
      rw [hmap]
      exact h.nodup
    · rw [List.forall_mem_map]
      intro row hrow
      rw [hid]
      exact h.lt_nextid row hrow
    · rw [List.forall_mem_map]
      intro row hrow
      rw [dbStopEscalation]
      split
      · simp
      · exact h.not_completed row hrow
    · rw [List.forall_mem_map]
      intro row hrow hstatus
      rw [dbStopEscalation] at hstatus ⊢
      split
      · exact ⟨rfl, hevent⟩
      · rename_i hne
        rw [if_neg hne] at hstatus
        exact h.recovery row hrow hstatus
    · exact h.inFlight_nodup
    · intro read hread
      obtain ⟨row, hrow, hrowid, haction, htrigger, hstatus⟩ := h.fresh read hread
      refine ⟨_, List.mem_map_of_mem hrow, ?_⟩
      rw [dbStopEscalation]
      split
      · rename_i heq
        refine ⟨hrowid, haction, htrigger, ?_⟩
        rcases hstatus with ⟨hread', -⟩ | ⟨hread', -, hmem⟩
        · exact absurd ⟨haction ▸ heq.1, htrigger ▸ heq.2⟩ (hquiet hevent read hread hread')
        · exact .inr ⟨hread', rfl, hmem⟩
      · exact ⟨hrowid, haction, htrigger, hstatus⟩
    · exact h.sound
  · exact h

theorem mem_selectEscalation {now : ℕ} {row read : DbEscalation} (h : selectEscalation now row = some read) :
    (row.status = .active ∨ row.status = .recovery) ∧ row.nextcheck ≤ now ∧
      read = { row with nextcheck := 0 } := by
  rw [selectEscalation] at h
  split at h
  · rename_i hdue
    exact ⟨hdue.1, hdue.2, (Option.some.inj h).symm⟩
  · cases h

theorem Consistent.select (h : s.Consistent) (now : ℕ) : (s.step (.select now)).Consistent := by
  rw [step]
  split
  · rename_i hidle
    have hinFlight : inFlight { s with result := s.escalations.filterMap (selectEscalation now) } =
        s.escalations.filterMap (selectEscalation now) := by
      rw [inFlight]
      simp [hidle.2]
    refine ⟨h.nodup, h.lt_nextid, h.not_completed, h.recovery, ?_, ?_, h.sound⟩
    · rw [hinFlight]
      refine List.Sublist.nodup ?_ h.nodup
      have hmap : (s.escalations.filterMap (selectEscalation now)).map (·.escalationid) =
          s.escalations.filterMap fun row => (selectEscalation now row).map (·.escalationid) :=
        List.map_filterMap
      rw [hmap]
      have hsub : ∀ rows : List DbEscalation,
          (rows.filterMap fun row => (selectEscalation now row).map (·.escalationid)).Sublist
            (rows.map (·.escalationid)) := by
        intro rows
        induction rows with
        | nil => exact .slnil
        | cons row rows ih =>
            rw [List.filterMap_cons, List.map_cons]
            cases hsel : selectEscalation now row with
            | none => exact ih.cons _
            | some read =>
                have hread := (mem_selectEscalation hsel).2.2
                rw [hread]
                exact ih.cons_cons _
      exact hsub _
    · intro read hread
      rw [hinFlight] at hread
      obtain ⟨row, hrow, hsel⟩ := List.mem_filterMap.mp hread
      obtain ⟨hstatus, -, rfl⟩ := mem_selectEscalation hsel
      refine ⟨row, hrow, rfl, rfl, rfl, ?_⟩
      rcases hstatus with hstatus | hstatus
      · exact .inl ⟨hstatus, by rw [hstatus]; decide⟩
      · exact .inr ⟨hstatus, hstatus, (h.recovery row hrow hstatus).2⟩
  · exact h

/-- What an execution does. -/
theorem step_execute (s : EscalatorState) (q : Selects) :
    (∃ row rows, s.current = none ∧ s.result = row :: rows ∧
      s.step (.execute q) =
        { s with result := rows, current := some (executeEscalation s.events q row) }) ∨
      s.step (.execute q) = s := by
  rw [step.eq_def]
  dsimp only
  split
  · rename_i row rows hcurrent hresult
    exact .inl ⟨row, rows, hcurrent, hresult, rfl⟩
  · exact .inr rfl

/-- Executing a row leaves it in flight. -/
theorem inFlight_execute (s : EscalatorState) (q : Selects) : (s.step (.execute q)).inFlight = s.inFlight := by
  rcases step_execute s q with ⟨row, rows, hcurrent, hresult, hstep⟩ | hstep
  · rw [hstep]
    simp [inFlight, hcurrent, hresult, read_executeEscalation]
  · rw [hstep]

theorem Consistent.execute (h : s.Consistent) (q : Selects) : (s.step (.execute q)).Consistent := by
  have hinFlight := inFlight_execute s q
  rcases step_execute s q with ⟨row, rows, hcurrent, hresult, hstep⟩ | hstep
  · rw [hstep] at hinFlight ⊢
    refine ⟨h.nodup, h.lt_nextid, h.not_completed, h.recovery, ?_, ?_, ?_⟩
    · rw [hinFlight]
      exact h.inFlight_nodup
    · rw [hinFlight]
      exact h.fresh
    · intro x hx
      obtain rfl := Option.some.inj hx
      have hmem : row ∈ s.inFlight := by simp [inFlight, hresult]
      obtain ⟨_, -, -, -, -, hstatus⟩ := h.fresh row hmem
      rcases hstatus with ⟨hactive, -⟩ | ⟨hrecovery, -, hevent⟩
      · exact sound_executeEscalation _ _ (.inl hactive) fun hr => by simp [hactive] at hr
      · exact sound_executeEscalation _ _ (.inr hrecovery) fun _ => hevent
  · rw [hstep]
    exact h

/-- What writing back does. -/
theorem step_writeBack (s : EscalatorState) :
    (∃ x, s.current = some x ∧ x.escalation.status = .completed ∧
      s.step .writeBack =
        { s with
          escalations := s.escalations.filter fun row => row.escalationid ≠ x.escalation.escalationid
          current := none
          removals := s.removals ++ [x] }) ∨
    (∃ x, s.current = some x ∧ x.escalation.status ≠ .completed ∧
      s.step .writeBack =
        { s with escalations := s.escalations.map (updateEscalation x.escalation), current := none }) ∨
    s.current = none ∧ s.step .writeBack = s := by
  rw [step.eq_def]
  dsimp only
  split
  · rename_i x hx
    split
    · rename_i hcompleted
      exact .inl ⟨x, hx, hcompleted, rfl⟩
    · rename_i hcompleted
      exact .inr (.inl ⟨x, hx, hcompleted, rfl⟩)
  · rename_i hx
    exact .inr (.inr ⟨hx, rfl⟩)

/-- What is in flight once the current row has been written back. -/
theorem inFlight_of_current {x : Executed} (hx : s.current = some x) : s.inFlight = x.read :: s.result := by
  rw [inFlight, hx]
  rfl

theorem inFlight_of_none (h : s.current = none) : s.inFlight = s.result := by
  rw [inFlight, h]
  rfl

/-- The other rows in flight have other identifiers. -/
theorem Consistent.ne_current (h : s.Consistent) {x : Executed} (hx : s.current = some x)
    {read : DbEscalation} (hread : read ∈ s.result) : read.escalationid ≠ x.escalation.escalationid := by
  have hnodup := h.inFlight_nodup
  rw [inFlight_of_current hx, List.map_cons, List.nodup_cons] at hnodup
  rw [(h.sound x hx).escalationid]
  intro heq
  exact hnodup.1 (List.mem_map.mpr ⟨read, hread, heq⟩)

theorem escalationid_updateEscalation (e row : DbEscalation) :
    (updateEscalation e row).escalationid = row.escalationid := by
  rw [updateEscalation]
  split <;> rfl

theorem updateEscalation_of_ne {e row : DbEscalation} (h : row.escalationid ≠ e.escalationid) :
    updateEscalation e row = row := if_neg h

/-- A row that is written back, and not removed, was read as active. -/
theorem Consistent.read_active (h : s.Consistent) {x : Executed} (hx : s.current = some x)
    (hcompleted : x.escalation.status ≠ .completed) : x.read.status = .active := by
  have hmem : x.read ∈ s.inFlight := by simp [inFlight_of_current hx]
  obtain ⟨_, -, -, -, -, hstatus⟩ := h.fresh _ hmem
  rcases hstatus with ⟨hactive, -⟩ | ⟨hrecovery, -⟩
  · exact hactive
  · exact absurd ((h.sound x hx).recovery hrecovery).1 hcompleted

/-- A row of the table has the identifier of one that was read only if it is
that row. -/
theorem Consistent.eq_of_escalationid (h : s.Consistent) {row row' : DbEscalation}
    (hrow : row ∈ s.escalations) (hrow' : row' ∈ s.escalations)
    (heq : row.escalationid = row'.escalationid) : row = row' :=
  List.inj_on_of_nodup_map h.nodup hrow hrow' heq

theorem Consistent.writeBack (h : s.Consistent) : (s.step .writeBack).Consistent := by
  rcases step_writeBack s with ⟨x, hx, hcompleted, hstep⟩ | ⟨x, hx, hcompleted, hstep⟩ | ⟨hnone, hstep⟩
  · rw [hstep]
    have hnodup := h.inFlight_nodup
    rw [inFlight_of_current hx, List.map_cons, List.nodup_cons] at hnodup
    refine ⟨h.nodup.sublist (List.filter_sublist.map _), fun row hrow => h.lt_nextid row (List.mem_of_mem_filter hrow),
      fun row hrow => h.not_completed row (List.mem_of_mem_filter hrow),
      fun row hrow => h.recovery row (List.mem_of_mem_filter hrow), ?_, ?_, ?_⟩
    · exact hnodup.2
    · intro read hread
      have hne := h.ne_current hx hread
      obtain ⟨row, hrow, hfresh⟩ := h.fresh read (by rw [inFlight_of_current hx]; exact List.mem_cons_of_mem _ hread)
      refine ⟨row, List.mem_filter.mpr ⟨hrow, ?_⟩, hfresh⟩
      rw [hfresh.1]
      exact decide_eq_true hne
    · intro x' hx'
      cases hx'
  · rw [hstep]
    have hnodup := h.inFlight_nodup
    rw [inFlight_of_current hx, List.map_cons, List.nodup_cons] at hnodup
    have hsound := h.sound x hx
    have hactive := h.read_active hx hcompleted
    constructor
    · rw [List.map_map]
      have hmap : (fun row : DbEscalation => row.escalationid) ∘ updateEscalation x.escalation =
          fun row => row.escalationid := funext (escalationid_updateEscalation x.escalation)
      rw [hmap]
      exact h.nodup
    · rw [List.forall_mem_map]
      intro row hrow
      rw [escalationid_updateEscalation]
      exact h.lt_nextid row hrow
    · rw [List.forall_mem_map]
      intro row hrow
      rw [updateEscalation]
      split
      · exact hcompleted
      · exact h.not_completed row hrow
    · rw [List.forall_mem_map]
      intro row hrow hstatus
      rw [updateEscalation] at hstatus ⊢
      split
      · rename_i heq
        rw [if_pos heq] at hstatus
        exact absurd hstatus (hsound.active hactive)
      · rename_i heq
        rw [if_neg heq] at hstatus
        exact h.recovery row hrow hstatus
    · exact hnodup.2
    · intro read hread
      have hne := h.ne_current hx hread
      obtain ⟨row, hrow, hfresh⟩ := h.fresh read (by rw [inFlight_of_current hx]; exact List.mem_cons_of_mem _ hread)
      refine ⟨row, List.mem_map.mpr ⟨row, hrow, updateEscalation_of_ne ?_⟩, hfresh⟩
      rw [hfresh.1]
      exact hne
    · intro x' hx'
      cases hx'
  · rw [hstep]
    exact h

/-- **One step**, that is quiet. -/
theorem Consistent.step (h : s.Consistent) {e : EscalatorEvent} (hquiet : s.Quiet e) :
    (s.step e).Consistent := by
  cases e with
  | processEvent eventid => exact h.processEvent eventid
  | start actionid triggerid eventid taken => exact h.start actionid triggerid eventid taken
  | stop actionid triggerid eventid => exact h.stop hquiet
  | select now => exact h.select now
  | execute q => exact h.execute q
  | writeBack => exact h.writeBack

/-! ## recoveries -/

/-- The recovery of an escalation has been processed, and it has been removed. -/
def Recovered (s : EscalatorState) (escalationid : ℕ) : Prop :=
  escalationid < s.nextid ∧ (∀ row ∈ s.escalations, row.escalationid ≠ escalationid) ∧
    ∃ x ∈ s.removals, x.read.escalationid = escalationid ∧ x.read.status = .recovery ∧
      (x.recovered = true ∨ x.actionDeleted = true)

/-- Escalations that are in recovery stay so until they have been recovered. -/
def KeepsRecovery (s s' : EscalatorState) : Prop :=
  ∀ row ∈ s.escalations, row.status = .recovery →
    (∃ row' ∈ s'.escalations, row'.escalationid = row.escalationid ∧ row'.status = .recovery) ∨
      s'.Recovered row.escalationid

/-- A removal, of a row that is in recovery. -/
theorem Consistent.recovered_writeBack (h : s.Consistent) {x : Executed} (hx : s.current = some x)
    (hrecovery : x.read.status = .recovery) : (s.step .writeBack).Recovered x.read.escalationid := by
  have hsound := h.sound x hx
  obtain ⟨hcompleted, hdone⟩ := hsound.recovery hrecovery
  have hmem : x.read ∈ s.inFlight := by simp [inFlight_of_current hx]
  obtain ⟨row, hrow, hid, -⟩ := h.fresh _ hmem
  rcases step_writeBack s with ⟨x', hx', -, hstep⟩ | ⟨x', hx', hne, -⟩ | ⟨hnone, -⟩
  · obtain rfl := Option.some.inj (hx.symm.trans hx')
    rw [hstep]
    refine ⟨?_, ?_, x, by simp, rfl, hrecovery, hdone⟩
    · exact hid ▸ h.lt_nextid row hrow
    · intro row' hrow'
      rw [← hsound.escalationid]
      simpa using (List.mem_filter.mp hrow').2
  · obtain rfl := Option.some.inj (hx.symm.trans hx')
    exact absurd hcompleted hne
  · rw [hx] at hnone
    cases hnone

/-- **A quiet step keeps recoveries.** -/
theorem Consistent.keepsRecovery (h : s.Consistent) {e : EscalatorEvent} (hquiet : s.Quiet e) :
    KeepsRecovery s (s.step e) := by
  intro row hrow hstatus
  cases e with
  | processEvent eventid => exact .inl ⟨row, hrow, rfl, hstatus⟩
  | start actionid triggerid eventid taken =>
      refine .inl ⟨row, ?_, rfl, hstatus⟩
      rw [EscalatorState.step]
      split
      · exact List.mem_append_left _ hrow
      · exact hrow
  | stop actionid triggerid eventid =>
      rw [EscalatorState.step]
      split
      · refine .inl ⟨_, List.mem_map_of_mem hrow, ?_⟩
        rw [dbStopEscalation]
        split
        · exact ⟨rfl, rfl⟩
        · exact ⟨rfl, hstatus⟩
      · exact .inl ⟨row, hrow, rfl, hstatus⟩
  | select now =>
      refine .inl ⟨row, ?_, rfl, hstatus⟩
      rw [EscalatorState.step]
      split <;> exact hrow
  | execute q =>
      refine .inl ⟨row, ?_, rfl, hstatus⟩
      rcases step_execute s q with ⟨_, _, -, -, hstep⟩ | hstep <;> rw [hstep] <;> exact hrow
  | writeBack =>
      cases hx : s.current with
      | none =>
          rcases step_writeBack s with ⟨x, hx', -⟩ | ⟨x, hx', -⟩ | ⟨-, hstep⟩
          · rw [hx] at hx'
            cases hx'
          · rw [hx] at hx'
            cases hx'
          · rw [hstep]
            exact .inl ⟨row, hrow, rfl, hstatus⟩
      | some x =>
          have hmem : x.read ∈ s.inFlight := by simp [inFlight_of_current hx]
          obtain ⟨row', hrow', hid, -, -, hfresh⟩ := h.fresh _ hmem
          by_cases heq : row.escalationid = x.read.escalationid
          · obtain rfl := h.eq_of_escalationid hrow hrow' (heq.trans hid.symm)
            rcases hfresh with ⟨-, hne⟩ | ⟨hrecovery, -⟩
            · exact absurd hstatus hne
            · rw [heq]
              exact .inr (h.recovered_writeBack hx hrecovery)
          · have hne : row.escalationid ≠ x.escalation.escalationid := by
              rwa [(h.sound x hx).escalationid]
            left
            rcases step_writeBack s with ⟨x', hx', -, hstep⟩ | ⟨x', hx', -, hstep⟩ | ⟨hnone, -⟩
            · obtain rfl := Option.some.inj (hx.symm.trans hx')
              rw [hstep]
              exact ⟨row, List.mem_filter.mpr ⟨hrow, decide_eq_true hne⟩, rfl, hstatus⟩
            · obtain rfl := Option.some.inj (hx.symm.trans hx')
              rw [hstep]
              exact ⟨row, List.mem_map.mpr ⟨row, hrow, updateEscalation_of_ne hne⟩, rfl, hstatus⟩
            · rw [hx] at hnone
              cases hnone

/-- A recovery under way: it is done, or the escalator has read it. -/
def UnderWay (s : EscalatorState) (escalationid : ℕ) : Prop :=
  s.Recovered escalationid ∨
    ∃ read ∈ s.inFlight, read.escalationid = escalationid ∧ read.status = .recovery

theorem Recovered.step {escalationid : ℕ} (h : s.Recovered escalationid) (e : EscalatorEvent) :
    (s.step e).Recovered escalationid := by
  obtain ⟨hlt, hnone, x, hx, hdone⟩ := h
  cases e with
  | processEvent eventid => exact ⟨hlt, hnone, x, hx, hdone⟩
  | start actionid triggerid eventid taken =>
      rw [EscalatorState.step]
      split
      · refine ⟨by dsimp only; omega, ?_, x, hx, hdone⟩
        rw [List.forall_mem_append]
        refine ⟨hnone, fun row hrow => ?_⟩
        rw [List.mem_singleton.mp hrow]
        change s.nextid + taken ≠ escalationid
        omega
      · exact ⟨hlt, hnone, x, hx, hdone⟩
  | stop actionid triggerid eventid =>
      rw [EscalatorState.step]
      split
      · refine ⟨hlt, ?_, x, hx, hdone⟩
        rw [List.forall_mem_map]
        intro row hrow
        rw [dbStopEscalation]
        split <;> exact hnone row hrow
      · exact ⟨hlt, hnone, x, hx, hdone⟩
  | select now =>
      rw [EscalatorState.step]
      split <;> exact ⟨hlt, hnone, x, hx, hdone⟩
  | execute q =>
      rcases step_execute s q with ⟨_, _, -, -, hstep⟩ | hstep <;> rw [hstep] <;>
        exact ⟨hlt, hnone, x, hx, hdone⟩
  | writeBack =>
      rcases step_writeBack s with ⟨x', -, -, hstep⟩ | ⟨x', -, -, hstep⟩ | ⟨-, hstep⟩ <;> rw [hstep]
      · exact ⟨hlt, fun row hrow => hnone row (List.mem_of_mem_filter hrow), x,
          List.mem_append_left _ hx, hdone⟩
      · refine ⟨hlt, ?_, x, hx, hdone⟩
        rw [List.forall_mem_map]
        intro row hrow
        rw [escalationid_updateEscalation]
        exact hnone row hrow
      · exact ⟨hlt, hnone, x, hx, hdone⟩

/-- A recovery that is under way stays so. -/
theorem Consistent.underWay (h : s.Consistent) {escalationid : ℕ} (hway : s.UnderWay escalationid)
    (e : EscalatorEvent) : (s.step e).UnderWay escalationid := by
  rcases hway with hdone | ⟨read, hread, hid, hrecovery⟩
  · exact .inl (hdone.step e)
  · cases e with
    | processEvent eventid => exact .inr ⟨read, hread, hid, hrecovery⟩
    | start actionid triggerid eventid taken =>
        rw [EscalatorState.step]
        split <;> exact .inr ⟨read, hread, hid, hrecovery⟩
    | stop actionid triggerid eventid =>
        rw [EscalatorState.step]
        split <;> exact .inr ⟨read, hread, hid, hrecovery⟩
    | select now =>
        rw [EscalatorState.step]
        split
        · rename_i hidle
          have hempty : s.inFlight = [] := by rw [inFlight_of_none hidle.2, hidle.1]
          rw [hempty] at hread
          cases hread
        · exact .inr ⟨read, hread, hid, hrecovery⟩
    | execute q =>
        rw [UnderWay, inFlight_execute]
        exact .inr ⟨read, hread, hid, hrecovery⟩
    | writeBack =>
        cases hx : s.current with
        | none =>
            right
            rcases step_writeBack s with ⟨x, hx', -⟩ | ⟨x, hx', -⟩ | ⟨-, hstep⟩
            · rw [hx] at hx'
              cases hx'
            · rw [hx] at hx'
              cases hx'
            · rw [hstep]
              exact ⟨read, hread, hid, hrecovery⟩
        | some x =>
            rw [inFlight_of_current hx] at hread
            rcases List.mem_cons.mp hread with rfl | hread
            · rw [← hid]
              exact .inl (h.recovered_writeBack hx hrecovery)
            · right
              rcases step_writeBack s with ⟨x', -, -, hstep⟩ | ⟨x', -, -, hstep⟩ | ⟨hnone, -⟩
              · rw [hstep]
                exact ⟨read, hread, hid, hrecovery⟩
              · rw [hstep]
                exact ⟨read, hread, hid, hrecovery⟩
              · rw [hx] at hnone
                cases hnone

/-! ## runs -/

/-- No escalations yet. -/
def initial : EscalatorState :=
  { events := [], escalations := [], nextid := 0, result := [], current := none, removals := [] }

theorem consistent_initial : initial.Consistent where
  nodup := List.nodup_nil
  lt_nextid := fun _ h => nomatch h
  not_completed := fun _ h => nomatch h
  recovery := fun _ h => nomatch h
  inFlight_nodup := List.nodup_nil
  fresh := fun _ h => nomatch h
  sound := fun _ h => nomatch h

/-- The escalator has come to the end of its result. -/
def Idle (s : EscalatorState) : Prop := s.result = [] ∧ s.current = none

theorem consistent_run {es : List EscalatorEvent} (hs : s.Consistent)
    (h : Run.Along step Quiet s es) : (Run.run step s es).Consistent :=
  Run.invariant_run (fun _ _ hs hquiet => hs.step hquiet) hs h

/-- What is selected is recovered by the end of the result. -/
theorem Consistent.recovered_of_idle (h : s.Consistent) (hidle : s.Idle) {row : DbEscalation}
    (hrow : row ∈ s.escalations) (hstatus : row.status = .recovery) (now : ℕ) {es : List EscalatorEvent}
    (hquiet : Run.Along EscalatorState.step Quiet (s.step (.select now)) es)
    (hend : (Run.run EscalatorState.step (s.step (.select now)) es).Idle) :
    (Run.run EscalatorState.step (s.step (.select now)) es).Recovered row.escalationid := by
  have hselected : (s.step (.select now)).UnderWay row.escalationid := by
    have hdue : selectEscalation now row = some { row with nextcheck := 0 } := by
      rw [selectEscalation, if_pos ⟨.inr hstatus, by rw [(h.recovery row hrow hstatus).1]; exact Nat.zero_le _⟩]
    refine .inr ⟨{ row with nextcheck := 0 }, ?_, rfl, hstatus⟩
    rw [EscalatorState.step, if_pos (show s.result = [] ∧ s.current = none from hidle), inFlight]
    exact List.mem_append_right _ (List.mem_filterMap.mpr ⟨row, hrow, hdue⟩)
  have hrun : (Run.run EscalatorState.step (s.step (.select now)) es).Consistent ∧
      (Run.run EscalatorState.step (s.step (.select now)) es).UnderWay row.escalationid :=
    Run.invariant_run (I := fun s => s.Consistent ∧ s.UnderWay row.escalationid)
      (fun _ e hs hquiet => ⟨hs.1.step hquiet, hs.1.underWay hs.2 e⟩) ⟨h.select now, hselected⟩ hquiet
  rcases hrun.2 with hdone | ⟨read, hread, -⟩
  · exact hdone
  · rw [inFlight_of_none hend.2, hend.1] at hread
    cases hread

end EscalatorState

/-- An execution that finds an active action with a step every hour, and an
operation for the first step. -/
def hourlySelects : Selects :=
  { trigger := some false
    itemDisabled := false
    hostDisabled := false
    action := some { escPeriod := 3600, recoveryMsg := 1, active := true }
    operations := [{ alerts := true, escPeriod := 0, escStepFrom := 1, escStepTo := 1, conditions := true }]
    laterOperations := []
    alerted := true
    time := 100 }

/-- An escalation that is stopped after its first step. -/
def stoppedRun : List EscalatorEvent :=
  [.processEvent 1, .start 5 7 1 0, .select 100, .execute hourlySelects, .writeBack, .processEvent 2,
    .stop 5 7 2, .select 200, .execute hourlySelects, .writeBack]

/-- An escalation that is stopped while its first step is executed. -/
def lostRun : List EscalatorEvent :=
  [.processEvent 1, .start 5 7 1 0, .select 100, .processEvent 2, .stop 5 7 2, .execute hourlySelects]

end Zabbix
