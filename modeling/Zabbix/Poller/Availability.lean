import Zabbix.Poller.GetValues

/-!
# Zabbix.Poller.Availability

When a host is marked as not available.

A poller decides by the columns of the host that it has read with the item.  As long
as a host has errors from some time on, every poll of an agent item that was read
after that time, and has been completed, ended in a network error: another result
would have cleared them, because what was read with the item showed them.  This is kept by
every step (`AvailabilityInv.step`), and it is known of what a poller has read
(`host_availability_honest`).  What is completed after the reading is not seen.
-/

namespace Zabbix

/-! ## the invariant -/

/-- Of the polls of the agent items of a host, those that were read after a time ended in
network errors. -/
def ErrorsSince (polls : List Poll) (hostid : ℕ) (errorsFrom : ℤ) : Prop :=
  ∀ poll ∈ polls, poll.hostid = hostid → poll.type.isAgent = true → errorsFrom < poll.readAt →
    poll.res = .networkError

/-- The items that a poller has read. -/
def PollerState.held (poller : PollerState) : List PolledItem := poller.item.toList ++ poller.rows

theorem PollerState.mem_held {poller : PollerState} {item : PolledItem} (h : poller.item = some item) :
    item ∈ poller.held := by
  simp [PollerState.held, h]

/-- What is known of an item that has been read: it was read before, and what it showed
was so then; where it showed no errors, there are none, or they are later ones. -/
structure ItemInv (w : PollerWorld) (item : PolledItem) : Prop where
  readAt : item.readAt ≤ w.clock
  completed : item.completed ≤ w.polls.length
  shown : item.hostErrorsFrom ≠ 0 → ErrorsSince (w.polls.take item.completed) item.hostid item.hostErrorsFrom
  later : item.hostErrorsFrom = 0 →
    (w.hosts item.hostid).errorsFrom = 0 ∨ item.readAt ≤ (w.hosts item.hostid).errorsFrom

/-- The invariant. -/
structure AvailabilityInv (w : PollerWorld) : Prop where
  polls : ∀ poll ∈ w.polls, poll.readAt ≤ w.clock
  hosts : ∀ hostid, (w.hosts hostid).errorsFrom ≠ 0 → ErrorsSince w.polls hostid (w.hosts hostid).errorsFrom
  items : ∀ p, ∀ item ∈ (w.pollers p).held, ItemInv w item

namespace AvailabilityInv

variable {w : PollerWorld}

theorem initial (h : w.Initial) : AvailabilityInv w where
  polls := by simp [h.polls]
  hosts hostid _ := by simp [ErrorsSince, h.polls]
  items p item hitem := by simp [PollerState.held, h.item p, h.rows p] at hitem

/-- Time passes. -/
theorem tick (h : AvailabilityInv w) (elapsed : ℕ) : AvailabilityInv { w with clock := w.clock + elapsed } where
  polls poll hpoll := (h.polls poll hpoll).trans (by simp)
  hosts := h.hosts
  items p item hitem :=
    { readAt := (h.items p item hitem).readAt.trans (by simp)
      completed := (h.items p item hitem).completed
      shown := (h.items p item hitem).shown
      later := (h.items p item hitem).later }

/-- What is read is known. -/
theorem read (h : AvailabilityInv w) (item : DueItem) : ItemInv w (w.read w.clock item) where
  readAt := le_rfl
  completed := le_rfl
  shown hne := by
    have htake : w.polls.take (w.read w.clock item).completed = w.polls := List.take_length
    rw [htake]
    exact h.hosts item.hostid hne
  later hzero := .inl hzero

/-- A poller holds other items. -/
theorem setPoller (h : AvailabilityInv w) {p : ℕ} {poller : PollerState}
    (hheld : ∀ item ∈ poller.held, ItemInv w item) : AvailabilityInv (w.setPoller p poller) where
  polls := h.polls
  hosts := h.hosts
  items q item hitem := by
    change item ∈ (Function.update w.pollers p poller q).held at hitem
    have hinv : ItemInv w item := by
      by_cases hq : q = p
      · subst hq
        rw [Function.update_self] at hitem
        exact hheld item hitem
      · rw [Function.update_of_ne hq] at hitem
        exact h.items q item hitem
    exact ⟨hinv.readAt, hinv.completed, hinv.shown, hinv.later⟩

theorem select (h : AvailabilityInv w) (p : ℕ) (due : List DueItem) : AvailabilityInv (w.select p due) := by
  rw [PollerWorld.select]
  split
  · rename_i hidle
    refine h.setPoller fun item hitem => ?_
    rw [PollerState.held, hidle.2, Option.toList_none, List.nil_append] at hitem
    obtain ⟨d, -, rfl⟩ := List.mem_map.mp hitem
    exact h.read d
  · exact h

theorem fetch (h : AvailabilityInv w) (p : ℕ) (polls : Bool) : AvailabilityInv (w.fetch p polls) := by
  rw [PollerWorld.fetch]
  split
  · rename_i row rows hrows hitem
    have hrow : ∀ item ∈ row :: rows, ItemInv w item := by
      intro item hmem
      refine h.items p item ?_
      rw [PollerState.held, hitem, hrows]
      exact hmem
    rw [List.forall_mem_cons] at hrow
    split
    · refine h.setPoller fun item hmem => ?_
      rw [PollerState.held] at hmem
      rcases List.mem_append.mp hmem with hmem | hmem
      · split at hmem
        · obtain rfl := List.mem_singleton.mp hmem
          exact h.read _
        · cases hmem
      · exact hrow.2 item hmem
    · refine h.setPoller fun item hmem => ?_
      rw [PollerState.held] at hmem
      rcases List.mem_append.mp hmem with hmem | hmem
      · split at hmem
        · obtain rfl := List.mem_singleton.mp hmem
          exact hrow.1
        · cases hmem
      · exact hrow.2 item hmem
  · exact h

end AvailabilityInv

/-! ## a result -/

/-- What becomes of the errors of a host. -/
inductive ErrorsResult (item : PolledItem) (now errorsFrom : ℤ) (res : PollResult) (errorsFrom' : ℤ) : Prop
  | cleared (h : errorsFrom' = 0)
  | first (h : errorsFrom' = now)
  | kept (h : errorsFrom' = errorsFrom)
      (hread : res ≠ .networkError → item.type.isAgent = true → item.hostErrorsFrom = 0)

theorem errorsResult_hostAnswers (cfg : PollerConfig) (item : PolledItem) (now : ℤ) {res : PollResult} (host : HostRow) :
    ErrorsResult item now host.errorsFrom res
      ((hostAnswers item).foldl (HostUpdate.apply cfg now) host).errorsFrom := by
  by_cases hagent : item.type.isAgent = true
  · by_cases havailable : item.hostAvailable = .true
    · by_cases herrors : item.hostErrorsFrom = 0
      · have hnone : hostAnswers item = [] := by simp [hostAnswers, hagent, havailable, herrors]
        rw [hnone]
        exact .kept rfl fun _ _ => herrors
      · have hclear : hostAnswers item = [.clearErrors] := by simp [hostAnswers, hagent, havailable, herrors]
        rw [hclear]
        exact .cleared rfl
    · have henable : hostAnswers item = [.enable] := by simp [hostAnswers, enableHost, hagent, havailable]
      rw [henable]
      exact .cleared rfl
  · have hnone : hostAnswers item = [] := by simp [hostAnswers, hagent]
    rw [hnone]
    exact .kept rfl fun _ h => absurd h hagent

theorem errorsResult (cfg : PollerConfig) (item : PolledItem) (now : ℤ) (res : PollResult) (host : HostRow) :
    ErrorsResult item now host.errorsFrom res
      ((resultUpdates cfg item now res).foldl (HostUpdate.apply cfg now) host).errorsFrom := by
  cases res with
  | succeed | notsupported | agentError => exact errorsResult_hostAnswers cfg item now host
  | networkError =>
      have hres : ∀ {P : Prop}, PollResult.networkError ≠ .networkError → P := fun h => absurd rfl h
      rw [resultUpdates]
      split
      · exact .first rfl
      · split
        · rw [disableHost]
          split
          · exact .kept rfl hres
          · exact .kept rfl hres
        · exact .kept rfl hres

/-- After a result, an item that has been read is known as before. -/
theorem ItemInv.result {w : PollerWorld} {item : PolledItem} (h : ItemInv w item) (cfg : PollerConfig) {p : ℕ}
    {polled : PolledItem} (hpolled : (w.pollers p).item = some polled) (res : PollResult) :
    ItemInv (w.result cfg p res) item := by
  have hlength : item.completed ≤ w.polls.length := h.completed
  refine ⟨?_, ?_, fun hne => ?_, fun hzero => ?_⟩
  · rw [PollerWorld.clock_result cfg hpolled]
    exact h.readAt
  · rw [PollerWorld.polls_result cfg hpolled, List.length_append]
    omega
  · rw [PollerWorld.polls_result cfg hpolled, List.take_append_of_le_length hlength]
    exact h.shown hne
  · rw [PollerWorld.hosts_result cfg hpolled]
    have hlater := h.later hzero
    by_cases hhost : item.hostid = polled.hostid
    · rw [hhost] at hlater ⊢
      rw [Function.update_self]
      cases errorsResult cfg polled w.clock res (w.hosts polled.hostid) with
      | cleared hzero => exact .inl hzero
      | first hnow =>
          rw [hnow]
          exact .inr h.readAt
      | kept hkept _ =>
          rw [hkept]
          exact hlater
    · rw [Function.update_of_ne hhost]
      exact hlater

/-- A poller holds no other items after a result. -/
theorem held_result {w : PollerWorld} {cfg : PollerConfig} {p q : ℕ} {res : PollResult} {item : PolledItem}
    (h : item ∈ ((w.result cfg p res).pollers q).held) : item ∈ (w.pollers q).held := by
  rw [PollerWorld.result] at h
  cases hpolled : (w.pollers p).item with
  | none =>
      rw [hpolled] at h
      exact h
  | some polled =>
      rw [hpolled] at h
      by_cases hq : q = p
      · subst hq
        simp only [Function.update_self] at h
        rw [PollerState.held, Option.toList_none, List.nil_append] at h
        rw [PollerState.held, List.mem_append]
        split at h
        · cases h
        · exact .inr h
      · simp only [Function.update_of_ne hq] at h
        exact h

/-- **A result keeps the invariant.** -/
theorem AvailabilityInv.result {w : PollerWorld} (h : AvailabilityInv w) (cfg : PollerConfig) (p : ℕ) (res : PollResult) :
    AvailabilityInv (w.result cfg p res) := by
  cases hpolled : (w.pollers p).item with
  | none =>
      rw [PollerWorld.result_of_none cfg hpolled]
      exact h
  | some polled =>
      have hinv : ItemInv w polled := h.items p polled (PollerState.mem_held hpolled)
      refine ⟨?_, ?_, fun q item hitem => (h.items q item (held_result hitem)).result cfg hpolled res⟩
      · rw [PollerWorld.polls_result cfg hpolled, PollerWorld.clock_result cfg hpolled]
        intro poll hpoll
        rcases List.mem_append.mp hpoll with hpoll | hpoll
        · exact h.polls poll hpoll
        · obtain rfl := List.mem_singleton.mp hpoll
          exact hinv.readAt
      · rw [PollerWorld.polls_result cfg hpolled, PollerWorld.hosts_result cfg hpolled]
        intro hostid
        by_cases hp : hostid = polled.hostid
        · subst hp
          rw [Function.update_self]
          cases errorsResult cfg polled w.clock res (w.hosts polled.hostid) with
          | cleared hzero => exact fun hne => absurd hzero hne
          | first hnow =>
              -- nothing has been read later than now
              rw [hnow]
              intro _ poll hpoll _ _ hlt
              rcases List.mem_append.mp hpoll with hpoll | hpoll
              · exact absurd hlt (not_lt.mpr (h.polls poll hpoll))
              · obtain rfl := List.mem_singleton.mp hpoll
                exact absurd hlt (not_lt.mpr hinv.readAt)
          | kept hkept hread =>
              rw [hkept]
              intro hne poll hpoll hhost hagent hlt
              rcases List.mem_append.mp hpoll with hpoll | hpoll
              · exact h.hosts _ hne poll hpoll hhost hagent hlt
              · obtain rfl := List.mem_singleton.mp hpoll
                by_contra hres
                -- the item was read without errors, which have come since
                rcases hinv.later (hread hres hagent) with hzero | hle
                · exact hne hzero
                · exact absurd hlt (not_lt.mpr hle)
        · rw [Function.update_of_ne hp]
          intro hne poll hpoll hhost hagent hlt
          rcases List.mem_append.mp hpoll with hpoll | hpoll
          · exact h.hosts hostid hne poll hpoll hhost hagent hlt
          · obtain rfl := List.mem_singleton.mp hpoll
            exact absurd hhost.symm hp

theorem AvailabilityInv.step {w : PollerWorld} (h : AvailabilityInv w) (cfg : PollerConfig) (e : PollerEvent) :
    AvailabilityInv (w.step cfg e) := by
  rw [PollerWorld.step]
  cases e.action with
  | select due => exact (h.tick e.elapsed).select e.poller due
  | fetch polls => exact (h.tick e.elapsed).fetch e.poller polls
  | result res => exact (h.tick e.elapsed).result cfg e.poller res

theorem AvailabilityInv.run {cfg : PollerConfig} {w₀ : PollerWorld} (h₀ : w₀.Initial) (es : List PollerEvent) :
    AvailabilityInv (Run.run (PollerWorld.step cfg) w₀ es) :=
  Run.invariant_run' (I := AvailabilityInv) (fun _ e h => h.step cfg e) (.initial h₀) es

/-! ## being marked -/

theorem foldl_apply_available {cfg : PollerConfig} {now : ℤ} {updates : List HostUpdate}
    (h : HostUpdate.disable ∉ updates) {host : HostRow}
    (hfalse : (updates.foldl (HostUpdate.apply cfg now) host).available = .false) : host.available = .false := by
  induction updates generalizing host with
  | nil => exact hfalse
  | cons update updates ih =>
      rw [List.mem_cons, not_or] at h
      have hstep := ih h.2 hfalse
      cases update with
      | enable => cases hstep
      | disable => exact absurd rfl h.1
      | clearErrors | firstError | disableAgain | wait => exact hstep

theorem disable_mem_resultUpdates {cfg : PollerConfig} {item : PolledItem} {now : ℤ} {res : PollResult}
    (h : HostUpdate.disable ∈ resultUpdates cfg item now res) :
    res = .networkError ∧ item.hostErrorsFrom ≠ 0 ∧ cfg.unreachablePeriod < now - item.hostErrorsFrom := by
  have hanswers : HostUpdate.disable ∉ hostAnswers item := by
    by_cases hagent : item.type.isAgent = true
    · by_cases havailable : item.hostAvailable = .true
      · by_cases herrors : item.hostErrorsFrom = 0
        · simp [hostAnswers, hagent, havailable, herrors]
        · simp [hostAnswers, hagent, havailable, herrors]
      · simp [hostAnswers, enableHost, hagent, havailable]
    · simp [hostAnswers, hagent]
  cases res with
  | succeed | notsupported | agentError => exact absurd h hanswers
  | networkError =>
      rw [resultUpdates] at h
      split at h
      · simp at h
      · split at h
        · exact ⟨rfl, ‹_›, ‹_›⟩
        · simp at h

/-- A host becomes not available by a result that marks it. -/
theorem available_result {cfg : PollerConfig} {w : PollerWorld} {p : ℕ} {res : PollResult} {hostid : ℕ}
    (h : ((w.result cfg p res).hosts hostid).available = .false) :
    (w.hosts hostid).available = .false ∨
      ∃ item, (w.pollers p).item = some item ∧ item.hostid = hostid ∧
        HostUpdate.disable ∈ resultUpdates cfg item w.clock res := by
  cases hitem : (w.pollers p).item with
  | none =>
      rw [PollerWorld.result_of_none cfg hitem] at h
      exact .inl h
  | some item =>
      rw [PollerWorld.hosts_result cfg hitem] at h
      by_cases hhost : hostid = item.hostid
      · subst hhost
        rw [Function.update_self] at h
        by_cases hdisable : HostUpdate.disable ∈ resultUpdates cfg item w.clock res
        · exact .inr ⟨item, rfl, rfl, hdisable⟩
        · exact .inl (foldl_apply_available hdisable h)
      · rw [Function.update_of_ne hhost] at h
        exact .inl h

/-- What has been known of a host that is marked, when its item was read: there were errors,
for more than the unreachable period by now, and since they had begun there had been
nothing else. -/
structure Unreachable (cfg : PollerConfig) (w : PollerWorld) (now : ℤ) (item : PolledItem) : Prop where
  errors : item.hostErrorsFrom ≠ 0
  period : cfg.unreachablePeriod < now - item.hostErrorsFrom
  polls : ErrorsSince (w.polls.take item.completed) item.hostid item.hostErrorsFrom

/-- **Availability is honest about what has been read**: whatever the order of the steps, a
host becomes not available only when a poll of one of its items ends in a network error,
and the host was unreachable by what had been read with the item. -/
theorem host_availability_honest (cfg : PollerConfig) {w₀ : PollerWorld} (h₀ : w₀.Initial) (es : List PollerEvent)
    (e : PollerEvent) (hostid : ℕ) :
    let w := Run.run (PollerWorld.step cfg) w₀ es
    let w' := w.step cfg e
    (w'.hosts hostid).available = .false → (w.hosts hostid).available = .false ∨
      ∃ item, (w.pollers e.poller).item = some item ∧ item.hostid = hostid ∧ e.action = .result .networkError ∧
        Unreachable cfg w w'.clock item := by
  intro w w' hfalse
  have hinv : AvailabilityInv w := .run h₀ es
  obtain ⟨p, elapsed, action⟩ := e
  change ((PollerWorld.step cfg w ⟨p, elapsed, action⟩).hosts hostid).available = .false at hfalse
  cases action with
  | select due =>
      rw [PollerWorld.step, PollerWorld.hosts_select] at hfalse
      exact .inl hfalse
  | fetch polls =>
      rw [PollerWorld.step, PollerWorld.hosts_fetch] at hfalse
      exact .inl hfalse
  | result res =>
      have htick : AvailabilityInv { w with clock := w.clock + elapsed } := hinv.tick elapsed
      rcases available_result hfalse with hbefore | ⟨item, hitem, hhost, hdisable⟩
      · exact .inl hbefore
      · obtain ⟨rfl, hne, hlt⟩ := disable_mem_resultUpdates hdisable
        have hclock : w'.clock = w.clock + elapsed :=
          PollerWorld.clock_result (w := { w with clock := w.clock + elapsed }) cfg hitem .networkError
        have hshown := (htick.items p item (PollerState.mem_held hitem)).shown hne
        exact .inr ⟨item, hitem, hhost, rfl, hne, hclock ▸ hlt, hshown⟩

/-- Three pollers, a normal one each for two items of a host, and one for unreachable hosts. -/
def threePollers : PollerWorld :=
  { clock := 1000
    hosts := fun _ => { available := .unknown, errorsFrom := 0, disableUntil := 0 }
    pollers := fun p =>
      { type := if p = 2 then .unreachable else .normal, rows := [], unreachableHosts := [], item := none }
    polls := [] }

/-- The delays of the server's configuration file. -/
def pollerDefaults : PollerConfig := { unreachablePeriod := 45, unreachableDelay := 15, unavailableDelay := 60 }

/-- The first items that both normal pollers read; the first has an error, and so much later the
poller for unreachable hosts takes it. -/
def twoItems : List PollerEvent :=
  [⟨0, 0, .select [⟨1, 7, .zabbix⟩]⟩, ⟨1, 0, .select [⟨2, 7, .zabbix⟩]⟩, ⟨0, 0, .fetch true⟩,
    ⟨0, 1, .result .networkError⟩, ⟨2, 45, .select [⟨1, 7, .zabbix⟩]⟩, ⟨2, 0, .fetch true⟩]

/-- Without another result the host is marked, as it should be. -/
theorem host_availability_marked :
    ∃ item, ((Run.run (PollerWorld.step pollerDefaults) threePollers twoItems).pollers 2).item = some item ∧
      item.hostid = 7 ∧ PollerAction.result .networkError = .result .networkError ∧
        Unreachable pollerDefaults (Run.run (PollerWorld.step pollerDefaults) threePollers twoItems) 1047 item := by
  have hinitial : threePollers.Initial := ⟨fun _ => rfl, fun _ => rfl, rfl⟩
  have h := host_availability_honest pollerDefaults hinitial twoItems ⟨2, 1, .result .networkError⟩ 7
    (by decide)
  exact h.resolve_left (by decide)

/-- The second normal poller gets its value just before. -/
def answeredItems : List PollerEvent := twoItems ++ [⟨1, 0, .fetch true⟩, ⟨1, 0, .result .succeed⟩]

/-- A host is marked one second after it has answered, and when it has no errors. -/
theorem host_availability_race :
    (¬∀ (cfg : PollerConfig) (w₀ : PollerWorld) (es : List PollerEvent) (e : PollerEvent) (hostid : ℕ), w₀.Initial →
      let w := Run.run (PollerWorld.step cfg) w₀ es
      let w' := w.step cfg e
      (w.hosts hostid).available ≠ .false → (w'.hosts hostid).available = .false →
        ∀ poll ∈ w.polls, poll.hostid = hostid → w'.clock - cfg.unreachablePeriod ≤ poll.now →
          poll.res = .networkError) ∧
    ¬∀ (cfg : PollerConfig) (w₀ : PollerWorld) (es : List PollerEvent) (e : PollerEvent) (hostid : ℕ), w₀.Initial →
      let w := Run.run (PollerWorld.step cfg) w₀ es
      let w' := w.step cfg e
      (w.hosts hostid).available ≠ .false → (w'.hosts hostid).available = .false →
        (w.hosts hostid).errorsFrom ≠ 0 := by
  have hinitial : threePollers.Initial := ⟨fun _ => rfl, fun _ => rfl, rfl⟩
  constructor
  · intro h
    have hpolls := h pollerDefaults threePollers answeredItems ⟨2, 1, .result .networkError⟩ 7 hinitial
      (by decide) (by decide)
    revert hpolls
    decide
  · intro h
    have herrors := h pollerDefaults threePollers answeredItems ⟨2, 1, .result .networkError⟩ 7 hinitial
      (by decide) (by decide)
    exact herrors (by decide)

end Zabbix
