import Zabbix.Agent.Following

/-!
# Zabbix.Agent.Pass

How far one pass of `process_active_checks` goes.

A log may grow faster than it is read.  A pass still comes to its end, and hands
over no more lines of a log than `MAX_LINES_PER_SECOND` for each second of its
refresh interval, or one (`pass_ends`).
-/

namespace Zabbix

/-! ## limits -/

/-- The keys and refresh intervals. -/
def ActiveMetrics.schedule (m : ActiveMetrics) : List (CString × Int32) := m.metrics.map fun x => (x.key, x.refresh)

/-- The lines of a log that are handed over in a pass. -/
def linesLimit (refresh : Int32) : ℕ := max 1 (maxLinesPerSecond * refresh).toInt.toNat

/-- The pieces of a log that are read in a pass. -/
def piecesLimit (refresh : Int32) : ℕ := max 1 (4 * maxLinesPerSecond * refresh).toInt.toNat

/-- The calls from the metrics on. -/
def callsFor (schedule : List (CString × Int32)) : ℕ := (schedule.map fun x => 1 + piecesLimit x.2).sum + 1

/-- The calls to the end of the pass. -/
def callsLeft (schedule : List (CString × Int32)) : Stand → ℕ
  | .idle => 0
  | .metric _ k => callsFor (schedule.drop k)
  | .log _ k _ p =>
      match schedule[k]? with
      | none => 1
      | some x => piecesLimit x.2 - p + callsFor (schedule.drop (k + 1))

theorem callsFor_drop {schedule : List (CString × Int32)} {k : ℕ} {x : CString × Int32} (h : schedule[k]? = some x) :
    callsFor (schedule.drop k) = 1 + piecesLimit x.2 + callsFor (schedule.drop (k + 1)) := by
  obtain ⟨hk, rfl⟩ := List.getElem?_eq_some_iff.mp h
  rw [List.drop_eq_getElem_cons hk, callsFor, callsFor, List.map_cons, List.sum_cons]
  omega

/-! ## what has been done in a pass -/

variable {config : AgentConfig}

/-- Nothing has been done with the log at a place. -/
def Still (w w' : AgentWorld) (i : ℕ) : Prop :=
  (linesOf w'.actions i).length = (linesOf w.actions i).length ∧
    (piecesOf w'.actions i).length = (piecesOf w.actions i).length

/-- No more has been done with the log at a place than may be done in a pass. -/
def Within (w w' : AgentWorld) (i : ℕ) : Prop :=
  ∀ x, w.metrics.schedule[i]? = some x →
    (linesOf w'.actions i).length ≤ (linesOf w.actions i).length + linesLimit x.2 ∧
      (piecesOf w'.actions i).length ≤ (piecesOf w.actions i).length + piecesLimit x.2

theorem Still.within {w w' : AgentWorld} {i : ℕ} (h : Still w w' i) : Within w w' i := by
  intro x _
  rw [h.1, h.2]
  exact ⟨Nat.le_add_right .., Nat.le_add_right ..⟩

theorem Quiet.still {i : ℕ} {w w' : AgentWorld} (h : Quiet i w w') : Still w w' i := by
  obtain ⟨new, h⟩ := h
  rw [Still, h.actions, linesOf_append, piecesOf_append, h.lines, h.pieces, List.append_nil, List.append_nil]
  exact ⟨rfl, rfl⟩

theorem Still.trans {w w' w'' : AgentWorld} {i : ℕ} (h : Still w w' i) (h' : Still w' w'' i) : Still w w'' i :=
  ⟨h'.1.trans h.1, h'.2.trans h.2⟩

theorem Within.still {w w' w'' : AgentWorld} {i : ℕ} (h : Within w w' i) (h' : Still w' w'' i) : Within w w'' i := by
  intro x hx
  rw [h'.1, h'.2]
  exact h x hx

/-- Where the thread stands in a pass that began with `w`. -/
def Progress (w w' : AgentWorld) : Prop :=
  match w'.stand with
  | .idle => ∀ i, Within w w' i
  | .metric _ k => w'.metrics.schedule = w.metrics.schedule ∧ (∀ i < k, Within w w' i) ∧ ∀ i, k ≤ i → Still w w' i
  | .log _ k s p =>
      w'.metrics.schedule = w.metrics.schedule ∧ (∀ i < k, Within w w' i) ∧ (∀ i, k < i → Still w w' i) ∧
        ∃ x, w.metrics.schedule[k]? = some x ∧ logParams x.1 ≠ none ∧ s < linesLimit x.2 ∧ p < piecesLimit x.2 ∧
          (linesOf w'.actions k).length = (linesOf w.actions k).length + s ∧
          (piecesOf w'.actions k).length = (piecesOf w.actions k).length + p

theorem Progress.within {w w' : AgentWorld} (h : Progress w w') (i : ℕ) : Within w w' i := by
  rw [Progress] at h
  split at h
  · exact h i
  · next k _ =>
      rcases Nat.lt_or_ge i k with hi | hi
      · exact h.2.1 i hi
      · exact (h.2.2 i hi).within
  · next k s p _ =>
      obtain ⟨-, hwithin, hstill, x, hx, -, hs, hp, hlines, hpieces⟩ := h
      rcases lt_trichotomy i k with hi | rfl | hi
      · exact hwithin i hi
      · intro x' hx'
        obtain rfl := Option.some.inj (hx.symm.trans hx')
        omega
      · exact (hstill i hi).within

/-! ## the schedule in a pass -/

theorem schedule_modifyAt (m : ActiveMetrics) (j : ℕ) {f : ActiveMetric → ActiveMetric} (hf : ∀ x, (f x).key = x.key)
    (hrefresh : ∀ x, (f x).refresh = x.refresh) : (m.modifyAt j f hf).schedule = m.schedule := by
  refine List.ext_getElem? fun i => ?_
  rw [ActiveMetrics.schedule, ActiveMetrics.schedule, List.getElem?_map, List.getElem?_map, getElem?_modifyAt,
    Option.map_map]
  congr 1
  funext x
  dsimp only [Function.comp_apply]
  split
  · rw [hf, hrefresh]
  · rfl

/-- Steps of a pass leave the schedule as it is. -/
def SameSchedule (w w' : AgentWorld) : Prop := w'.metrics.schedule = w.metrics.schedule

theorem sameSchedule_modify {w w' : AgentWorld} (h : SameSchedule w w') (j : ℕ) {f : ActiveMetric → ActiveMetric}
    {hf : ∀ x, (f x).key = x.key} (hrefresh : ∀ x, (f x).refresh = x.refresh) : SameSchedule w (w'.modify j f hf) :=
  (schedule_modifyAt w'.metrics j hf hrefresh).trans h

theorem SameSchedule.trans {w w' w'' : AgentWorld} (h : SameSchedule w w') (h' : SameSchedule w' w'') :
    SameSchedule w w'' :=
  Eq.trans h' h

theorem sameSchedule_finish (w : AgentWorld) (now : ℤ) (j : ℕ) (v : Visit) : SameSchedule w (w.finish now j v) := by
  have hmodify : SameSchedule w (w.modify j (fun x => { x with nextcheck := v.time + x.refresh.toInt }) fun _ => rfl) :=
    sameSchedule_modify rfl j fun _ => rfl
  exact hmodify

theorem sameSchedule_unsupported (w : AgentWorld) (j : ℕ) (x : ActiveMetric) (v : Visit) :
    SameSchedule w (w.unsupported config j x v) := by
  have hmodify : SameSchedule w (w.modify j (fun x => { x with status := .notsupported }) fun _ => rfl) :=
    sameSchedule_modify rfl j fun _ => rfl
  exact hmodify

theorem sameSchedule_checkValue (w : AgentWorld) (j : ℕ) (x : ActiveMetric) (v : Visit) :
    SameSchedule w (w.checkValue config j x v) := by
  rw [AgentWorld.checkValue]
  split
  · exact rfl
  · dsimp only
    split
    · refine sameSchedule_modify rfl j ?_
      exact fun _ => rfl
    · exact rfl

theorem sameSchedule_lineRead (w : AgentWorld) (j : ℕ) (x : ActiveMetric) (piece pattern value : List UInt8)
    (lastlogsize : ℤ) (v : Visit) : SameSchedule w (w.lineRead config j x piece pattern value lastlogsize v) := by
  rw [AgentWorld.lineRead]
  refine sameSchedule_modify ?_ j ?_
  · split <;> exact rfl
  · exact fun _ => rfl

theorem sameSchedule_nextLine (w : AgentWorld) (now : ℤ) (j : ℕ) (x : ActiveMetric) (sCount pCount : ℕ) (v : Visit) :
    SameSchedule w (w.nextLine now j x sCount pCount v) := by
  rw [AgentWorld.nextLine]
  split
  · exact sameSchedule_finish w now j v
  · exact rfl

/-! ## what a call can do -/

/-- In front of a metric: the thread goes on to the next one, or into the log. -/
theorem visit_metric {w : AgentWorld} {now : ℤ} {k : ℕ} {x : ActiveMetric} (hstand : w.stand = .metric now k)
    (hx : w.metrics.metrics[k]? = some x) (v : Visit) :
    SameSchedule w (w.visit config v) ∧ (∀ i, Quiet i w (w.visit config v)) ∧
      ((w.visit config v).stand = .metric now (k + 1) ∨
        (w.visit config v).stand = .log now k 0 0 ∧ logParams x.key ≠ none) := by
  rw [AgentWorld.visit, hstand]
  dsimp only
  rw [hx]
  dsimp only
  split
  · exact ⟨rfl, fun i => (quiet_refl i w).stand _, .inl rfl⟩
  · refine ⟨?_, fun i => quiet_check i k w now x v, ?_⟩
    · rw [AgentWorld.check]
      split
      · split
        · exact sameSchedule_finish w now k v
        · exact rfl
      · split
        · split
          · exact sameSchedule_finish w now k v
          · exact (sameSchedule_unsupported w k x v).trans (sameSchedule_finish _ now k v)
        · exact (sameSchedule_checkValue w k x v).trans (sameSchedule_finish _ now k v)
    · rw [AgentWorld.check]
      split
      · split
        · exact .inl rfl
        · next hparams => exact .inr ⟨rfl, by rw [hparams]; exact Option.some_ne_none _⟩
      · split
        · split
          · exact .inl rfl
          · exact .inl rfl
        · exact .inl rfl

theorem count_lineRead (w : AgentWorld) (k : ℕ) (x : ActiveMetric) (piece pattern value : List UInt8) (lastlogsize : ℤ)
    (v : Visit) :
    (linesOf (w.lineRead config k x piece pattern value lastlogsize v).actions k).length =
        (linesOf w.actions k).length + (if pattern = [] ∨ config.matched value pattern then 1 else 0) ∧
      (piecesOf (w.lineRead config k x piece pattern value lastlogsize v).actions k).length =
        (piecesOf w.actions k).length + 1 := by
  rw [AgentWorld.lineRead]
  split
  · simp [AgentWorld.modify, AgentWorld.report, linesOf, piecesOf, MetricAction.logLine, MetricAction.piece]
  · simp [AgentWorld.modify, linesOf, piecesOf, MetricAction.logLine, MetricAction.piece]

theorem nextLine_stand (w : AgentWorld) (now : ℤ) (k : ℕ) (x : ActiveMetric) (sCount pCount : ℕ) (v : Visit) :
    (w.nextLine now k x sCount pCount v).stand = .metric now (k + 1) ∨
      (w.nextLine now k x sCount pCount v).stand = .log now k sCount pCount ∧
        sCount < linesLimit x.refresh ∧ pCount < piecesLimit x.refresh := by
  rw [AgentWorld.nextLine]
  split
  · exact .inl rfl
  · next h =>
      rw [not_or, not_le, not_le] at h
      refine .inr ⟨rfl, lt_max_of_lt_right ?_, lt_max_of_lt_right ?_⟩
      · omega
      · omega

theorem nextLine_actions (w : AgentWorld) (now : ℤ) (k : ℕ) (x : ActiveMetric) (sCount pCount : ℕ) (v : Visit) :
    (w.nextLine now k x sCount pCount v).actions = w.actions := by
  rw [AgentWorld.nextLine]
  split <;> rfl

/-- In a log: the thread goes on to the next metric, or a piece has been read. -/
theorem visit_log {w : AgentWorld} {now : ℤ} {k s p : ℕ} {x : ActiveMetric} {filename pattern : List UInt8}
    (hstand : w.stand = .log now k s p) (hx : w.metrics.metrics[k]? = some x)
    (hparams : logParams x.key = some (filename, pattern)) (v : Visit) :
    SameSchedule w (w.visit config v) ∧ (∀ i, k ≠ i → Quiet i w (w.visit config v)) ∧
      ∃ c d, c ≤ 1 ∧ d ≤ 1 ∧
        (linesOf (w.visit config v).actions k).length = (linesOf w.actions k).length + c ∧
        (piecesOf (w.visit config v).actions k).length = (piecesOf w.actions k).length + d ∧
        ((w.visit config v).stand = .metric now (k + 1) ∨
          (w.visit config v).stand = .log now k (s + c) (p + d) ∧ d = 1 ∧
            s + c < linesLimit x.refresh ∧ p + d < piecesLimit x.refresh) := by
  rw [AgentWorld.visit, hstand]
  dsimp only
  rw [hx]
  dsimp only
  rw [hparams]
  dsimp only
  rw [AgentWorld.logLine]
  split
  · have hquiet : ∀ i, Quiet i w ((w.unsupported config k x v).finish now k v) := fun i =>
      (quiet_unsupported i k w x v).trans (quiet_finish i k _ now v)
    exact ⟨(sameSchedule_unsupported w k x v).trans (sameSchedule_finish _ now k v), fun i _ => hquiet i, 0, 0,
      Nat.zero_le _, Nat.zero_le _, (hquiet k).still.1, (hquiet k).still.2, .inl rfl⟩
  · refine ⟨SameSchedule.trans ?_ (sameSchedule_finish _ now k v), fun i hi => ?_, 0, 0, Nat.zero_le _, Nat.zero_le _,
      rfl, rfl, .inl rfl⟩
    · refine sameSchedule_modify rfl k ?_
      exact fun _ => rfl
    refine Quiet.trans ?_ (quiet_finish i k _ now v)
    exact ⟨[], logUntouched_modify i k _ _ fun h => absurd h hi⟩
  · next lastlogsize value _ =>
      obtain ⟨hlines, hpieces⟩ := @count_lineRead config w k x (logPiece (w.files filename) x.lastlogsize) pattern value
        lastlogsize v
      have hcount : (if pattern = [] ∨ config.matched value pattern then s + 1 else s) =
          s + if pattern = [] ∨ config.matched value pattern then 1 else 0 := by
        split <;> rfl
      dsimp only
      rw [hcount]
      refine ⟨(sameSchedule_lineRead w k x ..).trans (sameSchedule_nextLine ..),
        fun i hi => (quiet_lineRead hi w x ..).trans (quiet_nextLine ..),
        if pattern = [] ∨ config.matched value pattern then 1 else 0, 1, ?_, le_rfl, ?_, ?_, ?_⟩
      · split
        · exact le_rfl
        · exact Nat.zero_le _
      · rw [nextLine_actions, hlines]
      · rw [nextLine_actions, hpieces]
      · exact (nextLine_stand ..).imp_right fun h => ⟨h.1, rfl, h.2⟩

/-! ## a pass -/

theorem schedule_getElem? {w w' : AgentWorld} (h : w'.metrics.schedule = w.metrics.schedule) {k : ℕ}
    {x : ActiveMetric} (hx : w'.metrics.metrics[k]? = some x) : w.metrics.schedule[k]? = some (x.key, x.refresh) := by
  rw [← h, ActiveMetrics.schedule, List.getElem?_map, hx, Option.map_some]

theorem getElem?_of_schedule {w w' : AgentWorld} (h : w'.metrics.schedule = w.metrics.schedule) {k : ℕ}
    {x : CString × Int32} (hx : w.metrics.schedule[k]? = some x) :
    ∃ y, w'.metrics.metrics[k]? = some y ∧ y.key = x.1 ∧ y.refresh = x.2 := by
  rw [← h, ActiveMetrics.schedule, List.getElem?_map] at hx
  obtain ⟨y, hy, rfl⟩ := Option.map_eq_some_iff.mp hx
  exact ⟨y, hy, rfl, rfl⟩

/-- The next call of a pass. -/
theorem progress_visit {w w' : AgentWorld} (h : Progress w w') (v : Visit) :
    Progress w (w'.visit config v) ∧
      callsLeft w.metrics.schedule (w'.visit config v).stand ≤ callsLeft w.metrics.schedule w'.stand - 1 := by
  cases hstand : w'.stand with
  | idle =>
      have hvisit : w'.visit config v = w' := by rw [AgentWorld.visit, hstand]
      rw [hvisit, hstand]
      exact ⟨h, Nat.le_refl _⟩
  | metric now k =>
      rw [Progress, hstand] at h
      obtain ⟨hschedule, hwithin, hstill⟩ := h
      cases hx : w'.metrics.metrics[k]? with
      | none =>
          have hvisit : w'.visit config v = { w' with stand := .idle } := by
            rw [AgentWorld.visit, hstand]
            dsimp only
            rw [hx]
          rw [hvisit]
          refine ⟨fun i => ?_, Nat.zero_le _⟩
          rcases Nat.lt_or_ge i k with hi | hi
          · exact hwithin i hi
          · exact (hstill i hi).within
      | some x =>
          obtain ⟨hsame, hquiet, hnext⟩ := @visit_metric config w' now k x hstand hx v
          have hx' := schedule_getElem? hschedule hx
          have hcalls := callsFor_drop hx'
          dsimp only at hcalls
          have hwithin' : ∀ i < k, Within w (w'.visit config v) i := fun i hi => (hwithin i hi).still (hquiet i).still
          have hstill' : ∀ i, k ≤ i → Still w (w'.visit config v) i := fun i hi =>
            (hstill i hi).trans (hquiet i).still
          rcases hnext with hnext | ⟨hnext, hparams⟩
          · rw [Progress, hnext]
            refine ⟨⟨Eq.trans hsame hschedule, fun i hi => ?_, fun i hi => hstill' i (Nat.le_of_succ_le hi)⟩, ?_⟩
            · rcases Nat.lt_or_ge i k with hlt | hge
              · exact hwithin' i hlt
              · exact (hstill' i hge).within
            · rw [callsLeft, callsLeft]
              omega
          · rw [Progress, hnext]
            refine ⟨⟨Eq.trans hsame hschedule, hwithin', fun i hi => hstill' i hi.le, _, hx', hparams, ?_, ?_, ?_, ?_⟩, ?_⟩
            · exact lt_max_of_lt_left Nat.zero_lt_one
            · exact lt_max_of_lt_left Nat.zero_lt_one
            · exact (hstill' k le_rfl).1
            · exact (hstill' k le_rfl).2
            · rw [callsLeft, callsLeft, hx']
              dsimp only
              omega
  | log now k s p =>
      rw [Progress, hstand] at h
      obtain ⟨hschedule, hwithin, hstill, x, hx, hparams, hs, hp, hlines, hpieces⟩ := h
      obtain ⟨y, hy, hkey, hrefresh⟩ := getElem?_of_schedule hschedule hx
      obtain ⟨params, hparams⟩ := Option.ne_none_iff_exists'.mp (hkey ▸ hparams)
      obtain ⟨hsame, hquiet, c, d, hc, hd, hlines', hpieces', hnext⟩ :=
        @visit_log config w' now k s p y params.1 params.2 hstand hy hparams v
      have hwithin' : ∀ i < k, Within w (w'.visit config v) i := fun i hi =>
        (hwithin i hi).still (hquiet i hi.ne').still
      have hstill' : ∀ i, k < i → Still w (w'.visit config v) i := fun i hi =>
        (hstill i hi).trans (hquiet i hi.ne).still
      rcases hnext with hnext | ⟨hnext, rfl, hs', hp'⟩
      · rw [Progress, hnext]
        refine ⟨⟨Eq.trans hsame hschedule, fun i hi => ?_, fun i hi => hstill' i hi⟩, ?_⟩
        · rcases Nat.lt_or_eq_of_le (Nat.le_of_lt_succ hi) with hlt | rfl
          · exact hwithin' i hlt
          · intro x' hx'
            obtain rfl := Option.some.inj (hx.symm.trans hx')
            omega
        · rw [callsLeft, callsLeft, hx]
          dsimp only
          omega
      · rw [hrefresh] at hs' hp'
        rw [Progress, hnext]
        refine ⟨⟨Eq.trans hsame hschedule, hwithin', hstill', x, hx, ?_, hs', hp', ?_, ?_⟩, ?_⟩
        · rw [← hkey, hparams]
          exact Option.some_ne_none _
        · omega
        · omega
        · rw [callsLeft, callsLeft, hx]
          dsimp only
          omega

/-- The call of `process_active_checks` that goes on. -/
def AgentEvent.isVisit : AgentEvent → Bool
  | visit _ => true
  | _ => false

/-- The beginning of a pass. -/
def AgentEvent.isPass : AgentEvent → Bool
  | pass _ => true
  | _ => false

/-- What happens in a pass. -/
theorem progress_step {w w' : AgentWorld} (h : Progress w w') {e : AgentEvent} (he : e.isPass = false) :
    Progress w (w'.step config e) ∧
      callsLeft w.metrics.schedule (w'.step config e).stand ≤
        callsLeft w.metrics.schedule w'.stand - if e.isVisit then 1 else 0 := by
  cases e with
  | append filename chunk => exact ⟨h, le_rfl⟩
  | received response =>
      rw [AgentWorld.step]
      split
      · next hidle _ =>
          rw [Progress, hidle] at h
          rw [Progress]
          dsimp only
          rw [hidle]
          exact ⟨h, le_rfl⟩
      · exact ⟨h, le_rfl⟩
  | send c =>
      rw [AgentWorld.step]
      split
      · exact ⟨h, le_rfl⟩
      · exact ⟨h, le_rfl⟩
  | pass now => cases he
  | visit v => exact progress_visit h v

theorem progress_run {w w' : AgentWorld} (h : Progress w w') {es : List AgentEvent}
    (hes : ∀ e ∈ es, e.isPass = false) :
    Progress w (Run.run (AgentWorld.step config) w' es) ∧
      callsLeft w.metrics.schedule (Run.run (AgentWorld.step config) w' es).stand ≤
        callsLeft w.metrics.schedule w'.stand - es.countP AgentEvent.isVisit := by
  induction es generalizing w' with
  | nil => exact ⟨h, le_rfl⟩
  | cons e es ih =>
      rw [List.forall_mem_cons] at hes
      obtain ⟨hprogress, hcalls⟩ := @progress_step config w w' h e hes.1
      obtain ⟨hrun, hleft⟩ := ih hprogress hes.2
      refine ⟨hrun, ?_⟩
      rw [Run.run_cons, List.countP_cons]
      omega

/-- **A pass ends** after so many calls, however the files grow, and hands over
only so many lines of each log. -/
theorem pass_ends {w : AgentWorld} (hidle : w.stand = .idle) (now : ℤ) {es : List AgentEvent}
    (hes : ∀ e ∈ es, e.isPass = false) :
    (∀ (i : ℕ) (x : ActiveMetric), w.metrics.metrics[i]? = some x →
      (linesOf (Run.run (AgentWorld.step config) w (.pass now :: es)).actions i).length ≤
          (linesOf w.actions i).length + linesLimit x.refresh ∧
        (piecesOf (Run.run (AgentWorld.step config) w (.pass now :: es)).actions i).length ≤
          (piecesOf w.actions i).length + piecesLimit x.refresh) ∧
    (callsFor w.metrics.schedule ≤ es.countP AgentEvent.isVisit →
      (Run.run (AgentWorld.step config) w (.pass now :: es)).stand = .idle) := by
  have hpass : w.step config (.pass now) = { w with stand := .metric now 0 } := if_pos hidle
  rw [Run.run_cons, hpass]
  have hprogress : Progress w { w with stand := .metric now 0 } :=
    ⟨rfl, fun _ hi => absurd hi (Nat.not_lt_zero _), fun _ _ => ⟨rfl, rfl⟩⟩
  obtain ⟨hrun, hleft⟩ := @progress_run config w _ hprogress es hes
  generalize Run.run (AgentWorld.step config) { w with stand := Stand.metric now 0 } es = w' at hrun hleft
  constructor
  · intro i x hx
    exact hrun.within i (x.key, x.refresh) (schedule_getElem? rfl hx)
  · intro hcalls
    rw [callsLeft, List.drop_zero] at hleft
    cases hstand : w'.stand with
    | idle => rfl
    | metric now' k =>
        rw [hstand, callsLeft, callsFor] at hleft
        omega
    | log now' k s p =>
        rw [Progress, hstand] at hrun
        obtain ⟨-, -, -, x, hx, -, -, hp, -, -⟩ := hrun
        rw [hstand, callsLeft, hx] at hleft
        dsimp only at hleft
        omega

/-- The log and the metric without a refresh interval of their own. -/
def flexibleWorld : AgentWorld :=
  { syslogWorld with
    metrics :=
      { metrics :=
          [⟨literal "log[/s,b]", literal "log[/s,b]", 0, 0, .active, 0⟩,
            ⟨literal "agent.ping", literal "agent.ping", 0, 0, .active, 0⟩]
        nodup := by decide } }

/-- A file that grows with every call. -/
def growingEvents : List AgentEvent :=
  (List.replicate 5 [.append (bytes "/s") (bytes "bb"), .visit (quietVisit 10)]).flatten

theorem pass_ends_flexible :
    (linesOf (Run.run (AgentWorld.step syslogConfig) flexibleWorld (.pass 10 :: growingEvents)).actions 0).length ≤ 1 ∧
      (Run.run (AgentWorld.step syslogConfig) flexibleWorld (.pass 10 :: growingEvents)).stand = .idle := by
  have hends := @pass_ends syslogConfig flexibleWorld rfl 10 growingEvents (by decide)
  exact ⟨(hends.1 0 _ rfl).1, hends.2 (by decide)⟩

end Zabbix
