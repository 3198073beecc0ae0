import Zabbix.Agent.Active
import Zabbix.Lib.Run

/-!
# Zabbix.Agent.Buffer

What becomes of the values that are handed to `process_value`.

They leave the buffer in the order in which they have come: all at once when a
transmission has been answered, or the oldest one when the buffer is full
(`Conserved`).  The answer need not be one of success, and then they are lost
(`buffer_loses_nothing_iff`).
-/

namespace Zabbix

/-! ## what leaves the buffer -/

namespace BufferEvent

/-- The values that are no longer in the buffer. -/
def leaves : BufferEvent → List ActiveBufferElement
  | transmission data _ outcome => if outcome.ret then data else []
  | eviction el _ => [el]

/-- Those among them that the server has confirmed, or that were the oldest ones
in a full buffer. -/
def settles : BufferEvent → List ActiveBufferElement
  | transmission data _ outcome => if outcome.accepts then data else []
  | eviction el _ => [el]

end BufferEvent

theorem TcpOutcome.ret_of_accepts {outcome : TcpOutcome} (h : outcome.accepts) : outcome.ret := by
  cases outcome with
  | answer => rfl
  | connect => cases h
  | send => cases h
  | recv => cases h

theorem settles_eq_or (e : BufferEvent) : e.settles = e.leaves ∨ e.settles = [] := by
  cases e with
  | eviction => exact .inl rfl
  | transmission data request outcome =>
      rw [BufferEvent.settles, BufferEvent.leaves]
      cases haccepts : outcome.accepts with
      | true => exact .inl (by rw [TcpOutcome.ret_of_accepts haccepts])
      | false => exact .inr rfl

theorem length_flatMap_settles_le (log : List BufferEvent) :
    (log.flatMap BufferEvent.settles).length ≤ (log.flatMap BufferEvent.leaves).length := by
  induction log with
  | nil => exact le_rfl
  | cons e log ih =>
      rw [List.flatMap_cons, List.flatMap_cons, List.length_append, List.length_append]
      rcases settles_eq_or e with h | h
      · rw [h]
        omega
      · rw [h, List.length_nil]
        omega

/-- What is settled is all that has left only if it is so for each event. -/
theorem flatMap_settles_eq_iff (log : List BufferEvent) :
    log.flatMap BufferEvent.settles = log.flatMap BufferEvent.leaves ↔ ∀ e ∈ log, e.settles = e.leaves := by
  induction log with
  | nil => simp
  | cons e log ih =>
      rw [List.flatMap_cons, List.flatMap_cons, List.forall_mem_cons]
      constructor
      · intro h
        have hsettles : e.settles = e.leaves := by
          rcases settles_eq_or e with he | he
          · exact he
          · -- nothing of it is settled: by the lengths, nothing has left
            have hlen := congrArg List.length h
            have hle := length_flatMap_settles_le log
            rw [he, List.length_append, List.length_append, List.length_nil] at hlen
            rw [he, List.eq_nil_of_length_eq_zero (by omega : e.leaves.length = 0)]
        rw [hsettles] at h
        exact ⟨hsettles, ih.mp (List.append_cancel_left h)⟩
      · rintro ⟨hsettles, hlog⟩
        rw [hsettles, ih.mpr hlog]

/-! ## one call -/

variable {config : BufferConfig}

/-- Nothing is created and nothing vanishes without a trace; no more values are
in the buffer than it holds, and only a full one pushes values out. -/
structure Conserved (config : BufferConfig) (s : ActiveBuffer) : Prop where
  accounted : s.handed = s.log.flatMap BufferEvent.leaves ++ s.data
  full : ∀ el count, .eviction el count ∈ s.log → count = config.bufferSize
  bounded : s.data.length ≤ config.bufferSize

theorem conserved_initial : Conserved config .initial where
  accounted := rfl
  full := fun _ _ h => nomatch h
  bounded := Nat.zero_le _

/-- `send_buffer`: the transmission, if there is one. -/
def sentEvents (config : BufferConfig) (s : ActiveBuffer) (c : SendContext) : List BufferEvent :=
  if s.Sends config c.now then [.transmission s.data (requestOps s.data c.clock) c.outcome] else []

theorem sendBuffer_log (s : ActiveBuffer) (c : SendContext) :
    (sendBuffer config s c).log = s.log ++ sentEvents config s c := by
  rw [sendBuffer, sentEvents]
  by_cases hsends : s.Sends config c.now
  · rw [if_pos hsends, if_pos hsends]
    dsimp only
    split <;> rfl
  · rw [if_neg hsends, if_neg hsends, List.append_nil]

theorem Conserved.sendBuffer {s : ActiveBuffer} (h : Conserved config s) (c : SendContext) :
    Conserved config (sendBuffer config s c) ∧ (Zabbix.sendBuffer config s c).handed = s.handed := by
  have hlog := @sendBuffer_log config s c
  have hfull : ∀ el count, .eviction el count ∈ (Zabbix.sendBuffer config s c).log → count = config.bufferSize := by
    intro el count hmem
    rw [hlog] at hmem
    rcases List.mem_append.mp hmem with hmem | hmem
    · exact h.full el count hmem
    · rw [sentEvents] at hmem
      split at hmem
      · cases List.mem_singleton.mp hmem
      · cases hmem
  by_cases hsends : s.Sends config c.now
  · cases hret : c.outcome.ret with
    | true =>
        have heq : Zabbix.sendBuffer config s c =
            { s with
              log := s.log ++ [.transmission s.data (requestOps s.data c.clock) c.outcome]
              data := []
              lastsent := c.now } := by
          rw [Zabbix.sendBuffer, if_pos hsends, if_pos hret]
        refine ⟨⟨?_, hfull, ?_⟩, ?_⟩
        · simp [heq, h.accounted, BufferEvent.leaves, hret]
        · simp [heq]
        · rw [heq]
    | false =>
        have heq : Zabbix.sendBuffer config s c =
            { s with log := s.log ++ [.transmission s.data (requestOps s.data c.clock) c.outcome] } := by
          rw [Zabbix.sendBuffer, if_pos hsends, if_neg (by rw [hret]; decide)]
        refine ⟨⟨?_, hfull, ?_⟩, ?_⟩
        · simp [heq, h.accounted, BufferEvent.leaves, hret]
        · rw [heq]
          exact h.bounded
        · rw [heq]
  · have heq : Zabbix.sendBuffer config s c = s := if_neg hsends
    rw [heq]
    exact ⟨h, rfl⟩

/-- A value is put behind the others, when the oldest one has made room for it. -/
theorem Conserved.processValue {s : ActiveBuffer} (h : Conserved config s) (c : SendContext) (v : ProcessedValue)
    (clock : Int32) : Conserved config (processValue config s c v clock) := by
  obtain ⟨hsent, -⟩ := h.sendBuffer c
  rw [Zabbix.processValue]
  generalize Zabbix.sendBuffer config s c = s₁ at hsent
  dsimp only
  split
  · next hroom =>
      constructor
      · dsimp only
        rw [hsent.accounted, List.append_assoc]
      · exact hsent.full
      · rw [List.length_append, List.length_singleton]
        omega
  · next hfull =>
      have hlen : s₁.data.length = config.bufferSize := by
        have := hsent.bounded
        omega
      cases hdata : s₁.data with
      | nil =>
          rw [hdata, List.length_nil] at hlen
          exact absurd hlen.symm (Nat.pos_iff_ne_zero.mp config.pos)
      | cons first data =>
          rw [hdata] at hlen
          constructor
          · simp [hsent.accounted, hdata, BufferEvent.leaves]
          · intro el count hmem
            rcases List.mem_append.mp hmem with hmem | hmem
            · exact hsent.full el count hmem
            · cases List.mem_singleton.mp hmem
              exact hlen
          · rw [List.length_append, List.length_singleton]
            exact hlen.le

theorem Conserved.step {s : ActiveBuffer} (h : Conserved config s) (call : ActiveCall) :
    Conserved config (s.step config call) := by
  cases call with
  | send c => exact (h.sendBuffer c).1
  | process c v clock => exact h.processValue c v clock

/-! ## runs -/

/-- A call that is not answered without success. -/
def Confirmed (config : BufferConfig) (s : ActiveBuffer) (call : ActiveCall) : Prop :=
  s.Sends config call.context.now → call.context.outcome.ret → call.context.outcome.accepts

instance (s : ActiveBuffer) (call : ActiveCall) : Decidable (Confirmed config s call) :=
  inferInstanceAs (Decidable (_ → _))

/-- What a call puts on the log: its transmission, and what is pushed out. -/
theorem step_log (s : ActiveBuffer) (call : ActiveCall) :
    ∃ evicted, (s.step config call).log = s.log ++ sentEvents config s call.context ++ evicted ∧
      ∀ e ∈ evicted, e.settles = e.leaves := by
  cases call with
  | send c => exact ⟨[], by rw [ActiveBuffer.step, sendBuffer_log, List.append_nil]; rfl, fun _ h => nomatch h⟩
  | process c v clock =>
      rw [ActiveBuffer.step, processValue]
      have hlog := @sendBuffer_log config s c
      generalize sendBuffer config s c = s₁ at hlog
      dsimp only [ActiveCall.context]
      split
      · exact ⟨[], by rw [List.append_nil]; exact hlog, fun _ h => nomatch h⟩
      · split
        · exact ⟨[], by rw [List.append_nil]; exact hlog, fun _ h => nomatch h⟩
        · exact ⟨[.eviction _ _], by rw [hlog], fun e he => by rw [List.mem_singleton.mp he]; rfl⟩

/-- The transmission of a call settles what leaves with it exactly when the call
is confirmed. -/
theorem sentEvents_settled_iff (s : ActiveBuffer) (call : ActiveCall) :
    (∀ e ∈ sentEvents config s call.context, e.settles = e.leaves) ↔ Confirmed config s call := by
  rw [sentEvents, Confirmed]
  by_cases hsends : s.Sends config call.context.now
  · have hne : s.data ≠ [] := by
      intro hnil
      exact hsends.2 (by rw [hnil]; decide)
    rw [if_pos hsends]
    simp only [List.forall_mem_singleton, BufferEvent.settles, BufferEvent.leaves, hsends, forall_const]
    cases haccepts : call.context.outcome.accepts with
    | true => simp [TcpOutcome.ret_of_accepts haccepts]
    | false =>
        cases hret : call.context.outcome.ret with
        | true => simp [hne.symm]
        | false => simp
  · rw [if_neg hsends]
    simp [hsends]

/-- Along a run everything that leaves is settled exactly when every call is
confirmed. -/
theorem settled_run_iff (s : ActiveBuffer) (calls : List ActiveCall) :
    (∀ e ∈ (Run.run (ActiveBuffer.step config) s calls).log, e.settles = e.leaves) ↔
      (∀ e ∈ s.log, e.settles = e.leaves) ∧ Run.Along (ActiveBuffer.step config) (Confirmed config) s calls := by
  induction calls generalizing s with
  | nil => simp [Run.Along]
  | cons call calls ih =>
      obtain ⟨evicted, hlog, hevicted⟩ := @step_log config s call
      rw [Run.run_cons, ih, hlog, List.forall_mem_append, and_iff_left hevicted, List.forall_mem_append,
        sentEvents_settled_iff, Run.Along, and_assoc]

/-- Every value that has been handed over is, in order, in a transmission with a
response of success, or has been pushed out of a full buffer as the oldest one,
or is still in the buffer, which does not hold more than it may. -/
structure NothingLost (config : BufferConfig) (s : ActiveBuffer) : Prop where
  accounted : s.handed = s.log.flatMap BufferEvent.settles ++ s.data
  full : ∀ el count, .eviction el count ∈ s.log → count = config.bufferSize
  bounded : s.data.length ≤ config.bufferSize

/-- **The buffer loses nothing exactly when every transmission that is answered
is answered with success.** -/
theorem buffer_loses_nothing_iff (config : BufferConfig) (calls : List ActiveCall) :
    NothingLost config (Run.run (ActiveBuffer.step config) .initial calls) ↔
      Run.Along (ActiveBuffer.step config) (Confirmed config) .initial calls := by
  have hconserved : Conserved config (Run.run (ActiveBuffer.step config) .initial calls) :=
    Run.invariant_run' (fun _ call hs => hs.step call) conserved_initial calls
  have hsettled := @settled_run_iff config .initial calls
  rw [← flatMap_settles_eq_iff] at hsettled
  constructor
  · intro h
    have heq := h.accounted.symm.trans hconserved.accounted
    exact (hsettled.mp (List.append_cancel_right heq)).2
  · intro h
    have heq := hsettled.mpr ⟨(fun _ he => nomatch he), h⟩
    exact
      { accounted := by rw [heq]; exact hconserved.accounted
        full := hconserved.full
        bounded := hconserved.bounded }

/-! ## a response of failure -/

/-- A response of a server that does not accept the values. -/
def failedResponse : CString := literal "\x7b\"response\":\"failed\"\x7d"

/-- A value is handed over, and sent. -/
def refusedCalls : List ActiveCall :=
  [.process ⟨1000, 1000, .connect⟩ ⟨literal "host", literal "key", literal "1", none, none, none, none⟩ 1000,
    .send ⟨1010, 1010, .answer (some failedResponse)⟩]

/-- The response says that the request has failed, and the value is gone. -/
theorem buffer_loses_refused :
    ¬NothingLost ⟨100, 5, by decide⟩ (Run.run (ActiveBuffer.step ⟨100, 5, by decide⟩) .initial refusedCalls) := by
  intro h
  have hlost := h.accounted
  revert hlost
  decide +kernel

end Zabbix
