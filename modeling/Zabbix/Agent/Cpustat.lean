import Zabbix.Lib.Run
import Zabbix.Lib.Slots
import Mathlib.Algebra.BigOperators.Fin
import Mathlib.Data.Fintype.Basic
import Mathlib.Data.Rat.Defs
import Mathlib.Tactic

/-!
# Zabbix.Agent.Cpustat

The CPU load averages of the agent: `apply_cpustat` and `collect_cpustat` of
`zabbix_agent/cpustat.c`.

Every call puts its sample into a slot whose own sample is older than 900 seconds, and
there are 900 slots: with a sample every second the 901st finds no slot, since the first
is then exactly 900 seconds old.  That call computes its averages from zeros.  The
averages are right in every call of a run as long as there are no 901 samples at
consecutive seconds, and the counters together do not grow by 2^64 in 15 minutes
(`loads_reported_iff`).

A `double` is the number that it holds; quotients are not rounded.
-/

namespace Zabbix

/-! ## the record of a CPU -/

/-- What a CPU spends its time on. -/
inductive CpuState
  | user
  | system
  | nice
  | idle
  | interrupt
  | iowait
  | softirq
  | steal
deriving DecidableEq, Repr

instance : Fintype CpuState where
  elems := {.user, .system, .nice, .idle, .interrupt, .iowait, .softirq, .steal}
  complete type := by cases type <;> decide

/-- The counters of a CPU, each in ticks since the start of the machine. -/
abbrev CpuCounters := CpuState → UInt64

/-- The sum that the code calls `all`. -/
def CpuCounters.all (cpu : CpuCounters) : UInt64 :=
  cpu .user + cpu .system + cpu .nice + cpu .idle + cpu .interrupt + cpu .iowait + cpu .softirq + cpu .steal

/-- `ZBX_AVG1`, `ZBX_AVG5` and `ZBX_AVG15` -/
inductive CpuAverage
  | avg1
  | avg5
  | avg15
deriving DecidableEq, Repr

/-- The `t` of the macros. -/
def CpuAverage.minutes : CpuAverage → ℤ
  | avg1 => 1
  | avg5 => 5
  | avg15 => 15

/-- A sample: `clock[i]` with `h_user[i]` to `h_steal[i]`. -/
structure CpuSample where
  clock : ℤ
  counters : CpuCounters

/-- `MAX_CPU_HISTORY`: 15 min in seconds. -/
def maxCpuHistory : ℕ := 900

/-- `ZBX_SINGLE_CPU_STAT_DATA`: the slots, of which those with clock 0 are empty, and the
averages. -/
structure SingleCpuStat where
  history : List CpuSample
  history_length : history.length = maxCpuHistory
  load : CpuState → CpuAverage → ℚ

/-- What `memset` leaves in a slot. -/
def CpuSample.zero : CpuSample := ⟨0, fun _ => 0⟩

/-- The record as `init_collector_data` makes it. -/
def SingleCpuStat.init : SingleCpuStat :=
  ⟨List.replicate maxCpuHistory .zero, List.length_replicate, fun _ _ => 0⟩

/-! ## a sample -/

/-- `SAVE_CPU_CLOCK_FOR`, in the loop over the slots: `time ## t` with `user ## t` to
`steal ## t`. -/
def saveCpuClockFor (t : CpuAverage) (now : ℤ) (history : List CpuSample) : CpuSample :=
  history.foldl
    (fun best slot =>
      if (slot.clock ≠ 0 ∧ now - t.minutes * 60 ≤ slot.clock) ∧ slot.clock < best.clock then slot else best)
    ⟨now + 1, fun _ => 0⟩

/-- `CALC_CPU_LOAD`: the differences are unsigned. -/
def calcCpuLoad (type typeT all allT : UInt64) : ℚ :=
  if 0 < type - typeT ∧ 0 < all - allT then 100 * (type - typeT).toNat / (all - allT).toNat else 0

/-- `apply_cpustat`, on the record of the CPU.  When no slot is free, the local copies of the
counters stay zero. -/
def applyCpustat (cpu : SingleCpuStat) (sample : CpuSample) : SingleCpuStat :=
  let now := sample.clock
  let taken := Slots.reuse (fun slot => slot.clock < now - maxCpuHistory) sample cpu.history
  let history := taken.getD cpu.history
  let current : CpuCounters := if taken.isSome then sample.counters else fun _ => 0
  { history
    history_length := (Slots.length_reuse_getD _ _ _).trans cpu.history_length
    load := fun type t =>
      let saved := (saveCpuClockFor t now history).counters
      calcCpuLoad (current type) (saved type) current.all saved.all }

/-- `collect_cpustat`: a sample for every CPU whose counters can be read. -/
def collectCpustat (cpus : List SingleCpuStat) (getCpustat : ℕ → Option CpuSample) : List SingleCpuStat :=
  cpus.mapIdx fun cpuid cpu => (getCpustat cpuid).elim cpu (applyCpustat cpu)

/-- **Each CPU has its own run**: what other CPUs show does not matter to it. -/
theorem collectCpustat_run (cpus : List SingleCpuStat) (rounds : List (ℕ → Option CpuSample)) (cpuid : ℕ) :
    (Run.run collectCpustat cpus rounds)[cpuid]? =
      cpus[cpuid]?.map fun cpu => Run.run applyCpustat cpu (rounds.filterMap (· cpuid)) := by
  induction rounds generalizing cpus with
  | nil => simp
  | cons round rounds ih =>
      rw [Run.run_cons, ih, collectCpustat, List.getElem?_mapIdx, Option.map_map]
      congr 1
      funext cpu
      cases h : round cpuid <;> simp [h]

/-! ## what the averages are for -/

/-- The slots are kept for the longest window. -/
theorem CpuAverage.window_le (t : CpuAverage) : t.minutes * 60 ≤ maxCpuHistory := by
  cases t <;> decide

/-- The samples that the record retains. -/
def SingleCpuStat.retained (cpu : SingleCpuStat) : List CpuSample :=
  cpu.history.filter fun slot => slot.clock ≠ 0

/-- The time that the counters count together. -/
def CpuCounters.total (cpu : CpuCounters) : ℕ := ∑ type, (cpu type).toNat

/-- The share that a counter has in the growth of all of them, in percent; 0 when nothing
grew. -/
def share (old new : CpuCounters) (type : CpuState) : ℚ :=
  100 * ((new type).toNat - (old type).toNat) / (new.total - old.total)

/-- The oldest of some samples that is not older than a window. -/
def Oldest (samples : List CpuSample) (start : ℤ) (oldest : CpuSample) : Prop :=
  oldest ∈ samples ∧ start ≤ oldest.clock ∧ ∀ y ∈ samples, start ≤ y.clock → oldest.clock ≤ y.clock

/-- The record after a sample holds it, and every average is the share since the oldest
sample of the window. -/
structure SingleCpuStat.Reports (cpu : SingleCpuStat) (sample : CpuSample) : Prop where
  stored : sample ∈ cpu.retained
  shares : ∀ type t, ∃ oldest, Oldest cpu.retained (sample.clock - t.minutes * 60) oldest ∧
    cpu.load type t = share oldest.counters sample.counters type
  bounds : ∀ type t, 0 ≤ cpu.load type t ∧ cpu.load type t ≤ 100

/-- Samples at strictly increasing seconds, with counters that do not decrease. -/
def Advancing (samples : List CpuSample) : Prop :=
  samples.Pairwise fun old new => old.clock < new.clock ∧ ∀ type, old.counters type ≤ new.counters type

/-- Samples at 901 consecutive seconds. -/
def Unbroken (samples : List CpuSample) : Prop :=
  ∃ start : ℤ, ∀ k : ℕ, k ≤ maxCpuHistory → start + k ∈ samples.map CpuSample.clock

/-! ## one average -/

theorem toNat_all (cpu : CpuCounters) : cpu.all.toNat = cpu.total % 2 ^ 64 := by
  have htotal : cpu.total = (cpu .user).toNat + (cpu .system).toNat + (cpu .nice).toNat + (cpu .idle).toNat +
      (cpu .interrupt).toNat + (cpu .iowait).toNat + (cpu .softirq).toNat + (cpu .steal).toNat := by
    simp [CpuCounters.total, Finset.univ, Fintype.elems]
    omega
  rw [htotal, CpuCounters.all]
  simp only [UInt64.toNat_add]
  omega

/-- A quotient by 0 is 0, so the condition of the macro makes no difference. -/
theorem calcCpuLoad_eq (type typeT all allT : UInt64) :
    calcCpuLoad type typeT all allT = 100 * (type - typeT).toNat / (all - allT).toNat := by
  rw [calcCpuLoad]
  split
  · rfl
  · next h =>
      rw [not_and_or] at h
      simp only [UInt64.lt_iff_toNat_lt, UInt64.toNat_zero, Nat.pos_iff_ne_zero, not_not] at h
      rcases h with h | h <;> rw [h] <;> simp

variable {old new : CpuCounters}

theorem total_le (h : ∀ type, old type ≤ new type) : old.total ≤ new.total :=
  Finset.sum_le_sum fun type _ => UInt64.le_iff_toNat_le.mp (h type)

/-- The code divides by the growth modulo 2^64. -/
theorem calcCpuLoad_growth (h : ∀ type, old type ≤ new type) (type : CpuState) :
    calcCpuLoad (new type) (old type) new.all old.all =
      100 * ((new type).toNat - (old type).toNat) / ((new.total - old.total) % 2 ^ 64 : ℕ) := by
  have hall : (new.all - old.all).toNat = (new.total - old.total) % 2 ^ 64 := by
    have := total_le h
    rw [UInt64.toNat_sub, toNat_all, toNat_all]
    omega
  rw [calcCpuLoad_eq, hall, UInt64.toNat_sub_of_le _ _ (h type), Nat.cast_sub (UInt64.le_iff_toNat_le.mp (h type))]

/-- One counter grows by no more than all of them. -/
theorem growth_le_total (h : ∀ type, old type ≤ new type) (type : CpuState) :
    ((new type).toNat : ℚ) - (old type).toNat ≤ new.total - old.total := by
  have hsum : (new.total : ℚ) - old.total = ∑ type, ((new type).toNat - (old type).toNat : ℚ) := by
    rw [CpuCounters.total, CpuCounters.total, Nat.cast_sum, Nat.cast_sum, Finset.sum_sub_distrib]
  rw [hsum]
  refine Finset.single_le_sum (f := fun type => ((new type).toNat - (old type).toNat : ℚ)) ?_ (Finset.mem_univ type)
  intro type' _
  have := UInt64.le_iff_toNat_le.mp (h type')
  exact sub_nonneg.mpr (by exact_mod_cast this)

theorem share_bounds (h : ∀ type, old type ≤ new type) (type : CpuState) :
    0 ≤ share old new type ∧ share old new type ≤ 100 := by
  have hle := growth_le_total h type
  have hnonneg : (0 : ℚ) ≤ (new type).toNat - (old type).toNat :=
    sub_nonneg.mpr (by exact_mod_cast UInt64.le_iff_toNat_le.mp (h type))
  constructor
  · exact div_nonneg (by linarith) (by linarith)
  · exact div_le_of_le_mul₀ (by linarith) (by norm_num) (by linarith)

/-- **The averages are the shares** when the counters have together grown by less than
2^64, and otherwise one of them is not. -/
theorem calcCpuLoad_share_iff (h : ∀ type, old type ≤ new type) :
    (∀ type, calcCpuLoad (new type) (old type) new.all old.all = share old new type) ↔
      new.total < old.total + 2 ^ 64 := by
  have hle := total_le h
  constructor
  · intro hshare
    by_contra hge
    obtain ⟨type, -, hgrown⟩ : ∃ type ∈ Finset.univ, (old type).toNat < (new type).toNat := by
      refine Finset.exists_lt_of_sum_lt ?_
      change old.total < new.total
      omega
    have heq := hshare type
    have hne : (100 * ((new type).toNat - (old type).toNat) : ℚ) ≠ 0 := by
      have : ((old type).toNat : ℚ) < (new type).toNat := by exact_mod_cast hgrown
      exact mul_ne_zero (by norm_num) (sub_pos.mpr this).ne'
    rw [calcCpuLoad_growth h, share, div_eq_mul_inv, div_eq_mul_inv, mul_right_inj' hne, inv_inj,
      ← Nat.cast_sub hle, Nat.cast_inj] at heq
    omega
  · intro hlt type
    rw [calcCpuLoad_growth h, share, Nat.mod_eq_of_lt (by omega), Nat.cast_sub hle]

/-! ## one call -/

section Call

variable {past : List CpuSample} {cpu : SingleCpuStat} {sample : CpuSample}

/-- The slots hold what is recent of the past. -/
abbrev SingleCpuStat.Holds (cpu : SingleCpuStat) (past : List CpuSample) : Prop :=
  Slots.Retained CpuSample.clock maxCpuHistory .zero past cpu.history

theorem advancing_append :
    Advancing (past ++ [sample]) ↔ Advancing past ∧
      ∀ old ∈ past, old.clock < sample.clock ∧ ∀ type, old.counters type ≤ sample.counters type := by
  simp [Advancing, List.pairwise_append]

theorem Advancing.clocks (h : Advancing past) : past.Pairwise fun old new => old.clock < new.clock :=
  h.imp And.left

theorem Advancing.eq_of_clock (h : Advancing past) {x y : CpuSample} (hx : x ∈ past) (hy : y ∈ past)
    (hclock : x.clock = y.clock) : x = y := by
  have hnodup : (past.map CpuSample.clock).Nodup :=
    (List.pairwise_map.mpr h.clocks).imp fun hlt => ne_of_lt hlt
  exact List.inj_on_of_nodup_map hnodup hx hy hclock

theorem SingleCpuStat.Holds.mem_retained (h : cpu.Holds past) {x : CpuSample} (hx : x ∈ cpu.retained) :
    x ∈ past := by
  obtain ⟨hx, hclock⟩ := List.mem_filter.mp hx
  rcases h.held x hx with rfl | hpast
  · simp [CpuSample.zero] at hclock
  · exact hpast

/-- The search finds the oldest sample of the window. -/
theorem oldest_saveCpuClockFor (hmem : sample ∈ cpu.retained) (t : CpuAverage) :
    Oldest cpu.retained (sample.clock - t.minutes * 60) (saveCpuClockFor t sample.clock cpu.history) := by
  obtain ⟨hx, hclock⟩ := List.mem_filter.mp hmem
  have hwindow : sample.clock - t.minutes * 60 ≤ sample.clock := by
    cases t <;> simp [CpuAverage.minutes]
  obtain ⟨hfound, ⟨hused, hle⟩, hleast⟩ := @Slots.foldl_least_mem _ CpuSample.clock
    (fun slot => slot.clock ≠ 0 ∧ sample.clock - t.minutes * 60 ≤ slot.clock) _ cpu.history
    ⟨sample.clock + 1, fun _ => 0⟩ sample hx ⟨of_decide_eq_true hclock, hwindow⟩ (lt_add_one sample.clock)
  refine ⟨List.mem_filter.mpr ⟨hfound, decide_eq_true hused⟩, hle, ?_⟩
  intro y hy hwithin
  obtain ⟨hy, hyclock⟩ := List.mem_filter.mp hy
  exact hleast y hy ⟨of_decide_eq_true hyclock, hwithin⟩

/-- There is one oldest sample. -/
theorem Oldest.unique (hadv : Advancing past) {samples : List CpuSample} (hsub : ∀ y ∈ samples, y ∈ past)
    {start : ℤ} {x y : CpuSample} (hx : Oldest samples start x) (hy : Oldest samples start y) : x = y :=
  hadv.eq_of_clock (hsub x hx.1) (hsub y hy.1)
    (le_antisymm (hx.2.2 y hy.1 hy.2.1) (hy.2.2 x hx.1 hx.2.1))

/-- A sample finds a slot: its second is late enough for the slots that are still zero, and the
last 900 seconds hold fewer than 900 samples. -/
def Room (past : List CpuSample) (sample : CpuSample) : Prop :=
  maxCpuHistory < sample.clock ∧
    (past.filter fun y => sample.clock - maxCpuHistory ≤ y.clock).length < maxCpuHistory

/-- The counters have not together grown by 2^64 since a sample of the last 900 seconds. -/
def Bounded (past : List CpuSample) (sample : CpuSample) : Prop :=
  ∀ y ∈ past, sample.clock - maxCpuHistory ≤ y.clock → sample.counters.total < y.counters.total + 2 ^ 64

/-- There is room when a slot is free. -/
theorem SingleCpuStat.Holds.room_iff (h : cpu.Holds past) (hadv : Advancing (past ++ [sample])) :
    Room past sample ↔ ∃ y ∈ cpu.history, y.clock < sample.clock - maxCpuHistory := by
  obtain ⟨hpast, hlast⟩ := advancing_append.mp hadv
  have hlater : ∀ y ∈ past, y.clock < sample.clock := fun y hy => (hlast y hy).1
  rw [h.exists_stale (by simp) hpast.clocks hlater, cpu.history_length, Room]
  simp [CpuSample.zero]

/-- **A sample is stored when there is room for it.** -/
theorem SingleCpuStat.Holds.stored_iff (h : cpu.Holds past) (hadv : Advancing (past ++ [sample])) :
    sample ∈ (applyCpustat cpu sample).retained ↔ Room past sample := by
  obtain ⟨hpast, hlast⟩ := advancing_append.mp hadv
  have hlater : ∀ y ∈ past, y.clock < sample.clock := fun y hy => (hlast y hy).1
  have hroom := h.room_iff hadv
  cases hreuse : Slots.reuse (fun slot : CpuSample => slot.clock < sample.clock - maxCpuHistory) sample cpu.history with
  | none =>
      refine iff_of_false ?_ ?_
      · intro hmem
        have hold : sample ∈ cpu.retained := by
          simpa [applyCpustat, SingleCpuStat.retained, hreuse] using hmem
        exact lt_irrefl _ (hlater sample (h.mem_retained hold))
      · rw [hroom]
        rintro ⟨y, hy, hlt⟩
        have := Slots.reuse_eq_none.mp hreuse y hy
        simp [hlt] at this
  | some history =>
      obtain ⟨before, y, after, hsplit, hy, hhistory⟩ := Slots.reuse_eq_some hreuse
      have hr : Room past sample := hroom.mpr ⟨y, by simp [hsplit], of_decide_eq_true hy⟩
      refine iff_of_true (List.mem_filter.mpr ⟨?_, decide_eq_true ?_⟩) hr
      · simp [applyCpustat, hreuse, hhistory]
      · have := hr.1
        omega

/-- A call that finds a slot. -/
theorem SingleCpuStat.Holds.apply (h : cpu.Holds past) (hadv : Advancing (past ++ [sample]))
    (hroom : Room past sample) :
    (applyCpustat cpu sample).Holds (past ++ [sample]) ∧
      ∀ type t, (applyCpustat cpu sample).load type t =
        let saved := (saveCpuClockFor t sample.clock (applyCpustat cpu sample).history).counters
        calcCpuLoad (sample.counters type) (saved type) sample.counters.all saved.all := by
  obtain ⟨y, hy, hlt⟩ := (h.room_iff hadv).mp hroom
  cases hreuse : Slots.reuse (fun slot : CpuSample => slot.clock < sample.clock - maxCpuHistory) sample cpu.history with
  | none =>
      have := Slots.reuse_eq_none.mp hreuse y hy
      simp [hlt] at this
  | some history =>
      have hhistory : (applyCpustat cpu sample).history = history := by
        simp [applyCpustat, hreuse]
      refine ⟨?_, fun type t => ?_⟩
      · rw [SingleCpuStat.Holds, hhistory]
        exact (h.reuse (by simp) (fun y hy => ((advancing_append.mp hadv).2 y hy).1) hreuse).1
      · rw [hhistory]
        simp [applyCpustat, hreuse]

/-- Later samples have counted more. -/
theorem Advancing.counters_le (h : Advancing past) {x y : CpuSample} (hx : x ∈ past) (hy : y ∈ past)
    (hclock : x.clock ≤ y.clock) (type : CpuState) : x.counters type ≤ y.counters type := by
  obtain ⟨i, hi, rfl⟩ := List.mem_iff_getElem.mp hx
  obtain ⟨j, hj, rfl⟩ := List.mem_iff_getElem.mp hy
  rcases lt_trichotomy i j with hij | rfl | hji
  · exact (List.pairwise_iff_getElem.mp h i j hi hj hij).2 type
  · exact UInt64.le_refl _
  · have := (List.pairwise_iff_getElem.mp h j i hj hi hji).1
    omega

/-- A sample is the last of those up to it. -/
theorem Advancing.clock_le_last (h : Advancing (past ++ [sample])) {x : CpuSample} (hx : x ∈ past ++ [sample]) :
    x.clock ≤ sample.clock := by
  rcases List.mem_append.mp hx with hx | hx
  · exact (((advancing_append.mp h).2 x hx).1).le
  · rw [List.mem_singleton.mp hx]

/-- **When a call reports what it should**: there is room, and the counters have not grown
by 2^64. -/
theorem SingleCpuStat.Holds.reports_iff (h : cpu.Holds past) (hadv : Advancing (past ++ [sample])) :
    (applyCpustat cpu sample).Reports sample ↔ Room past sample ∧ Bounded past sample := by
  have hsample : sample ∈ past ++ [sample] := by simp
  constructor
  · intro hrep
    have hroom := (h.stored_iff hadv).mp hrep.stored
    obtain ⟨hholds, hload⟩ := h.apply hadv hroom
    refine ⟨hroom, fun y hy hrecent => ?_⟩
    have hsaved := oldest_saveCpuClockFor hrep.stored .avg15
    set saved := saveCpuClockFor .avg15 sample.clock (applyCpustat cpu sample).history with hdef
    have hmem := hholds.mem_retained hsaved.1
    have hshares : ∀ type, calcCpuLoad (sample.counters type) (saved.counters type) sample.counters.all
        saved.counters.all = share saved.counters sample.counters type := by
      intro type
      obtain ⟨oldest, holdest, heq⟩ := hrep.shares type .avg15
      rw [holdest.unique hadv (fun y hy => hholds.mem_retained hy) hsaved, hload type .avg15] at heq
      exact heq
    have hgrown := (calcCpuLoad_share_iff (hadv.counters_le hmem hsample (hadv.clock_le_last hmem))).mp hshares
    have hkept : y ∈ (applyCpustat cpu sample).retained := by
      refine List.mem_filter.mpr ⟨hholds.recent y (by simp [hy]) ?_, decide_eq_true ?_⟩
      · intro x hx
        have := hadv.clock_le_last hx
        omega
      · have := hroom.1
        omega
    have hle := total_le (hadv.counters_le hmem (by simp [hy]) (hsaved.2.2 y hkept hrecent))
    omega
  · rintro ⟨hroom, hbounded⟩
    have hstored := (h.stored_iff hadv).mpr hroom
    obtain ⟨hholds, hload⟩ := h.apply hadv hroom
    have hshare : ∀ type t, ∃ oldest,
        Oldest (applyCpustat cpu sample).retained (sample.clock - t.minutes * 60) oldest ∧
        (applyCpustat cpu sample).load type t = share oldest.counters sample.counters type ∧
        ∀ type, oldest.counters type ≤ sample.counters type := by
      intro type t
      have hsaved := oldest_saveCpuClockFor hstored t
      set saved := saveCpuClockFor t sample.clock (applyCpustat cpu sample).history with hdef
      have hmem := hholds.mem_retained hsaved.1
      have hle := hadv.counters_le hmem hsample (hadv.clock_le_last hmem)
      have hgrown : sample.counters.total < saved.counters.total + 2 ^ 64 := by
        rcases List.mem_append.mp hmem with hm | hm
        · have := t.window_le
          have := hsaved.2.1
          exact hbounded saved hm (by omega)
        · rw [List.mem_singleton.mp hm]
          omega
      exact ⟨saved, hsaved, (hload type t).trans ((calcCpuLoad_share_iff hle).mpr hgrown type), hle⟩
    refine ⟨hstored, fun type t => ?_, fun type t => ?_⟩
    · obtain ⟨oldest, holdest, heq, -⟩ := hshare type t
      exact ⟨oldest, holdest, heq⟩
    · obtain ⟨oldest, -, heq, hle⟩ := hshare type t
      rw [heq]
      exact share_bounds hle type

end Call

/-! ## a run of samples -/

variable {samples past : List CpuSample} {cpu : SingleCpuStat}

/-- A call is right, call after call, as long as there is room and the counters are bounded. -/
theorem SingleCpuStat.Holds.along_iff (h : cpu.Holds past) (hadv : Advancing (past ++ samples)) :
    Run.Along applyCpustat (fun cpu sample => (applyCpustat cpu sample).Reports sample) cpu samples ↔
      Run.Along (fun past sample => past ++ [sample]) (fun past sample => Room past sample ∧ Bounded past sample)
        past samples := by
  induction samples generalizing cpu past with
  | nil => exact Iff.rfl
  | cons sample samples ih =>
      have hfirst : Advancing (past ++ [sample]) :=
        hadv.sublist (List.append_cons past sample samples ▸ List.sublist_append_left _ _)
      rw [Run.Along, Run.Along, h.reports_iff hfirst]
      refine and_congr_right fun hroom => ih (h.apply hfirst hroom.1).1 ?_
      rwa [← List.append_cons]

/-- The past of a run is its samples. -/
theorem run_append_singleton (before : List CpuSample) :
    Run.run (fun past sample => past ++ [sample]) past before = past ++ before := by
  induction before generalizing past with
  | nil => simp
  | cons sample before ih => rw [Run.run_cons, ih, ← List.append_cons]

section Places

variable {before after : List CpuSample} {sample : CpuSample}

theorem Advancing.lt_of_mem_before (h : Advancing (before ++ sample :: after)) {y : CpuSample} (hy : y ∈ before) :
    y.clock < sample.clock :=
  ((List.pairwise_append.mp h).2.2 y hy sample (by simp)).1

/-- What is earlier than a sample stands before it. -/
theorem Advancing.mem_before (h : Advancing (before ++ sample :: after)) {y : CpuSample}
    (hy : y ∈ before ++ sample :: after) (hlt : y.clock < sample.clock) : y ∈ before := by
  rcases List.mem_append.mp hy with hy | hy
  · exact hy
  · rcases List.mem_cons.mp hy with rfl | hy
    · omega
    · have := ((List.pairwise_cons.mp (List.pairwise_append.mp h).2.1).1 y hy).1
      omega

/-- A sample finds no slot when it is the last of 901 at consecutive seconds. -/
theorem Advancing.room_iff (h : Advancing (before ++ sample :: after)) :
    Room before sample ↔ maxCpuHistory < sample.clock ∧
      ¬∀ k : ℕ, k < maxCpuHistory → sample.clock - maxCpuHistory + k ∈ before.map CpuSample.clock := by
  have hbefore : before.Pairwise fun old new => old.clock < new.clock :=
    (List.pairwise_append.mp h).1.imp And.left
  rw [Room, Slots.length_filter_lt hbefore]
  intro y hy
  have := h.lt_of_mem_before hy
  omega

end Places

/-- **There is room for every sample unless 901 of them are at consecutive seconds.** -/
theorem forall_room_iff (hadv : Advancing samples) :
    (∀ before sample after, samples = before ++ sample :: after → Room before sample) ↔
      (∀ sample ∈ samples, maxCpuHistory < sample.clock) ∧ ¬Unbroken samples := by
  constructor
  · intro h
    refine ⟨?_, ?_⟩
    · intro sample hsample
      obtain ⟨before, after, rfl⟩ := List.append_of_mem hsample
      exact (h before sample after rfl).1
    · rintro ⟨start, hstart⟩
      obtain ⟨sample, hsample, hclock⟩ := List.mem_map.mp (hstart maxCpuHistory le_rfl)
      obtain ⟨before, after, rfl⟩ := List.append_of_mem hsample
      refine (hadv.room_iff.mp (h before sample after rfl)).2 fun k hk => ?_
      obtain ⟨y, hy, hyclock⟩ := List.mem_map.mp (hstart k hk.le)
      exact List.mem_map.mpr ⟨y, hadv.mem_before hy (by omega), by omega⟩
  · rintro ⟨hlate, hbroken⟩ before sample after rfl
    refine hadv.room_iff.mpr ⟨hlate sample (by simp), fun hall => hbroken ?_⟩
    refine ⟨sample.clock - maxCpuHistory, fun k hk => ?_⟩
    rcases Nat.lt_or_eq_of_le hk with hk | rfl
    · obtain ⟨y, hy, hclock⟩ := List.mem_map.mp (hall k hk)
      exact List.mem_map.mpr ⟨y, by simp [hy], hclock⟩
    · exact List.mem_map.mpr ⟨sample, by simp, by omega⟩

theorem forall_bounded_iff (hadv : Advancing samples) :
    (∀ before sample after, samples = before ++ sample :: after → Bounded before sample) ↔
      ∀ old ∈ samples, ∀ new ∈ samples, old.clock ≤ new.clock → new.clock ≤ old.clock + maxCpuHistory →
        new.counters.total < old.counters.total + 2 ^ 64 := by
  constructor
  · intro h old hold new hnew hle hwithin
    rcases hle.lt_or_eq with hlt | heq
    · obtain ⟨before, after, rfl⟩ := List.append_of_mem hnew
      exact h before new after rfl old (hadv.mem_before hold hlt) (by omega)
    · rw [hadv.eq_of_clock hold hnew heq]
      omega
  · rintro h before sample after rfl y hy hrecent
    have := hadv.lt_of_mem_before hy
    exact h y (by simp [hy]) sample (by simp) (by omega) (by omega)

theorem holds_init : SingleCpuStat.init.Holds [] := Slots.Retained.init _ _ _ _

theorem along_reports_iff (hadv : Advancing samples) :
    Run.Along applyCpustat (fun cpu sample => (applyCpustat cpu sample).Reports sample) .init samples ↔
      (∀ before sample after, samples = before ++ sample :: after → Room before sample) ∧
        ∀ before sample after, samples = before ++ sample :: after → Bounded before sample := by
  rw [holds_init.along_iff (by simpa using hadv), Run.along_iff]
  simp only [run_append_singleton, List.nil_append]
  constructor
  · intro h
    exact ⟨fun before sample after hs => (h before sample after hs).1,
      fun before sample after hs => (h before sample after hs).2⟩
  · rintro ⟨hroom, hbounded⟩ before sample after hs
    exact ⟨hroom before sample after hs, hbounded before sample after hs⟩

/-- 901 samples at consecutive seconds are too many. -/
theorem not_reports_of_unbroken (hadv : Advancing samples) (h : Unbroken samples) :
    ¬Run.Along applyCpustat (fun cpu sample => (applyCpustat cpu sample).Reports sample) .init samples := by
  rw [along_reports_iff hadv, forall_room_iff hadv]
  rintro ⟨⟨-, hbroken⟩, -⟩
  exact hbroken h

/-- **The averages of a run**: every call stores its sample and reports the shares, if and
only if the run is late enough for the slots that are zero at first, has no 901 samples at
consecutive seconds, and counts less than 2^64 in every 15 minutes. -/
theorem loads_reported_iff (hadv : Advancing samples) :
    Run.Along applyCpustat (fun cpu sample => (applyCpustat cpu sample).Reports sample) .init samples ↔
      (∀ sample ∈ samples, maxCpuHistory < sample.clock) ∧ ¬Unbroken samples ∧
        ∀ old ∈ samples, ∀ new ∈ samples, old.clock ≤ new.clock → new.clock ≤ old.clock + maxCpuHistory →
          new.counters.total < old.counters.total + 2 ^ 64 := by
  rw [along_reports_iff hadv, forall_room_iff hadv, forall_bounded_iff hadv, and_assoc]

/-- Two samples at a minute's distance. -/
theorem loads_reported_minute :
    Run.Along applyCpustat (fun cpu sample => (applyCpustat cpu sample).Reports sample) .init
      [⟨1000, fun _ => 5⟩, ⟨1060, fun _ => 7⟩] := by
  refine (loads_reported_iff ?_).mpr ⟨?_, ?_, ?_⟩
  · simp only [Advancing, List.pairwise_pair]
    exact ⟨by decide, fun _ => by decide⟩
  · simp [maxCpuHistory]
  · rintro ⟨start, hstart⟩
    have h0 := hstart 0 (by decide)
    have h1 := hstart 1 (by decide)
    simp at h0 h1
    omega
  · simp [CpuCounters.total, Finset.univ, Fintype.elems]

/-- A sample every second, for 15 minutes and a second. -/
def everySecond : List CpuSample :=
  (List.range (maxCpuHistory + 1)).map fun i : ℕ => ⟨1000 + i, fun _ => UInt64.ofNat i⟩

theorem advancing_everySecond : Advancing everySecond := by
  rw [Advancing, everySecond, List.pairwise_map]
  refine List.pairwise_lt_range.imp_of_mem fun {i j} hi hj hlt => ⟨by simpa using hlt, fun type => ?_⟩
  rw [List.mem_range, maxCpuHistory] at hi hj
  rw [UInt64.le_iff_toNat_le, UInt64.toNat_ofNat', UInt64.toNat_ofNat']
  omega

theorem unbroken_everySecond : Unbroken everySecond := by
  rw [Unbroken]
  refine ⟨1000, fun k hk => List.mem_map.mpr ⟨⟨1000 + k, fun _ => UInt64.ofNat k⟩, ?_, rfl⟩⟩
  rw [everySecond, List.mem_map]
  exact ⟨k, List.mem_range.mpr (by omega), rfl⟩

/-- **The last of these samples finds no slot.** -/
theorem not_loads_reported :
    Advancing everySecond ∧ ¬Run.Along applyCpustat
      (fun cpu sample => (applyCpustat cpu sample).Reports sample) .init everySecond :=
  ⟨advancing_everySecond, not_reports_of_unbroken advancing_everySecond unbroken_everySecond⟩

end Zabbix
