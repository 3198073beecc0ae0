import Zabbix.DbCache.TrendFull
import Zabbix.DbCache.TrendRun

/-!
# Zabbix.DbCache.TrendBounds

How far the average of an unsigned trend is from the mean.

Values come through the cache or go into the table directly.  Each time the
average is rounded down, so that it falls behind the mean by less than the number
of values, as long as no sum overflows and no row is read that does not fit
(`uint64_trends_bounded`).
-/

namespace Zabbix

open Summary

/-! ## events -/

/-- `DCadd_trend`, in a batch of its own; `DCsync_trends`; `DBadd_trend` or
`DBadd_trend_uint`. -/
inductive TrendEvent
  | dcAdd (s : TrendSample)
  | dcSync
  | dbAdd (s : TrendSample)

/-- One event; `none` when the cache is full. -/
def TrendState.event (w : TrendState) : TrendEvent → Option TrendState
  | .dcAdd s =>
      (dcAddTrend w.db w.trends s).map fun r => { trends := r.1, db := executeTrends w.db r.2 }
  | .dcSync => some (dcSyncTrends w)
  | .dbAdd s => some { w with db := dbAddTrend w.db s }

/-- A run of events. -/
def trendEvents : TrendState → List TrendEvent → Option TrendState
  | w, [] => some w
  | w, e :: es => (w.event e).bind fun w => trendEvents w es

/-- The value that an event brings. -/
def TrendValues.recordEvent (vals : TrendValues) : TrendEvent → TrendValues
  | .dcAdd s => vals.record s
  | .dcSync => vals
  | .dbAdd s => vals.record s

/-- The values that a run brings to each row. -/
def eventValues (es : List TrendEvent) : TrendValues := es.foldl TrendValues.recordEvent fun _ => []

/-- No sum of the event overflows, and what it reads is readable. -/
def SafeEvent (db₀ : TrendDb) (w : TrendState) : TrendEvent → Prop
  | .dcAdd s => ∀ t ∈ w.trends, t.itemid = s.itemid → SafeAdd True db₀ w.db t s
  | .dcSync => ∀ t ∈ w.trends, SafeFlush True db₀ w.db t
  | .dbAdd s => SafeDbAdd True db₀ w.db s

instance (db₀ : TrendDb) (w : TrendState) : (e : TrendEvent) → Decidable (SafeEvent db₀ w e)
  | .dcAdd s => inferInstanceAs (Decidable (∀ t ∈ w.trends, t.itemid = s.itemid → SafeAdd True db₀ w.db t s))
  | .dcSync => inferInstanceAs (Decidable (∀ t ∈ w.trends, SafeFlush True db₀ w.db t))
  | .dbAdd s => inferInstanceAs (Decidable (SafeDbAdd True db₀ w.db s))

/-- All events of a run are safe, each in the state that it is met in. -/
def SafeEvents (db₀ : TrendDb) : TrendState → List TrendEvent → Prop
  | _, [] => True
  | w, e :: es => SafeEvent db₀ w e ∧ ∀ w', w.event e = some w' → SafeEvents db₀ w' es

instance decidableSafeEvents (db₀ : TrendDb) : (w : TrendState) → (es : List TrendEvent) → Decidable (SafeEvents db₀ w es)
  | _, [] => isTrue trivial
  | w, e :: es =>
      have : ∀ w', Decidable (SafeEvents db₀ w' es) := fun w' => decidableSafeEvents db₀ w' es
      decidable_of_iff (SafeEvent db₀ w e ∧ ∀ w' ∈ w.event e, SafeEvents db₀ w' es) Iff.rfl

/-! ## one event -/

/-- A value that goes into the table, past the cache. -/
theorem TrendInv.dbAdd {bounded : Prop} {db₀ db : TrendDb} {vals : TrendValues} {trends : List ZbxDcTrend}
    (h : TrendInv bounded db₀ vals trends db) {s : TrendSample} (hsafe : SafeDbAdd bounded db₀ db s) :
    TrendInv bounded db₀ (vals.record s) trends (dbAddTrend db s) where
  sorted := h.sorted
  num_pos := h.num_pos
  cached := by
    intro t ht ht0
    by_cases hkey : t.key = s.key
    · obtain ⟨row, rfl⟩ := eq_heldTrend hkey
      obtain ⟨stored, held, hvals, hstored, hheld⟩ :
          ∃ stored held : List s.valueType.Val,
            (vals s.key).Perm (stored ++ held) ∧ RowOf bounded (db s.key) stored ∧ Describes bounded row held :=
        h.cached _ ht ht0
      refine ⟨stored ++ [s.value], held, ?_, rowOf_dbAddTrend hstored ht0 hsafe, hheld⟩
      change (vals.record s s.key).Perm (stored ++ [s.value] ++ held)
      rw [TrendValues.record, Function.update_self, List.append_assoc]
      have hswap : (stored ++ held ++ [s.value]).Perm (stored ++ ([s.value] ++ held)) := by
        rw [List.append_assoc]
        exact List.perm_append_comm.append_left stored
      exact (hvals.append_right _).trans hswap
    · rw [TrendValues.record, Function.update_of_ne hkey, dbAddTrend_of_ne hkey]
      exact h.cached t ht ht0
  absent := by
    intro k hk hnone
    by_cases hkey : k = s.key
    · subst hkey
      rw [TrendValues.record, Function.update_self]
      exact rowOf_dbAddTrend (h.absent _ hk hnone) hk hsafe
    · rw [TrendValues.record, Function.update_of_ne hkey, dbAddTrend_of_ne hkey]
      exact h.absent k hk hnone

/-- `DCadd_trend` of a full cache. -/
theorem dcAddTrend_eq_none {db : TrendDb} {trends : List ZbxDcTrend} {s : TrendSample}
    (hno : ∀ x ∈ trends, x.itemid ≠ s.itemid) (hfull : trends.length = zbxTrendSize) :
    dcAddTrend db trends s = none := by
  rw [dcAddTrend, dcGetTrend_full hfull hno]
  rfl

/-- What is known after some events. -/
structure EventInv (db₀ : TrendDb) (vals : TrendValues) (w : TrendState) : Prop where
  inv : TrendInv True db₀ vals w.trends w.db
  size : (trendItems w.trends).card ≤ zbxTrendSize

/-- **One event.** -/
theorem EventInv.event {db₀ : TrendDb} {vals : TrendValues} {w w' : TrendState} (h : EventInv db₀ vals w)
    {e : TrendEvent} (hsafe : SafeEvent db₀ w e) (he : w.event e = some w') :
    EventInv db₀ (vals.recordEvent e) w' := by
  cases e with
  | dcAdd s =>
      by_cases hroom : (insert s.itemid (trendItems w.trends)).card ≤ zbxTrendSize
      · obtain ⟨r, db', hadd, hr⟩ := dcAddTrend_spec h.inv s (fun _ _ => rfl) hsafe hroom
        rw [TrendState.event, hadd, Option.map_some, executeTrends_of_executeAll hr.execute] at he
        obtain rfl := Option.some.inj he
        exact ⟨hr.inv, hr.items ▸ hroom⟩
      · have hnot : s.itemid ∉ trendItems w.trends := fun hmem => hroom (by rw [Finset.insert_eq_of_mem hmem]; exact h.size)
        rw [Finset.card_insert_of_notMem hnot] at hroom
        have hfull : w.trends.length = zbxTrendSize := by
          rw [← card_trendItems h.inv.sorted]
          have := h.size
          omega
        have hnone := @dcAddTrend_eq_none w.db _ s (fun x hx hitem => hnot (mem_trendItems.mpr ⟨x, hx, hitem⟩)) hfull
        rw [TrendState.event, hnone] at he
        cases he
  | dcSync =>
      obtain rfl := Option.some.inj he
      obtain ⟨htrends, hinv⟩ := dcSyncTrends_spec h.inv hsafe
      refine ⟨?_, ?_⟩
      · rw [htrends]
        exact hinv
      · rw [htrends]
        exact Nat.zero_le _
  | dbAdd s =>
      obtain rfl := Option.some.inj he
      exact ⟨h.inv.dbAdd hsafe, h.size⟩

/-- **A run of events.** -/
theorem EventInv.run {db₀ : TrendDb} {vals : TrendValues} {w w' : TrendState} (es : List TrendEvent)
    (h : EventInv db₀ vals w) (hsafe : SafeEvents db₀ w es) (hrun : trendEvents w es = some w') :
    EventInv db₀ (es.foldl TrendValues.recordEvent vals) w' := by
  induction es generalizing vals w with
  | nil =>
      obtain rfl := Option.some.inj hrun
      exact h
  | cons e es ih =>
      obtain ⟨w₁, he, hrun⟩ := Option.bind_eq_some_iff.mp hrun
      exact ih (h.event hsafe.1 he) (hsafe.2 w₁ he) hrun

/-! ## bounds -/

/-- A stored row summarises values that have come for it, all of them unless some
are in the cache. -/
theorem EventInv.stored {db₀ : TrendDb} {vals : TrendValues} {w : TrendState} (h : EventInv db₀ vals w) {k : TrendKey}
    (hk : db₀ k = none) {row : TrendRow k.valueType.Val} (hrow : w.db k = some row) :
    ∃ stored held, (vals k).Perm (stored ++ held) ∧ ((∀ t ∈ w.trends, t.key ≠ k) → held = []) ∧
      Describes True row stored := by
  by_cases hcached : ∃ t ∈ w.trends, t.key = k
  · obtain ⟨t, ht, rfl⟩ := hcached
    obtain ⟨stored, held, hvals, hstored, -⟩ := h.inv.cached t ht hk
    rw [hrow] at hstored
    exact ⟨stored, held, hvals, fun hnone => absurd rfl (hnone t ht), hstored⟩
  · have hnone : ∀ t ∈ w.trends, t.key ≠ k := fun t ht hkey => hcached ⟨t, ht, hkey⟩
    have hstored := h.inv.absent k hk hnone
    rw [hrow] at hstored
    exact ⟨vals k, [], by rw [List.append_nil], fun _ => rfl, hstored⟩

/-- **The average of unsigned trends is bounded.**  In every run, through the
cache and past it, in which no sum overflows and no row is read that has a value
of 2^63 or more, every row of `trends_uint` that was not there at the start has
its average between its extremes, and less than the number of its values from
their mean. -/
theorem uint64_trends_bounded (db : TrendDb) (es : List TrendEvent) {w : TrendState}
    (hsafe : SafeEvents db { trends := [], db := db } es)
    (hrun : trendEvents { trends := [], db := db } es = some w) (itemid : UInt64) (clock : Int32)
    (hk : db ⟨.uint64, itemid, clock⟩ = none) (row : TrendRow UInt64) (hrow : w.db ⟨.uint64, itemid, clock⟩ = some row) :
    row.valueMin ≤ row.valueAvg ∧ row.valueAvg ≤ row.valueMax ∧
    ∃ stored held : List UInt64, (eventValues es ⟨.uint64, itemid, clock⟩ : List UInt64).Perm (stored ++ held) ∧
      ((∀ t ∈ w.trends, t.key ≠ ⟨.uint64, itemid, clock⟩) → held = []) ∧ row.num = stored.length ∧
      |((stored.map UInt64.toNat).sum : ℚ) / stored.length - row.valueAvg.toNat| < stored.length := by
  have hstart : EventInv db (fun _ => []) { trends := [], db := db } := ⟨trendInv_init db, Nat.zero_le _⟩
  obtain ⟨stored, held, hvals, hheld, hdesc⟩ := (hstart.run es hsafe hrun).stored hk hrow
  have hmean : FloorMean row.num row.valueAvg.toNat (stored.map UInt64.toNat) := hdesc.average trivial
  have hmin : row.valueMin ≤ row.valueAvg := by
    rw [UInt64.le_iff_toNat_le]
    apply hmean.lower
    intro v hv
    obtain ⟨w, hw, rfl⟩ := List.mem_map.mp hv
    exact UInt64.le_iff_toNat_le.mp (hdesc.extremes.1.2 hw)
  have hmax : row.valueAvg ≤ row.valueMax := by
    rw [UInt64.le_iff_toNat_le]
    apply hmean.upper
    intro v hv
    obtain ⟨w, hw, rfl⟩ := List.mem_map.mp hv
    exact UInt64.le_iff_toNat_le.mp (hdesc.extremes.2.2 hw)
  have hnum : row.num = stored.length := hdesc.num
  have herror := hmean.error hdesc.num_pos
  rw [hnum] at herror
  exact ⟨hmin, hmax, stored, held, hvals, hheld, hnum, herror⟩

/-- A value of one hour. -/
def hourValue (value : UInt64) : TrendSample := { itemid := 1, clock := 10, valueType := .uint64, value := value }

/-- Values of one hour, through the cache and past it. -/
def roundedEvents : List TrendEvent :=
  [.dcAdd (hourValue 1), .dbAdd (hourValue 4), .dcAdd (hourValue 2), .dcSync, .dbAdd (hourValue 4)]

/-- The average of 1, 4, 2 and 4 comes to 2. -/
theorem uint64_trends_rounded :
    ∃ w row, trendEvents { trends := [], db := fun _ => none } roundedEvents = some w ∧
      w.db ⟨.uint64, 1, 0⟩ = some row ∧ row.valueMin ≤ row.valueAvg ∧ row.valueAvg ≤ row.valueMax := by
  have hrow : (trendEvents { trends := [], db := fun _ => none } roundedEvents).map
      (fun w => (w.db ⟨.uint64, 1, 0⟩ : Option (TrendRow UInt64))) =
        some (some { num := 4, valueMin := 1, valueAvg := 2, valueMax := 4 }) := by
    decide +kernel
  obtain ⟨w, hrun, hdb⟩ := Option.map_eq_some_iff.mp hrow
  obtain ⟨hmin, hmax, -⟩ := uint64_trends_bounded (fun _ => none) roundedEvents (by decide +kernel) hrun 1 0 rfl _ hdb
  exact ⟨w, _, hrun, hdb, hmin, hmax⟩

/-- Two values of 2^63 in one hour. -/
def overflowEvents : List TrendEvent := [.dcAdd (hourValue (2 ^ 63)), .dcAdd (hourValue (2 ^ 63)), .dcSync]

/-- Their sum is 0, and so is their average. -/
theorem uint64_trends_overflow :
    ∃ (w : TrendState) (row : TrendRow UInt64),
      trendEvents { trends := [], db := fun _ => none } overflowEvents = some w ∧
        w.db ⟨.uint64, 1, 0⟩ = some row ∧ ¬row.valueMin ≤ row.valueAvg := by
  have hrow : (trendEvents { trends := [], db := fun _ => none } overflowEvents).map
      (fun w => (w.db ⟨.uint64, 1, 0⟩ : Option (TrendRow UInt64))) =
        some (some { num := 2, valueMin := 2 ^ 63, valueAvg := 0, valueMax := 2 ^ 63 }) := by
    decide +kernel
  obtain ⟨w, hrun, hdb⟩ := Option.map_eq_some_iff.mp hrow
  exact ⟨w, _, hrun, hdb, by decide +kernel⟩

end Zabbix
