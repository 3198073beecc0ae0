import Zabbix.DbCache.Trend

/-!
# Zabbix.DbCache.TrendFull

What `DCadd_trend` does when `DCget_trend` finds the array full: a record of its own is
filled with the value, and the pointer that is flushed is the one that `DCget_trend` has
returned, which is NULL.
-/

namespace Zabbix

/-- The pointers to a `ZBX_DC_TREND` that `DCflush_trend` can be given here. -/
inductive TrendPointer
  | null
  | static
deriving DecidableEq, Repr

/-- An access through a null pointer. -/
inductive MissingTrend
  | missing
deriving DecidableEq, Repr

/-- What a pointer points to. -/
def TrendPointer.deref (t : ZbxDcTrend) : TrendPointer → Except MissingTrend ZbxDcTrend
  | null => throw .missing
  | static => pure t

/-- `trend_static`, as `DCadd_trend` fills it. -/
def trendStatic (s : TrendSample) : ZbxDcTrend :=
  { itemid := s.itemid, clock := hourOf s.clock, valueType := s.valueType, row := .single s.value }

/-- `DCadd_trend`, with the pointers that it uses: the array and the statement of a flush. -/
def dcAddTrendPointer (db : TrendDb) (trends : List ZbxDcTrend) (s : TrendSample) :
    Except MissingTrend (List ZbxDcTrend × List TrendStatement) :=
  match dcGetTrend trends s.itemid with
  | some (index, trends) =>
      match trends[index]? with
      | none => throw .missing
      | some t =>
          if 0 < t.row.num ∧ (t.clock ≠ hourOf s.clock ∨ t.valueType ≠ s.valueType) then
            let (sql, t) := dcFlushTrend db t
            pure (trends.set index (t.take s), [sql])
          else pure (trends.set index (t.take s), [])
  | none => do
      let t ← TrendPointer.null.deref (trendStatic s)
      pure (trends, [(dcFlushTrend db t).1])

/-- It is `DCadd_trend` wherever there is something behind the pointers. -/
theorem dcAddTrendPointer_toOption (db : TrendDb) (trends : List ZbxDcTrend) (s : TrendSample) :
    (dcAddTrendPointer db trends s).toOption = dcAddTrend db trends s := by
  rw [dcAddTrendPointer, dcAddTrend]
  cases dcGetTrend trends s.itemid with
  | none => rfl
  | some p =>
      obtain ⟨index, trends⟩ := p
      dsimp only [Option.bind_some]
      cases trends[index]? with
      | none => rfl
      | some t =>
          dsimp only [Option.map_some]
          split <;> rfl

/-- A full array has no room for another item. -/
theorem dcGetTrend_full {trends : List ZbxDcTrend} (hfull : trends.length = zbxTrendSize) {itemid : UInt64}
    (hnew : ∀ t ∈ trends, t.itemid ≠ itemid) : dcGetTrend trends itemid = none := by
  have hother : trends[dcGetTrendNearestindex trends itemid]?.map ZbxDcTrend.itemid ≠ some itemid := by
    intro h
    obtain ⟨t, ht, heq⟩ := Option.map_eq_some_iff.mp h
    exact hnew t (List.mem_of_getElem? ht) heq
  rw [dcGetTrend, if_neg hother, if_pos hfull]

/-- What adding a value to a full cache should come to: the aggregate of the value is written
for its item and hour, merged with a row that is there, and the cache is left as it is. -/
def WritesDirectly (db : TrendDb) (trends : List ZbxDcTrend) (s : TrendSample) : Prop :=
  dcAddTrendPointer db trends s = .ok (trends,
    [match db s.key with
      | some row => .update s.key (.merge (.single s.value) row.read)
      | none => .insert s.key (.single s.value)])

/-- **A full cache**: a value of a further item is flushed through a null pointer, always. -/
theorem dcAddTrend_full (db : TrendDb) {trends : List ZbxDcTrend} (hfull : trends.length = zbxTrendSize)
    {s : TrendSample} (hnew : ∀ t ∈ trends, t.itemid ≠ s.itemid) :
    dcAddTrendPointer db trends s = .error .missing ∧ ¬WritesDirectly db trends s := by
  have herror : dcAddTrendPointer db trends s = .error .missing := by
    rw [dcAddTrendPointer, dcGetTrend_full hfull hnew]
    rfl
  refine ⟨herror, fun h => ?_⟩
  rw [WritesDirectly, herror] at h
  cases h

/-- As many items as there is room for. -/
def fullTrends : List ZbxDcTrend := (List.range zbxTrendSize).map fun i => newTrend (UInt64.ofNat i)

/-- A value of an item behind them. -/
def furtherSample : TrendSample :=
  { itemid := 100000, clock := 7200, valueType := .uint64, value := (5 : UInt64) }

theorem fullTrends_length : fullTrends.length = zbxTrendSize := by
  rw [fullTrends, List.length_map, List.length_range]

theorem furtherSample_new : ∀ t ∈ fullTrends, t.itemid ≠ furtherSample.itemid := by
  intro t ht heq
  obtain ⟨i, hi, rfl⟩ := List.mem_map.mp ht
  have hlt : i < 100000 := List.mem_range.mp hi
  have hnat := congrArg UInt64.toNat heq
  have hitem : (newTrend (UInt64.ofNat i)).itemid.toNat = i := UInt64.toNat_ofNat_of_lt' (lt_trans hlt (by decide))
  have hfurther : furtherSample.itemid.toNat = 100000 := rfl
  omega

theorem dcAddTrend_full_further :
    dcAddTrendPointer (fun _ => none) fullTrends furtherSample = .error .missing ∧
      ¬WritesDirectly (fun _ => none) fullTrends furtherSample :=
  dcAddTrend_full (fun _ => none) fullTrends_length furtherSample_new

/-- Nothing is written for the value. -/
theorem furtherSample_unwritten : ¬WritesDirectly (fun _ => none) fullTrends furtherSample := by
  intro h
  rw [WritesDirectly, dcAddTrendPointer, dcGetTrend_full fullTrends_length furtherSample_new] at h
  cases h

end Zabbix
