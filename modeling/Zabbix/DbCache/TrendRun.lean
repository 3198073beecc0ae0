import Zabbix.DbCache.Trend
import Zabbix.Lib.Run
import Zabbix.Lib.Summary

/-!
# Zabbix.DbCache.TrendRun

What the trend tables hold after any run of batches and syncs.

The values of a row are partly in the table and partly in the cache
(`TrendInv`).  Adding a value, flushing an aggregate and executing the
statements of a batch keep this, as long as a batch brings no item twice: then
no row is selected that a pending statement of the batch would change.  After
a sync the table holds everything, and a row is the summary of its values
(`trends_aggregate`).
-/

namespace Zabbix

open Summary

/-! ## rows and values -/

/-- What the average says: over rationals it is the mean; the integer division of
the unsigned trends loses it, and how far it falls behind is said only when it is
asked for. -/
def TrendType.Averages (bounded : Prop) : (ty : TrendType) → ℕ → ty.Val → List ty.Val → Prop
  | .float, num, avg, vs => IsMean num avg vs
  | .uint64, num, avg, vs => bounded → FloorMean num avg.toNat (vs.map UInt64.toNat)

/-- A row is the summary of values. -/
structure Describes (bounded : Prop) {ty : TrendType} (row : TrendRow ty.Val) (vs : List ty.Val) : Prop where
  num : row.num = vs.length
  extremes : Extremes row.valueMin row.valueMax vs
  average : ty.Averages bounded row.num row.valueAvg vs

/-- A row, or no row for no values. -/
def RowOf (bounded : Prop) {ty : TrendType} (row : Option (TrendRow ty.Val)) (vs : List ty.Val) : Prop :=
  match row with
  | none => vs = []
  | some row => Describes bounded row vs

/-- The sums of two rows that are merged do not leave their types. -/
def TrendType.Fits : (ty : TrendType) → TrendRow ty.Val → TrendRow ty.Val → Prop
  | .float, _, _ => True
  | .uint64, row, row' =>
      row.num * row.valueAvg.toNat + row'.num * row'.valueAvg.toNat < 2 ^ 64 ∧ row.num + row'.num < 2 ^ 31

instance : (ty : TrendType) → (row row' : TrendRow ty.Val) → Decidable (ty.Fits row row')
  | .float, _, _ => isTrue trivial
  | .uint64, row, row' =>
      inferInstanceAs (Decidable
        (row.num * row.valueAvg.toNat + row'.num * row'.valueAvg.toNat < 2 ^ 64 ∧ row.num + row'.num < 2 ^ 31))

/-- A row that `zbx_atoui64` reads as it is. -/
def TrendType.Readable : (ty : TrendType) → TrendRow ty.Val → Prop
  | .float, _ => True
  | .uint64, row => row.valueMax < 2 ^ 63

instance : (ty : TrendType) → (row : TrendRow ty.Val) → Decidable (ty.Readable row)
  | .float, _ => isTrue trivial
  | .uint64, row => inferInstanceAs (Decidable (row.valueMax < 2 ^ 63))

/-- The average of two unsigned rows, when nothing overflows. -/
theorem toNat_average {num num' : ℕ} {avg avg' : UInt64} (hsum : num * avg.toNat + num' * avg'.toNat < 2 ^ 64)
    (hnum : num + num' < 2 ^ 31) :
    ((UInt64.ofNat num * avg + UInt64.ofNat num' * avg') / UInt64.ofNat (num + num')).toNat =
      (num * avg.toNat + num' * avg'.toNat) / (num + num') := by
  have hofNat : ∀ n : ℕ, n < 2 ^ 31 → (UInt64.ofNat n).toNat = n := by
    intro n hn
    rw [UInt64.toNat_ofNat', Nat.mod_eq_of_lt (by omega)]
  rw [UInt64.toNat_div, UInt64.toNat_add, UInt64.toNat_mul, UInt64.toNat_mul, hofNat _ hnum, hofNat num (by omega),
    hofNat num' (by omega), Nat.mod_eq_of_lt (by omega : num * avg.toNat < 2 ^ 64),
    Nat.mod_eq_of_lt (by omega : num' * avg'.toNat < 2 ^ 64), Nat.mod_eq_of_lt hsum]

theorem read_of_lt {value : UInt64} (h : value < 2 ^ 63) : TrendType.read .uint64 value = value := by
  have hbound : (2 ^ 63 : UInt64).toNat = 2 ^ 63 := by decide +kernel
  rw [UInt64.lt_iff_toNat_lt, hbound] at h
  rw [TrendType.read, zbxAtoui64_dec h, UInt64.ofNat_toNat]

namespace Describes

variable {bounded : Prop} {ty : TrendType} {row row' : TrendRow ty.Val} {vs ws : List ty.Val}

theorem num_pos (h : Describes bounded row vs) : 0 < row.num := by
  rw [h.num]
  exact List.length_pos_of_ne_nil h.extremes.ne_nil

theorem perm (h : Describes bounded row vs) (hp : vs.Perm ws) : Describes bounded row ws where
  num := by rw [h.num, hp.length_eq]
  extremes := h.extremes.perm hp
  average := by
    cases ty with
    | float => exact IsMean.perm h.average hp
    | uint64 => exact fun hb => (h.average hb).perm (hp.map _)

theorem single (v : ty.Val) : Describes bounded (.single v) [v] where
  num := rfl
  extremes := extremes_singleton v
  average := by
    cases ty with
    | float => exact isMean_singleton v
    | uint64 => exact fun _ => floorMean_singleton v.toNat

/-- Merging an aggregate with a row. -/
theorem merge (h : Describes bounded row vs) (h' : Describes bounded row' ws) (hfits : bounded → ty.Fits row row') :
    Describes bounded (row.merge row') (vs ++ ws) where
  num := by rw [TrendRow.merge, h.num, h'.num, List.length_append]
  extremes := by
    have hmin : (row.merge row').valueMin = min row.valueMin row'.valueMin := by
      rw [min_comm, min_def_lt]
      rfl
    have hmax : (row.merge row').valueMax = max row.valueMax row'.valueMax := by
      rw [max_def_lt]
      rfl
    rw [hmin, hmax]
    exact h.extremes.append h'.extremes
  average := by
    cases ty with
    | float => exact IsMean.append h.average h'.average (Nat.add_pos_left h.num_pos _)
    | uint64 =>
        intro hb
        rw [List.map_append]
        have hmean := (h.average hb).append (h'.average hb) h.num_pos h'.num_pos
        rw [← toNat_average (hfits hb).1 (hfits hb).2] at hmean
        exact hmean

/-- A row that is read: as long as it is readable, nothing of it changes. -/
theorem read (h : Describes bounded row vs) (hread : ty.Readable row) :
    Describes bounded row.read vs ∧ (bounded → row.read = row) := by
  cases ty with
  | float => exact ⟨h, fun _ => rfl⟩
  | uint64 =>
      have hmax : row.valueMax < 2 ^ 63 := hread
      have hmin : row.valueMin < 2 ^ 63 := (h.extremes.1.2 h.extremes.2.1).trans_lt hmax
      have havg : bounded → row.valueAvg < 2 ^ 63 := by
        intro hb
        refine lt_of_le_of_lt ?_ hmax
        rw [UInt64.le_iff_toNat_le]
        apply (h.average hb).upper
        intro v hv
        obtain ⟨w, hw, rfl⟩ := List.mem_map.mp hv
        exact UInt64.le_iff_toNat_le.mp (h.extremes.2.2 hw)
      have hread : bounded → row.read = row := by
        intro hb
        obtain ⟨num, valueMin, valueAvg, valueMax⟩ := row
        simp only [TrendRow.read, read_of_lt hmax, read_of_lt hmin, read_of_lt (havg hb)]
      refine ⟨⟨h.num, ?_, ?_⟩, hread⟩
      · have hext : Extremes (TrendType.read .uint64 row.valueMin) (TrendType.read .uint64 row.valueMax) vs := by
          rw [read_of_lt hmax, read_of_lt hmin]
          exact h.extremes
        exact hext
      · intro hb
        rw [hread hb]
        exact h.average hb

/-- A row with one more value is merged with the row of the value. -/
theorem update_eq_merge (row : TrendRow ty.Val) (v : ty.Val) : row.update v = row.merge (.single v) := by
  have hone : TrendArith.mulNum 1 v = v := by
    cases ty with
    | float => simp [TrendArith.mulNum]
    | uint64 => simp [TrendArith.mulNum]
  simp only [TrendRow.update, TrendRow.merge, TrendRow.single, hone]
  rfl

/-- One more value in the table. -/
theorem update (h : Describes bounded row vs) (v : ty.Val) (hfits : bounded → ty.Fits row (.single v)) :
    Describes bounded (row.update v) (vs ++ [v]) := by
  rw [update_eq_merge]
  exact h.merge (single v) hfits

/-- One more value in the cache: the same, in an aggregate that is not empty. -/
theorem add (h : Describes bounded row vs) (v : ty.Val) (hfits : bounded → ty.Fits row (.single v)) :
    Describes bounded (row.add v) (vs ++ [v]) := by
  have hne : row.num ≠ 0 := by
    have := h.num_pos
    omega
  have heq : row.add v = row.update v := by
    simp [TrendRow.add, TrendRow.update, hne]
  rw [heq]
  exact h.update v hfits

end Describes

/-- The first value of an aggregate. -/
theorem add_zero (ty : TrendType) (v : ty.Val) : (TrendRow.zero : TrendRow ty.Val).add v = .single v := by
  cases ty with
  | float => simp [TrendRow.add, TrendRow.zero, TrendRow.single, TrendArith.mulNum, TrendArith.divNum]
  | uint64 => simp [TrendRow.add, TrendRow.zero, TrendRow.single, TrendArith.mulNum, TrendArith.divNum]

/-- The row of float values is determined by them. -/
theorem RowOf.unique {bounded : Prop} {row row' : Option (TrendRow ℚ)} {vs : List ℚ}
    (h : @RowOf bounded .float row vs) (h' : @RowOf bounded .float row' vs) : row = row' := by
  cases row with
  | none =>
      cases row' with
      | none => rfl
      | some r => exact absurd h h'.extremes.ne_nil
  | some r =>
      cases row' with
      | none => exact absurd h' h.extremes.ne_nil
      | some r' =>
          have hnum : r.num = r'.num := h.num.trans h'.num.symm
          obtain ⟨hmin, hmax⟩ := h.extremes.unique h'.extremes
          have havg : r.valueAvg = r'.valueAvg := by
            have h1 : IsMean r.num r.valueAvg vs := h.average
            have h2 : IsMean r'.num r'.valueAvg vs := h'.average
            rw [← hnum] at h2
            exact h1.unique h2 h.num_pos
          cases r
          cases r'
          simp_all

/-! ## what is read and added -/

/-- A flush of an aggregate whose row was not there at the start: a row that is
there now is read as it is, and, if bounds are asked for, nothing overflows. -/
def SafeFlush (bounded : Prop) (db₀ db : TrendDb) (t : ZbxDcTrend) : Prop :=
  db₀ t.key = none → ∀ row, db t.key = some row →
    t.valueType.Readable row ∧ (bounded → t.valueType.Fits t.row row)

/-- The same of a value that is added to its row. -/
def SafeDbAdd (bounded : Prop) (db₀ db : TrendDb) (s : TrendSample) : Prop :=
  db₀ s.key = none → ∀ row, db s.key = some row →
    s.valueType.Readable row ∧ (bounded → s.valueType.Fits row (.single s.value))

instance (bounded : Prop) [Decidable bounded] (db₀ db : TrendDb) (t : ZbxDcTrend) :
    Decidable (SafeFlush bounded db₀ db t) :=
  decidable_of_iff
    (db₀ t.key = none → ∀ row ∈ db t.key, t.valueType.Readable row ∧ (bounded → t.valueType.Fits t.row row)) Iff.rfl

instance (bounded : Prop) [Decidable bounded] (db₀ db : TrendDb) (s : TrendSample) :
    Decidable (SafeDbAdd bounded db₀ db s) :=
  decidable_of_iff
    (db₀ s.key = none → ∀ row ∈ db s.key,
      s.valueType.Readable row ∧ (bounded → s.valueType.Fits row (.single s.value))) Iff.rfl

/-- The values of each row, in order. -/
abbrev TrendValues : Type := (k : TrendKey) → List k.valueType.Val

/-- One more value. -/
def TrendValues.record (vals : TrendValues) (s : TrendSample) : TrendValues :=
  Function.update vals s.key (vals s.key ++ [s.value])

variable {bounded : Prop}

/-- One more value in its row. -/
theorem rowOf_dbAddTrend {db₀ db : TrendDb} {s : TrendSample} {vs : List s.valueType.Val}
    (h : RowOf bounded (db s.key) vs) (hk : db₀ s.key = none) (hsafe : SafeDbAdd bounded db₀ db s) :
    RowOf bounded (dbAddTrend db s s.key) (vs ++ [s.value]) := by
  rw [dbAddTrend]
  cases hdb : db s.key with
  | none =>
      rw [hdb] at h
      dsimp only
      rw [Function.update_self, show vs = [] from h]
      exact Describes.single s.value
  | some row =>
      rw [hdb] at h
      obtain ⟨hread, hfits⟩ := hsafe hk row hdb
      obtain ⟨hdesc, heq⟩ := Describes.read h hread
      dsimp only
      rw [Function.update_self]
      exact hdesc.update s.value fun hb => by rw [heq hb]; exact hfits hb

/-- The other rows stay. -/
theorem dbAddTrend_of_ne {db : TrendDb} {s : TrendSample} {k : TrendKey} (h : k ≠ s.key) : dbAddTrend db s k = db k := by
  rw [dbAddTrend]
  cases db s.key <;> exact Function.update_of_ne h ..

/-- Adding values to the tables one by one. -/
theorem rowOf_foldl_dbAddTrend {db₀ : TrendDb} (ss : List TrendSample) {vals : TrendValues}
    {db : TrendDb} (h : ∀ k, db₀ k = none → RowOf bounded (db k) (vals k))
    (hsafe : Run.Along dbAddTrend (SafeDbAdd bounded db₀) db ss) {k : TrendKey} (hk : db₀ k = none) :
    RowOf bounded (ss.foldl dbAddTrend db k) (ss.foldl TrendValues.record vals k) := by
  induction ss generalizing vals db with
  | nil => exact h k hk
  | cons s ss ih =>
      refine ih (fun k hk => ?_) hsafe.2
      rw [TrendValues.record]
      by_cases he : k = s.key
      · subst he
        rw [Function.update_self]
        exact rowOf_dbAddTrend (h s.key hk) hk hsafe.1
      · rw [Function.update_of_ne he, dbAddTrend_of_ne he]
        exact h k hk

/-! ## the invariant -/

/-- The values of a row that was not there at the start: those that the table
holds, and those of the aggregate in the cache. -/
structure TrendInv (bounded : Prop) (db₀ : TrendDb) (vals : TrendValues) (trends : List ZbxDcTrend) (db : TrendDb) :
    Prop where
  sorted : Nearest.Sorted ZbxDcTrend.itemid trends
  num_pos : ∀ t ∈ trends, 0 < t.row.num
  cached : ∀ t ∈ trends, db₀ t.key = none →
    ∃ stored held, (vals t.key).Perm (stored ++ held) ∧ RowOf bounded (db t.key) stored ∧ Describes bounded t.row held
  absent : ∀ k, db₀ k = none → (∀ t ∈ trends, t.key ≠ k) → RowOf bounded (db k) (vals k)

/-- The aggregate of one value. -/
def startTrend (s : TrendSample) : ZbxDcTrend :=
  { itemid := s.itemid, clock := hourOf s.clock, valueType := s.valueType, row := .single s.value }

/-- An empty aggregate takes any value. -/
theorem take_zero {t : ZbxDcTrend} {s : TrendSample} (hitem : t.itemid = s.itemid)
    (hzero : t.row = .zero) : t.take s = startTrend s := by
  obtain ⟨itemid, clock, valueType, row⟩ := t
  obtain ⟨itemid', clock', valueType', value⟩ := s
  change row = (TrendRow.zero : TrendRow valueType.Val) at hzero
  change itemid = itemid' at hitem
  subst hitem hzero
  have hrow : ZbxDcTrend.rowAs ⟨itemid, clock, valueType, .zero⟩ valueType' = .zero := by
    rw [ZbxDcTrend.rowAs]
    split
    · next h => subst h; rfl
    · rfl
  rw [ZbxDcTrend.take, startTrend, hrow, add_zero]

/-- The aggregate of the row of a value, by what it holds. -/
def heldTrend (s : TrendSample) (row : TrendRow s.valueType.Val) : ZbxDcTrend :=
  { itemid := s.itemid, clock := hourOf s.clock, valueType := s.valueType, row := row }

theorem eq_heldTrend {t : ZbxDcTrend} {s : TrendSample} (h : t.key = s.key) :
    ∃ row, t = heldTrend s row := by
  obtain ⟨itemid, clock, valueType, row⟩ := t
  obtain ⟨rfl, rfl, rfl⟩ := TrendKey.mk.inj h
  exact ⟨row, rfl⟩

theorem rowAs_heldTrend (s : TrendSample) (row : TrendRow s.valueType.Val) :
    (heldTrend s row).rowAs s.valueType = row := by
  rw [ZbxDcTrend.rowAs, dif_pos (show (heldTrend s row).valueType = s.valueType from rfl)]
  rfl

/-- An aggregate of the same hour and type takes a value. -/
theorem take_heldTrend (s : TrendSample) (row : TrendRow s.valueType.Val) :
    (heldTrend s row).take s = heldTrend s (row.add s.value) := by
  rw [ZbxDcTrend.take, rowAs_heldTrend]
  rfl

/-! ## one value -/

namespace TrendInv

variable {db₀ db : TrendDb} {vals : TrendValues} {trends ts : List ZbxDcTrend}

/-- No aggregate of the item: a new one. -/
theorem start (h : TrendInv bounded db₀ vals ts db) {s : TrendSample}
    (hno : ∀ x ∈ ts, x.itemid ≠ s.itemid) (hsorted : Nearest.Sorted ZbxDcTrend.itemid trends)
    (hmem : ∀ x, x ∈ trends ↔ x = startTrend s ∨ x ∈ ts) :
    TrendInv bounded db₀ (vals.record s) trends db where
  sorted := hsorted
  num_pos := by
    intro t ht
    rcases (hmem t).mp ht with rfl | ht
    · exact Nat.one_pos
    · exact h.num_pos t ht
  cached := by
    intro t ht ht0
    rcases (hmem t).mp ht with rfl | ht
    · refine ⟨vals s.key, [s.value], .of_eq (Function.update_self ..), ?_, Describes.single s.value⟩
      apply h.absent _ ht0
      intro x hx hkey
      exact hno x hx (congrArg TrendKey.itemid hkey)
    · have hne : t.key ≠ s.key := fun hkey => hno t ht (congrArg TrendKey.itemid hkey)
      rw [TrendValues.record, Function.update_of_ne hne]
      exact h.cached t ht ht0
  absent := by
    intro k hk hnone
    have hne : k ≠ s.key := by
      rintro rfl
      exact hnone (startTrend s) ((hmem _).mpr (.inl rfl)) rfl
    rw [TrendValues.record, Function.update_of_ne hne]
    exact h.absent k hk fun t ht => hnone t ((hmem t).mpr (.inr ht))

/-- An aggregate of the same hour and type takes the value. -/
theorem take (h : TrendInv bounded db₀ vals trends db) {s : TrendSample} {row : TrendRow s.valueType.Val}
    (ht : heldTrend s row ∈ trends) (hfits : bounded → db₀ s.key = none → s.valueType.Fits row (.single s.value))
    (hsorted : Nearest.Sorted ZbxDcTrend.itemid ts)
    (hmem : ∀ x, x ∈ ts ↔ x = heldTrend s (row.add s.value) ∨ (x ∈ trends ∧ x.itemid ≠ s.itemid)) :
    TrendInv bounded db₀ (vals.record s) ts db where
  sorted := hsorted
  num_pos := by
    intro t ht
    rcases (hmem t).mp ht with rfl | ht
    · exact Nat.succ_pos _
    · exact h.num_pos t ht.1
  cached := by
    intro t ht' ht0
    rcases (hmem t).mp ht' with rfl | ⟨ht', hitem⟩
    · obtain ⟨stored, held, hvals, hstored, hheld⟩ :
          ∃ stored held : List s.valueType.Val,
            (vals s.key).Perm (stored ++ held) ∧ RowOf bounded (db s.key) stored ∧ Describes bounded row held :=
        h.cached _ ht ht0
      refine ⟨stored, held ++ [s.value], ?_, hstored, hheld.add s.value fun hb => hfits hb ht0⟩
      change (vals.record s s.key).Perm (stored ++ (held ++ [s.value]))
      rw [TrendValues.record, Function.update_self, ← List.append_assoc]
      exact hvals.append_right _
    · have hne : t.key ≠ s.key := fun hkey => hitem (congrArg TrendKey.itemid hkey)
      rw [TrendValues.record, Function.update_of_ne hne]
      exact h.cached t ht' ht0
  absent := by
    intro k hk hnone
    have hne : k ≠ s.key := by
      rintro rfl
      exact hnone _ ((hmem _).mpr (.inl rfl)) rfl
    rw [TrendValues.record, Function.update_of_ne hne]
    apply h.absent k hk
    intro t ht' hkey
    by_cases hitem : t.itemid = s.itemid
    · -- an aggregate of the item is the one that took the value
      rw [← hkey, h.sorted.eq_of_mem ht' ht hitem] at hne
      exact hne rfl
    · exact hnone t ((hmem t).mpr (.inr ⟨ht', hitem⟩)) hkey

end TrendInv

/-! ## flushing -/

/-- Execute statements, all of which have to succeed. -/
def executeAll (db : TrendDb) (sql : List TrendStatement) : Option TrendDb :=
  sql.foldlM TrendStatement.execute db

theorem executeTrends_of_executeAll {db db' : TrendDb} {sql : List TrendStatement}
    (h : executeAll db sql = some db') : executeTrends db sql = db' := by
  induction sql generalizing db with
  | nil => exact Option.some.inj h
  | cons s sql ih =>
      rw [executeAll, List.foldlM_cons] at h
      obtain ⟨db₁, hs, h⟩ := Option.bind_eq_some_iff.mp h
      rw [executeTrends, hs]
      exact ih h

theorem executeAll_append {db db₁ db₂ : TrendDb} {sql sql' : List TrendStatement}
    (h : executeAll db sql = some db₁) (h' : executeAll db₁ sql' = some db₂) :
    executeAll db (sql ++ sql') = some db₂ := by
  rw [executeAll, List.foldlM_append]
  exact Option.bind_eq_some_iff.mpr ⟨db₁, h, h'⟩

/-- The row that a flush writes. -/
def flushedRow (db : TrendDb) (t : ZbxDcTrend) : TrendRow t.valueType.Val :=
  match db t.key with
  | some row => t.row.merge row.read
  | none => t.row

/-- The statement of a flush writes the row, as long as the row selected is
still what the table holds. -/
theorem execute_dcFlushTrend {db db' : TrendDb} {t : ZbxDcTrend} (h : db' t.key = db t.key) :
    (dcFlushTrend db t).1.execute db' =
      some (Function.update db' t.key (some (flushedRow db t))) := by
  rw [dcFlushTrend, flushedRow]
  cases hrow : db t.key with
  | none => simp [TrendStatement.execute, h, hrow]
  | some row => simp [TrendStatement.execute, h, hrow]

/-- The row that a flush writes summarises what the table and the cache held. -/
theorem describes_flushedRow {db₀ db : TrendDb} {t : ZbxDcTrend} {stored held : List t.valueType.Val}
    (hstored : RowOf bounded (db t.key) stored) (hheld : Describes bounded t.row held) (hk : db₀ t.key = none)
    (hsafe : SafeFlush bounded db₀ db t) : Describes bounded (flushedRow db t) (stored ++ held) := by
  rw [flushedRow]
  cases hrow : db t.key with
  | none =>
      rw [hrow] at hstored
      rw [show stored = [] from hstored]
      exact hheld
  | some row =>
      rw [hrow] at hstored
      obtain ⟨hread, hfits⟩ := hsafe hk row hrow
      obtain ⟨hdesc, heq⟩ := Describes.read hstored hread
      have hmerge := hheld.merge hdesc fun hb => by rw [heq hb]; exact hfits hb
      exact hmerge.perm List.perm_append_comm

/-- **A flush moves an aggregate into the table.** -/
theorem TrendInv.flush {db₀ db db' : TrendDb} {vals : TrendValues} {trends ts : List ZbxDcTrend}
    (h : TrendInv bounded db₀ vals trends db') {t : ZbxDcTrend} (ht : t ∈ trends)
    (hsame : db' t.key = db t.key) (hsafe : SafeFlush bounded db₀ db t)
    (hsorted : Nearest.Sorted ZbxDcTrend.itemid ts) (hmem : ∀ x, x ∈ ts ↔ x ∈ trends ∧ x.itemid ≠ t.itemid) :
    TrendInv bounded db₀ vals ts (Function.update db' t.key (some (flushedRow db t))) where
  sorted := hsorted
  num_pos := fun x hx => h.num_pos x ((hmem x).mp hx).1
  cached := by
    intro x hx hx0
    obtain ⟨hx', hitem⟩ := (hmem x).mp hx
    have hne : x.key ≠ t.key := fun hkey => hitem (congrArg TrendKey.itemid hkey)
    rw [Function.update_of_ne hne]
    exact h.cached x hx' hx0
  absent := by
    intro k hk hnone
    by_cases hkey : k = t.key
    · subst hkey
      obtain ⟨stored, held, hvals, hstored, hheld⟩ := h.cached t ht hk
      rw [hsame] at hstored
      rw [Function.update_self]
      exact (describes_flushedRow hstored hheld hk hsafe).perm hvals.symm
    · rw [Function.update_of_ne hkey]
      apply h.absent k hk
      intro x hx he
      by_cases hitem : x.itemid = t.itemid
      · rw [← he, h.sorted.eq_of_mem hx ht hitem] at hkey
        exact hkey rfl
      · exact hnone x ((hmem x).mpr ⟨hx, hitem⟩) he

/-! ## the array -/

/-- The items that have an aggregate. -/
def trendItems (trends : List ZbxDcTrend) : Finset UInt64 := (trends.map ZbxDcTrend.itemid).toFinset

theorem mem_trendItems {trends : List ZbxDcTrend} {itemid : UInt64} :
    itemid ∈ trendItems trends ↔ ∃ t ∈ trends, t.itemid = itemid := by
  simp [trendItems]

theorem card_trendItems {trends : List ZbxDcTrend}
    (h : Nearest.Sorted ZbxDcTrend.itemid trends) : (trendItems trends).card = trends.length := by
  have hnodup : (trends.map ZbxDcTrend.itemid).Nodup :=
    (List.pairwise_map.mpr h).imp fun hlt => ne_of_lt hlt
  rw [trendItems, List.toFinset_card_of_nodup hnodup, List.length_map]

/-- `DCget_trend` finds the aggregate of an item. -/
theorem dcGetTrend_of_mem {trends : List ZbxDcTrend} {t : ZbxDcTrend}
    (hs : Nearest.Sorted ZbxDcTrend.itemid trends) (ht : t ∈ trends) :
    ∃ index, dcGetTrend trends t.itemid = some (index, trends) ∧ trends[index]? = some t := by
  have hget := Nearest.getElem?_nearest hs ht rfl
  refine ⟨_, ?_, hget⟩
  simp only [dcGetTrend, dcGetTrendNearestindex, hget, Option.map_some, if_true]

/-- `DCget_trend` makes room for a new aggregate. -/
theorem dcGetTrend_of_not_mem {trends : List ZbxDcTrend} {itemid : UInt64}
    (hs : Nearest.Sorted ZbxDcTrend.itemid trends) (hno : ∀ x ∈ trends, x.itemid ≠ itemid)
    (hroom : trends.length ≠ zbxTrendSize) :
    ∃ index trends', dcGetTrend trends itemid = some (index, trends') ∧
      trends' = Nearest.insert ZbxDcTrend.itemid (newTrend itemid) trends ∧
      trends'[index]? = some (newTrend itemid) := by
  have hmiss : ¬trends[dcGetTrendNearestindex trends itemid]?.map ZbxDcTrend.itemid = some itemid := by
    intro h
    obtain ⟨x, hx, hitem⟩ := Option.map_eq_some_iff.mp h
    exact hno x (List.mem_of_getElem? hx) hitem
  refine ⟨dcGetTrendNearestindex trends itemid, _, ?_, rfl, ?_⟩
  · simp only [dcGetTrend, if_neg hmiss, if_neg hroom]
    rfl
  · have hle : dcGetTrendNearestindex trends itemid ≤ trends.length :=
      (Nearest.nearest_spec hs itemid).1
    have hlen : (trends.take (dcGetTrendNearestindex trends itemid)).length =
        dcGetTrendNearestindex trends itemid := by
      rw [List.length_take]
      omega
    change (trends.take (dcGetTrendNearestindex trends itemid) ++ newTrend itemid ::
      trends.drop (dcGetTrendNearestindex trends itemid))[dcGetTrendNearestindex trends itemid]? = _
    rw [List.getElem?_append_right (le_of_eq hlen), hlen, Nat.sub_self, List.getElem?_cons_zero]

/-- An aggregate takes a value: what it holds is flushed as it is, or, if bounds
are asked for, nothing overflows when the value is added. -/
def SafeAdd (bounded : Prop) (db₀ db : TrendDb) (t : ZbxDcTrend) (s : TrendSample) : Prop :=
  (t.key ≠ s.key → SafeFlush bounded db₀ db t) ∧
    (t.key = s.key → bounded → db₀ s.key = none → s.valueType.Fits (t.rowAs s.valueType) (.single s.value))

instance (bounded : Prop) [Decidable bounded] (db₀ db : TrendDb) (t : ZbxDcTrend) (s : TrendSample) :
    Decidable (SafeAdd bounded db₀ db t s) :=
  inferInstanceAs (Decidable (_ ∧ _))

/-- What `DCadd_trend` leaves: the array with the aggregate that took the
value, and the tables after its statements. -/
structure Added (bounded : Prop) (db₀ : TrendDb) (vals : TrendValues) (s : TrendSample) (trends : List ZbxDcTrend)
    (db : TrendDb) (r : List ZbxDcTrend × List TrendStatement) (db' : TrendDb) : Prop where
  execute : executeAll db r.2 = some db'
  inv : TrendInv bounded db₀ (vals.record s) r.1 db'
  others : ∀ x ∈ r.1, x.itemid ≠ s.itemid → x ∈ trends
  same : ∀ k : TrendKey, k.itemid ≠ s.itemid → db' k = db k
  items : trendItems r.1 = insert s.itemid (trendItems trends)

theorem trendItems_of_mem {trends ts : List ZbxDcTrend} {e : ZbxDcTrend} {itemid : UInt64}
    (he : e.itemid = itemid) (hmem : ∀ x, x ∈ ts ↔ x = e ∨ (x ∈ trends ∧ x.itemid ≠ itemid)) :
    trendItems ts = insert itemid (trendItems trends) := by
  ext i
  rw [Finset.mem_insert, mem_trendItems, mem_trendItems]
  constructor
  · rintro ⟨x, hx, rfl⟩
    rcases (hmem x).mp hx with rfl | ⟨hx, -⟩
    · exact .inl he
    · exact .inr ⟨x, hx, rfl⟩
  · intro h
    by_cases hi : i = itemid
    · exact ⟨e, (hmem e).mpr (.inl rfl), he.trans hi.symm⟩
    · obtain ⟨x, hx, rfl⟩ := h.resolve_left hi
      exact ⟨x, (hmem x).mpr (.inr ⟨hx, hi⟩), rfl⟩

/-- **`DCadd_trend` adds a value**, as long as the rows of its item are what
the tables hold. -/
theorem dcAddTrend_spec {db₀ db db' : TrendDb} {vals : TrendValues} {trends : List ZbxDcTrend}
    (h : TrendInv bounded db₀ vals trends db') (s : TrendSample)
    (hsame : ∀ k : TrendKey, k.itemid = s.itemid → db' k = db k)
    (hsafe : ∀ t ∈ trends, t.itemid = s.itemid → SafeAdd bounded db₀ db t s)
    (hroom : (insert s.itemid (trendItems trends)).card ≤ zbxTrendSize) :
    ∃ r db'', dcAddTrend db trends s = some r ∧ Added bounded db₀ vals s trends db' r db'' := by
  by_cases hin : ∃ t ∈ trends, t.itemid = s.itemid
  · obtain ⟨t, ht, hitem⟩ := hin
    obtain ⟨index, hget, hindex⟩ := dcGetTrend_of_mem h.sorted ht
    rw [hitem] at hget
    have hadd : dcAddTrend db trends s =
        some (if 0 < t.row.num ∧ (t.clock ≠ hourOf s.clock ∨ t.valueType ≠ s.valueType) then
          (trends.set index ((dcFlushTrend db t).2.take s), [(dcFlushTrend db t).1])
        else (trends.set index (t.take s), [])) := by
      simp only [dcAddTrend, hget, Option.bind_some, hindex, Option.map_some]
    have hset : ∀ e : ZbxDcTrend, e.itemid = s.itemid →
        Nearest.Sorted ZbxDcTrend.itemid (trends.set index e) :=
      fun e he => h.sorted.set hindex (he.trans hitem.symm)
    have hmem : ∀ e x : ZbxDcTrend,
        x ∈ trends.set index e ↔ x = e ∨ (x ∈ trends ∧ x.itemid ≠ s.itemid) := by
      intro e x
      rw [h.sorted.mem_set hindex, hitem]
    have hothers : ∀ e : ZbxDcTrend, e.itemid = s.itemid → ∀ x ∈ trends.set index e, x.itemid ≠ s.itemid → x ∈ trends := by
      intro e he x hx hne
      rcases (hmem e x).mp hx with rfl | hx
      · exact absurd he hne
      · exact hx.1
    by_cases hkey : t.key = s.key
    · -- the aggregate is of the hour and the type of the value
      obtain ⟨row, rfl⟩ := eq_heldTrend hkey
      rw [if_neg (by simp [heldTrend]), take_heldTrend] at hadd
      have hfits := (hsafe _ ht hitem).2 hkey
      rw [rowAs_heldTrend] at hfits
      exact ⟨_, db', hadd, rfl, h.take ht hfits (hset _ rfl) (hmem _), hothers _ rfl, fun _ _ => rfl,
        trendItems_of_mem rfl (hmem _)⟩
    · -- it is of another hour or type, and is flushed
      have hcond : 0 < t.row.num ∧ (t.clock ≠ hourOf s.clock ∨ t.valueType ≠ s.valueType) := by
        refine ⟨h.num_pos t ht, ?_⟩
        by_contra hno
        rw [not_or, not_not, not_not] at hno
        exact hkey (by rw [ZbxDcTrend.key, hno.1, hno.2, hitem])
      have hempty : (dcFlushTrend db t).2.take s = startTrend s := take_zero hitem rfl
      rw [if_pos hcond, hempty] at hadd
      have hfilter : ∀ x, x ∈ trends.filter (fun x => x.itemid ≠ s.itemid) ↔
          x ∈ trends ∧ x.itemid ≠ s.itemid := by simp
      have hflush := h.flush ht (hsame t.key hitem) ((hsafe t ht hitem).1 hkey) (h.sorted.filter _)
        (fun x => by rw [hfilter, hitem])
      refine ⟨_, _, hadd, ?_, hflush.start (fun x hx => ((hfilter x).mp hx).2) (hset _ rfl) ?_, hothers _ rfl, ?_,
        trendItems_of_mem rfl (hmem _)⟩
      · rw [executeAll, List.foldlM_cons, execute_dcFlushTrend (hsame t.key hitem)]
        rfl
      · intro x
        rw [hmem, hfilter]
      · intro k hk
        apply Function.update_of_ne
        rintro rfl
        exact hk hitem
  · have hno : ∀ x ∈ trends, x.itemid ≠ s.itemid := fun x hx he => hin ⟨x, hx, he⟩
    have hlen : trends.length ≠ zbxTrendSize := by
      have hnot : s.itemid ∉ trendItems trends := fun hm => hin (mem_trendItems.mp hm)
      rw [Finset.card_insert_of_notMem hnot, card_trendItems h.sorted] at hroom
      omega
    obtain ⟨index, trends', hget, rfl, hindex⟩ := dcGetTrend_of_not_mem h.sorted hno hlen
    have hsorted := h.sorted.insert (x := newTrend s.itemid) hno
    have hadd : dcAddTrend db trends s = some
        ((Nearest.insert ZbxDcTrend.itemid (newTrend s.itemid) trends).set index (startTrend s), []) := by
      simp only [dcAddTrend, hget, Option.bind_some, hindex, Option.map_some]
      rw [if_neg (fun hc => absurd hc.1 (Nat.lt_irrefl 0)), take_zero rfl rfl]
    have hmem : ∀ x, x ∈ (Nearest.insert ZbxDcTrend.itemid (newTrend s.itemid) trends).set index
        (startTrend s) ↔ x = startTrend s ∨ (x ∈ trends ∧ x.itemid ≠ s.itemid) := by
      intro x
      rw [hsorted.mem_set hindex, Nearest.mem_insert]
      constructor
      · rintro (hx | ⟨rfl | hx, hne⟩)
        · exact .inl hx
        · exact absurd rfl hne
        · exact .inr ⟨hx, hne⟩
      · rintro (hx | ⟨hx, hne⟩)
        · exact .inl hx
        · exact .inr ⟨.inr hx, hne⟩
    refine ⟨_, db', hadd, rfl, h.start hno (hsorted.set hindex rfl) ?_, ?_, fun _ _ => rfl,
      trendItems_of_mem rfl hmem⟩
    · intro x
      rw [hmem]
      exact or_congr_right ⟨And.left, fun hx => ⟨hx, hno x hx⟩⟩
    · intro x hx hne
      rcases (hmem x).mp hx with rfl | hx
      · exact absurd rfl hne
      · exact hx.1

/-! ## batches and syncs -/

/-- The items of values. -/
def sampleItems (ss : List TrendSample) : Finset UInt64 := (ss.map TrendSample.itemid).toFinset

/-- **A batch with one value for each item.** -/
theorem massUpdateLoop_spec {db₀ db db' : TrendDb} (ss : List TrendSample) {vals : TrendValues}
    {trends : List ZbxDcTrend} {sql : List TrendStatement} (hsql : executeAll db sql = some db')
    (h : TrendInv bounded db₀ vals trends db') (hone : (ss.map TrendSample.itemid).Nodup)
    (hsame : ∀ k : TrendKey, k.itemid ∈ ss.map TrendSample.itemid → db' k = db k)
    (hsafe : ∀ s ∈ ss, ∀ t ∈ trends, t.itemid = s.itemid → SafeAdd bounded db₀ db t s)
    (hroom : (trendItems trends ∪ sampleItems ss).card ≤ zbxTrendSize) :
    ∃ r db'', massUpdateLoop db ss (trends, sql) = some r ∧ executeAll db r.2 = some db'' ∧
      TrendInv bounded db₀ (ss.foldl TrendValues.record vals) r.1 db'' ∧
      trendItems r.1 = trendItems trends ∪ sampleItems ss := by
  induction ss generalizing vals trends sql db' with
  | nil => exact ⟨(trends, sql), db', rfl, hsql, h, by simp [sampleItems]⟩
  | cons s ss ih =>
      rw [List.map_cons, List.nodup_cons] at hone
      have hitems : trendItems trends ∪ sampleItems (s :: ss) =
          insert s.itemid (trendItems trends) ∪ sampleItems ss := by
        simp [sampleItems]
      rw [hitems] at hroom
      obtain ⟨r, db₁, hadd, hr⟩ := dcAddTrend_spec h s
        (fun k hk => hsame k (by rw [List.map_cons, hk]; exact List.mem_cons_self ..))
        (hsafe s List.mem_cons_self) (le_trans (Finset.card_le_card Finset.subset_union_left) hroom)
      have hsame' : ∀ k : TrendKey, k.itemid ∈ ss.map TrendSample.itemid → db₁ k = db k := by
        intro k hk
        have hne : k.itemid ≠ s.itemid := fun he => hone.1 (he ▸ hk)
        rw [hr.same k hne]
        exact hsame k (List.mem_cons_of_mem _ hk)
      -- the aggregates that the other values meet have not been touched
      have hsafe' : ∀ s' ∈ ss, ∀ t ∈ r.1, t.itemid = s'.itemid → SafeAdd bounded db₀ db t s' := by
        intro s' hs' t ht hitem
        have hne : t.itemid ≠ s.itemid := fun he => hone.1 (he ▸ hitem ▸ List.mem_map_of_mem hs')
        exact hsafe s' (List.mem_cons_of_mem _ hs') t (hr.others t ht hne) hitem
      obtain ⟨r', db'', hloop, hexec, hinv, hitems'⟩ := ih (executeAll_append hsql hr.execute) hr.inv
        hone.2 hsame' hsafe' (by rw [hr.items]; exact hroom)
      refine ⟨r', db'', ?_, hexec, hinv, by rw [hitems', hr.items, hitems]⟩
      rw [massUpdateLoop, hadd, Option.bind_some]
      exact hloop

/-- Flushing the aggregates one after the other. -/
theorem flush_all {db₀ db : TrendDb} {vals : TrendValues} (trends : List ZbxDcTrend) {db' : TrendDb}
    (h : TrendInv bounded db₀ vals trends db') (hsame : ∀ t ∈ trends, db' t.key = db t.key)
    (hsafe : ∀ t ∈ trends, SafeFlush bounded db₀ db t) :
    ∃ db'', executeAll db' (trends.map fun t => (dcFlushTrend db t).1) = some db'' ∧
      TrendInv bounded db₀ vals [] db'' := by
  induction trends generalizing db' with
  | nil => exact ⟨db', rfl, h⟩
  | cons t trends ih =>
      have hbelow : ∀ x ∈ trends, t.itemid < x.itemid := (List.pairwise_cons.mp h.sorted).1
      have ht := hsame t (List.mem_cons_self ..)
      have hmem : ∀ x, x ∈ trends ↔ x ∈ t :: trends ∧ x.itemid ≠ t.itemid := by
        intro x
        constructor
        · intro hx
          exact ⟨List.mem_cons_of_mem _ hx, (ne_of_lt (hbelow x hx)).symm⟩
        · rintro ⟨hx, hne⟩
          rcases List.mem_cons.mp hx with rfl | hx
          · exact absurd rfl hne
          · exact hx
      have hflush := h.flush (List.mem_cons_self ..) ht (hsafe t List.mem_cons_self)
        (List.pairwise_cons.mp h.sorted).2 hmem
      have hsame' : ∀ x ∈ trends, Function.update db' t.key (some (flushedRow db t)) x.key = db x.key := by
        intro x hx
        have hne : x.key ≠ t.key := fun hkey =>
          ((hmem x).mp hx).2 (congrArg TrendKey.itemid hkey)
        rw [Function.update_of_ne hne]
        exact hsame x (List.mem_cons_of_mem _ hx)
      obtain ⟨db'', hexec, hinv⟩ := ih hflush hsame' fun x hx => hsafe x (List.mem_cons_of_mem _ hx)
      refine ⟨db'', ?_, hinv⟩
      rw [List.map_cons, executeAll, List.foldlM_cons, execute_dcFlushTrend ht]
      exact hexec

/-- **A sync writes everything.** -/
theorem dcSyncTrends_spec {db₀ : TrendDb} {vals : TrendValues} {w : TrendState}
    (h : TrendInv bounded db₀ vals w.trends w.db) (hsafe : ∀ t ∈ w.trends, SafeFlush bounded db₀ w.db t) :
    (dcSyncTrends w).trends = [] ∧ TrendInv bounded db₀ vals [] (dcSyncTrends w).db := by
  obtain ⟨db'', hexec, hinv⟩ := flush_all w.trends h (fun t _ => rfl) hsafe
  refine ⟨rfl, ?_⟩
  rw [dcSyncTrends, executeTrends_of_executeAll hexec]
  exact hinv

/-! ## runs -/

/-- The values that an operation brings. -/
def TrendOp.samples : TrendOp → List TrendSample
  | .batch history => history.filterMap trendSample
  | .sync => []

/-- The values that a run brings to each row, in order. -/
def runValues (ops : List TrendOp) : TrendValues :=
  (ops.flatMap TrendOp.samples).foldl TrendValues.record fun _ => []

/-- A batch has at most one value for each item. -/
def TrendOp.OnePerItem (op : TrendOp) : Prop := (op.samples.map TrendSample.itemid).Nodup

instance : DecidablePred TrendOp.OnePerItem := fun op =>
  inferInstanceAs (Decidable (op.samples.map TrendSample.itemid).Nodup)

/-- Between two syncs, beginning with some items in the cache, no more than
`ZBX_TREND_SIZE` items come up. -/
def BelowTrendSize : Finset UInt64 → List TrendOp → Prop
  | _, [] => True
  | items, .batch history :: ops =>
      (items ∪ sampleItems (TrendOp.batch history).samples).card ≤ zbxTrendSize ∧
        BelowTrendSize (items ∪ sampleItems (TrendOp.batch history).samples) ops
  | _, .sync :: ops => BelowTrendSize ∅ ops

/-- What an operation flushes and adds is safe. -/
def SafeOp (bounded : Prop) (db₀ : TrendDb) (w : TrendState) : TrendOp → Prop
  | .batch history =>
      ∀ s ∈ (TrendOp.batch history).samples, ∀ t ∈ w.trends, t.itemid = s.itemid → SafeAdd bounded db₀ w.db t s
  | .sync => ∀ t ∈ w.trends, SafeFlush bounded db₀ w.db t

instance (bounded : Prop) [Decidable bounded] (db₀ : TrendDb) (w : TrendState) :
    (op : TrendOp) → Decidable (SafeOp bounded db₀ w op)
  | .batch history =>
      inferInstanceAs (Decidable (∀ s ∈ (TrendOp.batch history).samples, ∀ t ∈ w.trends,
        t.itemid = s.itemid → SafeAdd bounded db₀ w.db t s))
  | .sync => inferInstanceAs (Decidable (∀ t ∈ w.trends, SafeFlush bounded db₀ w.db t))

/-- All operations of a run are, each in the state that it is met in. -/
def SafeRun (bounded : Prop) (db₀ : TrendDb) : TrendState → List TrendOp → Prop
  | _, [] => True
  | w, op :: ops => SafeOp bounded db₀ w op ∧ ∀ w', w.step op = some w' → SafeRun bounded db₀ w' ops

instance decidableSafeRun (bounded : Prop) [Decidable bounded] (db₀ : TrendDb) :
    (w : TrendState) → (ops : List TrendOp) → Decidable (SafeRun bounded db₀ w ops)
  | _, [] => isTrue trivial
  | w, op :: ops =>
      have : ∀ w', Decidable (SafeRun bounded db₀ w' ops) := fun w' => decidableSafeRun bounded db₀ w' ops
      decidable_of_iff (SafeOp bounded db₀ w op ∧ ∀ w' ∈ w.step op, SafeRun bounded db₀ w' ops) Iff.rfl

/-- **The invariant holds along every run.** -/
theorem trendRun_spec {db₀ : TrendDb} (ops : List TrendOp) {vals : TrendValues} {w : TrendState}
    (h : TrendInv bounded db₀ vals w.trends w.db) (hone : ∀ op ∈ ops, op.OnePerItem)
    (hsafe : SafeRun bounded db₀ w ops) (hsize : BelowTrendSize (trendItems w.trends) ops) :
    ∃ w', trendRun w ops = some w' ∧
      TrendInv bounded db₀ ((ops.flatMap TrendOp.samples).foldl TrendValues.record vals) w'.trends w'.db := by
  induction ops generalizing vals w with
  | nil => exact ⟨w, rfl, h⟩
  | cons op ops ih =>
      have hone' : ∀ op ∈ ops, op.OnePerItem := fun o ho => hone o (List.mem_cons_of_mem _ ho)
      rw [List.flatMap_cons, List.foldl_append]
      cases op with
      | batch history =>
          obtain ⟨r, db', hloop, hexec, hinv, hitems⟩ := massUpdateLoop_spec
            (TrendOp.batch history).samples (show executeAll w.db [] = some w.db from rfl) h
            (hone _ (List.mem_cons_self ..)) (fun _ _ => rfl) hsafe.1 hsize.1
          have hstep : w.step (.batch history) = some { trends := r.1, db := db' } := by
            change (massUpdateLoop w.db (TrendOp.batch history).samples (w.trends, [])).map _ = _
            rw [hloop, Option.map_some, executeTrends_of_executeAll hexec]
          rw [trendRun, hstep, Option.bind_some]
          apply ih hinv hone' (hsafe.2 _ hstep)
          rw [hitems]
          exact hsize.2
      | sync =>
          obtain ⟨htrends, hinv⟩ := dcSyncTrends_spec h hsafe.1
          rw [trendRun, TrendState.step, Option.bind_some]
          apply ih _ hone' (hsafe.2 _ rfl)
          · rw [htrends]
            exact hsize
          · rw [htrends]
            exact hinv

theorem trendRun_append {w w' : TrendState} {ops : List TrendOp} (h : trendRun w ops = some w')
    (ops' : List TrendOp) : trendRun w (ops ++ ops') = trendRun w' ops' := by
  induction ops generalizing w with
  | nil =>
      rw [Option.some.inj h]
      rfl
  | cons op ops ih =>
      obtain ⟨w₁, hstep, h⟩ := Option.bind_eq_some_iff.mp h
      rw [List.cons_append, trendRun, hstep]
      exact ih h

theorem safeRun_append {db₀ : TrendDb} {w : TrendState} {ops ops' : List TrendOp}
    (h : SafeRun bounded db₀ w (ops ++ ops')) :
    SafeRun bounded db₀ w ops ∧ ∀ w', trendRun w ops = some w' → SafeRun bounded db₀ w' ops' := by
  induction ops generalizing w with
  | nil =>
      refine ⟨trivial, fun w' hw' => ?_⟩
      obtain rfl := Option.some.inj hw'
      exact h
  | cons op ops ih =>
      refine ⟨⟨h.1, fun w₁ hw₁ => (ih (h.2 w₁ hw₁)).1⟩, fun w' hw' => ?_⟩
      obtain ⟨w₁, hstep, hrun⟩ := Option.bind_eq_some_iff.mp hw'
      exact (ih (h.2 w₁ hstep)).2 w' hrun

/-- An empty cache at the start. -/
theorem trendInv_init (db : TrendDb) : TrendInv bounded db (fun _ => []) [] db where
  sorted := List.Pairwise.nil
  num_pos := fun t ht => absurd ht List.not_mem_nil
  cached := fun t ht => absurd ht List.not_mem_nil
  absent := by
    intro k hk _
    rw [hk]
    rfl

/-- **The trend cache aggregates.**  For every run of batches with at most one
value for each item, and of syncs, in which no unsigned row is read that has a
value of 2^63 or more, a last sync succeeds and leaves in every row that was not
there at the start the summary of the values of its item, hour and type; so does
adding the values one by one, and for float values the rows are the same. -/
theorem trends_aggregate (db : TrendDb) (ops : List TrendOp) (hone : ∀ op ∈ ops, op.OnePerItem)
    (hsize : BelowTrendSize ∅ ops)
    (hread : SafeRun False db { trends := [], db := db } (ops ++ [.sync]))
    (hadd : Run.Along dbAddTrend (SafeDbAdd False db) db (ops.flatMap TrendOp.samples)) :
    ∃ db', trendRun { trends := [], db := db } (ops ++ [.sync]) = some { trends := [], db := db' } ∧
      ∀ k, db k = none →
        RowOf False (db' k) (runValues ops k) ∧
        RowOf False ((ops.flatMap TrendOp.samples).foldl dbAddTrend db k) (runValues ops k) ∧
        (k.valueType = .float → db' k = (ops.flatMap TrendOp.samples).foldl dbAddTrend db k) := by
  obtain ⟨hsafe, hlast⟩ := safeRun_append hread
  obtain ⟨w, hrun, hinv⟩ := trendRun_spec ops (trendInv_init db) hone hsafe hsize
  obtain ⟨htrends, hsynced⟩ := dcSyncTrends_spec hinv (hlast w hrun).1
  refine ⟨(dcSyncTrends w).db, ?_, ?_⟩
  · rw [trendRun_append hrun]
    rfl
  · intro k hk
    have hrow : RowOf False ((dcSyncTrends w).db k) (runValues ops k) :=
      hsynced.absent k hk fun t ht => absurd ht List.not_mem_nil
    have hone : RowOf False ((ops.flatMap TrendOp.samples).foldl dbAddTrend db k) (runValues ops k) :=
      rowOf_foldl_dbAddTrend _ (fun k hk => by rw [hk]; rfl) hadd hk
    refine ⟨hrow, hone, ?_⟩
    intro hfloat
    obtain ⟨valueType, itemid, clock⟩ := k
    change valueType = .float at hfloat
    subst hfloat
    exact hrow.unique hone

/-- A float entry that keeps its trends. -/
def floatEntry (itemid : UInt64) (clock : Int32) (value : ℚ) : Sample ℚ :=
  { itemid := itemid, clock := clock, value := .float value value, keepTrends := 365 }

/-- Two items over changing hours, with a sync in between. -/
def changingOps : List TrendOp :=
  [.batch [floatEntry 1 10 (3 / 2), floatEntry 2 11 7], .batch [floatEntry 1 3700 5],
    .batch [floatEntry 1 20 3], .sync, .batch [floatEntry 1 30 1]]

/-- The first hour of item 1 comes in three parts. -/
theorem trends_changing :
    ∃ db', trendRun { trends := [], db := fun _ => none } (changingOps ++ [.sync]) =
        some { trends := [], db := db' } ∧
      @RowOf False .float (db' ⟨.float, 1, 0⟩) [3 / 2, 3, 1] := by
  obtain ⟨db', hrun, h⟩ := trends_aggregate (fun _ => none) changingOps
    (by decide +kernel) ⟨by decide +kernel, by decide +kernel, by decide +kernel, by decide +kernel, trivial⟩
    (by decide +kernel) (by decide +kernel)
  refine ⟨db', hrun, ?_⟩
  have hvals : runValues changingOps ⟨.float, 1, 0⟩ = ([3 / 2, 3, 1] : List ℚ) := by decide +kernel
  rw [← hvals]
  exact (h _ rfl).1

/-- An unsigned entry that keeps its trends. -/
def uint64Entry (itemid : UInt64) (clock : Int32) (value : UInt64) : Sample ℚ :=
  { itemid := itemid, clock := clock, value := .uint64 value value, keepTrends := 365 }

/-- An hour whose first value does not fit a `long long`. -/
def cappedOps : List TrendOp := [.batch [uint64Entry 1 10 (2 ^ 63 + 5)], .sync, .batch [uint64Entry 1 20 3]]

/-- The greatest value is lost when the row is read for the second part. -/
theorem trends_capped :
    ∃ w, trendRun { trends := [], db := fun _ => none } (cappedOps ++ [.sync]) = some w ∧
      ¬RowOf False (w.db ⟨.uint64, 1, 0⟩) (runValues cappedOps ⟨.uint64, 1, 0⟩) := by
  have hrow : (trendRun { trends := [], db := fun _ => none } (cappedOps ++ [.sync])).map
      (fun w => (w.db ⟨.uint64, 1, 0⟩ : Option (TrendRow UInt64))) =
        some (some { num := 2, valueMin := 3, valueAvg := 2 ^ 62 + 1, valueMax := 2 ^ 63 - 1 }) := by
    decide +kernel
  obtain ⟨w, hrun, hdb⟩ := Option.map_eq_some_iff.mp hrow
  refine ⟨w, hrun, fun h => ?_⟩
  have hvals : runValues cappedOps ⟨.uint64, 1, 0⟩ = ([2 ^ 63 + 5, 3] : List UInt64) := by decide +kernel
  rw [hvals, show w.db ⟨.uint64, 1, 0⟩ = _ from hdb] at h
  have hmax : (2 ^ 63 - 1 : UInt64) ∈ ([2 ^ 63 + 5, 3] : List UInt64) := h.extremes.2.1
  revert hmax
  decide +kernel

end Zabbix
