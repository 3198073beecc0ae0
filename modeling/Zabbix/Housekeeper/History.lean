import Zabbix.Lib.CInt

/-!
# Zabbix.Housekeeper.History

The housekeeper's removal of old values: `delete_history` and
`housekeeping_history_and_trends` of `zabbix_server/housekeeper/housekeeper.c`.

A run visits six tables for every item and removes, of the rows that are older
than the item's period, those of one window behind the oldest; so it takes many
runs until all of them are gone.  The limits are `int`s, and `trends_uint` is
not among the six tables.

* `housekeepingHistoryAndTrends_eq` — what a run removes;
* `retains_iff` — when repeated runs keep what is to be kept and remove the rest.
-/

namespace Zabbix

/-! ## the tables -/

/-- The tables of the schema that hold values or trends of items. -/
inductive ValueTable
  | history
  | historyUint
  | historyStr
  | historyText
  | historyLog
  | trends
  | trendsUint
  | historySync
  | historyUintSync
  | historyStrSync
  | proxyHistory
  deriving DecidableEq

/-- A row, with its `clock` column of type `integer`. -/
structure ValueRow where
  table : ValueTable
  itemid : ℕ
  clock : ℤ
  clock_inRange : CInt.InRange clock
  deriving DecidableEq

/-- An item, with its periods in days. -/
structure KeptItem where
  itemid : ℕ
  history : ℤ
  trends : ℤ
  history_nonneg : 0 ≤ history
  history_inRange : CInt.InRange history
  trends_nonneg : 0 ≤ trends
  trends_inRange : CInt.InRange trends

/-- The items, by their primary key, and the rows of all tables. -/
structure ValueDb where
  items : List KeptItem
  rows : List ValueRow
  itemids_nodup : (items.map KeptItem.itemid).Nodup

/-- A run: its `now`, and `CONFIG_HOUSEKEEPING_FREQUENCY`, which is between 1 and
24 by the configuration parser. -/
structure HousekeeperRun where
  now : ℤ
  frequency : ℤ
  now_nonneg : 0 ≤ now
  now_inRange : CInt.InRange now
  one_le_frequency : 1 ≤ frequency
  frequency_le : frequency ≤ 24

/-! ## a run -/

/-- The clocks of an item in a table. -/
def ValueDb.clocks (db : ValueDb) (table : ValueTable) (itemid : ℕ) : List ℤ :=
  (db.rows.filter fun row => row.table = table ∧ row.itemid = itemid).map ValueRow.clock

/-- `delete from table where itemid=... and clock<...` -/
def ValueDb.deleteBefore (db : ValueDb) (table : ValueTable) (itemid : ℕ) (limit : ℤ) : ValueDb :=
  { db with rows := db.rows.filter fun row => ¬(row.table = table ∧ row.itemid = itemid ∧ row.clock < limit) }

namespace HousekeeperRun

variable (r : HousekeeperRun)

/-- `MIN(now-24*3600*keep_history, min_clock+4*3600*CONFIG_HOUSEKEEPING_FREQUENCY)`;
`none` when an `int` overflows. -/
def limit (keepHistory minClock : ℤ) : Option ℤ := do
  let period ← CInt.checked (24 * 3600 * keepHistory)
  let oldest ← CInt.checked (r.now - period)
  let window ← CInt.checked (minClock + 4 * 3600 * r.frequency)
  return min oldest window

/-- `delete_history`, with the number of rows that have been deleted so far. -/
def deleteHistory (table : ValueTable) (itemid : ℕ) (keepHistory : ℤ) (s : ValueDb × ℕ) : Option (ValueDb × ℕ) :=
  match (s.1.clocks table itemid).min? with
  | none => some s
  | some minClock => do
      let limit ← r.limit keepHistory minClock
      let db := s.1.deleteBefore table itemid limit
      return (db, s.2 + (s.1.rows.length - db.rows.length))

/-- The calls of `delete_history` for an item: tables and periods. -/
def visits (item : KeptItem) : List (ValueTable × ℤ) :=
  [(.history, item.history), (.historyUint, item.history), (.historyStr, item.history), (.historyText, item.history),
    (.historyLog, item.history), (.trends, item.trends)]

/-- `housekeeping_history_and_trends` -/
def housekeepingHistoryAndTrends (db : ValueDb) : Option (ValueDb × ℕ) :=
  db.items.foldlM
    (fun s item => (visits item).foldlM (fun s visit => r.deleteHistory visit.1 item.itemid visit.2 s) s) (db, 0)

/-- The tables after `n` runs at the same time. -/
def runs : ℕ → ValueDb → Option ValueDb
  | 0, db => some db
  | n + 1, db => do
      let db ← runs n db
      let s ← r.housekeepingHistoryAndTrends db
      return s.1

end HousekeeperRun

/-! ## what is to be kept -/

/-- The period of an item's rows in a table, in days. -/
def KeptItem.period (item : KeptItem) : ValueTable → ℤ
  | .trends | .trendsUint => item.trends
  | _ => item.history

namespace HousekeeperRun

variable (r : HousekeeperRun)

/-- The row is older than the period of its item. -/
def Outdated (items : List KeptItem) (row : ValueRow) : Prop :=
  ∃ item ∈ items, item.itemid = row.itemid ∧ row.clock < r.now - 24 * 3600 * item.period row.table

/-- No run removes a row within its period, and after some runs no other row is
left. -/
structure Retains (db : ValueDb) : Prop where
  keeps : ∀ n db', r.runs n db = some db' →
    ∃ s, r.housekeepingHistoryAndTrends db' = some s ∧ ∀ row ∈ db'.rows, ¬r.Outdated db'.items row → row ∈ s.1.rows
  removes : ∃ n db', r.runs n db = some db' ∧ ∀ row ∈ db'.rows, ¬r.Outdated db'.items row

/-- `delete_history` is called for the table. -/
def Visited (table : ValueTable) : Prop :=
  table ∈ [.history, .historyUint, .historyStr, .historyText, .historyLog, ValueTable.trends]

instance (table : ValueTable) : Decidable (Visited table) := inferInstanceAs (Decidable (_ ∈ _))

/-- A call of `delete_history`. -/
structure Visit where
  table : ValueTable
  itemid : ℕ
  keepHistory : ℤ

def itemVisits (item : KeptItem) : List Visit := (visits item).map fun visit => ⟨visit.1, item.itemid, visit.2⟩

/-- The calls of a run. -/
def runVisits (db : ValueDb) : List Visit := db.items.flatMap itemVisits

/-- The numbers that are computed for a table and an item are `int`s. -/
def Visit.Fits (v : Visit) (db : ValueDb) : Prop :=
  ∀ m ∈ (db.clocks v.table v.itemid).min?,
    CInt.InRange (24 * 3600 * v.keepHistory) ∧ CInt.InRange (m + 4 * 3600 * r.frequency)

/-- The numbers that are computed in a run are `int`s. -/
def Fits (db : ValueDb) : Prop := ∀ v ∈ runVisits db, v.Fits r db

/-! ## one call -/

theorem limit_eq {keepHistory m : ℤ} (hkeep : 0 ≤ keepHistory) (h : CInt.InRange (24 * 3600 * keepHistory))
    (hm : CInt.InRange (m + 4 * 3600 * r.frequency)) :
    r.limit keepHistory m = some (min (r.now - 24 * 3600 * keepHistory) (m + 4 * 3600 * r.frequency)) := by
  have hnow := r.now_nonneg
  have hle := r.now_inRange
  have hold : CInt.InRange (r.now - 24 * 3600 * keepHistory) := by
    rw [CInt.InRange] at *
    omega
  rw [limit, CInt.checked_of_inRange h, CInt.checked_of_inRange hm]
  change (CInt.checked (r.now - 24 * 3600 * keepHistory)).bind _ = _
  rw [CInt.checked_of_inRange hold]
  rfl

theorem inRange_of_limit {keepHistory m l : ℤ} (h : r.limit keepHistory m = some l) :
    CInt.InRange (24 * 3600 * keepHistory) ∧ CInt.InRange (m + 4 * 3600 * r.frequency) := by
  rw [limit] at h
  obtain ⟨period, hperiod, h⟩ := Option.bind_eq_some_iff.mp h
  obtain ⟨oldest, -, h⟩ := Option.bind_eq_some_iff.mp h
  obtain ⟨window, hwindow, -⟩ := Option.bind_eq_some_iff.mp h
  exact ⟨(CInt.checked_eq_some_iff.mp hperiod).1, (CInt.checked_eq_some_iff.mp hwindow).1⟩

/-- The limit of a call in exact numbers. -/
def Visit.limit (v : Visit) (db : ValueDb) : ℤ :=
  match (db.clocks v.table v.itemid).min? with
  | none => 0
  | some m => min (r.now - 24 * 3600 * v.keepHistory) (m + 4 * 3600 * r.frequency)

/-- The call removes the row. -/
def Visit.Hits (v : Visit) (db : ValueDb) (row : ValueRow) : Prop :=
  row.table = v.table ∧ row.itemid = v.itemid ∧ row.clock < v.limit r db

instance (v : Visit) (db : ValueDb) (row : ValueRow) : Decidable (v.Hits r db row) :=
  inferInstanceAs (Decidable (_ ∧ _ ∧ _))

variable {r}

theorem deleteHistory_of_fits {v : Visit} {db : ValueDb} (hkeep : 0 ≤ v.keepHistory) (h : v.Fits r db) (n : ℕ) :
    ∃ n', r.deleteHistory v.table v.itemid v.keepHistory (db, n) =
      some ({ db with rows := db.rows.filter fun row => ¬v.Hits r db row }, n') := by
  cases hmin : (db.clocks v.table v.itemid).min? with
  | none =>
      have hnil : db.rows.filter (fun row => row.table = v.table ∧ row.itemid = v.itemid) = [] :=
        List.map_eq_nil_iff.mp (List.min?_eq_none_iff.mp hmin)
      have hall : db.rows.filter (fun row => ¬v.Hits r db row) = db.rows := by
        refine List.filter_eq_self.mpr fun row hrow => decide_eq_true fun hhit => ?_
        exact List.filter_eq_nil_iff.mp hnil row hrow (decide_eq_true ⟨hhit.1, hhit.2.1⟩)
      exact ⟨n, by rw [hall, deleteHistory, hmin]⟩
  | some m =>
      obtain ⟨hperiod, hwindow⟩ := h m hmin
      have hlimit : v.limit r db = min (r.now - 24 * 3600 * v.keepHistory) (m + 4 * 3600 * r.frequency) := by
        rw [Visit.limit, hmin]
      refine ⟨n + (db.rows.length - (db.deleteBefore v.table v.itemid (v.limit r db)).rows.length), ?_⟩
      rw [deleteHistory, hmin]
      dsimp only
      rw [r.limit_eq hkeep hperiod hwindow, ← hlimit]
      rfl

theorem fits_of_deleteHistory {v : Visit} {s s' : ValueDb × ℕ}
    (h : r.deleteHistory v.table v.itemid v.keepHistory s = some s') : v.Fits r s.1 := by
  intro m hm
  rw [deleteHistory, hm] at h
  obtain ⟨l, hl, -⟩ := Option.bind_eq_some_iff.mp h
  exact r.inRange_of_limit hl

/-! ## a run -/

theorem housekeepingHistoryAndTrends_eq_foldlM (db : ValueDb) :
    r.housekeepingHistoryAndTrends db =
      (runVisits db).foldlM (fun s v => r.deleteHistory v.table v.itemid v.keepHistory s) (db, 0) := by
  have hitems : ∀ (items : List KeptItem) (s : ValueDb × ℕ),
      items.foldlM (fun s item =>
          (visits item).foldlM (fun s visit => r.deleteHistory visit.1 item.itemid visit.2 s) s) s =
        (items.flatMap itemVisits).foldlM (fun s v => r.deleteHistory v.table v.itemid v.keepHistory s) s := by
    intro items
    induction items with
    | nil => intro s; rfl
    | cons item items ih =>
        intro s
        rw [List.foldlM_cons, List.flatMap_cons, List.foldlM_append, itemVisits, List.foldlM_map]
        exact congrArg _ (funext ih)
  exact hitems db.items (db, 0)

/-- What a call removes makes no difference to the calls for other tables and items. -/
theorem clocks_filter {v w : Visit} {db : ValueDb} (hne : (v.table, v.itemid) ≠ (w.table, w.itemid)) :
    ({ db with rows := db.rows.filter fun row => ¬v.Hits r db row } : ValueDb).clocks w.table w.itemid =
      db.clocks w.table w.itemid := by
  rw [ValueDb.clocks, ValueDb.clocks, List.filter_filter]
  refine congrArg _ (List.filter_congr fun row _ => ?_)
  rw [Bool.and_eq_left_iff_imp]
  intro hrow
  have hrow := of_decide_eq_true hrow
  exact decide_eq_true fun hhit => hne (by rw [← hhit.1, ← hhit.2.1, hrow.1, hrow.2])

theorem fits_congr {v : Visit} {db db' : ValueDb} (h : db'.clocks v.table v.itemid = db.clocks v.table v.itemid) :
    (v.Fits r db' ↔ v.Fits r db) ∧ ∀ row, v.Hits r db' row ↔ v.Hits r db row := by
  have hlimit : v.limit r db' = v.limit r db := by rw [Visit.limit, Visit.limit, h]
  exact ⟨by rw [Visit.Fits, Visit.Fits, h], fun row => by rw [Visit.Hits, Visit.Hits, hlimit]⟩

theorem foldlM_of_fits {vs : List Visit} (hkeep : ∀ v ∈ vs, 0 ≤ v.keepHistory)
    (hnodup : (vs.map fun v => (v.table, v.itemid)).Nodup) {db : ValueDb} (h : ∀ v ∈ vs, v.Fits r db) (n : ℕ) :
    ∃ n', vs.foldlM (fun s v => r.deleteHistory v.table v.itemid v.keepHistory s) (db, n) =
      some ({ db with rows := db.rows.filter fun row => ∀ v ∈ vs, ¬v.Hits r db row }, n') := by
  induction vs generalizing db n with
  | nil => exact ⟨n, by simp⟩
  | cons v vs ih =>
      rw [List.map_cons, List.nodup_cons] at hnodup
      obtain ⟨n₁, hstep⟩ := deleteHistory_of_fits (hkeep v List.mem_cons_self) (h v List.mem_cons_self) n
      have hsame : ∀ w ∈ vs, ({ db with rows := db.rows.filter fun row => ¬v.Hits r db row } : ValueDb).clocks
          w.table w.itemid = db.clocks w.table w.itemid := by
        intro w hw
        exact clocks_filter fun heq => hnodup.1 (heq ▸ List.mem_map_of_mem hw)
      obtain ⟨n', hrest⟩ := ih (fun w hw => hkeep w (List.mem_cons_of_mem _ hw)) hnodup.2
        (fun w hw => (fits_congr (hsame w hw)).1.mpr (h w (List.mem_cons_of_mem _ hw))) n₁
      refine ⟨n', ?_⟩
      rw [List.foldlM_cons, hstep]
      refine hrest.trans ?_
      dsimp only
      rw [List.filter_filter]
      congr 3
      refine List.filter_congr fun row _ => ?_
      rw [← Bool.decide_and]
      refine decide_eq_decide.mpr ?_
      rw [List.forall_mem_cons, and_comm]
      exact and_congr_right fun _ => forall₂_congr fun w hw => not_congr ((fits_congr (hsame w hw)).2 row)

theorem fits_of_foldlM {vs : List Visit} (hkeep : ∀ v ∈ vs, 0 ≤ v.keepHistory)
    (hnodup : (vs.map fun v => (v.table, v.itemid)).Nodup) {db : ValueDb} {n : ℕ} {s : ValueDb × ℕ}
    (h : vs.foldlM (fun s v => r.deleteHistory v.table v.itemid v.keepHistory s) (db, n) = some s) :
    ∀ v ∈ vs, v.Fits r db := by
  induction vs generalizing db n with
  | nil => exact List.forall_mem_nil _
  | cons v vs ih =>
      rw [List.map_cons, List.nodup_cons] at hnodup
      rw [List.foldlM_cons] at h
      obtain ⟨s₁, hs₁, hrest⟩ := Option.bind_eq_some_iff.mp h
      have hv : v.Fits r db := fits_of_deleteHistory hs₁
      obtain ⟨n₁, hstep⟩ := deleteHistory_of_fits (hkeep v List.mem_cons_self) hv n
      obtain rfl := Option.some.inj (hs₁.symm.trans hstep)
      refine List.forall_mem_cons.mpr ⟨hv, fun w hw => ?_⟩
      have hsame := @clocks_filter r v w db fun heq => hnodup.1 (heq ▸ List.mem_map_of_mem hw)
      exact (fits_congr hsame).1.mp (ih (fun w hw => hkeep w (List.mem_cons_of_mem _ hw)) hnodup.2 hrest w hw)

theorem keys_nodup (db : ValueDb) : ((runVisits db).map fun v => (v.table, v.itemid)).Nodup := by
  rw [runVisits, List.map_flatMap, List.nodup_flatMap]
  refine ⟨fun item _ => by simp [itemVisits, visits], ?_⟩
  refine (List.pairwise_map.mp db.itemids_nodup).imp fun {item item'} hne => ?_
  intro key hkey hkey'
  obtain ⟨v, hv, rfl⟩ := List.mem_map.mp hkey
  obtain ⟨w, hw, heq⟩ := List.mem_map.mp hkey'
  obtain ⟨visit, -, rfl⟩ := List.mem_map.mp hv
  obtain ⟨visit', -, rfl⟩ := List.mem_map.mp hw
  exact hne (Prod.mk.inj heq).2.symm

/-- The calls for an item are those for the visited tables, with its periods. -/
theorem mem_visits_iff {item : KeptItem} {table : ValueTable} {keepHistory : ℤ} :
    (table, keepHistory) ∈ visits item ↔ Visited table ∧ keepHistory = item.period table := by
  have hvisits : visits item = [.history, .historyUint, .historyStr, .historyText, .historyLog, ValueTable.trends].map
      fun table => (table, item.period table) := rfl
  rw [hvisits, List.mem_map]
  constructor
  · rintro ⟨table', hvisited, h⟩
    obtain ⟨rfl, rfl⟩ := Prod.mk.inj h
    exact ⟨hvisited, rfl⟩
  · rintro ⟨hvisited, rfl⟩
    exact ⟨table, hvisited, rfl⟩

/-- The calls are those for the items and the visited tables, with the items' periods. -/
theorem mem_runVisits_iff {db : ValueDb} {v : Visit} :
    v ∈ runVisits db ↔
      ∃ item ∈ db.items, v.itemid = item.itemid ∧ Visited v.table ∧ v.keepHistory = item.period v.table := by
  rw [runVisits, List.mem_flatMap]
  refine exists_congr fun item => and_congr_right fun _ => ?_
  rw [itemVisits, List.mem_map]
  constructor
  · rintro ⟨⟨table, keepHistory⟩, hvisit, rfl⟩
    exact ⟨rfl, mem_visits_iff.mp hvisit⟩
  · rintro ⟨hid, hvisit⟩
    exact ⟨(v.table, v.keepHistory), mem_visits_iff.mpr hvisit, by rw [← hid]⟩

theorem keepHistory_nonneg {db : ValueDb} {v : Visit} (hv : v ∈ runVisits db) : 0 ≤ v.keepHistory := by
  obtain ⟨item, -, -, -, hperiod⟩ := mem_runVisits_iff.mp hv
  rw [hperiod]
  unfold KeptItem.period
  split
  · exact item.trends_nonneg
  · exact item.trends_nonneg
  · exact item.history_nonneg

variable (r) in
/-- The tables after a run. -/
def after (db : ValueDb) : ValueDb :=
  { db with rows := db.rows.filter fun row => ∀ v ∈ runVisits db, ¬v.Hits r db row }

/-- What a run removes, where no number overflows. -/
theorem housekeepingHistoryAndTrends_eq {db : ValueDb} (h : r.Fits db) :
    ∃ n, r.housekeepingHistoryAndTrends db = some (r.after db, n) := by
  rw [housekeepingHistoryAndTrends_eq_foldlM]
  exact foldlM_of_fits (fun _ => keepHistory_nonneg) (keys_nodup db) h 0

theorem fits_of_run {db : ValueDb} {s : ValueDb × ℕ} (h : r.housekeepingHistoryAndTrends db = some s) : r.Fits db := by
  rw [housekeepingHistoryAndTrends_eq_foldlM] at h
  exact fits_of_foldlM (fun _ => keepHistory_nonneg) (keys_nodup db) h

theorem mem_after_iff {db : ValueDb} {row : ValueRow} :
    row ∈ (r.after db).rows ↔ row ∈ db.rows ∧ ∀ v ∈ runVisits db, ¬v.Hits r db row := by
  rw [after, List.mem_filter, decide_eq_true_iff]

/-- The clocks of a row's table and item have a least one. -/
theorem exists_min {db : ValueDb} {row : ValueRow} (hrow : row ∈ db.rows) :
    ∃ m, (db.clocks row.table row.itemid).min? = some m ∧ m ≤ row.clock := by
  have hmem : row.clock ∈ db.clocks row.table row.itemid :=
    List.mem_map_of_mem (List.mem_filter.mpr ⟨hrow, decide_eq_true ⟨rfl, rfl⟩⟩)
  cases hmin : (db.clocks row.table row.itemid).min? with
  | none => exact absurd (List.min?_eq_none_iff.mp hmin ▸ hmem) List.not_mem_nil
  | some m => exact ⟨m, rfl, (List.min?_eq_some_iff.mp hmin).2 _ hmem⟩

/-- A row within its period stays. -/
theorem mem_after {db : ValueDb} {row : ValueRow} (hrow : row ∈ db.rows) (hkeep : ¬r.Outdated db.items row) :
    row ∈ (r.after db).rows := by
  refine mem_after_iff.mpr ⟨hrow, fun v hv hhit => hkeep ?_⟩
  obtain ⟨item, hitem, hid, -, hperiod⟩ := mem_runVisits_iff.mp hv
  obtain ⟨htable, hitemid, hclock⟩ := hhit
  obtain ⟨m, hmin, -⟩ := exists_min hrow
  rw [htable, hitemid] at hmin
  have hlimit : v.limit r db ≤ r.now - 24 * 3600 * v.keepHistory := by
    rw [Visit.limit, hmin]
    exact min_le_left _ _
  refine ⟨item, hitem, by rw [hitemid, hid], ?_⟩
  rw [htable, ← hperiod]
  exact hclock.trans_le hlimit

/-- A row of another table stays. -/
theorem mem_after_of_not_visited {db : ValueDb} {row : ValueRow} (hrow : row ∈ db.rows) (hnot : ¬Visited row.table) :
    row ∈ (r.after db).rows := by
  refine mem_after_iff.mpr ⟨hrow, fun v hv hhit => hnot ?_⟩
  obtain ⟨item, -, -, hvisited, -⟩ := mem_runVisits_iff.mp hv
  rwa [hhit.1]

/-- While a visited table has an outdated row, a run removes one: the oldest. -/
theorem length_after_lt {db : ValueDb} {row : ValueRow} (hrow : row ∈ db.rows) (hvisited : Visited row.table)
    (hold : r.Outdated db.items row) : (r.after db).rows.length < db.rows.length := by
  obtain ⟨item, hitem, hid, hclock⟩ := hold
  obtain ⟨m, hmin, hle⟩ := exists_min hrow
  obtain ⟨oldest, holdest, hm⟩ := List.mem_map.mp (List.min?_eq_some_iff.mp hmin).1
  obtain ⟨hmem, hsame⟩ := List.mem_filter.mp holdest
  obtain ⟨htable, hitemid⟩ := of_decide_eq_true hsame
  let v : Visit := ⟨row.table, row.itemid, item.period row.table⟩
  have hv : v ∈ runVisits db := mem_runVisits_iff.mpr ⟨item, hitem, hid.symm, hvisited, rfl⟩
  have hhit : v.Hits r db oldest := by
    refine ⟨htable, hitemid, ?_⟩
    rw [Visit.limit, hmin, hm]
    have hfrequency := r.one_le_frequency
    have hwindow : m < m + 4 * 3600 * r.frequency := by omega
    exact lt_min (hle.trans_lt hclock) hwindow
  rw [after, List.length_filter_lt_length_iff_exists]
  exact ⟨oldest, hmem, fun hstays => of_decide_eq_true hstays v hv hhit⟩

/-! ## many runs -/

theorem runs_succ {n : ℕ} {db db' : ValueDb} (h : r.runs (n + 1) db = some db') :
    ∃ db₁, r.runs n db = some db₁ ∧ r.Fits db₁ ∧ db' = r.after db₁ := by
  obtain ⟨db₁, hruns, h⟩ := Option.bind_eq_some_iff.mp h
  obtain ⟨s, hrun, hs⟩ := Option.bind_eq_some_iff.mp h
  have hfits := fits_of_run hrun
  obtain ⟨k, heq⟩ := housekeepingHistoryAndTrends_eq hfits
  obtain rfl := Option.some.inj (hrun.symm.trans heq)
  exact ⟨db₁, hruns, hfits, (Option.some.inj hs).symm⟩

theorem runs_of_fits {n : ℕ} {db db₁ : ValueDb} (hruns : r.runs n db = some db₁) (hfits : r.Fits db₁) :
    r.runs (n + 1) db = some (r.after db₁) := by
  obtain ⟨k, heq⟩ := housekeepingHistoryAndTrends_eq hfits
  rw [runs, hruns]
  change (r.housekeepingHistoryAndTrends db₁).bind _ = _
  rw [heq]
  rfl

/-- Runs leave the items as they are, add no row, and remove none within its
period and none of another table. -/
theorem runs_frame {n : ℕ} {db db' : ValueDb} (h : r.runs n db = some db') :
    db'.items = db.items ∧ (∀ row ∈ db'.rows, row ∈ db.rows) ∧
      ∀ row ∈ db.rows, ¬r.Outdated db.items row ∨ ¬Visited row.table → row ∈ db'.rows := by
  induction n generalizing db' with
  | zero =>
      obtain rfl := Option.some.inj h
      exact ⟨rfl, fun _ => id, fun _ hrow _ => hrow⟩
  | succ n ih =>
      obtain ⟨db₁, hruns, -, rfl⟩ := runs_succ h
      obtain ⟨hitems, hsub, hstay⟩ := ih hruns
      refine ⟨hitems, fun row hrow => hsub row (mem_after_iff.mp hrow).1, fun row hrow hkeep => ?_⟩
      have hmem := hstay row hrow hkeep
      cases hkeep with
      | inl hnew => exact mem_after hmem (hitems ▸ hnew)
      | inr hnot => exact mem_after_of_not_visited hmem hnot

/-- Either some run leaves the visited tables without outdated rows or every run
removes a row. -/
theorem runs_progress {db : ValueDb} (h : ∀ n db', r.runs n db = some db' → r.Fits db') (n : ℕ) :
    (∃ k db', r.runs k db = some db' ∧ ∀ row ∈ db'.rows, Visited row.table → ¬r.Outdated db'.items row) ∨
      ∃ db', r.runs n db = some db' ∧ db'.rows.length + n ≤ db.rows.length := by
  induction n with
  | zero => exact .inr ⟨db, rfl, le_rfl⟩
  | succ n ih =>
      obtain hdone | ⟨db', hruns, hlen⟩ := ih
      · exact .inl hdone
      · by_cases hclean : ∀ row ∈ db'.rows, Visited row.table → ¬r.Outdated db'.items row
        · exact .inl ⟨n, db', hruns, hclean⟩
        · push Not at hclean
          obtain ⟨row, hrow, hvisited, hold⟩ := hclean
          have hlt := length_after_lt hrow hvisited hold
          exact .inr ⟨_, runs_of_fits hruns (h n db' hruns), by omega⟩

theorem exists_runs {db : ValueDb} (h : ∀ n db', r.runs n db = some db' → r.Fits db') :
    ∃ k db', r.runs k db = some db' ∧ ∀ row ∈ db'.rows, Visited row.table → ¬r.Outdated db'.items row := by
  obtain hdone | ⟨db', -, hlen⟩ := runs_progress h (db.rows.length + 1)
  · exact hdone
  · omega

/-- Runs keep what is to be kept and remove the rest exactly when no number that
they compute overflows and the tables they do not visit have no outdated row. -/
theorem retains_iff (r : HousekeeperRun) (db : ValueDb) :
    r.Retains db ↔
      (∀ n db', r.runs n db = some db' → r.Fits db') ∧
        ∀ row ∈ db.rows, ¬Visited row.table → ¬r.Outdated db.items row := by
  constructor
  · rintro ⟨hkeeps, n, db', hruns, hclean⟩
    refine ⟨fun k db₁ hruns => ?_, fun row hrow hnot => ?_⟩
    · obtain ⟨s, hrun, -⟩ := hkeeps k db₁ hruns
      exact fits_of_run hrun
    · obtain ⟨hitems, -, hstay⟩ := runs_frame hruns
      exact hitems ▸ hclean row (hstay row hrow (.inr hnot))
  · rintro ⟨hfits, hnot⟩
    refine ⟨fun n db' hruns => ?_, ?_⟩
    · obtain ⟨k, hrun⟩ := housekeepingHistoryAndTrends_eq (hfits n db' hruns)
      exact ⟨_, hrun, fun row => mem_after⟩
    · obtain ⟨k, db', hruns, hclean⟩ := exists_runs hfits
      obtain ⟨hitems, hsub, -⟩ := runs_frame hruns
      refine ⟨k, db', hruns, fun row hrow => ?_⟩
      by_cases hvisited : Visited row.table
      · exact hclean row hrow hvisited
      · exact hitems ▸ hnot row (hsub row hrow) hvisited

/-- With periods of at most 24855 days and clocks that leave room for a window no
number overflows. -/
theorem runs_fits {db : ValueDb} (hperiods : ∀ item ∈ db.items, item.history ≤ 24855 ∧ item.trends ≤ 24855)
    (hclocks : ∀ row ∈ db.rows, row.clock + 4 * 3600 * r.frequency < 2 ^ 31) {n : ℕ} {db' : ValueDb}
    (h : r.runs n db = some db') : r.Fits db' := by
  obtain ⟨hitems, hsub, -⟩ := runs_frame h
  intro v hv m hm
  obtain ⟨item, hitem, -, -, hperiod⟩ := mem_runVisits_iff.mp hv
  obtain ⟨row, hrow, rfl⟩ := List.mem_map.mp (List.min?_eq_some_iff.mp hm).1
  have hroom := hclocks row (hsub row (List.mem_of_mem_filter hrow))
  have hclock := row.clock_inRange.1
  have hfrequency := r.one_le_frequency
  have hnonneg := keepHistory_nonneg hv
  have hle : v.keepHistory ≤ 24855 := by
    obtain ⟨hhistory, htrends⟩ := hperiods item (hitems ▸ hitem)
    rw [hperiod]
    unfold KeptItem.period
    split
    · exact htrends
    · exact htrends
    · exact hhistory
  rw [CInt.InRange, CInt.InRange]
  omega

/-- An item whose trends are kept for a year. -/
def yearOfTrends : KeptItem :=
  { itemid := 1, history := 90, trends := 365, history_nonneg := by decide, history_inRange := by decide
    trends_nonneg := by decide, trends_inRange := by decide }

/-- Its trend of 1970. -/
def oldTrend : ValueRow := ⟨.trendsUint, 1, 0, by decide⟩

def hourly : HousekeeperRun :=
  { now := 1000000000, frequency := 1, now_nonneg := by decide, now_inRange := by decide
    one_le_frequency := by decide, frequency_le := by decide }

theorem not_retains_trends_uint : ¬∀ (r : HousekeeperRun) (db : ValueDb), r.Retains db := by
  intro h
  obtain ⟨-, n, db', hruns, hclean⟩ := h hourly ⟨[yearOfTrends], [oldTrend], by decide⟩
  obtain ⟨hitems, -, hstay⟩ := runs_frame hruns
  have hmem : oldTrend ∈ db'.rows := hstay oldTrend (by decide) (.inr (by decide))
  refine hclean oldTrend hmem ⟨yearOfTrends, hitems ▸ List.mem_singleton_self _, rfl, ?_⟩
  decide

end HousekeeperRun

end Zabbix
