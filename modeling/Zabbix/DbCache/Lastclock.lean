import Zabbix.DbCache.Run
import Zabbix.Items.Nextcheck

/-!
# Zabbix.DbCache.Lastclock

The clock of an item that is in the history cache (`DCget_item_lastclock` of
`libs/zbxdbcache/dbcache.c`), and the number of items that are overdue, which is reckoned from it
(`DBget_queue_count` of `libs/zbxdbhigh/db.c`).

The ring is searched from its oldest entry on, so that of several entries of an item the first one
is found, and not the last one that was added.

* `lastclockRight_iff` — when the clock is that of the latest entry;
* `dbGetQueueCount_of_right` — the overdue items, where it is so for all of them.
-/

namespace Zabbix

variable {δ : Type}

/-! ## `DCget_item_lastclock` -/

/-- The loop of `DCget_item_lastclock`, with `n` entries to come from place `i` on. -/
def lastclockLoop (c : ZbxDcCache δ) (itemid : UInt64) : (n i : ℕ) → ℤ
  | 0, _ => fail
  | n + 1, i =>
      let index := CircBuf.index c.historyFirst i
      if (c.history index).itemid = itemid then (c.history index).clock.toInt else lastclockLoop c itemid n (i + 1)

/-- `DCget_item_lastclock` -/
def dcGetItemLastclock (c : ZbxDcCache δ) (itemid : UInt64) : ℤ := lastclockLoop c itemid c.historyNum 0

theorem lastclockLoop_eq (c : ZbxDcCache δ) (itemid : UInt64) (n i : ℕ) :
    lastclockLoop c itemid n i =
      (((CircBuf.contents c.history (CircBuf.index c.historyFirst i) n).find? (·.itemid = itemid)).map
        (·.clock.toInt)).getD fail := by
  induction n generalizing i with
  | zero => rfl
  | succ n ih =>
      rw [lastclockLoop, CircBuf.contents_succ, CircBuf.index_index]
      by_cases h : (c.history (CircBuf.index c.historyFirst i)).itemid = itemid
      · rw [List.find?_cons_of_pos (by simpa using h)]
        exact if_pos h
      · rw [List.find?_cons_of_neg (by simpa using h), ← ih]
        exact if_neg h

/-- What is found is the oldest entry of the item. -/
theorem dcGetItemLastclock_eq (c : ZbxDcCache δ) (itemid : UInt64) :
    dcGetItemLastclock c itemid = (((c.samples.filter (·.itemid = itemid)).head?).map (·.clock.toInt)).getD fail := by
  have hloop := lastclockLoop_eq c itemid c.historyNum 0
  rw [CircBuf.index_zero] at hloop
  rw [dcGetItemLastclock, hloop, List.head?_filter, ZbxDcCache.samples, List.find?_map, Option.map_map]
  rfl

/-- **The latest clock**: the clock of the entry of the item that was added last of those in the
queue, and `FAIL` just where there is none. -/
structure LastclockRight (w : HistoryRun δ) (itemid : UInt64) : Prop where
  latest (e : Sample δ) (h : (w.queued.filter (·.itemid = itemid)).getLast? = some e) :
    dcGetItemLastclock w.cache itemid = e.clock.toInt
  failed : dcGetItemLastclock w.cache itemid = fail ↔ w.queued.filter (·.itemid = itemid) = []

/-- The oldest entry of the item has the clock of the latest one, which is not `FAIL`. -/
def SameClock (w : HistoryRun δ) (itemid : UInt64) : Prop :=
  ∀ oldest latest, (w.queued.filter (·.itemid = itemid)).head? = some oldest →
    (w.queued.filter (·.itemid = itemid)).getLast? = some latest → oldest.clock = latest.clock ∧ latest.clock ≠ -1

/-- In every state of every run the latest clock is found just where the oldest one is the same. -/
theorem lastclockRight_iff [Zero δ] (p : ZbxProcess) (history : Fin zbxHistorySize → ZbxDcHistory δ Nat) (text : Mem)
    (ops : List (HistoryOp δ)) (itemid : UInt64) :
    LastclockRight (historyRun p history text ops) itemid ↔ SameClock (historyRun p history text ops) itemid := by
  have hinv : HistoryInv (historyRun p history text ops) := HistoryInv.run p history text ops
  generalize historyRun p history text ops = w at hinv
  have hclock := dcGetItemLastclock_eq w.cache itemid
  rw [hinv.samples_eq] at hclock
  have hfail (clock : Int32) : clock.toInt = fail ↔ clock = -1 := by
    rw [show fail = (-1 : Int32).toInt by decide, Int32.toInt_inj]
  constructor
  · rintro ⟨hlatest, hfailed⟩ oldest latest hhead hlast
    have hfound := hlatest latest hlast
    have hne : w.queued.filter (·.itemid = itemid) ≠ [] := by
      intro hnil
      rw [hnil] at hhead
      cases hhead
    rw [hhead] at hclock
    rw [hclock] at hfound hfailed
    have hsame : oldest.clock = latest.clock := Int32.toInt_inj.mp hfound
    refine ⟨hsame, fun hminus => hne (hfailed.mp ?_)⟩
    exact (hfail oldest.clock).mpr (hsame.trans hminus)
  · intro hsame
    cases hentries : w.queued.filter (·.itemid = itemid) with
    | nil =>
        rw [hentries] at hclock
        refine ⟨fun e he => ?_, ?_⟩
        · rw [hentries] at he
          cases he
        · rw [hclock, hentries]
          exact iff_of_true rfl rfl
    | cons oldest entries =>
        rw [hentries] at hclock
        have hlast := List.getLast?_eq_some_getLast (List.cons_ne_nil oldest entries)
        obtain ⟨hclocks, hminus⟩ := hsame oldest _ (by rw [hentries]; rfl) (by rw [hentries]; exact hlast)
        refine ⟨fun e he => ?_, ?_⟩
        · rw [hentries, hlast] at he
          rw [hclock, ← Option.some.inj he, ← hclocks]
          rfl
        · rw [hclock, hentries]
          refine iff_of_false (fun h => hminus ?_) (List.cons_ne_nil oldest entries)
          rw [← hclocks]
          exact (hfail oldest.clock).mp h

/-- Two entries of an item, the first of which is found. -/
theorem not_lastclockRight_two :
    ¬LastclockRight
      (historyRun .server (fun _ => { itemid := 0, clock := 0, value := .float (0 : ℤ) 0 }) (fun _ => 0)
        [.add (.float 7 0 100), .add (.float 7 0 200)]) 7 := by
  intro h
  exact absurd (h.latest { itemid := 7, clock := 200, value := .float 0 0 } rfl) (by decide)

/-! ## `DBget_queue_count` -/

/-- The columns that are selected; `lastclock` may be null. -/
structure QueueRow where
  itemid : UInt64
  type : ℤ
  delay : ℤ
  delayFlex : List UInt8
  lastclock : Option ℤ

/-- The clock that `DBget_queue_count` goes by: that of the cache, or else that of the row. -/
def QueueRow.clock (row : QueueRow) (cached : ℤ) : ℤ := if cached = fail then row.lastclock.getD 0 else cached

/-- The number of rows whose item is overdue; every row is met with the cache of its time. -/
def dbGetQueueCount (cal : Calendar) (now : ℤ) : List (QueueRow × ZbxDcCache δ) → Option ℕ
  | [] => some 0
  | (row, c) :: rows => do
      let lastclock := row.clock (dcGetItemLastclock c row.itemid)
      let nextcheck ← calculateItemNextcheck cal row.itemid row.type row.delay row.delayFlex lastclock
      let res ← dbGetQueueCount cal now rows
      return if nextcheck < now then res + 1 else res

/-- The clock of the latest value of an item, in the queue or in the database. -/
def QueueRow.latestClock (row : QueueRow) (w : HistoryRun δ) : ℤ :=
  match (w.queued.filter (·.itemid = row.itemid)).getLast? with
  | some e => e.clock.toInt
  | none => row.lastclock.getD 0

theorem LastclockRight.clock_eq {w : HistoryRun δ} {row : QueueRow} (h : LastclockRight w row.itemid) :
    row.clock (dcGetItemLastclock w.cache row.itemid) = row.latestClock w := by
  rw [QueueRow.clock, QueueRow.latestClock]
  cases hlast : (w.queued.filter (·.itemid = row.itemid)).getLast? with
  | none => exact if_pos (h.failed.mpr (List.getLast?_eq_none_iff.mp hlast))
  | some e =>
      have hfailed : ¬dcGetItemLastclock w.cache row.itemid = fail := by
        intro hfail
        rw [h.failed.mp hfail] at hlast
        cases hlast
      rw [if_neg hfailed, h.latest e hlast]

/-- Where the cache has the latest clock of every item, the overdue items are counted from it. -/
theorem dbGetQueueCount_of_right (cal : Calendar) (now : ℤ) {rows : List (QueueRow × HistoryRun δ)}
    (h : ∀ r ∈ rows, LastclockRight r.2 r.1.itemid) :
    dbGetQueueCount cal now (rows.map fun r => (r.1, r.2.cache)) =
      (rows.mapM fun r => calculateItemNextcheck cal r.1.itemid r.1.type r.1.delay r.1.delayFlex (r.1.latestClock r.2)).map
        fun nextchecks => nextchecks.countP (· < now) := by
  induction rows with
  | nil => rfl
  | cons r rows ih =>
      rw [List.forall_mem_cons] at h
      rw [List.map_cons, dbGetQueueCount, h.1.clock_eq, ih h.2, List.mapM_cons]
      rcases calculateItemNextcheck cal r.1.itemid r.1.type r.1.delay r.1.delayFlex (r.1.latestClock r.2) with _ | nextcheck
      · rfl
      · rcases rows.mapM _ with _ | nextchecks
        · rfl
        · by_cases hnow : nextcheck < now <;> simp [hnow]

end Zabbix
