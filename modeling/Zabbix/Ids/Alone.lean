import Zabbix.Ids.MaxId
import Zabbix.Ids.Reserved

/-!
# Zabbix.Ids.Alone

`DBget_maxid_num` of a client that has no other client between its statements,
for the columns that are not cached.

It goes through its loop three times at most: for a row of `ids` that is out of
range, for the row that is missing then, and for the one that has been inserted.
What it returns is the range behind `lastId` (`dbGetMaxidNum_eq`).
-/

namespace Zabbix

variable {schema : Schema} (nodeid : ℕ) (c : Column schema)

/-- The loop of `DBget_maxid_num`, for a number of rounds: the range that is
returned, whose end is the new `nextid`; `none` for `exit(FAIL)`. -/
def maxidRounds (num : ℕ) (column : List ℕ) : (rounds : ℕ) → (ids : Option ℕ) → Option IdRange
  | 0, _ => none
  | rounds + 1, none =>
      match selectMax (c.min nodeid) (c.max nodeid) column with
      | none => maxidRounds num column rounds (some (c.min nodeid))
      | some ret1 => if ret1 ≥ c.max nodeid then none else maxidRounds num column rounds (some ret1)
  | rounds + 1, some ret1 =>
      if ret1 < c.min nodeid ∨ ret1 ≥ c.max nodeid then maxidRounds num column rounds none
      else
        let ret2 := ret1 + num
        some ⟨ret2 - num + 1, ret2⟩

/-- `DBget_maxid_num` -/
def dbGetMaxidNum (num : ℕ) (ids : Option ℕ) (column : List ℕ) : Option IdRange :=
  maxidRounds nodeid c num column 3 ids

/-- The identifier behind which the next ones are: that of the row of `ids`, if
it is in range, or the greatest one in the table. -/
def lastId (ids : Option ℕ) (column : List ℕ) : ℕ :=
  match ids with
  | some ret1 =>
      if ret1 < c.min nodeid ∨ ret1 ≥ c.max nodeid then
        (selectMax (c.min nodeid) (c.max nodeid) column).getD (c.min nodeid)
      else ret1
  | none => (selectMax (c.min nodeid) (c.max nodeid) column).getD (c.min nodeid)

variable {nodeid} {c}

theorem min_lt_max : c.min nodeid < c.max nodeid := by
  rw [Column.min, Column.max, minId, maxId]
  split <;> omega

theorem maxidRounds_some {num ret1 : ℕ} {column : List ℕ} (rounds : ℕ) (hmin : c.min nodeid ≤ ret1)
    (hmax : ret1 < c.max nodeid) :
    maxidRounds nodeid c num column (rounds + 1) (some ret1) = some ⟨ret1 + 1, ret1 + num⟩ := by
  rw [maxidRounds, if_neg (by omega)]
  simp

theorem maxidRounds_none (num : ℕ) (column : List ℕ) (rounds : ℕ) :
    maxidRounds nodeid c num column (rounds + 2) none =
      if lastId nodeid c none column < c.max nodeid then
        some ⟨lastId nodeid c none column + 1, lastId nodeid c none column + num⟩
      else none := by
  rw [maxidRounds, lastId]
  cases hmax : selectMax (c.min nodeid) (c.max nodeid) column with
  | none =>
      rw [Option.getD_none, if_pos min_lt_max]
      exact maxidRounds_some rounds le_rfl min_lt_max
  | some ret1 =>
      rw [Option.getD_some]
      dsimp only
      by_cases h : ret1 < c.max nodeid
      · rw [if_neg (by omega), if_pos h]
        exact maxidRounds_some rounds (mem_selectMax hmax).2.1 h
      · rw [if_pos (by omega), if_neg h]

/-- **The range behind the last identifier**, unless the node has none left;
more rounds would come to the same. -/
theorem maxidRounds_eq (num : ℕ) (ids : Option ℕ) (column : List ℕ) (rounds : ℕ) :
    maxidRounds nodeid c num column (rounds + 3) ids =
      if lastId nodeid c ids column < c.max nodeid then
        some ⟨lastId nodeid c ids column + 1, lastId nodeid c ids column + num⟩
      else none := by
  cases ids with
  | none => exact maxidRounds_none num column (rounds + 1)
  | some ret1 =>
      by_cases h : ret1 < c.min nodeid ∨ ret1 ≥ c.max nodeid
      · rw [maxidRounds, if_pos h, lastId, if_pos h]
        exact maxidRounds_none num column rounds
      · rw [lastId, if_neg h, if_pos (by omega)]
        exact maxidRounds_some (rounds + 2) (by omega) (by omega)

theorem dbGetMaxidNum_eq (num : ℕ) (ids : Option ℕ) (column : List ℕ) :
    dbGetMaxidNum nodeid c num ids column =
      if lastId nodeid c ids column < c.max nodeid then
        some ⟨lastId nodeid c ids column + 1, lastId nodeid c ids column + num⟩
      else none :=
  maxidRounds_eq num ids column 0

/-- A row of `ids` that is not below the identifiers in the table. -/
def NotBelow (nodeid : ℕ) (c : Column schema) (ids : Option ℕ) (column : List ℕ) : Prop :=
  ∀ nextid, ids = some nextid → ∀ id ∈ column, id ≤ c.max nodeid → id ≤ nextid

theorem min_le_lastId (ids : Option ℕ) (column : List ℕ) : c.min nodeid ≤ lastId nodeid c ids column := by
  have hselect : c.min nodeid ≤ (selectMax (c.min nodeid) (c.max nodeid) column).getD (c.min nodeid) := by
    cases hmax : selectMax (c.min nodeid) (c.max nodeid) column with
    | none => exact le_rfl
    | some ret1 => exact (mem_selectMax hmax).2.1
  unfold lastId
  split
  · split
    · exact hselect
    · next h => omega
  · exact hselect

theorem lastId_le_max (ids : Option ℕ) (column : List ℕ) : lastId nodeid c ids column ≤ c.max nodeid := by
  have hselect : (selectMax (c.min nodeid) (c.max nodeid) column).getD (c.min nodeid) ≤ c.max nodeid := by
    cases hmax : selectMax (c.min nodeid) (c.max nodeid) column with
    | none => exact min_lt_max.le
    | some ret1 => exact (mem_selectMax hmax).2.2
  unfold lastId
  split
  · split
    · exact hselect
    · omega
  · exact hselect

/-- Nothing in the table is above the last identifier. -/
theorem le_lastId {ids : Option ℕ} {column : List ℕ} (h : NotBelow nodeid c ids column) {id : ℕ} (hid : id ∈ column)
    (hmax : id ≤ c.max nodeid) : id ≤ lastId nodeid c ids column := by
  have hselect : id ≤ (selectMax (c.min nodeid) (c.max nodeid) column).getD (c.min nodeid) := by
    by_cases hlow : id < c.min nodeid
    · have := @min_le_lastId _ nodeid c none column
      rw [lastId] at this
      omega
    · cases hselect : selectMax (c.min nodeid) (c.max nodeid) column with
      | none => exact absurd ⟨by omega, hmax⟩ (selectMax_eq_none hselect id hid)
      | some ret1 => exact le_selectMax hselect hid (by omega) hmax
  unfold lastId
  split
  · split
    · exact hselect
    · exact h _ rfl id hid hmax
  · exact hselect

/-- A row of `ids` in the range is what the last identifier comes from. -/
theorem lastId_some_le {nextid : ℕ} (hmin : c.min nodeid ≤ nextid) (hmax : nextid ≤ c.max nodeid) (column : List ℕ) :
    lastId nodeid c (some nextid) column ≤ nextid := by
  unfold lastId
  dsimp only
  split
  · have heq : nextid = c.max nodeid := by omega
    cases hselect : selectMax (c.min nodeid) (c.max nodeid) column with
    | none => exact hmin
    | some ret1 => exact heq ▸ (mem_selectMax hselect).2.2
  · exact le_rfl

/-- The row of `ids` after a call. -/
theorem notBelow_lastid {num : ℕ} {ids : Option ℕ} {column : List ℕ} (h : NotBelow nodeid c ids column) :
    NotBelow nodeid c (some (lastId nodeid c ids column + num)) column := by
  intro nextid hnext id hid hmax
  have := le_lastId h hid hmax
  obtain rfl := Option.some.inj hnext
  omega

/-! ## one client among none -/

/-- Some statements of one client, with no other client in between. -/
def MaxidState.alone (nodeid : ℕ) (c : Column schema) (s : MaxidState) (client k : ℕ) : MaxidState :=
  Run.run (MaxidState.step nodeid c) s (List.replicate k (.statement client))

namespace MaxidState

variable {s : MaxidState} {i num : ℕ}

theorem alone_add (k l : ℕ) : s.alone nodeid c i (k + l) = (s.alone nodeid c i k).alone nodeid c i l := by
  rw [alone, List.replicate_add, Run.run_append]
  rfl

@[simp] theorem alone_succ (k : ℕ) : s.alone nodeid c i (k + 1) = (s.statement nodeid c i).alone nodeid c i k := rfl

@[simp] theorem alone_zero : s.alone nodeid c i 0 = s := rfl

/-- What a client has come to. -/
def Returns (s s' : MaxidState) (client : ℕ) (r : Option IdRange) : Prop :=
  match r with
  | some range =>
      s'.clients client = .idle ∧ s'.ids = some range.lastid ∧ s'.served = s.served ++ [range] ∧ s'.column = s.column
  | none => s'.clients client = .exited ∧ s'.served = s.served ∧ s'.column = s.column

/-- A row in range: the select, the update and the second select. -/
theorem alone_inRange (hc : c.cached = false) (hi : s.clients i = .select num) {ret1 : ℕ} (hids : s.ids = some ret1)
    (hrange : ¬(ret1 < c.min nodeid ∨ ret1 ≥ c.max nodeid)) :
    s.Returns (s.alone nodeid c i 3) i (some ⟨ret1 + 1, ret1 + num⟩) := by
  simp [Returns, statement, goto, hi, hc, hids, hrange]

theorem Returns.of_same {s₁ s₂ : MaxidState} {r : Option IdRange} (h : s₁.Returns s₂ i r)
    (hserved : s₁.served = s.served) (hcolumn : s₁.column = s.column) : s.Returns s₂ i r := by
  cases r <;> simpa only [Returns, hserved, hcolumn] using h

/-- The insert of a row in range, and the next round. -/
theorem alone_insert (hc : c.cached = false) {ret1 : ℕ} (hi : s.clients i = .insert num ret1) (hids : s.ids = none)
    (hrange : ¬(ret1 < c.min nodeid ∨ ret1 ≥ c.max nodeid)) :
    s.Returns (s.alone nodeid c i 4) i (some ⟨ret1 + 1, ret1 + num⟩) := by
  simp [Returns, statement, goto, hi, hc, hids, hrange]

/-- No row: the two selects and the insert, or the exit. -/
theorem alone_noRow (hc : c.cached = false) (hi : s.clients i = .select num) (hids : s.ids = none) :
    ∃ k, s.Returns (s.alone nodeid c i k) i
      (if lastId nodeid c none s.column < c.max nodeid then
        some ⟨lastId nodeid c none s.column + 1, lastId nodeid c none s.column + num⟩
      else none) := by
  have hfirst : s.statement nodeid c i = s.goto i (.selectMax num) := by
    simp [statement, hi, hc, hids]
  have hsecond (next : MaxidClient) (h : (s.goto i (.selectMax num)).statement nodeid c i =
      (s.goto i (.selectMax num)).goto i next) : s.alone nodeid c i 2 = s.goto i next := by
    rw [alone_succ, alone_succ, alone_zero, hfirst, h]
    simp only [goto, Function.update_idem]
  have hinsert (ret1 : ℕ) (hrange : ¬(ret1 < c.min nodeid ∨ ret1 ≥ c.max nodeid))
      (h : s.alone nodeid c i 2 = s.goto i (.insert num ret1)) :
      ∃ k, s.Returns (s.alone nodeid c i k) i (some ⟨ret1 + 1, ret1 + num⟩) := by
    refine ⟨2 + 4, ?_⟩
    rw [alone_add, h]
    have hi' : (s.goto i (.insert num ret1)).clients i = .insert num ret1 := Function.update_self ..
    exact (alone_insert hc hi' hids hrange).of_same rfl rfl
  have hlow := @min_le_lastId _ nodeid c none s.column
  by_cases hmax : lastId nodeid c none s.column < c.max nodeid
  · rw [if_pos hmax]
    apply hinsert _ (by omega) (hsecond _ _)
    unfold lastId at hmax ⊢
    cases hselect : Zabbix.selectMax (c.min nodeid) (c.max nodeid) s.column with
    | none => simp [statement, goto, hselect]
    | some ret1 =>
        rw [hselect, Option.getD_some] at hmax
        simp [statement, goto, hselect, Nat.not_le.mpr hmax]
  · rw [if_neg hmax]
    refine ⟨2, ?_⟩
    rw [hsecond .exited]
    · simp [Returns, goto]
    · cases hselect : Zabbix.selectMax (c.min nodeid) (c.max nodeid) s.column with
      | none =>
          rw [lastId, hselect] at hmax
          exact absurd min_lt_max hmax
      | some ret1 =>
          rw [lastId, hselect, Option.getD_some] at hmax
          simp [statement, goto, hselect, Nat.not_lt.mp hmax]

/-- **Alone, a client gets the result of `dbGetMaxidNum`.** -/
theorem alone_returns (hc : c.cached = false) (hi : s.clients i = .select num) :
    ∃ k, s.Returns (s.alone nodeid c i k) i (dbGetMaxidNum nodeid c num s.ids s.column) := by
  rw [dbGetMaxidNum_eq]
  cases hids : s.ids with
  | none => exact alone_noRow hc hi hids
  | some ret1 =>
      by_cases hrange : ret1 < c.min nodeid ∨ ret1 ≥ c.max nodeid
      · -- the row is deleted, and the next round finds none
        have hfirst : s.statement nodeid c i = s.goto i (.delete num) := by
          simp [statement, hi, hc, hids, hrange]
        have hdelete : s.alone nodeid c i 2 = { s with ids := none } := by
          rw [alone_succ, alone_succ, alone_zero, hfirst]
          simp only [statement, goto, Function.update_self, Function.update_idem]
          rw [← hi, Function.update_eq_self]
        obtain ⟨k, hk⟩ := @alone_noRow _ nodeid c { s with ids := none } i num hc hi rfl
        refine ⟨2 + k, ?_⟩
        rw [alone_add, hdelete, lastId, if_pos hrange]
        exact hk.of_same rfl rfl
      · rw [lastId, if_neg hrange, if_pos (by omega)]
        exact ⟨3, alone_inRange hc hi hids hrange⟩

end MaxidState

end Zabbix
