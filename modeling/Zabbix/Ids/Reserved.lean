import Zabbix.Ids.NextId

/-!
# Zabbix.Ids.Reserved

What the cache of identifiers hands out.

The ranges of one column follow one another without an overlap, whatever calls
for other columns come in between, and start above all identifiers that were in
the table when the slot was filled.
-/

namespace Zabbix

variable {schema : Schema}

/-! ## slots -/

/-- Behind a free slot there are only free ones. -/
def Packed (ids : List ZbxDcId) : Prop := ids.Pairwise fun a b => a.tableName.val = [] → b.tableName.val = []

theorem packed_freeIds : Packed freeIds := by
  rw [Packed, freeIds, List.pairwise_replicate]
  exact .inr id

theorem strlcpyString_of_isName {name : CString} (h : IsName name) : strlcpyString name (zbxNameLen + 1) = name :=
  Subtype.ext (List.take_of_length_le h.2)

theorem slotOf_of_free {ids : List ZbxDcId} (h : ∀ id ∈ ids, id.tableName.val = []) (t f : CString) :
    slotOf t f ids = none := by
  cases ids with
  | nil => rfl
  | cons id ids => rw [slotOf, if_pos (h id (List.mem_cons_self ..))]

/-- No slot is left: all are taken by other columns. -/
theorem dcGetNextid_eq_none {t f : CString} {num lastid : ℕ} {ids : List ZbxDcId} :
    dcGetNextid t f num lastid ids = none ↔
      ∀ id ∈ ids, id.tableName.val ≠ [] ∧ ¬(id.tableName = t ∧ id.fieldName = f) := by
  induction ids with
  | nil => simp [dcGetNextid]
  | cons id ids ih =>
      rw [dcGetNextid, List.forall_mem_cons, ← ih]
      split
      · simp [*]
      · split
        · simp [*]
        · rw [Option.map_eq_none_iff]
          exact ⟨fun h => ⟨⟨by assumption, by assumption⟩, h⟩, And.right⟩

/-- **One call**: it hands out what follows the last identifier of the column,
and leaves the other columns alone. -/
theorem dcGetNextid_spec {t f : CString} (ht : IsName t) (hf : IsName f) {num lastid : ℕ} {ids ids' : List ZbxDcId}
    {range : IdRange} (hpacked : Packed ids) (h : dcGetNextid t f num lastid ids = some (range, ids')) :
    range = ⟨(slotOf t f ids).getD lastid + 1, (slotOf t f ids).getD lastid + num⟩ ∧
      slotOf t f ids' = some ((slotOf t f ids).getD lastid + num) ∧
      (∀ t' f', ¬(t' = t ∧ f' = f) → slotOf t' f' ids' = slotOf t' f' ids) ∧ Packed ids' := by
  induction ids generalizing ids' with
  | nil => cases h
  | cons id ids ih =>
      obtain ⟨hfree, hrest⟩ := List.pairwise_cons.mp hpacked
      rw [dcGetNextid] at h
      by_cases hempty : id.tableName.val = []
      · rw [if_pos hempty] at h
        obtain ⟨rfl, rfl⟩ := Prod.mk.inj (Option.some.inj h)
        have hids := fun x hx => hfree x hx hempty
        rw [strlcpyString_of_isName ht, strlcpyString_of_isName hf]
        simp only [slotOf, if_pos hempty, if_neg ht.1, and_self, if_true, Option.getD_none, true_and]
        refine ⟨fun t' f' hne => ?_, List.pairwise_cons.mpr ⟨fun x hx _ => hids x hx, hrest⟩⟩
        rw [if_neg (fun h => hne ⟨h.1.symm, h.2.symm⟩), slotOf_of_free hids]
      · rw [if_neg hempty] at h
        by_cases hmatch : id.tableName = t ∧ id.fieldName = f
        · rw [if_pos hmatch] at h
          obtain ⟨rfl, rfl⟩ := Prod.mk.inj (Option.some.inj h)
          simp only [slotOf, if_neg hempty, if_pos hmatch, Option.getD_some, true_and]
          refine ⟨fun t' f' hne => ?_, List.pairwise_cons.mpr ⟨fun x _ he => absurd he hempty, hrest⟩⟩
          have hne' : ¬(id.tableName = t' ∧ id.fieldName = f') := fun h =>
            hne ⟨h.1.symm.trans hmatch.1, h.2.symm.trans hmatch.2⟩
          rw [if_neg hne', if_neg hne']
        · rw [if_neg hmatch, Option.map_eq_some_iff] at h
          obtain ⟨⟨range', ids''⟩, hr, heq⟩ := h
          obtain ⟨rfl, rfl⟩ := Prod.mk.inj heq
          obtain ⟨hrange, hslot, hother, hpacked'⟩ := ih hrest hr
          simp only [slotOf, if_neg hempty, if_neg hmatch]
          exact ⟨hrange, hslot, fun t' f' hne => by rw [hother t' f' hne],
            List.pairwise_cons.mpr ⟨fun x _ he => absurd he hempty, hpacked'⟩⟩

/-! ## the first identifiers -/

theorem mem_selectMax {min max id : ℕ} {ids : List ℕ} (h : selectMax min max ids = some id) :
    id ∈ ids ∧ min ≤ id ∧ id ≤ max := by
  simpa using List.mem_filter.mp (List.max?_mem h)

theorem le_selectMax {min max m : ℕ} {ids : List ℕ} (h : selectMax min max ids = some m) {id : ℕ}
    (hid : id ∈ ids) (hmin : min ≤ id) (hmax : id ≤ max) : id ≤ m :=
  (List.max?_eq_some_iff.mp h).2 id (List.mem_filter.mpr ⟨hid, decide_eq_true ⟨hmin, hmax⟩⟩)

theorem selectMax_eq_none {min max : ℕ} {ids : List ℕ} (h : selectMax min max ids = none) :
    ∀ id ∈ ids, ¬(min ≤ id ∧ id ≤ max) := by
  intro id hid hrange
  have hnil := List.max?_eq_none_iff.mp h
  have hmem : id ∈ ids.filter fun id => min ≤ id ∧ id ≤ max :=
    List.mem_filter.mpr ⟨hid, decide_eq_true hrange⟩
  rw [hnil] at hmem
  cases hmem

/-- A slot starts in the range of the node, with no identifier of the table
above it there. -/
theorem le_fillLastid (nodeid : ℕ) (c : Column schema) (ids : List ℕ) :
    c.min nodeid ≤ fillLastid nodeid c ids ∧
      ∀ id ∈ ids, c.min nodeid ≤ id → id ≤ c.max nodeid → id ≤ fillLastid nodeid c ids := by
  rw [fillLastid]
  cases h : selectMax (c.min nodeid) (c.max nodeid) ids with
  | some m => exact ⟨(mem_selectMax h).2.1, fun id hid => le_selectMax h hid⟩
  | none => exact ⟨Nat.le_succ _, fun id hid hmin hmax => absurd ⟨hmin, hmax⟩ (selectMax_eq_none h id hid)⟩

/-! ## runs -/

namespace IdCache

/-- The last identifier of a column, if it has a slot. -/
def lastid (s : IdCache schema) (c : Column schema) : Option ℕ := slotOf c.tablename c.fieldname s.ids

/-- The call that has filled the slot of a column. -/
def filledBy (s : IdCache schema) (c : Column schema) : Option (IdCall schema × IdRange) :=
  s.served.find? (·.1.column = c)

/-- The slots and the ranges fit together. -/
structure Consistent (nodeid : ℕ) (s : IdCache schema) : Prop where
  packed : Packed s.ids
  /-- what has been handed out for a column is not above the last identifier in
  its slot -/
  le_lastid : ∀ x ∈ s.served, ∃ last, s.lastid x.1.column = some last ∧ x.2.lastid ≤ last
  filled : ∀ c last, s.lastid c = some last → ∃ x ∈ s.served, x.1.column = c
  increasing : s.served.Pairwise fun a b => a.1.column = b.1.column → a.2.nextid + a.1.num ≤ b.2.nextid
  length : ∀ x ∈ s.served, x.2.lastid + 1 = x.2.nextid + x.1.num
  above : ∀ x ∈ s.served, ∀ first, s.filledBy x.1.column = some first → ∀ id ∈ first.1.ids,
    first.1.column.min nodeid ≤ id → id ≤ first.1.column.max nodeid → id < x.2.nextid

variable {nodeid : ℕ} {s : IdCache schema}

theorem consistent_initial (nodeid : ℕ) : (initial schema).Consistent nodeid where
  packed := packed_freeIds
  le_lastid := fun _ h => nomatch h
  filled c last h := by
    have hfree : ∀ id ∈ freeIds, id.tableName.val = [] := by decide
    have hnone : (initial schema).lastid c = none := slotOf_of_free hfree _ _
    rw [hnone] at h
    cases h
  increasing := .nil
  length := fun _ h => nomatch h
  above := fun _ h => nomatch h

/-- What a call that returns does. -/
theorem Consistent.step_spec (h : s.Consistent nodeid) (call : IdCall schema) :
    s.step nodeid call = s ∨
      ∃ ids, s.step nodeid call = { ids := ids, served := s.served ++ [(call,
          ⟨(s.lastid call.column).getD (fillLastid nodeid call.column call.ids) + 1,
            (s.lastid call.column).getD (fillLastid nodeid call.column call.ids) + call.num⟩)] } ∧
        Packed ids ∧
        slotOf call.column.tablename call.column.fieldname ids =
          some ((s.lastid call.column).getD (fillLastid nodeid call.column call.ids) + call.num) ∧
        ∀ c : Column schema, c ≠ call.column → slotOf c.tablename c.fieldname ids = s.lastid c := by
  rw [step]
  cases hcall : dcGetNextid call.column.tablename call.column.fieldname call.num
      (fillLastid nodeid call.column call.ids) s.ids with
  | none => exact .inl rfl
  | some r =>
      obtain ⟨range, ids⟩ := r
      obtain ⟨rfl, hslot, hother, hpacked⟩ :=
        dcGetNextid_spec call.column.isName_tablename call.column.isName_fieldname h.packed hcall
      exact .inr ⟨ids, rfl, hpacked, hslot, fun c hne =>
        hother _ _ fun heq => hne (Column.eq_of_names heq.1 heq.2)⟩

/-- **One call.** -/
theorem Consistent.step (h : s.Consistent nodeid) (call : IdCall schema) : (s.step nodeid call).Consistent nodeid := by
  rcases h.step_spec call with hstep | ⟨ids, hstep, hpacked, hslot, hother⟩
  · rw [hstep]
    exact h
  · rw [hstep]
    set base := (s.lastid call.column).getD (fillLastid nodeid call.column call.ids) with hbase
    -- what has been handed out for the column before is not above the base
    have hle : ∀ x ∈ s.served, x.1.column = call.column → x.2.lastid ≤ base := by
      intro x hx hcolumn
      obtain ⟨last, hlast, hxlast⟩ := h.le_lastid x hx
      rw [hcolumn] at hlast
      rw [hbase, hlast]
      exact hxlast
    constructor
    · exact hpacked
    · rw [List.forall_mem_append]
      refine ⟨fun x hx => ?_, fun x hx => ?_⟩
      · by_cases hcolumn : x.1.column = call.column
        · rw [hcolumn]
          exact ⟨_, hslot, Nat.le_trans (hle x hx hcolumn) (Nat.le_add_right ..)⟩
        · obtain ⟨last, hlast, hxlast⟩ := h.le_lastid x hx
          exact ⟨last, (hother _ hcolumn).trans hlast, hxlast⟩
      · rw [List.mem_singleton.mp hx]
        exact ⟨_, hslot, Nat.le_refl _⟩
    · intro c last hlast
      by_cases hcolumn : c = call.column
      · exact ⟨_, List.mem_append_right _ (List.mem_singleton_self _), hcolumn.symm⟩
      · obtain ⟨x, hx, hxc⟩ := h.filled c last ((hother c hcolumn).symm.trans hlast)
        exact ⟨x, List.mem_append_left _ hx, hxc⟩
    · rw [List.pairwise_append]
      refine ⟨h.increasing, List.pairwise_singleton _ _, fun x hx y hy hcolumn => ?_⟩
      rw [List.mem_singleton.mp hy] at hcolumn ⊢
      have hlast := hle x hx hcolumn
      have hlength := h.length x hx
      dsimp only
      omega
    · rw [List.forall_mem_append]
      refine ⟨h.length, fun x hx => ?_⟩
      rw [List.mem_singleton.mp hx]
      dsimp only
      omega
    · rw [List.forall_mem_append]
      have hfilled : ∀ c, (∃ x ∈ s.served, x.1.column = c) →
          filledBy { ids := ids, served := s.served ++ [(call, ⟨base + 1, base + call.num⟩)] } c = s.filledBy c := by
        rintro c ⟨x, hx, hxc⟩
        rw [filledBy, filledBy, List.find?_append]
        have hsome : (s.served.find? (·.1.column = c)).isSome :=
          List.find?_isSome.mpr ⟨x, hx, decide_eq_true hxc⟩
        obtain ⟨y, hy⟩ := Option.isSome_iff_exists.mp hsome
        rw [hy]
        rfl
      refine ⟨fun x hx first hfirst => ?_, fun x hx first hfirst id hid hmin hmax => ?_⟩
      · rw [hfilled _ ⟨x, hx, rfl⟩] at hfirst
        exact h.above x hx first hfirst
      · rw [List.mem_singleton.mp hx] at hfirst ⊢
        change id < base + 1
        rw [Nat.lt_succ_iff]
        cases hlast : s.lastid call.column with
        | none =>
            have hnone : ∀ x ∈ s.served, x.1.column ≠ call.column := by
              intro x hx hcolumn
              obtain ⟨last, hsome, -⟩ := h.le_lastid x hx
              rw [hcolumn, hlast] at hsome
              cases hsome
            have hfind : s.served.find? (·.1.column = call.column) = none :=
              List.find?_eq_none.mpr fun x hx => by simpa using hnone x hx
            rw [filledBy, List.find?_append, hfind] at hfirst
            have hcall : first = (call, ⟨base + 1, base + call.num⟩) := by simpa using hfirst.symm
            rw [hcall] at hid hmin hmax
            rw [hbase, hlast]
            exact (le_fillLastid nodeid call.column call.ids).2 id hid hmin hmax
        | some last =>
            have hexists := h.filled _ last hlast
            rw [hfilled _ hexists] at hfirst
            obtain ⟨x, hx, hxc⟩ := hexists
            have habove := h.above x hx first (hxc ▸ hfirst) id hid hmin hmax
            have hlength := h.length x hx
            have hpos := x.1.pos
            have hxle := hle x hx hxc
            omega

/-- There is a slot for a call. -/
def HasSlot (s : IdCache schema) (call : IdCall schema) : Prop :=
  ∃ id ∈ s.ids, id.tableName.val = [] ∨
    id.tableName = call.column.tablename ∧ id.fieldName = call.column.fieldname

/-- A call for which there is a slot returns. -/
theorem served_step {call : IdCall schema} (hslot : s.HasSlot call) :
    (s.step nodeid call).served.map (·.1) = s.served.map (·.1) ++ [call] := by
  rw [step]
  cases hcall : dcGetNextid call.column.tablename call.column.fieldname call.num
      (fillLastid nodeid call.column call.ids) s.ids with
  | none =>
      obtain ⟨id, hid, hfree⟩ := hslot
      obtain ⟨hne, hother⟩ := dcGetNextid_eq_none.mp hcall id hid
      exact absurd (hfree.resolve_left hne) hother
  | some r => exact List.map_append

/-- As long as the slots do not overflow, all calls return. -/
theorem served_run {calls : List (IdCall schema)} (hslots : Run.Along (IdCache.step nodeid) HasSlot s calls) :
    (Run.run (IdCache.step nodeid) s calls).served.map (·.1) = s.served.map (·.1) ++ calls := by
  induction calls generalizing s with
  | nil => exact (List.append_nil _).symm
  | cons call calls ih => rw [Run.run_cons, ih hslots.2, served_step hslots.1, List.append_assoc, List.singleton_append]

end IdCache

/-- **The ranges of a column** follow one another, each as long as it was asked
for, above all that was in the table, in the range of the node, when the slot
of the column was filled; and all calls return, as long as the slots do not
overflow. -/
theorem nextids_reserved (nodeid : ℕ) (calls : List (IdCall schema)) :
    (Run.Along (IdCache.step nodeid) IdCache.HasSlot (IdCache.initial schema) calls →
      (Run.run (IdCache.step nodeid) (IdCache.initial schema) calls).served.map (·.1) = calls) ∧
    ((Run.run (IdCache.step nodeid) (IdCache.initial schema) calls).served.Pairwise fun a b =>
      a.1.column = b.1.column → a.2.nextid + a.1.num ≤ b.2.nextid) ∧
    (∀ x ∈ (Run.run (IdCache.step nodeid) (IdCache.initial schema) calls).served,
      x.2.lastid + 1 = x.2.nextid + x.1.num) ∧
    ∀ x ∈ (Run.run (IdCache.step nodeid) (IdCache.initial schema) calls).served, ∀ first,
      (Run.run (IdCache.step nodeid) (IdCache.initial schema) calls).filledBy x.1.column = some first →
      ∀ id ∈ first.1.ids, first.1.column.min nodeid ≤ id → id ≤ first.1.column.max nodeid →
        id < x.2.nextid := by
  have h : (Run.run (IdCache.step nodeid) (IdCache.initial schema) calls).Consistent nodeid :=
    Run.invariant_run' (fun _ call hs => hs.step call) (IdCache.consistent_initial nodeid) calls
  exact ⟨IdCache.served_run, h.increasing, h.length, h.above⟩

end Zabbix
