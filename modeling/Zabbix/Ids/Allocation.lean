import Zabbix.Ids.MaxId
import Zabbix.Ids.Reserved

/-!
# Zabbix.Ids.Allocation

The identifiers that clients get side by side.

A client that finds the counter where its own update has left it knows that no
other update came in between, so that what its update has added is its own.
This needs that the counter only grows.  The delete of a row that is out of
range takes away that of another client, if that has created the row again
meanwhile; as long as this does not happen, all ranges are apart.
-/

namespace Zabbix

/-- Two ranges without a common identifier. -/
def IdRange.Disjoint (a b : IdRange) : Prop := a.lastid < b.nextid ∨ b.lastid < a.nextid

theorem IdRange.Disjoint.not_mem {a b : IdRange} (h : a.Disjoint b) {id : ℕ} (ha : IdRange.Mem id a) :
    ¬IdRange.Mem id b := by
  intro hb
  rw [Disjoint] at h
  rw [Mem] at ha hb
  omega

/-- Clients that have not looked at the row of `ids`. -/
def MaxidClient.Resting : MaxidClient → Prop
  | .idle | .select _ | .exited => True
  | .selectMax _ | .insert .. | .increment _ | .delete _ | .update .. | .reselect .. => False

/-- Clients that have not found a row of `ids` in range. -/
def MaxidClient.Waiting : MaxidClient → Prop
  | .update .. | .reselect .. => False
  | .idle | .select _ | .exited | .selectMax _ | .insert .. | .increment _ | .delete _ => True

theorem MaxidClient.Resting.waiting {m : MaxidClient} (h : m.Resting) : m.Waiting := by
  cases m <;> trivial

namespace MaxidState

variable {schema : Schema} (nodeid : ℕ) (c : Column schema)

/-- The last identifier that is taken, by the row of `ids` or by the slot. -/
def counter (s : MaxidState) : Option ℕ :=
  if c.cached then slotOf c.tablename c.fieldname s.slots else s.ids

/-- A step that does not go beyond the range of the node, nor deletes a row of
`ids` that is not below it. -/
def Orderly (s : MaxidState) : MaxidEvent → Prop
  | .statement client =>
      match s.clients client with
      | .select num =>
          c.cached → (s.counter c).getD (fillLastid nodeid c s.column) + num ≤ c.max nodeid
      | .update num _ => ∀ nextid, s.ids = some nextid → nextid + num ≤ c.max nodeid
      | .delete _ => ∀ nextid, s.ids = some nextid → nextid < c.min nodeid
      | .idle | .exited | .selectMax _ | .insert .. | .increment _ | .reselect .. => True
  | .call .. | .insertRow _ => True

/-- An identifier that is not below the range of the node, nor any that was
present. -/
def Above (s : MaxidState) (id : ℕ) : Prop :=
  c.min nodeid ≤ id ∧ ∀ id' ∈ s.present, id' ≤ c.max nodeid → id' ≤ id

/-- No row of `ids` yet, or one below the range. -/
structure Stale (s : MaxidState) : Prop where
  not_cached : c.cached = false
  ids : ∃ nextid, s.ids = some nextid ∧ nextid < c.min nodeid
  served : s.served = []
  clients : ∀ i, (s.clients i).Resting ∨ ∃ num, s.clients i = .delete num

/-- Nothing to count with: no row of `ids`, and no slot. -/
structure Absent (s : MaxidState) : Prop where
  counter : s.counter c = none
  served : s.served = []
  cached : c.cached = true → ∀ i, (s.clients i).Resting
  waiting : ∀ i, (s.clients i).Waiting
  not_increment : ∀ i num, s.clients i ≠ .increment num
  insert : ∀ i num ret1, s.clients i = .insert num ret1 →
    c.min nodeid ≤ ret1 ∧ ∀ id ∈ s.column, id ≤ c.max nodeid → id ≤ ret1

/-- The counter is at `nextid`, and what client `i` has added to it follows
`own i`. -/
structure Counting (s : MaxidState) (nextid : ℕ) (own : ℕ → ℕ) : Prop where
  counter : s.counter c = some nextid
  above : s.Above nodeid c nextid
  cached : c.cached = true → ∀ i, (s.clients i).Resting
  update : ∀ i num ret1, s.clients i = .update num ret1 → s.Above nodeid c ret1 ∧ ret1 ≤ nextid
  reselect : ∀ i num ret1, s.clients i = .reselect num ret1 →
    s.Above nodeid c ret1 ∧ ret1 ≤ own i ∧ own i + num ≤ nextid ∧ own i + num ≤ c.max nodeid
  own_served : ∀ i num ret1, s.clients i = .reselect num ret1 →
    ∀ r ∈ s.served, r.lastid ≤ own i ∨ own i + num < r.nextid
  apart : ∀ i j, i ≠ j → ∀ num ret1 num' ret1', s.clients i = .reselect num ret1 →
    s.clients j = .reselect num' ret1' → own i + num ≤ own j ∨ own j + num' ≤ own i
  served : ∀ r ∈ s.served, r.lastid ≤ nextid ∧ r.lastid ≤ c.max nodeid ∧
    ∃ before, r.nextid = before + 1 ∧ s.Above nodeid c before
  disjoint : s.served.Pairwise IdRange.Disjoint

variable {nodeid} {c} {s : MaxidState}

@[simp] theorem goto_clients (s : MaxidState) (i : ℕ) (next : MaxidClient) :
    (s.goto i next).clients = Function.update s.clients i next := rfl

/-- One client goes on without an update, and the counter has grown at most. -/
theorem Counting.leave {nextid : ℕ} {own : ℕ → ℕ} (h : s.Counting nodeid c nextid own) {s' : MaxidState}
    {i : ℕ} {next : MaxidClient} {nextid' : ℕ} (hclients : s'.clients = Function.update s.clients i next)
    (hnext : next.Waiting) (hcached : c.cached = true → next.Resting) (hcounter : s'.counter c = some nextid')
    (hle : nextid ≤ nextid') (hserved : s'.served = s.served) (hpresent : s'.present = s.present) :
    s'.Counting nodeid c nextid' own := by
  have habove : ∀ id, s.Above nodeid c id → s'.Above nodeid c id := by
    intro id hid
    rwa [Above, hpresent]
  have hother : ∀ {j : ℕ} {at' : MaxidClient}, ¬at'.Waiting → s'.clients j = at' → j ≠ i ∧ s.clients j = at' := by
    intro j at' hat hj
    rw [hclients] at hj
    by_cases hji : j = i
    · rw [hji, Function.update_self] at hj
      exact absurd (hj ▸ hnext) hat
    · rw [Function.update_of_ne hji] at hj
      exact ⟨hji, hj⟩
  constructor
  · exact hcounter
  · obtain ⟨hmin, hid⟩ := habove _ h.above
    exact ⟨Nat.le_trans hmin hle, fun id' hmem hmax => Nat.le_trans (hid id' hmem hmax) hle⟩
  · intro hc j
    rw [hclients]
    by_cases hji : j = i
    · rw [hji, Function.update_self]
      exact hcached hc
    · rw [Function.update_of_ne hji]
      exact h.cached hc j
  · intro j num ret1 hj
    obtain ⟨ha, hret⟩ := h.update j num ret1 (hother id hj).2
    exact ⟨habove _ ha, Nat.le_trans hret hle⟩
  · intro j num ret1 hj
    obtain ⟨ha, hret, hown, hmax⟩ := h.reselect j num ret1 (hother id hj).2
    exact ⟨habove _ ha, hret, Nat.le_trans hown hle, hmax⟩
  · intro j num ret1 hj
    rw [hserved]
    exact h.own_served j num ret1 (hother id hj).2
  · intro j k hjk num ret1 num' ret1' hj hk
    exact h.apart j k hjk num ret1 num' ret1' (hother id hj).2 (hother id hk).2
  · rw [hserved]
    intro r hr
    obtain ⟨hlast, hmax, before, hbefore, ha⟩ := h.served r hr
    exact ⟨Nat.le_trans hlast hle, hmax, before, hbefore, habove _ ha⟩
  · rw [hserved]
    exact h.disjoint

/-- A client that goes on, and another one. -/
theorem clients_goto_of_ne {i j : ℕ} (hji : j ≠ i) (next : MaxidClient) :
    (s.goto i next).clients j = s.clients j := Function.update_of_ne hji _ _

theorem clients_goto_self (s : MaxidState) (i : ℕ) (next : MaxidClient) : (s.goto i next).clients i = next :=
  Function.update_self ..

/-- The first select finds the row in range. -/
theorem Counting.selected {nextid : ℕ} {own : ℕ → ℕ} (h : s.Counting nodeid c nextid own)
    (hcached : c.cached = false) (i num : ℕ) :
    (s.goto i (.update num nextid)).Counting nodeid c nextid own := by
  have hreselect : ∀ {j num' ret1'}, (s.goto i (.update num nextid)).clients j = .reselect num' ret1' →
      s.clients j = .reselect num' ret1' := by
    intro j num' ret1' hj
    by_cases hji : j = i
    · rw [hji, clients_goto_self] at hj
      cases hj
    · rwa [clients_goto_of_ne hji] at hj
  refine
    { counter := h.counter
      above := h.above
      cached := fun hc => absurd (hcached.symm.trans hc) (by decide)
      update := fun j num' ret1' hj => ?_
      reselect := fun j num' ret1' hj => h.reselect j num' ret1' (hreselect hj)
      own_served := fun j num' ret1' hj => h.own_served j num' ret1' (hreselect hj)
      apart := fun j k hjk _ _ _ _ hj hk => h.apart j k hjk _ _ _ _ (hreselect hj) (hreselect hk)
      served := h.served
      disjoint := h.disjoint }
  by_cases hji : j = i
  · rw [hji, clients_goto_self] at hj
    obtain ⟨rfl, rfl⟩ := MaxidClient.update.inj hj
    exact ⟨h.above, Nat.le_refl _⟩
  · rw [clients_goto_of_ne hji] at hj
    exact h.update j num' ret1' hj

/-- **The update**: what it adds belongs to the client. -/
theorem Counting.updated {nextid : ℕ} {own : ℕ → ℕ} (h : s.Counting nodeid c nextid own) {i num ret1 : ℕ}
    (hi : s.clients i = .update num ret1) (hcached : c.cached = false) (hmax : nextid + num ≤ c.max nodeid) :
    Counting nodeid c { s.goto i (.reselect num ret1) with ids := some (nextid + num) } (nextid + num)
      (Function.update own i nextid) := by
  obtain ⟨habove, hret⟩ := h.update i num ret1 hi
  constructor
  · simp [MaxidState.counter, hcached]
  · exact ⟨Nat.le_trans h.above.1 (Nat.le_add_right ..),
      fun id hid hle => Nat.le_trans (h.above.2 id hid hle) (Nat.le_add_right ..)⟩
  · exact fun hc => absurd (hcached.symm.trans hc) (by decide)
  · intro j num' ret1' hj
    by_cases hji : j = i
    · rw [hji] at hj
      cases (clients_goto_self s i (.reselect num ret1)).symm.trans hj
    · obtain ⟨ha, hle⟩ := h.update j num' ret1' ((clients_goto_of_ne hji _).symm.trans hj)
      exact ⟨ha, Nat.le_trans hle (Nat.le_add_right ..)⟩
  · intro j num' ret1' hj
    by_cases hji : j = i
    · rw [hji] at hj
      obtain ⟨rfl, rfl⟩ :=
        MaxidClient.reselect.inj ((clients_goto_self s i (.reselect num ret1)).symm.trans hj)
      rw [hji, Function.update_self]
      exact ⟨habove, hret, Nat.le_refl _, hmax⟩
    · obtain ⟨ha, hle, hown, hmax'⟩ := h.reselect j num' ret1' ((clients_goto_of_ne hji _).symm.trans hj)
      rw [Function.update_of_ne hji]
      exact ⟨ha, hle, Nat.le_trans hown (Nat.le_add_right ..), hmax'⟩
  · intro j num' ret1' hj r hr
    by_cases hji : j = i
    · rw [hji, Function.update_self]
      exact .inl (h.served r hr).1
    · rw [Function.update_of_ne hji]
      exact h.own_served j num' ret1' ((clients_goto_of_ne hji _).symm.trans hj) r hr
  · -- what another client has added was added before
    have hother : ∀ {j num' ret1'}, j ≠ i →
        MaxidState.clients { s.goto i (.reselect num ret1) with ids := some (nextid + num) } j =
          .reselect num' ret1' → s.clients j = .reselect num' ret1' :=
      fun hji hj => (clients_goto_of_ne hji _).symm.trans hj
    intro j k hjk numj retj numk retk hj hk
    by_cases hji : j = i
    · have hki : k ≠ i := fun hki => hjk (hji.trans hki.symm)
      rw [hji, Function.update_self, Function.update_of_ne hki]
      exact .inr (h.reselect k numk retk (hother hki hk)).2.2.1
    · rw [Function.update_of_ne hji]
      by_cases hki : k = i
      · rw [hki, Function.update_self]
        exact .inl (h.reselect j numj retj (hother hji hj)).2.2.1
      · rw [Function.update_of_ne hki]
        exact h.apart j k hjk _ _ _ _ (hother hji hj) (hother hki hk)
  · intro r hr
    obtain ⟨hlast, hmax', hbefore⟩ := h.served r hr
    exact ⟨Nat.le_trans hlast (Nat.le_add_right ..), hmax', hbefore⟩
  · exact h.disjoint

/-- **The second select** finds what the update has left: nobody else's update
came in between. -/
theorem Counting.returned {nextid : ℕ} {own : ℕ → ℕ} (h : s.Counting nodeid c nextid own) {i num ret1 : ℕ}
    (hi : s.clients i = .reselect num ret1) (heq : ret1 + num = nextid) :
    Counting nodeid c { s.goto i .idle with served := s.served ++ [⟨nextid - num + 1, nextid⟩] } nextid own := by
  obtain ⟨habove, hret, hown, hmax⟩ := h.reselect i num ret1 hi
  have howni : own i = ret1 := by omega
  have hother : ∀ {j : ℕ} {at' : MaxidClient}, ¬at'.Resting → (s.goto i .idle).clients j = at' →
      j ≠ i ∧ s.clients j = at' := by
    intro j at' hat hj
    by_cases hji : j = i
    · rw [hji, clients_goto_self] at hj
      exact absurd (hj ▸ trivial) hat
    · exact ⟨hji, (clients_goto_of_ne hji _).symm.trans hj⟩
  constructor
  · exact h.counter
  · exact h.above
  · intro hc j
    exact absurd (hi ▸ h.cached hc i : (MaxidClient.reselect num ret1).Resting) id
  · exact fun j num' ret1' hj => h.update j num' ret1' (hother id hj).2
  · exact fun j num' ret1' hj => h.reselect j num' ret1' (hother id hj).2
  · intro j num' ret1' hj
    obtain ⟨hji, hj⟩ := hother id hj
    rw [List.forall_mem_append]
    refine ⟨h.own_served j num' ret1' hj, fun r hr => ?_⟩
    rw [List.mem_singleton.mp hr]
    have hapart := h.apart j i hji _ _ _ _ hj hi
    dsimp only
    omega
  · exact fun j k hjk _ _ _ _ hj hk => h.apart j k hjk _ _ _ _ (hother id hj).2 (hother id hk).2
  · rw [List.forall_mem_append]
    refine ⟨h.served, fun r hr => ?_⟩
    rw [List.mem_singleton.mp hr]
    refine ⟨Nat.le_refl _, by dsimp only; omega, ret1, by dsimp only; omega, habove⟩
  · rw [List.pairwise_append]
    refine ⟨h.disjoint, List.pairwise_singleton _ _, fun r hr r' hr' => ?_⟩
    rw [List.mem_singleton.mp hr', IdRange.Disjoint]
    have hserved := h.own_served i num ret1 hi r hr
    dsimp only
    omega

/-! ## the cached columns -/

/-- What `DCget_nextid` does for a client. -/
theorem dcCall_spec (hpacked : Packed s.slots) (i num : ℕ) :
    s.dcCall nodeid c i num = s.goto i .exited ∨
      ∃ slots, s.dcCall nodeid c i num =
        { s.goto i .idle with
          slots := slots
          served := s.served ++
            [⟨(slotOf c.tablename c.fieldname s.slots).getD (fillLastid nodeid c s.column) + 1,
              (slotOf c.tablename c.fieldname s.slots).getD (fillLastid nodeid c s.column) + num⟩]
          present := if (slotOf c.tablename c.fieldname s.slots).isSome then s.present else s.column } ∧
        Packed slots ∧
        slotOf c.tablename c.fieldname slots =
          some ((slotOf c.tablename c.fieldname s.slots).getD (fillLastid nodeid c s.column) + num) := by
  rw [dcCall]
  cases hcall : dcGetNextid c.tablename c.fieldname num (fillLastid nodeid c s.column) s.slots with
  | none => exact .inl rfl
  | some r =>
      obtain ⟨range, slots⟩ := r
      obtain ⟨rfl, hslot, -, hpacked'⟩ := dcGetNextid_spec c.isName_tablename c.isName_fieldname hpacked hcall
      exact .inr ⟨slots, rfl, hpacked', hslot⟩

theorem resting_goto (h : ∀ i, (s.clients i).Resting) (i : ℕ) {next : MaxidClient} (hnext : next.Resting) :
    ∀ j, ((s.goto i next).clients j).Resting := by
  intro j
  by_cases hji : j = i
  · rw [hji, clients_goto_self]
    exact hnext
  · rw [clients_goto_of_ne hji]
    exact h j

/-- A counter without clients on the way. -/
theorem counting_of_resting {nextid : ℕ} (hcounter : s.counter c = some nextid) (habove : s.Above nodeid c nextid)
    (hresting : ∀ i, (s.clients i).Resting)
    (hserved : ∀ r ∈ s.served, r.lastid ≤ nextid ∧ r.lastid ≤ c.max nodeid ∧
      ∃ before, r.nextid = before + 1 ∧ s.Above nodeid c before)
    (hdisjoint : s.served.Pairwise IdRange.Disjoint) : s.Counting nodeid c nextid fun _ => 0 := by
  have hnone : ∀ {i : ℕ} {at' : MaxidClient}, ¬at'.Resting → s.clients i ≠ at' := by
    intro i at' hat hi
    exact hat (hi ▸ hresting i)
  exact
    { counter := hcounter
      above := habove
      cached := fun _ => hresting
      update := fun _ _ _ hi => absurd hi (hnone id)
      reselect := fun _ _ _ hi => absurd hi (hnone id)
      own_served := fun _ _ _ hi => absurd hi (hnone id)
      apart := fun _ _ _ _ _ _ _ hi => absurd hi (hnone id)
      served := hserved
      disjoint := hdisjoint }

/-- A call, of a column that has its slot. -/
theorem Counting.dcCall {nextid : ℕ} {own : ℕ → ℕ} (h : s.Counting nodeid c nextid own) (hpacked : Packed s.slots)
    (hcached : c.cached = true) (i num : ℕ) (hmax : nextid + num ≤ c.max nodeid) :
    Packed (s.dcCall nodeid c i num).slots ∧
      ∃ nextid' own', (s.dcCall nodeid c i num).Counting nodeid c nextid' own' := by
  have hresting := h.cached hcached
  have hslot : slotOf c.tablename c.fieldname s.slots = some nextid := by
    simpa [MaxidState.counter, hcached] using h.counter
  rcases dcCall_spec hpacked i num with hexit | ⟨slots, hcall, hpacked', hslot'⟩
  · rw [hexit]
    exact ⟨hpacked, nextid, own, h.leave rfl trivial (fun _ => trivial) h.counter (Nat.le_refl _) rfl rfl⟩
  · rw [hslot, Option.getD_some] at hslot'
    rw [hcall]
    simp only [hslot, Option.getD_some, Option.isSome_some, if_true]
    refine ⟨hpacked', nextid + num, fun _ => 0, counting_of_resting ?_ ?_ (resting_goto hresting i trivial) ?_ ?_⟩
    · simpa [MaxidState.counter, hcached] using hslot'
    · exact ⟨Nat.le_trans h.above.1 (Nat.le_add_right ..),
        fun id hid hle => Nat.le_trans (h.above.2 id hid hle) (Nat.le_add_right ..)⟩
    · rw [List.forall_mem_append]
      refine ⟨fun r hr => ?_, fun r hr => ?_⟩
      · obtain ⟨hlast, hmax', hbefore⟩ := h.served r hr
        exact ⟨Nat.le_trans hlast (Nat.le_add_right ..), hmax', hbefore⟩
      · rw [List.mem_singleton.mp hr]
        exact ⟨Nat.le_refl _, hmax, nextid, rfl, h.above⟩
    · rw [List.pairwise_append]
      refine ⟨h.disjoint, List.pairwise_singleton _ _, fun r hr r' hr' => ?_⟩
      rw [List.mem_singleton.mp hr', IdRange.Disjoint]
      have hlast := (h.served r hr).1
      dsimp only
      omega

/-- A call that fills the slot. -/
theorem Absent.dcCall (h : s.Absent nodeid c) (hpacked : Packed s.slots) (hcached : c.cached = true) (i num : ℕ)
    (hmax : fillLastid nodeid c s.column + num ≤ c.max nodeid) :
    Packed (s.dcCall nodeid c i num).slots ∧ ((s.dcCall nodeid c i num).Absent nodeid c ∨
      ∃ nextid' own', (s.dcCall nodeid c i num).Counting nodeid c nextid' own') := by
  have hresting := h.cached hcached
  have hslot : slotOf c.tablename c.fieldname s.slots = none := by
    simpa [MaxidState.counter, hcached] using h.counter
  obtain ⟨hmin, hids⟩ := le_fillLastid nodeid c s.column
  have habove : ∀ id ∈ s.column, id ≤ c.max nodeid → id ≤ fillLastid nodeid c s.column := by
    intro id hid hle
    by_cases hlow : c.min nodeid ≤ id
    · exact hids id hid hlow hle
    · omega
  rcases dcCall_spec hpacked i num with hexit | ⟨slots, hcall, hpacked', hslot'⟩
  · rw [hexit]
    have hresting' := resting_goto hresting i (show MaxidClient.exited.Resting from trivial)
    refine ⟨hpacked, .inl
      { counter := h.counter
        served := h.served
        cached := fun _ => hresting'
        waiting := fun j => (hresting' j).waiting
        not_increment := fun j num' hj => ?_
        insert := fun j num' ret1 hj => ?_ }⟩
    · exact absurd (hj ▸ hresting' j : (MaxidClient.increment num').Resting) id
    · exact absurd (hj ▸ hresting' j : (MaxidClient.insert num' ret1).Resting) id
  · rw [hslot, Option.getD_none] at hslot'
    rw [hcall]
    simp only [hslot, Option.getD_none, Option.isSome_none, Bool.false_eq_true, if_false, h.served, List.nil_append]
    refine ⟨hpacked', .inr ⟨fillLastid nodeid c s.column + num, fun _ => 0,
      counting_of_resting ?_ ?_ (resting_goto hresting i trivial) ?_ (List.pairwise_singleton _ _)⟩⟩
    · simpa [MaxidState.counter, hcached] using hslot'
    · exact ⟨Nat.le_trans hmin (Nat.le_add_right ..),
        fun id hid hle => Nat.le_trans (habove id hid hle) (Nat.le_add_right ..)⟩
    · intro r hr
      rw [List.mem_singleton.mp hr]
      exact ⟨Nat.le_refl _, hmax, _, rfl, hmin, habove⟩

/-! ## one step -/

theorem not_cached_of_not_resting {i : ℕ} (h : c.cached = true → ∀ i, (s.clients i).Resting)
    (hi : ¬(s.clients i).Resting) : c.cached = false := by
  cases hc : c.cached with
  | false => rfl
  | true => exact absurd (h hc i) hi

/-- A statement, when there is a counter. -/
theorem Counting.statement {nextid : ℕ} {own : ℕ → ℕ} (h : s.Counting nodeid c nextid own) (hpacked : Packed s.slots)
    {i : ℕ} (horderly : s.Orderly nodeid c (.statement i)) :
    Packed (s.statement nodeid c i).slots ∧
      ∃ nextid' own', (s.statement nodeid c i).Counting nodeid c nextid' own' := by
  rw [Orderly] at horderly
  rw [MaxidState.statement]
  have hfalse : ∀ {next : MaxidClient}, s.clients i = next → ¬next.Resting → c.cached = false :=
    fun hi hnext => not_cached_of_not_resting h.cached (hi ▸ hnext)
  have hids : c.cached = false → s.ids = some nextid := by
    intro hc
    simpa [MaxidState.counter, hc] using h.counter
  cases hi : s.clients i with
  | idle => exact ⟨hpacked, nextid, own, h⟩
  | exited => exact ⟨hpacked, nextid, own, h⟩
  | select num =>
      simp only [hi] at horderly ⊢
      cases hcached : c.cached with
      | true =>
          rw [if_pos rfl]
          have hmax := horderly hcached
          rw [h.counter, Option.getD_some] at hmax
          exact h.dcCall hpacked hcached i num hmax
      | false =>
          rw [if_neg (by decide), hids hcached]
          dsimp only
          split
          · exact ⟨hpacked, nextid, own, h.leave rfl trivial (fun hc => absurd (hcached.symm.trans hc) (by decide))
              h.counter (Nat.le_refl _) rfl rfl⟩
          · exact ⟨hpacked, nextid, own, h.selected hcached i num⟩
  | selectMax num =>
      have hcached := hfalse hi id
      have hleave : ∀ next : MaxidClient, next.Waiting → (s.goto i next).Counting nodeid c nextid own :=
        fun next hnext => h.leave rfl hnext (fun hc => absurd (hcached.symm.trans hc) (by decide)) h.counter
          (Nat.le_refl _) rfl rfl
      dsimp only
      split
      · exact ⟨hpacked, nextid, own, hleave _ trivial⟩
      · split
        · exact ⟨hpacked, nextid, own, hleave _ trivial⟩
        · exact ⟨hpacked, nextid, own, hleave _ trivial⟩
  | insert num ret1 =>
      have hcached := hfalse hi id
      dsimp only
      rw [hids hcached]
      exact ⟨hpacked, nextid, own, h.leave rfl trivial (fun hc => absurd (hcached.symm.trans hc) (by decide)) h.counter
        (Nat.le_refl _) rfl rfl⟩
  | increment num =>
      have hcached := hfalse hi id
      dsimp only
      rw [hids hcached]
      refine ⟨hpacked, nextid + 1, own, h.leave rfl trivial (fun _ => trivial) ?_ (Nat.le_succ _) rfl rfl⟩
      simp [MaxidState.counter, hcached]
  | delete num =>
      simp only [hi] at horderly
      exact absurd (horderly nextid (hids (hfalse hi id))) (Nat.not_lt.mpr h.above.1)
  | update num ret1 =>
      have hcached := hfalse hi id
      simp only [hi] at horderly
      dsimp only
      rw [hids hcached]
      exact ⟨hpacked, _, _, h.updated hi hcached (horderly nextid (hids hcached))⟩
  | reselect num ret1 =>
      have hcached := hfalse hi id
      dsimp only
      rw [hids hcached]
      dsimp only
      split
      · rename_i heq
        exact ⟨hpacked, nextid, own, h.returned hi heq⟩
      · exact ⟨hpacked, nextid, own, h.leave rfl trivial (fun _ => trivial) h.counter (Nat.le_refl _) rfl rfl⟩

/-- A client goes on before there is a counter. -/
theorem Absent.goto (h : s.Absent nodeid c) (i : ℕ) {next : MaxidClient} (hcached : c.cached = true → next.Resting)
    (hwaiting : next.Waiting) (hincrement : ∀ num, next ≠ .increment num)
    (hinsert : ∀ num ret1, next = .insert num ret1 →
      c.min nodeid ≤ ret1 ∧ ∀ id ∈ s.column, id ≤ c.max nodeid → id ≤ ret1) :
    (s.goto i next).Absent nodeid c := by
  have hclient : ∀ {P : MaxidClient → Prop}, P next → (∀ j, P (s.clients j)) → ∀ j, P ((s.goto i next).clients j) := by
    intro P hnext hall j
    by_cases hji : j = i
    · rw [hji, clients_goto_self]
      exact hnext
    · rw [clients_goto_of_ne hji]
      exact hall j
  exact
    { counter := h.counter
      served := h.served
      cached := fun hc => hclient (hcached hc) (h.cached hc)
      waiting := hclient hwaiting h.waiting
      not_increment := hclient (P := fun m => ∀ num, m ≠ .increment num) hincrement h.not_increment
      insert := hclient (P := fun m => ∀ num ret1, m = .insert num ret1 →
        c.min nodeid ≤ ret1 ∧ ∀ id ∈ s.column, id ≤ c.max nodeid → id ≤ ret1) hinsert h.insert }

/-- A statement, when there is nothing to count with. -/
theorem Absent.statement (h : s.Absent nodeid c) (hpacked : Packed s.slots) {i : ℕ}
    (horderly : s.Orderly nodeid c (.statement i)) :
    Packed (s.statement nodeid c i).slots ∧ ((s.statement nodeid c i).Absent nodeid c ∨
      ∃ nextid own, (s.statement nodeid c i).Counting nodeid c nextid own) := by
  rw [Orderly] at horderly
  rw [MaxidState.statement]
  have hfalse : ∀ {next : MaxidClient}, s.clients i = next → ¬next.Resting → c.cached = false :=
    fun hi hnext => not_cached_of_not_resting h.cached (hi ▸ hnext)
  have hids : c.cached = false → s.ids = none := by
    intro hc
    simpa [MaxidState.counter, hc] using h.counter
  cases hi : s.clients i with
  | idle => exact ⟨hpacked, .inl h⟩
  | exited => exact ⟨hpacked, .inl h⟩
  | select num =>
      simp only [hi] at horderly ⊢
      cases hcached : c.cached with
      | true =>
          rw [if_pos rfl]
          have hmax := horderly hcached
          rw [h.counter, Option.getD_none] at hmax
          exact h.dcCall hpacked hcached i num hmax
      | false =>
          rw [if_neg (by decide), hids hcached]
          exact ⟨hpacked, .inl (h.goto i (fun hc => absurd (hcached.symm.trans hc) (by decide)) trivial
            (fun _ => by simp) fun _ _ => by simp)⟩
  | selectMax num =>
      have hcached := hfalse hi id
      have hgoto : ∀ ret1, c.min nodeid ≤ ret1 → (∀ id ∈ s.column, id ≤ c.max nodeid → id ≤ ret1) →
          (s.goto i (.insert num ret1)).Absent nodeid c := by
        intro ret1 hmin hids'
        refine h.goto i (fun hc => absurd (hcached.symm.trans hc) (by decide)) trivial (fun _ => by simp) ?_
        intro num' ret1' heq
        obtain ⟨-, rfl⟩ := MaxidClient.insert.inj heq
        exact ⟨hmin, hids'⟩
      dsimp only
      cases hselect : Zabbix.selectMax (c.min nodeid) (c.max nodeid) s.column with
      | none =>
          refine ⟨hpacked, .inl (hgoto _ (Nat.le_refl _) fun id hid hle => ?_)⟩
          by_contra hlow
          exact selectMax_eq_none hselect id hid ⟨Nat.le_of_lt (Nat.not_le.mp hlow), hle⟩
      | some ret1 =>
          dsimp only
          have hmin := (mem_selectMax hselect).2.1
          split
          · exact ⟨hpacked, .inl (h.goto i (fun _ => trivial) trivial (fun _ => by simp) fun _ _ => by simp)⟩
          · refine ⟨hpacked, .inl (hgoto ret1 hmin fun id hid hle => ?_)⟩
            by_cases hlow : c.min nodeid ≤ id
            · exact le_selectMax hselect hid hlow hle
            · omega
  | insert num ret1 =>
      have hcached := hfalse hi id
      rw [hids hcached]
      dsimp only
      refine ⟨hpacked, .inr ⟨ret1, fun _ => 0, ?_⟩⟩
      have hwaiting : ∀ {j : ℕ} {at' : MaxidClient}, ¬at'.Waiting →
          (s.goto i (.select num)).clients j ≠ at' := by
        intro j at' hat hj
        by_cases hji : j = i
        · rw [hji, clients_goto_self] at hj
          exact hat (hj ▸ trivial)
        · rw [clients_goto_of_ne hji] at hj
          exact hat (hj ▸ h.waiting j)
      exact
        { counter := by simp [MaxidState.counter, hcached]
          above := h.insert i num ret1 hi
          cached := fun hc => absurd (hcached.symm.trans hc) (by decide)
          update := fun _ _ _ hj => absurd hj (hwaiting id)
          reselect := fun _ _ _ hj => absurd hj (hwaiting id)
          own_served := fun _ _ _ hj => absurd hj (hwaiting id)
          apart := fun _ _ _ _ _ _ _ hj => absurd hj (hwaiting id)
          served := fun r hr => absurd (h.served ▸ hr : r ∈ []) List.not_mem_nil
          disjoint := (h.served.symm ▸ .nil : s.served.Pairwise IdRange.Disjoint) }
  | increment num => exact absurd hi (h.not_increment i num)
  | delete num =>
      have hcached := hfalse hi id
      have hgoto : (s.goto i (.select num)).Absent nodeid c :=
        h.goto i (fun _ => trivial) trivial (fun _ => by simp) fun _ _ => by simp
      refine ⟨hpacked, .inl ?_⟩
      exact { hgoto with counter := by simp [MaxidState.counter, hcached] }
  | update num ret1 => exact absurd (hi ▸ h.waiting i : (MaxidClient.update num ret1).Waiting) id
  | reselect num ret1 => exact absurd (hi ▸ h.waiting i : (MaxidClient.reselect num ret1).Waiting) id

/-- A statement, when the row of `ids` is below the range. -/
theorem Stale.statement (h : s.Stale nodeid c) (i : ℕ) :
    (s.statement nodeid c i).slots = s.slots ∧
      ((s.statement nodeid c i).Stale nodeid c ∨ (s.statement nodeid c i).Absent nodeid c) := by
  obtain ⟨nextid, hids, hlow⟩ := h.ids
  rw [MaxidState.statement]
  cases hi : s.clients i with
  | idle => exact ⟨rfl, .inl h⟩
  | exited => exact ⟨rfl, .inl h⟩
  | select num =>
      dsimp only
      rw [if_neg (by rw [h.not_cached]; decide), hids]
      dsimp only
      rw [if_pos (.inl hlow)]
      refine ⟨rfl, .inl { h with clients := fun j => ?_ }⟩
      by_cases hji : j = i
      · rw [hji, clients_goto_self]
        exact .inr ⟨num, rfl⟩
      · rw [clients_goto_of_ne hji]
        exact h.clients j
  | delete num =>
      have hclients : ∀ j, ((s.goto i (.select num)).clients j).Resting ∨
          ∃ num', (s.goto i (.select num)).clients j = .delete num' := by
        intro j
        by_cases hji : j = i
        · rw [hji, clients_goto_self]
          exact .inl trivial
        · rw [clients_goto_of_ne hji]
          exact h.clients j
      refine ⟨rfl, .inr
        { counter := by simp [MaxidState.counter, h.not_cached]
          served := h.served
          cached := fun hc => absurd (h.not_cached.symm.trans hc) (by decide)
          waiting := fun j => ?_
          not_increment := fun j num' hj => ?_
          insert := fun j num' ret1 hj => ?_ }⟩
      · rcases hclients j with hresting | ⟨num', hj⟩
        · exact hresting.waiting
        · exact hj ▸ trivial
      · rcases hclients j with hresting | ⟨num'', hj'⟩
        · exact absurd (hj ▸ hresting : (MaxidClient.increment num').Resting) id
        · cases hj.symm.trans hj'
      · rcases hclients j with hresting | ⟨num'', hj'⟩
        · exact absurd (hj ▸ hresting : (MaxidClient.insert num' ret1).Resting) id
        · cases hj.symm.trans hj'
  | selectMax num => exact absurd (hi ▸ h.clients i) (by rintro (h | ⟨_, h⟩) <;> cases h)
  | insert num ret1 => exact absurd (hi ▸ h.clients i) (by rintro (h | ⟨_, h⟩) <;> cases h)
  | increment num => exact absurd (hi ▸ h.clients i) (by rintro (h | ⟨_, h⟩) <;> cases h)
  | update num ret1 => exact absurd (hi ▸ h.clients i) (by rintro (h | ⟨_, h⟩) <;> cases h)
  | reselect num ret1 => exact absurd (hi ▸ h.clients i) (by rintro (h | ⟨_, h⟩) <;> cases h)

variable (nodeid c) in
/-- The counter, the clients, and what has been returned fit together. -/
def Sound (s : MaxidState) : Prop :=
  Packed s.slots ∧ (s.Absent nodeid c ∨ ∃ nextid own, s.Counting nodeid c nextid own)

/-- **One step.** -/
theorem Sound.step (h : s.Sound nodeid c) {e : MaxidEvent} (horderly : s.Orderly nodeid c e) :
    (s.step nodeid c e).Sound nodeid c := by
  obtain ⟨hpacked, hphase⟩ := h
  cases e with
  | call i num =>
      rw [MaxidState.step]
      cases hi : s.clients i with
      | idle =>
          refine ⟨hpacked, hphase.imp (fun h => ?_) ?_⟩
          · exact h.goto i (fun _ => trivial) trivial (fun _ => by simp) fun _ _ => by simp
          · rintro ⟨nextid, own, h⟩
            exact ⟨nextid, own, h.leave rfl trivial (fun _ => trivial) h.counter (Nat.le_refl _) rfl rfl⟩
      | _ => exact ⟨hpacked, hphase⟩
  | statement i =>
      rcases hphase with h | ⟨nextid, own, h⟩
      · exact h.statement hpacked horderly
      · exact (h.statement hpacked horderly).imp_right .inr
  | insertRow id =>
      rw [MaxidState.step]
      split
      · rename_i hserved
        obtain ⟨r, hr, -⟩ := hserved
        rcases hphase with h | ⟨nextid, own, h⟩
        · -- nothing has been returned before there is a counter
          exact absurd h.served (List.ne_nil_of_mem hr)
        · exact ⟨hpacked, .inr ⟨nextid, own, { h with }⟩⟩
      · exact ⟨hpacked, hphase⟩

/-- One step, when the row of `ids` is below the range. -/
theorem Stale.step (h : s.Stale nodeid c) (e : MaxidEvent) :
    (s.step nodeid c e).slots = s.slots ∧
      ((s.step nodeid c e).Stale nodeid c ∨ (s.step nodeid c e).Absent nodeid c) := by
  cases e with
  | call i num =>
      rw [MaxidState.step]
      cases hi : s.clients i with
      | idle =>
          refine ⟨rfl, .inl { h with clients := fun j => ?_ }⟩
          by_cases hji : j = i
          · rw [hji, clients_goto_self]
            exact .inl trivial
          · rw [clients_goto_of_ne hji]
            exact h.clients j
      | _ => exact ⟨rfl, .inl h⟩
  | statement i => exact h.statement i
  | insertRow id =>
      rw [MaxidState.step, if_neg (by simp [h.served])]
      exact ⟨rfl, .inl h⟩

variable (nodeid c) in
/-- What is kept by orderly steps, from every start. -/
def Consistent (s : MaxidState) : Prop := Packed s.slots ∧ s.Stale nodeid c ∨ s.Sound nodeid c

theorem Consistent.step (h : s.Consistent nodeid c) {e : MaxidEvent} (horderly : s.Orderly nodeid c e) :
    (s.step nodeid c e).Consistent nodeid c := by
  rcases h with ⟨hpacked, h⟩ | h
  · obtain ⟨hslots, hphase⟩ := h.step e
    have hpacked' : Packed (s.step nodeid c e).slots := hslots.symm ▸ hpacked
    exact hphase.imp (fun h => ⟨hpacked', h⟩) fun h => ⟨hpacked', .inl h⟩
  · exact .inr (h.step horderly)

variable (nodeid c) in
/-- Before any call: there may be a row of `ids`, or a slot; what was present
when it was created is not above it. -/
structure Start (s : MaxidState) : Prop where
  clients : ∀ i, s.clients i = .idle
  served : s.served = []
  packed : Packed s.slots
  slot : c.cached = true → ∀ nextid, s.counter c = some nextid → c.min nodeid ≤ nextid
  present : ∀ nextid, s.counter c = some nextid → ∀ id ∈ s.present, id ≤ c.max nodeid → id ≤ nextid

theorem Start.resting (h : s.Start nodeid c) (i : ℕ) : (s.clients i).Resting := (h.clients i).symm ▸ trivial

/-- A start from nothing, or from a row in the range. -/
theorem Start.sound (h : s.Start nodeid c) (hrow : ∀ nextid, s.counter c = some nextid → c.min nodeid ≤ nextid) :
    s.Sound nodeid c := by
  refine ⟨h.packed, ?_⟩
  cases hcounter : s.counter c with
  | none =>
      refine .inl
        { counter := hcounter
          served := h.served
          cached := fun _ => h.resting
          waiting := fun i => (h.resting i).waiting
          not_increment := fun i num hi => ?_
          insert := fun i num ret1 hi => ?_ }
      · cases (h.clients i).symm.trans hi
      · cases (h.clients i).symm.trans hi
  | some nextid =>
      refine .inr ⟨nextid, fun _ => 0, counting_of_resting hcounter
        ⟨hrow nextid hcounter, h.present nextid hcounter⟩ h.resting ?_ ?_⟩
      · rw [h.served]
        exact fun _ hr => nomatch hr
      · rw [h.served]
        exact .nil

theorem Start.consistent (h : s.Start nodeid c) : s.Consistent nodeid c := by
  cases hcounter : s.counter c with
  | none => exact .inr (h.sound fun nextid hnext => nomatch hcounter.symm.trans hnext)
  | some nextid =>
      by_cases hlow : c.min nodeid ≤ nextid
      · refine .inr (h.sound fun nextid' hnext => ?_)
        obtain rfl := Option.some.inj (hcounter.symm.trans hnext)
        exact hlow
      · have hcached : c.cached = false := by
          cases hc : c.cached with
          | false => rfl
          | true => exact absurd (h.slot hc nextid hcounter) hlow
        exact .inl ⟨h.packed,
          { not_cached := hcached
            ids := ⟨nextid, by simpa [counter, hcached] using hcounter, Nat.not_le.mp hlow⟩
            served := h.served
            clients := fun i => .inl (h.resting i) }⟩

end MaxidState

/-- **Identifiers are allocated apart**: in every interleaving of the statements
of any number of clients that stays within the range of the node, and in which
no row of `ids` is deleted that is not below the range, the ranges that are
returned have no identifier in common, lie in the range of the node, and are
above all identifiers that were present when the row of `ids` was created. -/
theorem maxids_apart {schema : Schema} (nodeid : ℕ) (c : Column schema) (s : MaxidState) (es : List MaxidEvent)
    (hs : s.Start nodeid c)
    (h : Run.Along (MaxidState.step nodeid c) (MaxidState.Orderly nodeid c) s es) :
    (Run.run (MaxidState.step nodeid c) s es).served.Pairwise (fun a b => ∀ id, ¬(IdRange.Mem id a ∧ IdRange.Mem id b)) ∧
    ∀ r ∈ (Run.run (MaxidState.step nodeid c) s es).served, ∀ id, IdRange.Mem id r →
      c.min nodeid < id ∧ id ≤ c.max nodeid ∧
        ∀ id' ∈ (Run.run (MaxidState.step nodeid c) s es).present, id' ≤ c.max nodeid → id' < id := by
  have hrun : (Run.run (MaxidState.step nodeid c) s es).Consistent nodeid c :=
    Run.invariant_run (I := MaxidState.Consistent nodeid c) (fun _ _ hs he => hs.step he) hs.consistent h
  rcases hrun with ⟨-, h⟩ | ⟨-, h | ⟨nextid, own, h⟩⟩
  · rw [h.served]
    exact ⟨.nil, fun _ hr => nomatch hr⟩
  · rw [h.served]
    exact ⟨.nil, fun _ hr => nomatch hr⟩
  · refine ⟨h.disjoint.imp fun hdisjoint id hid => hdisjoint.not_mem hid.1 hid.2, fun r hr id hid => ?_⟩
    obtain ⟨-, hmax, before, hbefore, hmin, hpresent⟩ := h.served r hr
    have hlow : before < id := by
      have := hid.1
      omega
    exact ⟨Nat.lt_of_le_of_lt hmin hlow, Nat.le_trans hid.2 hmax,
      fun id' hid' hle => Nat.lt_of_le_of_lt (hpresent id' hid' hle) hlow⟩

/-! ## within the range -/

namespace MaxidState

variable {schema : Schema} (nodeid : ℕ) (c : Column schema)

/-- A step that does not find the range of the node exhausted. -/
def Within (s : MaxidState) : MaxidEvent → Prop
  | .statement client =>
      match s.clients client with
      | .select num =>
          if c.cached then (s.counter c).getD (fillLastid nodeid c s.column) + num ≤ c.max nodeid
          else ∀ nextid, s.ids = some nextid → nextid < c.max nodeid
      | .update num _ => ∀ nextid, s.ids = some nextid → nextid + num ≤ c.max nodeid
      | .idle | .exited | .selectMax _ | .insert .. | .increment _ | .delete _ | .reselect .. => True
  | .call .. | .insertRow _ => True

instance (s : MaxidState) (e : MaxidEvent) : Decidable (s.Within nodeid c e) :=
  match e with
  | .call .. | .insertRow _ => isTrue trivial
  | .statement client =>
      match hclient : s.clients client with
      | .select num =>
          decidable_of_iff
            (if c.cached then (s.counter c).getD (fillLastid nodeid c s.column) + num ≤ c.max nodeid
              else ∀ nextid ∈ s.ids, nextid < c.max nodeid)
            (by simp [Within, hclient])
      | .update num _ =>
          decidable_of_iff (∀ nextid ∈ s.ids, nextid + num ≤ c.max nodeid) (by simp [Within, hclient])
      | .idle | .exited | .selectMax _ | .insert .. | .increment _ | .delete _ | .reselect .. =>
          isTrue (by simp [Within, hclient])

variable {nodeid} {c} {s : MaxidState}

/-- No client is about to delete the row. -/
def NoDelete (s : MaxidState) : Prop := ∀ i num, s.clients i ≠ .delete num

theorem NoDelete.goto (h : s.NoDelete) (i : ℕ) {next : MaxidClient} (hnext : ∀ num, next ≠ .delete num) :
    (s.goto i next).NoDelete := by
  intro j num
  by_cases hji : j = i
  · rw [hji, clients_goto_self]
    exact hnext num
  · rw [clients_goto_of_ne hji]
    exact h j num

/-- Without a delete under way a step within the range is orderly. -/
theorem NoDelete.orderly (h : s.NoDelete) {e : MaxidEvent} (hwithin : s.Within nodeid c e) : s.Orderly nodeid c e := by
  cases e with
  | statement i =>
      rw [Within] at hwithin
      rw [Orderly]
      cases hi : s.clients i with
      | select num =>
          simp only [hi] at hwithin ⊢
          intro hc
          rwa [if_pos hc] at hwithin
      | update num ret1 => simpa only [hi] using hwithin
      | delete num => exact absurd hi (h i num)
      | _ => trivial
  | _ => trivial

/-- A step within the range leads to no delete, if the row is not below it. -/
theorem NoDelete.step (h : s.NoDelete) {e : MaxidEvent} (hwithin : s.Within nodeid c e)
    (hids : c.cached = false → ∀ nextid, s.ids = some nextid → c.min nodeid ≤ nextid) :
    (s.step nodeid c e).NoDelete := by
  cases e with
  | call i num =>
      rw [MaxidState.step]
      split
      · exact h.goto i fun _ => by simp
      · exact h
  | insertRow id =>
      rw [MaxidState.step]
      split <;> exact h
  | statement i =>
      rw [Within] at hwithin
      rw [MaxidState.step, MaxidState.statement]
      cases hi : s.clients i with
      | select num =>
          simp only [hi] at hwithin ⊢
          cases hc : c.cached with
          | true =>
              rw [if_pos rfl, dcCall]
              split
              · exact h.goto i fun _ => by simp
              · exact h.goto i fun _ => by simp
          | false =>
              rw [if_neg (by rw [hc]; decide)] at hwithin
              rw [if_neg (by decide)]
              split
              · exact h.goto i fun _ => by simp
              · rename_i ret1 hret1
                have hlow := hids hc ret1 hret1
                have hhigh := hwithin ret1 hret1
                rw [if_neg (by omega)]
                exact h.goto i fun _ => by simp
      | idle => exact h
      | exited => exact h
      | delete num => exact absurd hi (h i num)
      | selectMax num =>
          dsimp only
          split
          · exact h.goto i fun _ => by simp
          · split <;> exact h.goto i fun _ => by simp
      | insert num ret1 =>
          dsimp only
          split <;> exact h.goto i fun _ => by simp
      | increment num => exact h.goto i fun _ => by simp
      | update num ret1 => exact h.goto i fun _ => by simp
      | reselect num ret1 =>
          dsimp only
          split
          · exact h.goto i fun _ => by simp
          · split <;> exact h.goto i fun _ => by simp

/-- Within the range nothing is deleted, unless the row of `ids` was below it at
the start. -/
theorem Sound.orderly_of_within {es : List MaxidEvent} (hs : s.Sound nodeid c) (hno : s.NoDelete)
    (h : Run.Along (MaxidState.step nodeid c) (Within nodeid c) s es) :
    Run.Along (MaxidState.step nodeid c) (Orderly nodeid c) s es := by
  induction es generalizing s with
  | nil => trivial
  | cons e es ih =>
      have horderly := hno.orderly h.1
      have hids : c.cached = false → ∀ nextid, s.ids = some nextid → c.min nodeid ≤ nextid := by
        intro hc nextid hnext
        have hcounter : s.counter c = some nextid := by simpa [counter, hc] using hnext
        rcases hs.2 with hs | ⟨nextid', own, hs⟩
        · cases hs.counter.symm.trans hcounter
        · obtain rfl := Option.some.inj (hs.counter.symm.trans hcounter)
          exact hs.above.1
      exact ⟨horderly, ih (hs.step horderly) (hno.step h.1 hids) h.2⟩

/-- From a row in the range, or none, every run within the range is orderly. -/
theorem Start.orderly_of_within (hs : s.Start nodeid c)
    (hrow : ∀ nextid, s.counter c = some nextid → c.min nodeid ≤ nextid) {es : List MaxidEvent}
    (h : Run.Along (MaxidState.step nodeid c) (Within nodeid c) s es) :
    Run.Along (MaxidState.step nodeid c) (Orderly nodeid c) s es :=
  (hs.sound hrow).orderly_of_within (fun i _ hi => nomatch (hs.clients i).symm.trans hi) h

end MaxidState

/-! ## a row below the range -/

/-- The table `events`, with its key. -/
def eventsTable : ZbxTable :=
  { table := ⟨bytes "events", by decide⟩
    recid := ⟨bytes "eventid", by decide⟩
    sync := false
    fields := [⟨⟨bytes "eventid", by decide⟩, .id, true, false, false⟩] }

def eventsSchema : Schema where
  tables := [eventsTable]
  table_name := by
    rintro t ht
    rw [List.mem_singleton.mp ht]
    exact ⟨by decide, by decide⟩
  field_name := by
    rintro t ht f hf
    rw [List.mem_singleton.mp ht] at hf
    rw [List.mem_singleton.mp hf]
    exact ⟨by decide, by decide⟩

/-- `events.eventid` -/
def eventid : Column eventsSchema where
  tablename := ⟨bytes "events", by decide⟩
  fieldname := ⟨bytes "eventid", by decide⟩
  table := eventsTable
  field := ⟨⟨bytes "eventid", by decide⟩, .id, true, false, false⟩
  dbGetTable_eq := by decide
  dbGetField_eq := by decide

/-- A database with some events, and perhaps a row of `ids`. -/
def eventsState (ids : Option ℕ) : MaxidState :=
  { ids := ids
    slots := freeIds
    column := [100000000000007]
    clients := fun _ => .idle
    served := []
    present := [] }

theorem start_eventsState (ids : Option ℕ) : (eventsState ids).Start 1 eventid where
  clients := fun _ => rfl
  served := rfl
  packed := packed_freeIds
  slot := fun h => nomatch (show eventid.cached = false by decide).symm.trans h
  present := fun _ _ _ h => nomatch h

/-- Two clients side by side: both find that there is no row; the first one
creates it, and the second one has the first update. -/
def sideBySide : List MaxidEvent :=
  [.call 0 1, .call 1 2, .statement 0, .statement 1, .statement 0, .statement 1, .statement 0, .statement 1,
    .statement 1, .statement 0, .statement 0, .statement 0, .statement 0, .statement 1, .statement 1, .statement 1]

theorem maxids_apart_sideBySide :
    (eventsState none).Start 1 eventid ∧
    Run.Along (MaxidState.step 1 eventid) (MaxidState.Orderly 1 eventid) (eventsState none) sideBySide ∧
    (Run.run (MaxidState.step 1 eventid) (eventsState none) sideBySide).served.Pairwise
      (fun a b => ∀ id, ¬(IdRange.Mem id a ∧ IdRange.Mem id b)) ∧
    ∀ r ∈ (Run.run (MaxidState.step 1 eventid) (eventsState none) sideBySide).served, ∀ id, IdRange.Mem id r →
      eventid.min 1 < id ∧ id ≤ eventid.max 1 ∧
        ∀ id' ∈ (Run.run (MaxidState.step 1 eventid) (eventsState none) sideBySide).present,
          id' ≤ eventid.max 1 → id' < id :=
  have hwithin : Run.Along (MaxidState.step 1 eventid) (MaxidState.Within 1 eventid) (eventsState none) sideBySide := by
    decide
  have h := (start_eventsState none).orderly_of_within (fun _ h => nomatch h) hwithin
  ⟨start_eventsState none, h, maxids_apart 1 eventid _ sideBySide (start_eventsState none) h⟩

/-- Two clients that both find a row below the range; the second one deletes
it when the first one has created it again and got its identifier. -/
def deletedTwice : List MaxidEvent :=
  [.call 0 1, .call 1 1, .statement 0, .statement 1, .statement 0, .statement 0, .statement 0, .statement 0,
    .statement 0, .statement 0, .statement 0, .statement 1, .statement 1, .statement 1, .statement 1, .statement 1,
    .statement 1, .statement 1]

/-- Both get the same identifier, though the range of the node is not exhausted. -/
theorem maxids_collide :
    (eventsState (some 5)).Start 1 eventid ∧
    Run.Along (MaxidState.step 1 eventid) (MaxidState.Within 1 eventid) (eventsState (some 5)) deletedTwice ∧
    ¬(Run.run (MaxidState.step 1 eventid) (eventsState (some 5)) deletedTwice).served.Pairwise
      fun a b => ∀ id, ¬(IdRange.Mem id a ∧ IdRange.Mem id b) := by
  refine ⟨start_eventsState (some 5), by decide, ?_⟩
  have hserved : (Run.run (MaxidState.step 1 eventid) (eventsState (some 5)) deletedTwice).served =
      [⟨100000000000008, 100000000000008⟩, ⟨100000000000008, 100000000000008⟩] := by
    decide
  rw [hserved]
  intro h
  exact (List.pairwise_cons.mp h).1 _ (List.mem_singleton_self _) 100000000000008 ⟨by decide, by decide⟩

end Zabbix
