import Zabbix.Host.ReplaceHost

/-!
# Zabbix.Host.UpdateLinked

What an update makes of a trigger and of the triggers that are linked below it (`DBupdate_trigger` of
`libs/zbxdbhigh/host.c`).

A linked trigger that is updated gets the identifier of a host where the name should be, and no item is found for its
calls; whose identifier that is, and whether there is one, depends on what stands in the place of the argument that the
select lacks.  A linked trigger without functions is not touched.

* `dbStoreTrigger_eq` — what is written for the trigger itself;
* `updates_of_updatable`, `updatable_of_updates` — the trigger comes to have what it is to have;
* `unlinked_of_updates` — a linked trigger on a host does not, for one number in that place.
-/

namespace Zabbix.Host

open Ascii Outcome Printf References

/-! ## the trigger itself -/

/-- Nothing has changed but what the triggers depend on. -/
def Relevels (db db' : HostDb) : Prop := ∃ (level : Trigger → ℤ) (depends : List TriggerDepend),
  db' = { db with
    triggers := db.triggers.map fun t => { t with depLevel := level t }
    triggerDepends := depends }

variable {schema : Schema} {nodeid : ℕ} {c : IdColumn → Column schema} {triggerid : ℕ} {db db' db'' : HostDb}

theorem Relevels.refl (db : HostDb) : Relevels db db := ⟨Trigger.depLevel, db.triggerDepends, by simp⟩

theorem Relevels.trans (h : Relevels db db') (h' : Relevels db' db'') : Relevels db db'' := by
  obtain ⟨level, depends, rfl⟩ := h
  obtain ⟨level', depends', rfl⟩ := h'
  refine ⟨fun t => level' { t with depLevel := level t }, depends', ?_⟩
  simp only [List.map_map]
  rfl

theorem relevels_delete (db : HostDb) (triggerid : ℕ) : Relevels db (dbDeleteDependenciesByTriggerid db triggerid) := by
  rw [dbDeleteDependenciesByTriggerid, foldl_deleteDependency]
  exact ⟨_, _, rfl⟩

theorem relevels_insert (db : HostDb) (down up : ℕ) : Relevels db (dbInsertDependency db down up) := by
  refine ⟨fun t => if t.triggerid = up then t.depLevel + 1 else t.depLevel,
    db.triggerDepends ++ [TriggerDepend.mk down up], ?_⟩
  rw [dbInsertDependency, HostDb.setTrigger]
  congr 1
  refine List.map_congr_left fun t _ => ?_
  by_cases hid : t.triggerid = up
  · simp [hid]
  · simp [hid]

theorem relevels_foldl (db : HostDb) (down : ℕ) (ups : List ℕ) :
    Relevels db (ups.foldl (fun db up => dbInsertDependency db down up) db) := by
  induction ups generalizing db with
  | nil => exact .refl db
  | cons up ups ih => exact (relevels_insert db down up).trans (ih _)

/-- The trigger has been written, with another short expression and other functions. -/
structure TriggerWritten (db : HostDb) (triggerid : ℕ) (u : TriggerUpdate) (short : List UInt8)
    (functions : List Function) (db' : HostDb) : Prop where
  hosts : db'.hosts = db.hosts
  items : db'.items = db.items
  functions : db'.functions = (db.deleteFunctions triggerid).functions ++ functions
  triggers : ∃ level : Trigger → ℤ, db'.triggers = db.triggers.map fun t =>
    { (if t.triggerid = triggerid then u.set (some short) t else t) with depLevel := level t }

theorem notBelow_deleteFunctions (hnot : db.NotBelow nodeid c .functions) (triggerid : ℕ) :
    (db.deleteFunctions triggerid).NotBelow nodeid c .functions := by
  intro nextid hnext id hid hmax
  obtain ⟨f, hf, rfl⟩ := List.mem_map.mp hid
  exact hnot nextid hnext _ (List.mem_map_of_mem (List.mem_of_mem_filter hf)) hmax

/-- The identifiers of the functions that are added follow one another. -/
theorem map_called (db : HostDb) (triggerid n : ℕ) (ss : List Symbol) :
    (called db triggerid n ss).map Function.functionid = List.range' (n + 1) (called db triggerid n ss).length := by
  induction ss generalizing n with
  | nil => rfl
  | cons a ss ih =>
      cases a with
      | text a => exact ih n
      | reference name =>
          rw [called]
          split
          · exact ih n
          · split
            · exact ih n
            · rw [List.map_cons, ih, List.length_cons, List.range'_succ]
              rfl

theorem Normal.nul_not_mem {e : List UInt8} (h : Normal e) : 0 ∉ e := by
  rw [← render_read e]
  intro hmem
  obtain ⟨a, ha, hmem⟩ := List.mem_flatMap.mp hmem
  cases a with
  | text a => exact (h _ ha).2.2 (List.mem_singleton.mp hmem).symm
  | reference name =>
      refine (h _ ha).1 ?_
      simpa [Symbol.render, braced, show (0 : UInt8) ≠ lbrace by decide, show (0 : UInt8) ≠ rbrace by decide] using hmem

/-- The update of the trigger itself, as long as there are identifiers for its functions. -/
theorem dbStoreTrigger_eq {e : List UInt8} {u : TriggerUpdate} (he : u.expression = some e) (hnormal : Normal e)
    (hnot : db.NotBelow nodeid c .functions) (triggerid : ℕ) :
    let n := (db.deleteFunctions triggerid).lastId nodeid c .functions
    let functions := called (db.deleteFunctions triggerid) triggerid n (read e)
    if n + functions.length ≤ (c .functions).max nodeid then
      ∃ db', dbStoreTrigger nodeid c db triggerid u = .ok db' ∧ db'.NotBelow nodeid c .functions ∧
        TriggerWritten db triggerid u (render (shortened (db.deleteFunctions triggerid) n (read e))) functions db'
    else dbStoreTrigger nodeid c db triggerid u = .error .exit := by
  intro n functions
  have hnot' := notBelow_deleteFunctions hnot triggerid
  obtain ⟨m', himplode, -⟩ := @dbImplodeExp_eq _ nodeid c triggerid (db.deleteFunctions triggerid) _ hnormal.nul_not_mem
  have hpieces := pieces_render hnormal.isPlain
  rw [render_read] at hpieces
  rw [hpieces] at himplode
  have hrun := @implodePieces_shortened _ nodeid c triggerid (db.deleteFunctions triggerid) _ _ hnormal rfl rfl hnot'
  rw [Implodes] at hrun
  rw [dbStoreTrigger, he]
  dsimp only
  rw [himplode]
  split
  · next hle =>
    rw [if_pos hle] at hrun
    obtain ⟨ids, hok, hnot''⟩ := hrun
    rw [hok]
    simp only [Except.map, ok_bind, dbAddEvent]
    generalize hwritten : ((db.deleteFunctions triggerid).addFunctions functions ids).setTrigger triggerid _ = written
    obtain ⟨level, depends, hlevels⟩ := (relevels_delete written triggerid).trans
      (relevels_foldl _ triggerid (untilZero u.dependences))
    refine ⟨_, rfl, ?_, ?_⟩
    · rw [hlevels, ← hwritten]
      exact hnot''
    · rw [hlevels, ← hwritten]
      refine ⟨rfl, rfl, rfl, fun t => level (if t.triggerid = triggerid then
        u.set (some (render (shortened (db.deleteFunctions triggerid) n (read e)))) t else t), ?_⟩
      simp only [HostDb.setTrigger, List.map_map]
      rfl
  · next hle =>
    rw [if_neg hle] at hrun
    rw [hrun]
    rfl

theorem mem_called {n : ℕ} {ss : List Symbol} {g : Function} (h : g ∈ called db triggerid n ss) :
    n < g.functionid ∧ g.functionid ≤ n + (called db triggerid n ss).length := by
  have hmem := List.mem_map_of_mem (f := Function.functionid) h
  rw [map_called, List.mem_range'_1] at hmem
  omega

theorem triggerid_of_mem_called {n : ℕ} {ss : List Symbol} {g : Function} (h : g ∈ called db triggerid n ss) :
    g.triggerid = triggerid := by
  induction ss generalizing n with
  | nil => cases h
  | cons a ss ih =>
      cases a with
      | text a => exact ih h
      | reference name =>
          rw [called] at h
          split at h
          · exact ih h
          · split at h
            · exact ih h
            · rcases List.mem_cons.mp h with rfl | h
              · rfl
              · exact ih h

/-- Functions that are added are found by their identifiers, like the others. -/
theorem TriggerWritten.callKeys {u : TriggerUpdate} {short : List UInt8} {ss : List Symbol} (hkeys : db.CallKeys)
    (hnot : db.NotBelow nodeid c .functions)
    (hle : (db.deleteFunctions triggerid).lastId nodeid c .functions +
      (called (db.deleteFunctions triggerid) triggerid ((db.deleteFunctions triggerid).lastId nodeid c .functions)
        ss).length ≤ (c .functions).max nodeid)
    (h : TriggerWritten db triggerid u short (called (db.deleteFunctions triggerid) triggerid
      ((db.deleteFunctions triggerid).lastId nodeid c .functions) ss) db') : db'.CallKeys where
  functions := by
    rw [h.functions, List.map_append, List.nodup_append, map_called]
    refine ⟨hkeys.functions.sublist (List.filter_sublist.map _), List.nodup_range', fun id hid id' hid' heq => ?_⟩
    rw [List.mem_range'_1] at hid'
    have hlast := le_lastId (notBelow_deleteFunctions hnot triggerid) hid (by omega)
    rw [← HostDb.lastId] at hlast
    omega
  items := by
    rw [h.items]
    exact hkeys.items
  hosts := by
    rw [h.hosts]
    exact hkeys.hosts

/-! ## what an update is for -/

/-- What has been given, or what was there where it is skipped. -/
def asked (old given : ℤ) : ℤ := if given = -1 then old else given

/-- The row has what has been given, and what it had where nothing has been given, with the expression as it is
exploded. -/
structure RowUpdated (row : Trigger) (u : TriggerUpdate) (e : List UInt8) (explode : List UInt8 → List UInt8)
    (row' : Trigger) : Prop where
  expression : explode row'.expression = e
  description : row'.description = u.description.getD row.description
  priority : row'.priority = asked row.priority u.priority
  status : row'.status = asked row.status u.status
  comments : row'.comments = u.comments.getD row.comments
  url : row'.url = u.url.getD row.url
  type : row'.type = asked row.type u.type

/-- What is to be the expression of a trigger linked below one, when `e` is that of this one. -/
inductive LinkedBelow (db : HostDb) : ℕ → List UInt8 → ℕ → List UInt8 → Prop
  | linked {a b : ℕ} {e : List UInt8} {row : Trigger} {h h' : HostRow} : db.triggerRow a = some (row, h) →
      b ∈ db.linkedTriggers a → db.triggerHost b = some h' → LinkedBelow db a e b (replaceHost h.host h'.host e)
  | further {a b d : ℕ} {e e' e'' : List UInt8} : LinkedBelow db a e b e' → LinkedBelow db b e' d e'' →
      LinkedBelow db a e d e''

/-- The expression that a trigger is to have. -/
def HostDb.askedExpression (db : HostDb) (functionid : ℕ) (row : Trigger) (u : TriggerUpdate) : List UInt8 :=
  u.expression.getD (dbExplodeExp db functionid row.expression).2

variable (nodeid c) in
/-- The trigger comes to have what it is to have, and the triggers linked below it come to have its expression on their
hosts, and keep their status. -/
def Updates (stray : HostDb → ℕ → ℕ) (functionid : ℕ) (db : HostDb) (triggerid : ℕ) (row : Trigger)
    (u : TriggerUpdate) : Prop :=
  ∃ depth db', dbUpdateTrigger nodeid c stray functionid depth db triggerid u = .ok (true, db') ∧
    (∃ row' ∈ db'.triggers, row'.triggerid = triggerid ∧
      RowUpdated row u (db.askedExpression functionid row u) (fun s => (dbExplodeExp db' functionid s).2) row') ∧
    ∀ b e', LinkedBelow db triggerid (db.askedExpression functionid row u) b e' →
      ∀ rowb ∈ db.triggers, rowb.triggerid = b → ∃ rowb' ∈ db'.triggers, rowb'.triggerid = b ∧
        (dbExplodeExp db' functionid rowb'.expression).2 = e' ∧ rowb'.status = rowb.status

/-- A number is taken that is not negative, is the mark for what is skipped, or is there. -/
def Taken (old given : ℤ) : Prop := -1 ≤ given ∨ given = old

/-- A text that is stored as it is in a column. -/
def Fits (len : ℕ) (s : List UInt8) : Prop := cr ∉ s ∧ s.length ≤ len

variable (nodeid c) in
/-- What the tables and the call have to be like. -/
structure HostDb.Updatable (db : HostDb) (triggerid : ℕ) (row : Trigger) (u : TriggerUpdate) (e : List UInt8) :
    Prop where
  unlinked : ∀ b ∈ db.linkedTriggers triggerid, db.triggerHost b = none
  storable : ∀ a ∈ read e, db.Storable a
  identifiers : (db.deleteFunctions triggerid).lastId nodeid c .functions + (callNames (read e)).length ≤
    (c .functions).max nodeid
  short : (render (numbered ((db.deleteFunctions triggerid).lastId nodeid c .functions) (read e))).length ≤
    triggerExpressionLen
  description : Fits triggerDescriptionLen (u.description.getD row.description)
  comments : cr ∉ u.comments.getD row.comments
  url : Fits triggerUrlLen (u.url.getD row.url)
  priority : if u.status = -1 then
      (if 0 ≤ row.status then row.status else row.priority) = asked row.priority u.priority
    else Taken row.priority u.priority
  status : Taken row.status u.status
  type : Taken row.type u.type

/-! ## what is stored -/

theorem fits_iff {len : ℕ} {s : List UInt8} : (kept s).take len = s ↔ Fits len s := by
  constructor
  · intro h
    constructor
    · intro hcr
      rw [← h] at hcr
      exact cr_not_mem_kept s (List.mem_of_mem_take hcr)
    · rw [← h]
      exact List.length_take_le _ _
  · rintro ⟨hcr, hlen⟩
    rw [kept_of_not_mem hcr, List.take_of_length_le hlen]

theorem kept_eq_self_iff {s : List UInt8} : kept s = s ↔ cr ∉ s :=
  ⟨fun h => h ▸ cr_not_mem_kept s, kept_of_not_mem⟩

theorem taken_iff {old given : ℤ} : (if 0 ≤ given then given else old) = asked old given ↔ Taken old given := by
  rw [asked, Taken]
  split_ifs <;> omega

theorem taken_filled_iff {old given : ℤ} :
    (if 0 ≤ (if -1 = given then old else given) then (if -1 = given then old else given) else old) = asked old given ↔
      Taken old given := by
  rw [asked, Taken]
  split_ifs <;> omega

/-- What the update of the row stores is what is asked for exactly when it can be stored. -/
theorem rowUpdated_iff {row : Trigger} {u : TriggerUpdate} {e short : List UInt8} {explode : List UInt8 → List UInt8}
    (expExpression : Option (List UInt8)) (level : ℤ) :
    RowUpdated row u e explode { (u.fill expExpression row).set (some short) row with depLevel := level } ↔
      explode ((kept short).take triggerExpressionLen) = e ∧
      Fits triggerDescriptionLen (u.description.getD row.description) ∧
      (if u.status = -1 then (if 0 ≤ row.status then row.status else row.priority) = asked row.priority u.priority
        else Taken row.priority u.priority) ∧
      Taken row.status u.status ∧ cr ∉ u.comments.getD row.comments ∧ Fits triggerUrlLen (u.url.getD row.url) ∧
      Taken row.type u.type := by
  have hpriority : (if 0 ≤ (u.fill expExpression row).priority then (u.fill expExpression row).priority
        else row.priority) = asked row.priority u.priority ↔
      if u.status = -1 then (if 0 ≤ row.status then row.status else row.priority) = asked row.priority u.priority
        else Taken row.priority u.priority := by
    rw [TriggerUpdate.fill]
    dsimp only
    by_cases hstatus : u.status = -1
    · rw [if_pos hstatus, if_pos hstatus.symm]
    · rw [if_neg hstatus, if_neg (Ne.symm hstatus)]
      exact taken_filled_iff
  rw [← hpriority, ← fits_iff, ← fits_iff, ← kept_eq_self_iff, ← @taken_iff row.status,
    ← @taken_filled_iff row.type]
  exact ⟨fun h => ⟨h.expression, h.description, h.priority, h.status, h.comments, h.url, h.type⟩,
    fun ⟨h₁, h₂, h₃, h₄, h₅, h₆, h₇⟩ => ⟨h₁, h₂, h₃, h₄, h₅, h₆, h₇⟩⟩

/-! ## the hosts of triggers -/

/-- A function of the trigger is on the host. -/
def HostDb.TriggerOn (db : HostDb) (triggerid : ℕ) (h : HostRow) : Prop :=
  ∃ f i, db.Calls f i h ∧ f.triggerid = triggerid

variable {row : Trigger} {h : HostRow}

theorem HostDb.TriggerOn.mem (hon : db.TriggerOn triggerid h) : h ∈ db.hosts := by
  obtain ⟨f, i, hcalls, -⟩ := hon
  exact hcalls.host

theorem triggerHost_isSome_iff : (db.triggerHost triggerid).isSome ↔ ∃ h, db.TriggerOn triggerid h := by
  simp only [HostDb.triggerHost, List.findSome?_isSome_iff]
  constructor
  · rintro ⟨h, hh, i, hi, f, hf, hsome⟩
    split at hsome
    · next hcond => exact ⟨h, f, i, ⟨hf, hi, hh, hcond.2.1.symm, hcond.2.2.symm⟩, hcond.1⟩
    · cases hsome
  · rintro ⟨h, f, i, hcalls, hid⟩
    refine ⟨h, hcalls.host, i, hcalls.item, f, hcalls.function, ?_⟩
    rw [if_pos ⟨hid, hcalls.itemid.symm, hcalls.hostid.symm⟩]
    rfl

theorem triggerHost_eq_some (hsome : db.triggerHost triggerid = some h) : db.TriggerOn triggerid h := by
  obtain ⟨h', hh, hsome⟩ := List.exists_of_findSome?_eq_some hsome
  obtain ⟨i, hi, hsome⟩ := List.exists_of_findSome?_eq_some hsome
  obtain ⟨f, hf, hsome⟩ := List.exists_of_findSome?_eq_some hsome
  obtain ⟨hcond, heq⟩ := Option.ite_none_right_eq_some.mp hsome
  obtain rfl := Option.some.inj heq
  exact ⟨f, i, ⟨hf, hi, hh, hcond.2.1.symm, hcond.2.2.symm⟩, hcond.1⟩

theorem triggerRow_eq_some (hsome : db.triggerRow triggerid = some (row, h)) :
    row ∈ db.triggers ∧ row.triggerid = triggerid ∧ db.TriggerOn triggerid h := by
  obtain ⟨t, ht, hsome⟩ := List.exists_of_findSome?_eq_some hsome
  obtain ⟨f, hf, hsome⟩ := List.exists_of_findSome?_eq_some hsome
  obtain ⟨i, hi, hsome⟩ := List.exists_of_findSome?_eq_some hsome
  obtain ⟨h', hh, hsome⟩ := List.exists_of_findSome?_eq_some hsome
  obtain ⟨hcond, heq⟩ := Option.ite_none_right_eq_some.mp hsome
  obtain ⟨rfl, rfl⟩ := Prod.mk.inj (Option.some.inj heq)
  exact ⟨ht, hcond.1, f, i, ⟨hf, hi, hh, hcond.2.2.1, hcond.2.2.2.symm⟩, hcond.2.1.trans hcond.1⟩

theorem triggerRow_isSome (hrow : row ∈ db.triggers) (hon : db.TriggerOn row.triggerid h) :
    (db.triggerRow row.triggerid).isSome := by
  obtain ⟨f, i, hcalls, hid⟩ := hon
  simp only [HostDb.triggerRow, List.findSome?_isSome_iff]
  refine ⟨row, hrow, f, hcalls.function, i, hcalls.item, h, hcalls.host, ?_⟩
  rw [if_pos ⟨rfl, hid, hcalls.itemid, hcalls.hostid.symm⟩]
  rfl

theorem triggerRow_eq_none (hnone : db.triggerHost triggerid = none) : db.triggerRow triggerid = none := by
  rw [Option.eq_none_iff_forall_ne_some]
  rintro ⟨row, h⟩ hsome
  have hsome := triggerHost_isSome_iff.mpr ⟨h, (triggerRow_eq_some hsome).2.2⟩
  rw [hnone] at hsome
  cases hsome

/-! ## the triggers that are linked -/

variable {stray : HostDb → ℕ → ℕ} {functionid depth : ℕ} {u : TriggerUpdate} {host : HostRow}

theorem askedExpression_fill (hne : db.askedExpression functionid row u ≠ []) :
    (u.fill (orNull (dbExplodeExp db functionid row.expression).2) row).expression =
      some (db.askedExpression functionid row u) := by
  rw [HostDb.askedExpression] at hne ⊢
  rw [TriggerUpdate.fill]
  cases hexpression : u.expression with
  | some e => rfl
  | none =>
      rw [hexpression] at hne
      exact if_neg hne

/-- Where the loop leaves the tables as they were, the trigger itself is what is updated. -/
theorem dbUpdateTrigger_store (hrow : db.triggerRow triggerid = some (row, host))
    (hloop : (db.linkedTriggers triggerid).dedup.foldlM
      (dbUpdateLinked stray (dbUpdateTrigger nodeid c stray functionid depth) triggerid host
        (u.fill (orNull (dbExplodeExp db functionid row.expression).2) row)) db = .ok db') :
    dbUpdateTrigger nodeid c stray functionid (depth + 1) db triggerid u =
      (dbStoreTrigger nodeid c db' triggerid
        (u.fill (orNull (dbExplodeExp db functionid row.expression).2) row)).map (Prod.mk true) := by
  rw [dbUpdateTrigger, hrow]
  dsimp only
  rw [hloop, ok_bind]
  generalize dbStoreTrigger nodeid c db' triggerid _ = result
  cases result <;> rfl

theorem dbUpdateLinked_none {update : HostDb → ℕ → TriggerUpdate → Result} {b : ℕ}
    (hnone : db.triggerHost (stray db b) = none) : dbUpdateLinked stray update triggerid host u db b = .ok db := by
  rw [dbUpdateLinked, hnone]

/-- A linked trigger that is on no host is left alone, whatever stands in the place of the argument. -/
theorem dbUpdateLinked_unlinked {b : ℕ} {e : List UInt8} (he : u.expression = some e)
    (hnone : db.triggerHost b = none) :
    dbUpdateLinked stray (dbUpdateTrigger nodeid c stray functionid (depth + 1)) triggerid host u db b = .ok db := by
  rw [dbUpdateLinked]
  split
  · rfl
  · rw [he]
    dsimp only
    rw [dbUpdateTrigger, triggerRow_eq_none hnone]
    rfl

/-- What is linked below a trigger hangs on one that is linked to it and on a host. -/
theorem LinkedBelow.linked_on {a b : ℕ} {e e' : List UInt8} (h : LinkedBelow db a e b e') :
    ∃ b ∈ db.linkedTriggers a, db.triggerHost b ≠ none := by
  induction h with
  | linked _ hb hhost => exact ⟨_, hb, by rw [hhost]; exact Option.some_ne_none _⟩
  | further _ _ ih _ => exact ih

/-! ## the rows of triggers -/

theorem TriggerWritten.mem {short : List UInt8} {functions : List Function}
    (h : TriggerWritten db triggerid u short functions db') {t : Trigger} (ht : t ∈ db.triggers) :
    ∃ level,
      { (if t.triggerid = triggerid then u.set (some short) t else t) with depLevel := level } ∈ db'.triggers := by
  obtain ⟨level, htriggers⟩ := h.triggers
  refine ⟨level t, ?_⟩
  rw [htriggers]
  exact List.mem_map_of_mem ht

theorem TriggerWritten.triggerids {short : List UInt8} {functions : List Function}
    (h : TriggerWritten db triggerid u short functions db') :
    db'.triggers.map Trigger.triggerid = db.triggers.map Trigger.triggerid := by
  obtain ⟨level, htriggers⟩ := h.triggers
  rw [htriggers, List.map_map]
  refine List.map_congr_left fun t _ => ?_
  by_cases hid : t.triggerid = triggerid
  · simp [hid, TriggerUpdate.set]
  · simp [hid]

/-- The row that a row has come to be. -/
theorem TriggerWritten.eq_of_mem {short : List UInt8} {functions : List Function}
    (h : TriggerWritten db triggerid u short functions db') (htriggers : (db.triggers.map Trigger.triggerid).Nodup)
    {t t' : Trigger} (ht : t ∈ db.triggers) (ht' : t' ∈ db'.triggers) (hid : t'.triggerid = t.triggerid) :
    ∃ level, t' = { (if t.triggerid = triggerid then u.set (some short) t else t) with depLevel := level } := by
  obtain ⟨level, hmem⟩ := h.mem ht
  refine ⟨level, List.inj_on_of_nodup_map (h.triggerids ▸ htriggers) ht' hmem (hid.trans ?_)⟩
  by_cases hown : t.triggerid = triggerid
  · rw [if_pos hown]
    rfl
  · rw [if_neg hown]

/-- The row of the trigger has the short expression. -/
theorem TriggerWritten.own {short : List UInt8} {functions : List Function}
    (h : TriggerWritten db triggerid u short functions db') {t : Trigger} (ht : t ∈ db.triggers)
    (hid : t.triggerid = triggerid) :
    ∃ t' ∈ db'.triggers, t'.triggerid = triggerid ∧
      t'.expression = (u.set (some short) t).expression := by
  obtain ⟨level, hmem⟩ := h.mem ht
  rw [if_pos hid] at hmem
  exact ⟨_, hmem, hid, rfl⟩

/-- The row of another trigger keeps its expression. -/
theorem TriggerWritten.other {short : List UInt8} {functions : List Function}
    (h : TriggerWritten db triggerid u short functions db') (htriggers : (db.triggers.map Trigger.triggerid).Nodup)
    {t t' : Trigger} (ht : t ∈ db.triggers) (ht' : t' ∈ db'.triggers) (hid : t'.triggerid = t.triggerid)
    (hne : t.triggerid ≠ triggerid) : t'.expression = t.expression := by
  obtain ⟨level, rfl⟩ := h.eq_of_mem htriggers ht ht' hid
  rw [if_neg hne]

/-! ## what a trigger that is written is exploded into -/

variable {e : List UInt8}

theorem dbStoreTrigger_ok (he : u.expression = some e) (hnormal : Normal e) (hnot : db.NotBelow nodeid c .functions)
    (hok : dbStoreTrigger nodeid c db triggerid u = .ok db') :
    let n := (db.deleteFunctions triggerid).lastId nodeid c .functions
    let functions := called (db.deleteFunctions triggerid) triggerid n (read e)
    n + functions.length ≤ (c .functions).max nodeid ∧ db'.NotBelow nodeid c .functions ∧
      TriggerWritten db triggerid u (render (shortened (db.deleteFunctions triggerid) n (read e))) functions db' := by
  intro n functions
  have hstore := dbStoreTrigger_eq he hnormal hnot triggerid
  dsimp only at hstore
  split at hstore
  · next hle =>
    obtain ⟨db'', hok', hnot', hwritten⟩ := hstore
    obtain rfl := Except.ok.inj (hok.symm.trans hok')
    exact ⟨hle, hnot', hwritten⟩
  · rw [hok] at hstore
    cases hstore

/-- The functions that have been added are there, with identifiers that are read back. -/
theorem TriggerWritten.mem_functions {short : List UInt8} {n : ℕ} {ss : List Symbol}
    (hmax : (c .functions).max nodeid < 2 ^ 64)
    (hle : n + (called (db.deleteFunctions triggerid) triggerid n ss).length ≤ (c .functions).max nodeid)
    (h : TriggerWritten db triggerid u short (called (db.deleteFunctions triggerid) triggerid n ss) db') :
    ∀ g ∈ called (db.deleteFunctions triggerid) triggerid n ss, g ∈ db'.functions ∧ g.functionid < 2 ^ 64 := by
  intro g hg
  have hid := (mem_called hg).2
  refine ⟨?_, by omega⟩
  rw [h.functions]
  exact List.mem_append_right _ hg

/-- What has been written is exploded into what it was exactly when it can be stored. -/
theorem TriggerWritten.explode_iff (hkeys : db.CallKeys) (hnot : db.NotBelow nodeid c .functions)
    (hmax : (c .functions).max nodeid < 2 ^ 64) (hnormal : Normal e) :
    let n := (db.deleteFunctions triggerid).lastId nodeid c .functions
    let functions := called (db.deleteFunctions triggerid) triggerid n (read e)
    let short := render (shortened (db.deleteFunctions triggerid) n (read e))
    n + functions.length ≤ (c .functions).max nodeid → TriggerWritten db triggerid u short functions db' →
    ((dbExplodeExp db' functionid ((kept short).take triggerExpressionLen)).2 = e ↔
      (∀ a ∈ read e, db.Storable a) ∧ (render (numbered n (read e))).length ≤ triggerExpressionLen) := by
  intro n functions short hle h
  have hitems : db'.items = (db.deleteFunctions triggerid).items := h.items
  have hhosts : db'.hosts = (db.deleteFunctions triggerid).hosts := h.hosts
  exact explode_kept_iff (h.callKeys hkeys hnot hle) hitems hhosts hnormal (h.mem_functions hmax hle) _ _

/-- What has been written is exploded into what stays of it, also when another trigger has been written behind it. -/
theorem TriggerWritten.exploded {b : ℕ} {v : TriggerUpdate} {short : List UInt8} {ss : List Symbol}
    (hkeys : db.CallKeys) (htriggers : (db.triggers.map Trigger.triggerid).Nodup)
    (hnot : db.NotBelow nodeid c .functions) (hmax : (c .functions).max nodeid < 2 ^ 64) (hnormal : Normal e)
    {t t' : Trigger} (ht : t ∈ db.triggers) (htb : t.triggerid = b) (ht' : t' ∈ db''.triggers)
    (htb' : t'.triggerid = b) (hne : b ≠ triggerid) (hnot' : db'.NotBelow nodeid c .functions) :
    let n := (db.deleteFunctions b).lastId nodeid c .functions
    let functions := called (db.deleteFunctions b) b n (read e)
    let n' := (db'.deleteFunctions triggerid).lastId nodeid c .functions
    let functions' := called (db'.deleteFunctions triggerid) triggerid n' ss
    n + functions.length ≤ (c .functions).max nodeid → n' + functions'.length ≤ (c .functions).max nodeid →
    TriggerWritten db b v (render (shortened (db.deleteFunctions b) n (read e))) functions db' →
    TriggerWritten db' triggerid u short functions' db'' →
    ∃ k, (dbExplodeExp db'' functionid t'.expression).2 =
      render (((read e).filterMap (db.deleteFunctions b).stays).take k) := by
  intro n functions n' functions' hle hle' h h'
  have hkeys' := h.callKeys hkeys hnot hle
  have hcalled : ∀ g ∈ functions, g ∈ db''.functions ∧ g.functionid < 2 ^ 64 := by
    intro g hg
    obtain ⟨hg', hlt⟩ := h.mem_functions hmax hle g hg
    refine ⟨?_, hlt⟩
    rw [h'.functions]
    exact List.mem_append_left _ (List.mem_filter.mpr ⟨hg', by simpa [triggerid_of_mem_called hg] using hne⟩)
  have hitems : db''.items = (db.deleteFunctions b).items := h'.items.trans h.items
  have hhosts : db''.hosts = (db.deleteFunctions b).hosts := h'.hosts.trans h.hosts
  obtain ⟨k, hkept, -, -⟩ := explode_kept (h'.callKeys hkeys' hnot' hle') hitems hhosts hnormal hcalled
    triggerExpressionLen
  obtain ⟨t₁, ht₁, hid₁, hexpression⟩ := h.own ht htb
  rw [h'.other (h.triggerids ▸ htriggers) ht₁ ht' (htb'.trans hid₁.symm) (hid₁ ▸ hne), hexpression]
  exact ⟨k, hkept functionid⟩

/-! ## what stands in the place of the argument -/

/-- An identifier of which there is no function. -/
def HostDb.noTrigger (db : HostDb) : ℕ := (db.functions.map Function.triggerid).sum + 1

theorem triggerHost_noTrigger (db : HostDb) : db.triggerHost db.noTrigger = none := by
  rw [← Option.not_isSome_iff_eq_none, triggerHost_isSome_iff]
  rintro ⟨h, f, i, hcalls, hid⟩
  have hle := List.le_sum_of_mem (List.mem_map_of_mem (f := Function.triggerid) hcalls.function)
  rw [hid, HostDb.noTrigger] at hle
  omega

/-- It leads to the trigger `a` for the trigger `b`, and to none for the others. -/
def strayAt (b a : ℕ) (db : HostDb) (chdTriggerid : ℕ) : ℕ := if chdTriggerid = b then a else db.noTrigger

theorem triggerHost_strayAt {a b x : ℕ} (hx : x ≠ b) (db : HostDb) : db.triggerHost (strayAt b a db x) = none := by
  rw [strayAt, if_neg hx]
  exact triggerHost_noTrigger db

/-! ## the trigger itself comes to have what it is to have -/

theorem askedExpression_ne_nil (hcall : ∃ a ∈ read e, OnHost host.host a) : e ≠ [] := by
  rintro rfl
  obtain ⟨a, ha, -⟩ := hcall
  cases ha

/-- What can be updated is updated. -/
theorem updates_of_updatable (hkeys : db.CallKeys) (hnot : db.NotBelow nodeid c .functions)
    (hmax : (c .functions).max nodeid < 2 ^ 64) (hrow : db.triggerRow triggerid = some (row, host))
    (he : db.askedExpression functionid row u = e) (hnormal : Normal e) (hne : e ≠ [])
    (h : db.Updatable nodeid c triggerid row u e) (stray : HostDb → ℕ → ℕ) :
    Updates nodeid c stray functionid db triggerid row u := by
  obtain ⟨hmem, hid, -⟩ := triggerRow_eq_some hrow
  have hexpression := askedExpression_fill (he.symm ▸ hne)
  rw [he] at hexpression
  obtain ⟨hshort, hlength⟩ := @shortened_of_storable triggerid (db.deleteFunctions triggerid) _ h.storable
    ((db.deleteFunctions triggerid).lastId nodeid c .functions)
  have hle := h.identifiers
  rw [← hlength] at hle
  have hstore := dbStoreTrigger_eq hexpression hnormal hnot triggerid
  dsimp only at hstore
  rw [if_pos hle] at hstore
  obtain ⟨db', hok, -, hwritten⟩ := hstore
  have hloop := foldlM_same (s := db) fun b hb => @dbUpdateLinked_unlinked _ nodeid c triggerid db stray functionid 0
    _ host b _ hexpression (h.unlinked b (List.mem_dedup.mp hb))
  refine ⟨2, db', ?_, ?_, ?_⟩
  · rw [dbUpdateTrigger_store hrow hloop, hok]
    rfl
  · obtain ⟨level, hmem'⟩ := hwritten.mem hmem
    rw [if_pos hid] at hmem'
    refine ⟨_, hmem', hid, ?_⟩
    rw [he, rowUpdated_iff]
    refine ⟨?_, h.description, h.priority, h.status, h.comments, h.url, h.type⟩
    exact (TriggerWritten.explode_iff hkeys hnot hmax hnormal hle hwritten).mpr ⟨h.storable, h.short⟩
  · intro b e' hbelow
    obtain ⟨b', hb', hhost⟩ := hbelow.linked_on
    exact absurd (h.unlinked b' hb') hhost

/-- What is updated can be updated, if nothing that is linked below is on a host. -/
theorem updatable_of_updates (hkeys : db.CallKeys) (htriggers : (db.triggers.map Trigger.triggerid).Nodup)
    (hnot : db.NotBelow nodeid c .functions) (hmax : (c .functions).max nodeid < 2 ^ 64)
    (hrow : db.triggerRow triggerid = some (row, host)) (he : db.askedExpression functionid row u = e)
    (hnormal : Normal e) (hne : e ≠ [])
    (h : Updates nodeid c (fun db _ => db.noTrigger) functionid db triggerid row u)
    (hunlinked : ∀ b ∈ db.linkedTriggers triggerid, db.triggerHost b = none) :
    db.Updatable nodeid c triggerid row u e := by
  obtain ⟨depth, db', hok, ⟨row', hrow', hid', hupdated⟩, -⟩ := h
  obtain ⟨hmem, hid, -⟩ := triggerRow_eq_some hrow
  have hexpression := askedExpression_fill (he.symm ▸ hne)
  rw [he] at hexpression hupdated
  cases depth with
  | zero => cases hok
  | succ depth =>
      rw [dbUpdateTrigger_store hrow (foldlM_same fun b _ => dbUpdateLinked_none (triggerHost_noTrigger db))] at hok
      obtain ⟨db'', hstore, heq⟩ := map_eq_ok.mp hok
      obtain rfl : db'' = db' := (Prod.mk.inj heq).2
      obtain ⟨hle, -, hwritten⟩ := dbStoreTrigger_ok hexpression hnormal hnot hstore
      obtain ⟨level, rfl⟩ := hwritten.eq_of_mem htriggers hmem hrow' (hid'.trans hid.symm)
      rw [if_pos hid, rowUpdated_iff] at hupdated
      obtain ⟨hexplode, hdescription, hpriority, hstatus, hcomments, hurl, htype⟩ := hupdated
      obtain ⟨hstorable, hshort⟩ := (TriggerWritten.explode_iff hkeys hnot hmax hnormal hle hwritten).mp hexplode
      refine ⟨hunlinked, hstorable, ?_, hshort, hdescription, hcomments, hurl, hpriority, hstatus, htype⟩
      rwa [← (@shortened_of_storable triggerid (db.deleteFunctions triggerid) _ hstorable _).2]

/-! ## a trigger that is linked and on a host -/

/-- The linked trigger has been stored with the identifier of a host in its expression. -/
theorem dbUpdateLinked_ok {a b : ℕ} {h h' : HostRow} {t : Trigger} (ht : t ∈ db.triggers)
    (hon : db.TriggerOn t.triggerid h') (hself : t.triggerid ∉ db.linkedTriggers t.triggerid)
    (hb : t.triggerid = b) (hstray : db.triggerHost a = some h) (he : u.expression = some e)
    (hok : dbUpdateLinked (strayAt b a) (dbUpdateTrigger nodeid c (strayAt b a) functionid depth) triggerid host u db
      b = .ok db') :
    ∃ v : TriggerUpdate, v.expression = some (replaceHost host.host (dec h.hostid) e) ∧
      dbStoreTrigger nodeid c db b v = .ok db' := by
  subst hb
  rw [dbUpdateLinked, strayAt, if_pos rfl, hstray, he] at hok
  dsimp only at hok
  obtain ⟨r, hupdate, rfl⟩ := map_eq_ok.mp hok
  cases depth with
  | zero => cases hupdate
  | succ depth =>
      obtain ⟨⟨row, host'⟩, hrow⟩ := Option.isSome_iff_exists.mp (triggerRow_isSome ht hon)
      have hrest : ∀ x ∈ (db.linkedTriggers t.triggerid).dedup, x ≠ t.triggerid := by
        rintro x hx rfl
        exact hself (List.mem_dedup.mp hx)
      rw [dbUpdateTrigger_store hrow
        (foldlM_same fun x hx => dbUpdateLinked_none (triggerHost_strayAt (hrest x hx) db))] at hupdate
      obtain ⟨db', hstore, rfl⟩ := map_eq_ok.mp hupdate
      exact ⟨_, rfl, hstore⟩

/-- Of two triggers on hosts that differ one is on a host whose identifier is not the name. -/
theorem exists_triggerHost (hkeys : db.CallKeys) {b : ℕ} {h h' : HostRow} (hsome : db.triggerHost b = some h')
    (hon : db.TriggerOn triggerid h) (hother : ¬db.TriggerOn triggerid h') :
    ∃ a h, db.triggerHost a = some h ∧ dec h.hostid ≠ h'.host := by
  by_cases hname : dec h'.hostid = h'.host
  · obtain ⟨h₁, hsome₁⟩ := Option.isSome_iff_exists.mp (triggerHost_isSome_iff.mpr ⟨h, hon⟩)
    refine ⟨triggerid, h₁, hsome₁, fun hname₁ => hother ?_⟩
    have hon₁ := triggerHost_eq_some hsome₁
    have hid : h₁.hostid = h'.hostid := dec_injective (hname₁.trans hname.symm)
    obtain rfl := List.inj_on_of_nodup_map hkeys.hosts hon₁.mem (triggerHost_eq_some hsome).mem hid
    exact hon₁
  · exact ⟨b, h', hsome, hname⟩

/-- Nothing that is on a host is linked below a trigger that is updated. -/
theorem unlinked_of_updates (hkeys : db.CallKeys) (htriggers : (db.triggers.map Trigger.triggerid).Nodup)
    (hnames : ∀ h ∈ db.hosts, HostName h.host) (hnot : db.NotBelow nodeid c .functions)
    (hmax : (c .functions).max nodeid < 2 ^ 64) (hrow : db.triggerRow triggerid = some (row, host))
    (he : db.askedExpression functionid row u = e) (hnormal : Normal e) (hcall : ∃ a ∈ read e, OnHost host.host a)
    (hother : ∀ b ∈ db.linkedTriggers triggerid, ∀ h, db.TriggerOn b h → ¬db.TriggerOn triggerid h)
    (h : ∀ stray, Updates nodeid c stray functionid db triggerid row u) {b : ℕ}
    (hb : b ∈ db.linkedTriggers triggerid) : db.triggerHost b = none := by
  rw [Option.eq_none_iff_forall_ne_some]
  intro hostb hsome
  obtain ⟨-, -, hon⟩ := triggerRow_eq_some hrow
  have honb := triggerHost_eq_some hsome
  obtain ⟨rowb, hrowb, htemplate, hidb⟩ := mem_linkedTriggers.mp hb
  have hne : b ≠ triggerid := by
    rintro rfl
    exact hother b hb hostb honb honb
  have hself : rowb.triggerid ∉ db.linkedTriggers rowb.triggerid := by
    intro hmem
    obtain ⟨rowb', hrowb', htemplate', hidb'⟩ := mem_linkedTriggers.mp hmem
    obtain rfl := List.inj_on_of_nodup_map htriggers hrowb' hrowb hidb'
    exact hne (hidb.symm.trans (htemplate'.symm.trans htemplate))
  obtain ⟨a, hosta, hstray, hname⟩ := exists_triggerHost hkeys hsome hon (hother b hb hostb honb)
  obtain ⟨depth, db', hok, -, hbelow⟩ := h (strayAt b a)
  obtain ⟨rowb', hrowb', hidb', hexplode, -⟩ := hbelow b _ (.linked hrow hb hsome) rowb hrowb hidb
  have hexpression := askedExpression_fill (he.symm ▸ askedExpression_ne_nil hcall)
  rw [he] at hexpression hexplode
  cases depth with
  | zero => cases hok
  | succ depth =>
      rw [dbUpdateTrigger, hrow] at hok
      obtain ⟨db₁, hloop, hok⟩ := bind_eq_ok hok
      obtain ⟨db₂, hstore, heq⟩ := bind_eq_ok hok
      obtain rfl : db₂ = db' := (Prod.mk.inj (Except.ok.inj heq)).2
      rw [foldlM_only (List.nodup_dedup _) (List.mem_dedup.mpr hb)
        fun x _ hx db => dbUpdateLinked_none (triggerHost_strayAt hx db)] at hloop
      obtain ⟨v, hv, hchild⟩ := dbUpdateLinked_ok hrowb (hidb.symm ▸ honb) hself hidb hstray hexpression hloop
      have hnormal₁ := normal_replaceHost (hnames _ hon.mem) (hostName_dec hosta.hostid) (dec_ne_nil _)
        (fun hmem => absurd (digit_of_mem_dec hmem).1 (by decide)) hnormal
      obtain ⟨hle₁, hnot₁, hwritten₁⟩ := dbStoreTrigger_ok hv hnormal₁ hnot hchild
      obtain ⟨hle, -, hwritten⟩ := dbStoreTrigger_ok hexpression hnormal hnot₁ hstore
      obtain ⟨k, hk⟩ := hwritten₁.exploded hkeys htriggers hnot hmax hnormal₁ hrowb hidb hrowb' hidb' hne hnot₁ hle₁ hle
        hwritten
      exact hname (host_eq_of_exploded (hnames _ hon.mem) (hostName_dec _) (cr_not_mem_dec _) (hnames _ honb.mem)
        hnormal hnormal₁ hcall (hk.symm.trans hexplode))

/-! ## any update -/

variable (nodeid c functionid) in
/-- A trigger with an expression on its host comes to have what it is to have, and the triggers linked below it come to
have its expression on their hosts, exactly when nothing that is on a host is linked below, all that is to be stored
can be, and the priority that is asked for is the status where that is skipped. -/
theorem updates_iff (hkeys : db.CallKeys) (htriggers : (db.triggers.map Trigger.triggerid).Nodup)
    (hnames : ∀ h ∈ db.hosts, HostName h.host) (hnot : db.NotBelow nodeid c .functions)
    (hmax : (c .functions).max nodeid < 2 ^ 64) (hrow : db.triggerRow triggerid = some (row, host))
    (hother : ∀ b ∈ db.linkedTriggers triggerid, ∀ h, db.TriggerOn b h → ¬db.TriggerOn triggerid h)
    (hnormal : Normal (db.askedExpression functionid row u))
    (hcall : ∃ a ∈ read (db.askedExpression functionid row u), OnHost host.host a) :
    (∀ stray, Updates nodeid c stray functionid db triggerid row u) ↔
      db.Updatable nodeid c triggerid row u (db.askedExpression functionid row u) := by
  have hne := askedExpression_ne_nil hcall
  constructor
  · intro h
    exact updatable_of_updates hkeys htriggers hnot hmax hrow rfl hnormal hne (h _) fun b hb =>
      unlinked_of_updates hkeys htriggers hnames hnot hmax hrow rfl hnormal hcall hother h hb
  · exact updates_of_updatable hkeys hnot hmax hrow rfl hnormal hne

/-- A trigger on the host of `loadCallDb`. -/
def loadTrigger : Trigger where
  triggerid := 100
  expression := loadCallExpression
  description := bytes "load"
  url := []
  comments := []
  status := 0
  value := 0
  priority := 3
  depLevel := 0
  templateid := 0
  type := 0

/-- The tables with that trigger. -/
def loadTriggerDb : HostDb := { loadCallDb (bytes "0") with triggers := [loadTrigger] }

/-- `{web:load[,avg1].last(0)}>5` -/
def loadAskedExpression : List UInt8 := braced (bytes "web:load[,avg1].last(0)") ++ bytes ">5"

/-- The update with that expression and a status; all else is skipped. -/
def loadUpdate (status : ℤ) : TriggerUpdate where
  expression := some loadAskedExpression
  description := none
  priority := -1
  status := status
  comments := none
  url := none
  type := -1
  dependences := [0]
  templateid := 0

theorem read_loadAskedExpression : read loadAskedExpression =
    [.reference (bytes "web:load[,avg1].last(0)"), .text greater, .text 53] := by
  decide

theorem normal_loadAskedExpression : Normal loadAskedExpression := by
  rw [Normal, read_loadAskedExpression]
  simp only [List.forall_mem_cons, List.not_mem_nil, false_imp_iff, implies_true, and_true]
  exact ⟨⟨by decide, .inr (by decide)⟩, ⟨by decide, by decide, by decide⟩, by decide, by decide, by decide⟩

theorem keys_loadTriggerDb : loadTriggerDb.CallKeys where
  functions := List.nodup_singleton _
  items := List.nodup_singleton _
  hosts := List.nodup_singleton _

theorem triggerRow_loadTriggerDb : loadTriggerDb.triggerRow 100 = some (loadTrigger, ⟨10, bytes "web", 0⟩) := rfl

theorem storable_loadAskedExpression : ∀ a ∈ read loadAskedExpression, loadTriggerDb.Storable a := by
  rw [read_loadAskedExpression]
  simp only [List.forall_mem_cons, List.not_mem_nil, false_imp_iff, implies_true, and_true]
  refine ⟨.inr ⟨⟨bytes "web", bytes "load[,avg1]", bytes "last", bytes "0"⟩, by decide, by decide, by decide, by decide,
    by decide, by decide⟩, ?_, ?_⟩
  · exact (by decide : greater ≠ cr)
  · exact (by decide : (53 : UInt8) ≠ cr)

theorem updatable_load : loadTriggerDb.Updatable 0 idColumn 100 loadTrigger (loadUpdate 0) loadAskedExpression where
  unlinked := fun _ h => nomatch h
  storable := storable_loadAskedExpression
  identifiers := by
    rw [read_loadAskedExpression]
    decide
  short := by
    rw [read_loadAskedExpression]
    decide
  description := ⟨by decide, by decide⟩
  comments := by decide
  url := ⟨by decide, by decide⟩
  priority := .inl (by decide)
  status := .inl (by decide)
  type := .inl (by decide)

/-- With a status there is nothing wrong. -/
theorem updates_load : loadTriggerDb.Updatable 0 idColumn 100 loadTrigger (loadUpdate 0) loadAskedExpression ∧
    ∀ stray, Updates 0 idColumn stray 0 loadTriggerDb 100 loadTrigger (loadUpdate 0) := by
  refine ⟨updatable_load, (updates_iff 0 idColumn 0 (u := loadUpdate 0) keys_loadTriggerDb (List.nodup_singleton _) ?_
    (fun _ h => nomatch h) (by decide) triggerRow_loadTriggerDb (fun _ h => nomatch h) normal_loadAskedExpression
    ?_).mpr updatable_load⟩
  · intro h hh
    obtain rfl := List.mem_singleton.mp hh
    exact ⟨⟨by decide, by decide⟩, by decide⟩
  · change ∃ a ∈ read loadAskedExpression, _
    rw [read_loadAskedExpression]
    exact ⟨_, List.mem_cons_self, by decide⟩

/-- Without one the priority is lost. -/
theorem not_updates_load :
    ¬∀ stray, Updates 0 idColumn stray 0 loadTriggerDb 100 loadTrigger (loadUpdate (-1)) := by
  intro h
  have hupdatable := updatable_of_updates (u := loadUpdate (-1)) keys_loadTriggerDb (List.nodup_singleton _)
    (fun _ h => nomatch h) (by decide) triggerRow_loadTriggerDb rfl normal_loadAskedExpression (by decide) (h _)
    (fun _ h => nomatch h)
  have hpriority : (0 : ℤ) = 3 := hupdatable.priority
  exact absurd hpriority (by decide)

end Zabbix.Host
