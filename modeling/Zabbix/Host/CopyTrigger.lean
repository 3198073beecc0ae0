import Zabbix.Host.UpdateLinked

/-!
# Zabbix.Host.CopyTrigger

The copy of a trigger to a host and to the hosts that are linked to it (`DBcopy_trigger_to_host` of
`libs/zbxdbhigh/host.c`).

A new trigger is inserted with its functions one by one, and nothing takes them back where there is no item for the
next function.

* `dbUpdateTrigger_keeps` — an update always succeeds, and no trigger comes or goes;
* `dbCopyTriggerToHost_grows` — a copy leaves a trigger where it fails;
* `dbCopyTriggerToHost_fails_iff` — it fails where it comes to a host that lacks an item.
-/

namespace Zabbix.Host

open Ascii Cascade Outcome Printf

/-! ## the functions -/

/-- `select hostid from hosts_templates where templateid=..` -/
def HostDb.linkedHosts (db : HostDb) (hostid : ℕ) : List ℕ :=
  (db.hostsTemplates.filter (·.templateid = hostid)).map HostTemplate.hostid

/-- `DBget_trigger_dependences_by_triggerid`, for an array of `ZBX_MAX_DEPENDENCES`. -/
def dbGetTriggerDependencesByTriggerid (db : HostDb) (triggerid : ℕ) : List ℕ :=
  ((db.triggerDepends.filter (·.triggeridDown = triggerid)).map TriggerDepend.triggeridUp).take (zbxMaxDependences - 1)

/-- The select for the triggers of a host that are not linked. -/
def HostDb.unlinkedTriggers (db : HostDb) (hostid : ℕ) : List ℕ :=
  (db.functions.flatMap fun f => db.items.flatMap fun i => db.triggers.filterMap fun t =>
    if t.templateid = 0 ∧ t.triggerid = f.triggerid ∧ i.itemid = f.itemid ∧ i.hostid = hostid
    then some t.triggerid else none).dedup

/-- The trigger of a host that is not linked and has the same expression. -/
def HostDb.sameTrigger (order : List (ℕ × ℕ) → List (ℕ × ℕ)) (db : HostDb) (triggerid hostid : ℕ) : Option ℕ :=
  (db.unlinkedTriggers hostid).find? fun hTriggerid => dbCmpTriggers order db triggerid hTriggerid = 0

/-- The select for the item of a host that has the key of another item. -/
def HostDb.itemLike (db : HostDb) (hostid itemid : ℕ) : Option ℕ :=
  db.items.findSome? fun i1 => db.items.findSome? fun i2 =>
    if i2.key = i1.key ∧ i2.hostid = hostid ∧ i1.itemid = itemid then some i2.itemid else none

/-- `insert into triggers`; of the texts the database has what escaping keeps. -/
def HostDb.insertTrigger (db : HostDb) (newTriggerid : ℕ) (row : Trigger) (templateid : ℕ) : HostDb :=
  { db with
    triggers := db.triggers ++
      [{ triggerid := newTriggerid
         expression := bytes "0"
         description := (kept row.description).take triggerDescriptionLen
         url := (kept row.url).take triggerUrlLen
         comments := kept row.comments
         status := row.status
         value := triggerValueUnknown
         priority := row.priority
         depLevel := 0
         templateid
         type := row.type }] }

variable {schema : Schema} (nodeid : ℕ) (c : IdColumn → Column schema)

/-- The loop for the functions of a trigger, with the expression; there is none where an item is missing. -/
def copyFunctions (newTriggerid hostid : ℕ) :
    List Function → List UInt8 → HostDb → Except HostStop (Option (List UInt8) × HostDb)
  | [], expression, db => .ok (some expression, db)
  | f :: fs, expression, db =>
      match db.itemLike hostid f.itemid with
      | none => .ok (none, db)
      | some itemid => do
          let (newFunctionid, db) ← dbGetMaxid nodeid c .functions db
          copyFunctions newTriggerid hostid fs (replaceReference newFunctionid f.functionid expression)
            (db.insertFunction newFunctionid itemid newTriggerid f.function f.parameter)

/-- The part of `DBcopy_trigger_to_host` that adds a trigger to the host, with the identifier if it succeeds. -/
def dbAddTrigger (db : HostDb) (row : Trigger) (hostid : ℕ) (copyMode : Bool) (newDependences : List ℕ) :
    Except HostStop (Option ℕ × HostDb) := do
  let (newTriggerid, db) ← dbGetMaxid nodeid c .triggers db
  let db := db.insertTrigger newTriggerid row (if copyMode then 0 else row.triggerid)
  let (newExpression, db) ← copyFunctions nodeid c newTriggerid hostid
    (db.functions.filter (·.triggerid = row.triggerid)) row.expression db
  match newExpression with
  | none => .ok (none, db)
  | some newExpression =>
      let db := db.setTrigger newTriggerid fun t =>
        { t with expression := (kept newExpression).take triggerExpressionLen }
      let db := dbDeleteDependenciesByTriggerid db newTriggerid
      .ok (some newTriggerid,
        (untilZero newDependences).foldl (fun db dependence => dbInsertDependency db newTriggerid dependence) db)

/-- What `DBcopy_trigger_to_host` gives to `DBupdate_trigger`. -/
def Trigger.update (row : Trigger) (copyMode : Bool) (newDependences : List ℕ) : TriggerUpdate where
  expression := none
  description := some row.description
  priority := row.priority
  status := -1
  comments := some row.comments
  url := some row.url
  type := row.type
  dependences := newDependences
  templateid := if copyMode then 0 else row.triggerid

variable (stray : HostDb → ℕ → ℕ) (functionid : ℕ) (order : List (ℕ × ℕ) → List (ℕ × ℕ)) (copyMode : Bool)

/-- `DBcopy_trigger_to_host`, with up to `depth` calls nested; the rows of the join that triggers are compared with come
in some order. -/
def dbCopyTriggerToHost : (depth : ℕ) → (db : HostDb) → (triggerid hostid : ℕ) → Result
  | 0, _, _, _ => .error .deeper
  | depth + 1, db, triggerid, hostid =>
      match db.triggers.find? (·.triggerid = triggerid) with
      | none => .ok (true, db)
      | some row =>
          let newDependences := dbReplaceTemplateDependences db (dbGetTriggerDependencesByTriggerid db triggerid) hostid
          match db.sameTrigger order triggerid hostid with
          | some hTriggerid =>
              dbUpdateTrigger nodeid c stray functionid depth db hTriggerid (row.update copyMode newDependences)
          | none => do
              let (newTriggerid, db) ← dbAddTrigger nodeid c db row hostid copyMode newDependences
              match newTriggerid with
              | none => .ok (false, db)
              | some newTriggerid =>
                  untilFail (fun db chdHostid => dbCopyTriggerToHost depth db newTriggerid chdHostid)
                    (db.linkedHosts hostid) db

/-! ## what an update keeps -/

variable {nodeid c stray functionid} {db db' db'' : HostDb} {triggerid : ℕ}

variable (nodeid c) in
/-- The triggers are the same ones, hosts are linked as before, and the identifiers of functions go on. -/
structure KeepsTriggers (db db' : HostDb) : Prop where
  triggers : db'.triggers.map Trigger.triggerid = db.triggers.map Trigger.triggerid
  hostsTemplates : db'.hostsTemplates = db.hostsTemplates
  notBelow : db.NotBelow nodeid c .functions → db'.NotBelow nodeid c .functions

theorem KeepsTriggers.refl (db : HostDb) : KeepsTriggers nodeid c db db := ⟨rfl, rfl, id⟩

theorem KeepsTriggers.trans (h : KeepsTriggers nodeid c db db') (h' : KeepsTriggers nodeid c db' db'') :
    KeepsTriggers nodeid c db db'' :=
  ⟨h'.triggers.trans h.triggers, h'.hostsTemplates.trans h.hostsTemplates, fun hnot => h'.notBelow (h.notBelow hnot)⟩

theorem keepsTriggers_relevels (h : Relevels db db') : KeepsTriggers nodeid c db db' := by
  obtain ⟨level, depends, rfl⟩ := h
  exact ⟨List.map_map, rfl, id⟩

theorem keepsTriggers_setTrigger (triggerid : ℕ) (set : Trigger → Trigger)
    (hset : ∀ t, (set t).triggerid = t.triggerid) :
    KeepsTriggers nodeid c db (db.setTrigger triggerid set) := by
  refine ⟨?_, rfl, id⟩
  rw [HostDb.setTrigger, List.map_map]
  refine List.map_congr_left fun t _ => ?_
  rw [Function.comp_apply]
  split
  · exact hset t
  · rfl

theorem keepsTriggers_insertFunction (hlt : db.lastId nodeid c .functions < (c .functions).max nodeid)
    (itemid triggerid : ℕ) (function parameter : List UInt8) :
    KeepsTriggers nodeid c db ((db.takeId nodeid c .functions).insertFunction (db.lastId nodeid c .functions + 1) itemid
      triggerid function parameter) :=
  ⟨rfl, rfl, fun hnot => (lastId_insertFunction triggerid hnot hlt itemid function parameter).1⟩

theorem keepsTriggers_implodeText {s : List UInt8} {r : List UInt8 × HostDb}
    (h : implodeText nodeid c triggerid db s = .ok r) : KeepsTriggers nodeid c db r.2 := by
  rw [implodeText] at h
  split at h
  · obtain rfl := Except.ok.inj h
    exact .refl db
  · next parts hparts =>
    rw [implodeCall] at h
    split at h
    · obtain rfl := Except.ok.inj h
      exact .refl db
    · next itemid hitemid =>
      rw [dbGetMaxid_eq] at h
      by_cases hlt : db.lastId nodeid c .functions < (c .functions).max nodeid
      · rw [if_pos hlt] at h
        obtain rfl := Except.ok.inj h
        exact keepsTriggers_insertFunction hlt itemid triggerid parts.function parts.parameter
      · rw [if_neg hlt] at h
        cases h

theorem keepsTriggers_implodePieces {ps : List Braces.Piece} {r : List UInt8 × HostDb}
    (h : implodePieces nodeid c triggerid db ps = .ok r) : KeepsTriggers nodeid c db r.2 := by
  induction ps generalizing db r with
  | nil =>
      obtain rfl := Except.ok.inj h
      exact .refl db
  | cons p ps ih =>
      cases p with
      | text a =>
          obtain ⟨r', hrun, rfl⟩ := map_eq_ok.mp h
          have hkeeps := ih hrun
          exact hkeeps
      | unclosed s =>
          obtain ⟨r', hrun, rfl⟩ := map_eq_ok.mp h
          have hkeeps := ih hrun
          exact hkeeps
      | braced s =>
          rw [implodePieces] at h
          split at h
          · cases h
          · next text db' htext =>
            obtain ⟨r', hrun, rfl⟩ := map_eq_ok.mp h
            have hkeeps := ih hrun
            exact (keepsTriggers_implodeText htext).trans hkeeps

theorem keepsTriggers_implode {e : List UInt8} {r : List UInt8 × List UInt8 × HostDb}
    (h : dbImplodeExp nodeid c triggerid db e = .ok r) : KeepsTriggers nodeid c db r.2.2 := by
  obtain ⟨m', hloop, -⟩ := @implodeLoop_eq _ nodeid c triggerid e 0 [] db
  rw [dbImplodeExp, hloop] at h
  obtain ⟨r', hrun, rfl⟩ := map_eq_ok.mp h
  exact keepsTriggers_implodePieces hrun

theorem keepsTriggers_written (db : HostDb) (triggerid : ℕ) (set : Trigger → Trigger)
    (hset : ∀ t, (set t).triggerid = t.triggerid) (dependences : List ℕ) :
    KeepsTriggers nodeid c db ((untilZero dependences).foldl (fun db dependence => dbInsertDependency db triggerid
      dependence) (dbDeleteDependenciesByTriggerid (db.setTrigger triggerid set) triggerid)) :=
  (keepsTriggers_setTrigger triggerid set hset).trans
    (keepsTriggers_relevels ((relevels_delete _ triggerid).trans (relevels_foldl _ triggerid _)))

theorem keepsTriggers_store {u : TriggerUpdate} (h : dbStoreTrigger nodeid c db triggerid u = .ok db') :
    KeepsTriggers nodeid c db db' := by
  have hdeleted : KeepsTriggers nodeid c db (db.deleteFunctions triggerid) :=
    ⟨rfl, rfl, fun hnot => notBelow_deleteFunctions hnot triggerid⟩
  rw [dbStoreTrigger] at h
  cases he : u.expression with
  | none =>
      rw [he] at h
      obtain rfl := Except.ok.inj h
      exact hdeleted.trans (keepsTriggers_written _ triggerid (u.set none) (fun _ => rfl) _)
  | some e =>
      rw [he] at h
      obtain ⟨⟨short, db₁⟩, hshort, h⟩ := bind_eq_ok h
      obtain ⟨r, himplode, heq⟩ := map_eq_ok.mp hshort
      obtain ⟨rfl, rfl⟩ := Prod.mk.inj heq
      obtain rfl := Except.ok.inj h
      have himploded := hdeleted.trans (keepsTriggers_implode himplode)
      exact himploded.trans (keepsTriggers_written _ triggerid (u.set (some r.2.1)) (fun _ => rfl) _)

/-- An update always succeeds, and the triggers are the same ones. -/
theorem dbUpdateTrigger_keeps {depth : ℕ} {u : TriggerUpdate} {r : Bool × HostDb}
    (h : dbUpdateTrigger nodeid c stray functionid depth db triggerid u = .ok r) :
    r.1 = true ∧ KeepsTriggers nodeid c db r.2 := by
  induction depth generalizing db triggerid u r with
  | zero => cases h
  | succ depth ih =>
      rw [dbUpdateTrigger] at h
      split at h
      · obtain rfl := Except.ok.inj h
        exact ⟨rfl, .refl db⟩
      · obtain ⟨db₁, hloop, h⟩ := bind_eq_ok h
        obtain ⟨db₂, hstore, h⟩ := bind_eq_ok h
        obtain rfl := Except.ok.inj h
        refine ⟨rfl, KeepsTriggers.trans ?_ (keepsTriggers_store hstore)⟩
        refine foldlM_keeps KeepsTriggers.refl (fun _ _ _ => KeepsTriggers.trans) (fun s b s' hstep => ?_) hloop
        rw [dbUpdateLinked] at hstep
        split at hstep
        · obtain rfl := Except.ok.inj hstep
          exact .refl s
        · split at hstep
          · cases hstep
          · obtain ⟨r, hcall, rfl⟩ := map_eq_ok.mp hstep
            exact (ih hcall).2

/-! ## more calls nested -/

variable {order : List (ℕ × ℕ) → List (ℕ × ℕ)} {copyMode : Bool} {hostid depth depth' : ℕ} {r : Bool × HostDb}

theorem dbUpdateTrigger_mono {u : TriggerUpdate} (hle : depth ≤ depth')
    (h : dbUpdateTrigger nodeid c stray functionid depth db triggerid u = .ok r) :
    dbUpdateTrigger nodeid c stray functionid depth' db triggerid u = .ok r := by
  induction depth generalizing depth' db triggerid u r with
  | zero => cases h
  | succ depth ih =>
      cases depth' with
      | zero => cases hle
      | succ depth' =>
          rw [dbUpdateTrigger] at h ⊢
          split at h
          · exact h
          · dsimp only at h ⊢
            obtain ⟨db₁, hloop, hrest⟩ := bind_eq_ok h
            rw [foldlM_mono (fun s b s' hstep => ?_) hloop]
            · exact hrest
            · rw [dbUpdateLinked] at hstep ⊢
              split at hstep
              · exact hstep
              · split at hstep
                · cases hstep
                · obtain ⟨r, hcall, rfl⟩ := map_eq_ok.mp hstep
                  rw [ih (Nat.le_of_succ_le_succ hle) hcall]
                  rfl

theorem dbCopyTriggerToHost_mono (hle : depth ≤ depth')
    (h : dbCopyTriggerToHost nodeid c stray functionid order copyMode depth db triggerid hostid = .ok r) :
    dbCopyTriggerToHost nodeid c stray functionid order copyMode depth' db triggerid hostid = .ok r := by
  induction depth generalizing depth' db triggerid hostid r with
  | zero => cases h
  | succ depth ih =>
      cases depth' with
      | zero => cases hle
      | succ depth' =>
          have hle := Nat.le_of_succ_le_succ hle
          rw [dbCopyTriggerToHost] at h ⊢
          split at h
          · exact h
          · dsimp only at h ⊢
            split at h
            · exact dbUpdateTrigger_mono hle h
            · obtain ⟨⟨newTriggerid, db₁⟩, hadd, hrest⟩ := bind_eq_ok h
              rw [hadd, ok_bind]
              cases newTriggerid with
              | none => exact hrest
              | some newTriggerid => exact untilFail_mono (fun _ _ _ hcall => ih hle hcall) hrest

/-! ## a trigger that is added -/

variable {newTriggerid : ℕ} {row : Trigger} {newDependences : List ℕ}

theorem keepsTriggers_copyFunctions {fs : List Function} {e : List UInt8} {r : Option (List UInt8) × HostDb}
    (h : copyFunctions nodeid c newTriggerid hostid fs e db = .ok r) : KeepsTriggers nodeid c db r.2 := by
  induction fs generalizing e db with
  | nil =>
      obtain rfl := Except.ok.inj h
      exact .refl db
  | cons f fs ih =>
      rw [copyFunctions] at h
      split at h
      · obtain rfl := Except.ok.inj h
        exact .refl db
      · next itemid hitemid =>
        rw [dbGetMaxid_eq] at h
        by_cases hlt : db.lastId nodeid c .functions < (c .functions).max nodeid
        · rw [if_pos hlt] at h
          have hrest := ih h
          exact (keepsTriggers_insertFunction hlt itemid newTriggerid f.function f.parameter).trans hrest
        · rw [if_neg hlt] at h
          cases h

/-- The loop breaks off at the first function whose item is missing, if there are identifiers for the others. -/
theorem copyFunctions_none_iff (hnot : db.NotBelow nodeid c .functions) {fs : List Function} {e : List UInt8} :
    (∃ db', copyFunctions nodeid c newTriggerid hostid fs e db = .ok (none, db')) ↔
      (∃ f ∈ fs, db.itemLike hostid f.itemid = none) ∧
        db.lastId nodeid c .functions + (fs.takeWhile fun f => (db.itemLike hostid f.itemid).isSome).length ≤
          (c .functions).max nodeid := by
  induction fs generalizing e db with
  | nil => simp [copyFunctions]
  | cons f fs ih =>
      rw [copyFunctions]
      cases hitem : db.itemLike hostid f.itemid with
      | none =>
          rw [List.takeWhile_cons_of_neg (by simp [hitem])]
          exact iff_of_true ⟨db, rfl⟩ ⟨⟨f, List.mem_cons_self, hitem⟩, lastId_le_max _ _⟩
      | some itemid =>
          rw [List.takeWhile_cons_of_pos (by simp [hitem]), List.length_cons, dbGetMaxid_eq]
          by_cases hlt : db.lastId nodeid c .functions < (c .functions).max nodeid
          · obtain ⟨hnot', hlast⟩ := lastId_insertFunction newTriggerid hnot hlt itemid f.function f.parameter
            rw [if_pos hlt]
            refine (ih hnot').trans ?_
            rw [hlast, Nat.add_right_comm, Nat.add_assoc _ _ 1]
            refine and_congr_left' ?_
            rw [List.exists_mem_cons_iff, or_iff_right (by rw [hitem]; exact Option.some_ne_none itemid)]
            rfl
          · rw [if_neg hlt]
            refine iff_of_false ?_ fun h => by omega
            rintro ⟨db', h⟩
            cases h

/-- The host has no item for a function of the trigger, and there are identifiers for what is added before. -/
structure HostDb.Lacks (nodeid : ℕ) (c : IdColumn → Column schema) (db : HostDb) (row : Trigger) (hostid : ℕ) :
    Prop where
  missing : ∃ f ∈ db.functions, f.triggerid = row.triggerid ∧ db.itemLike hostid f.itemid = none
  triggers : db.lastId nodeid c .triggers < (c .triggers).max nodeid
  functions : db.lastId nodeid c .functions + ((db.functions.filter (·.triggerid = row.triggerid)).takeWhile fun f =>
    (db.itemLike hostid f.itemid).isSome).length ≤ (c .functions).max nodeid

theorem dbAddTrigger_none_iff (hnot : db.NotBelow nodeid c .functions) :
    (∃ db', dbAddTrigger nodeid c db row hostid copyMode newDependences = .ok (none, db')) ↔
      db.Lacks nodeid c row hostid := by
  rw [dbAddTrigger, dbGetMaxid_eq]
  by_cases hlt : db.lastId nodeid c .triggers < (c .triggers).max nodeid
  · rw [if_pos hlt, ok_bind]
    dsimp only
    let new := (db.takeId nodeid c .triggers).insertTrigger (db.lastId nodeid c .triggers + 1) row
      (if copyMode then 0 else row.triggerid)
    have hcopy : (∃ db', copyFunctions nodeid c (db.lastId nodeid c .triggers + 1) hostid
        (db.functions.filter (·.triggerid = row.triggerid)) row.expression new = .ok (none, db')) ↔
        (∃ f ∈ db.functions.filter (·.triggerid = row.triggerid), db.itemLike hostid f.itemid = none) ∧
          db.lastId nodeid c .functions + ((db.functions.filter (·.triggerid = row.triggerid)).takeWhile fun f =>
            (db.itemLike hostid f.itemid).isSome).length ≤ (c .functions).max nodeid :=
      @copyFunctions_none_iff _ nodeid c new hostid _ hnot _ _
    constructor
    · rintro ⟨db', h⟩
      obtain ⟨⟨newExpression, db₁⟩, hrun, h⟩ := bind_eq_ok h
      cases newExpression with
      | some newExpression => cases h
      | none =>
          obtain ⟨⟨f, hf, hitem⟩, hle⟩ := hcopy.mp ⟨db₁, hrun⟩
          obtain ⟨hf, hid⟩ := List.mem_filter.mp hf
          exact ⟨⟨f, hf, of_decide_eq_true hid, hitem⟩, hlt, hle⟩
    · rintro ⟨⟨f, hf, hid, hitem⟩, -, hle⟩
      obtain ⟨db₁, hrun⟩ := hcopy.mpr ⟨⟨f, List.mem_filter.mpr ⟨hf, decide_eq_true hid⟩, hitem⟩, hle⟩
      refine ⟨db₁, ?_⟩
      change (copyFunctions nodeid c _ hostid (db.functions.filter (·.triggerid = row.triggerid)) row.expression new >>=
        _) = _
      rw [hrun]
      rfl
  · rw [if_neg hlt]
    refine iff_of_false ?_ fun h => hlt h.triggers
    rintro ⟨db', h⟩
    cases h

/-! ## a copy leaves a trigger -/

variable (nodeid c) in
/-- There are no fewer triggers, hosts are linked as before, and the identifiers of functions go on. -/
structure GrowsTriggers (db db' : HostDb) : Prop where
  triggers : db.triggers.length ≤ db'.triggers.length
  hostsTemplates : db'.hostsTemplates = db.hostsTemplates
  notBelow : db.NotBelow nodeid c .functions → db'.NotBelow nodeid c .functions

theorem GrowsTriggers.refl (db : HostDb) : GrowsTriggers nodeid c db db := ⟨le_rfl, rfl, id⟩

theorem GrowsTriggers.trans (h : GrowsTriggers nodeid c db db') (h' : GrowsTriggers nodeid c db' db'') :
    GrowsTriggers nodeid c db db'' :=
  ⟨h.triggers.trans h'.triggers, h'.hostsTemplates.trans h.hostsTemplates, fun hnot => h'.notBelow (h.notBelow hnot)⟩

theorem KeepsTriggers.length_eq (h : KeepsTriggers nodeid c db db') : db'.triggers.length = db.triggers.length := by
  have hlength := congrArg List.length h.triggers
  rwa [List.length_map, List.length_map] at hlength

theorem KeepsTriggers.grows (h : KeepsTriggers nodeid c db db') : GrowsTriggers nodeid c db db' :=
  ⟨h.length_eq.ge, h.hostsTemplates, h.notBelow⟩

/-- A new trigger is there as soon as one is added, also if that fails. -/
theorem dbAddTrigger_grows {r : Option ℕ × HostDb}
    (h : dbAddTrigger nodeid c db row hostid copyMode newDependences = .ok r) :
    GrowsTriggers nodeid c db r.2 ∧ db.triggers.length < r.2.triggers.length := by
  rw [dbAddTrigger, dbGetMaxid_eq] at h
  by_cases hlt : db.lastId nodeid c .triggers < (c .triggers).max nodeid
  · rw [if_pos hlt, ok_bind] at h
    dsimp only at h
    obtain ⟨⟨newExpression, db₁⟩, hcopy, h⟩ := bind_eq_ok h
    have hcopied := keepsTriggers_copyFunctions hcopy
    have hlength : db.triggers.length < db₁.triggers.length := by
      rw [hcopied.length_eq, HostDb.insertTrigger, List.length_append]
      exact Nat.lt_succ_self _
    have hadded : KeepsTriggers nodeid c db₁ r.2 := by
      cases newExpression with
      | none =>
          obtain rfl := Except.ok.inj h
          exact .refl db₁
      | some newExpression =>
          obtain rfl := Except.ok.inj h
          refine keepsTriggers_written db₁ _ _ ?_ newDependences
          exact fun _ => rfl
    rw [← hadded.length_eq] at hlength
    exact ⟨⟨hlength.le, hadded.hostsTemplates.trans hcopied.hostsTemplates,
      fun hnot => hadded.notBelow (hcopied.notBelow hnot)⟩, hlength⟩
  · rw [if_neg hlt] at h
    cases h

/-- There are no fewer triggers than before, and more of them where the copy fails. -/
theorem dbCopyTriggerToHost_grows
    (h : dbCopyTriggerToHost nodeid c stray functionid order copyMode depth db triggerid hostid = .ok r) :
    GrowsTriggers nodeid c db r.2 ∧ (r.1 = false → db.triggers.length < r.2.triggers.length) := by
  induction depth generalizing db triggerid hostid r with
  | zero => cases h
  | succ depth ih =>
      rw [dbCopyTriggerToHost] at h
      split at h
      · obtain rfl := Except.ok.inj h
        exact ⟨.refl db, by simp⟩
      · dsimp only at h
        split at h
        · obtain ⟨htrue, hkeeps⟩ := dbUpdateTrigger_keeps h
          exact ⟨hkeeps.grows, fun hfalse => absurd (htrue.symm.trans hfalse) (by decide)⟩
        · obtain ⟨⟨newTriggerid, db₁⟩, hadd, hrest⟩ := bind_eq_ok h
          obtain ⟨hgrows, hlt⟩ := dbAddTrigger_grows hadd
          cases newTriggerid with
          | none =>
              obtain rfl := Except.ok.inj hrest
              exact ⟨hgrows, fun _ => hlt⟩
          | some newTriggerid =>
              have hbelow := untilFail_invariant (I := GrowsTriggers nodeid c db₁)
                (fun _ _ s r hcall hs => hs.trans (ih hcall).1) hrest (.refl db₁)
              exact ⟨hgrows.trans hbelow, fun _ => hlt.trans_le hbelow.triggers⟩

/-! ## where a copy fails -/

variable (nodeid c stray functionid order copyMode) in
/-- The copy of a trigger comes to a host that lacks an item: there is no trigger to update there and no item for a
function, or the trigger that is added comes to such a host behind the linked ones that it has been copied to. -/
inductive ComesToLack : HostDb → ℕ → ℕ → Prop
  | lacks {db : HostDb} {triggerid hostid : ℕ} {row : Trigger} :
      db.triggers.find? (·.triggerid = triggerid) = some row → db.sameTrigger order triggerid hostid = none →
      db.Lacks nodeid c row hostid → ComesToLack db triggerid hostid
  | linked {db db₁ db₂ : HostDb} {triggerid hostid newTriggerid chdHostid depth : ℕ} {done rest : List ℕ}
      {row : Trigger} :
      db.triggers.find? (·.triggerid = triggerid) = some row → db.sameTrigger order triggerid hostid = none →
      dbAddTrigger nodeid c db row hostid copyMode
        (dbReplaceTemplateDependences db (dbGetTriggerDependencesByTriggerid db triggerid) hostid) =
          .ok (some newTriggerid, db₁) →
      db₁.linkedHosts hostid = done ++ chdHostid :: rest →
      untilFail (fun db chdHostid => dbCopyTriggerToHost nodeid c stray functionid order copyMode depth db newTriggerid
        chdHostid) done db₁ = .ok (true, db₂) →
      ComesToLack db₂ newTriggerid chdHostid → ComesToLack db triggerid hostid

/-- The calls for the linked hosts start with tables whose identifiers go on. -/
theorem notBelow_done {done : List ℕ} {db₁ db₂ : HostDb} (hnot : db.NotBelow nodeid c .functions)
    (hadd : dbAddTrigger nodeid c db row hostid copyMode newDependences = .ok (some newTriggerid, db₁))
    (hdone : untilFail (fun db chdHostid => dbCopyTriggerToHost nodeid c stray functionid order copyMode depth db
      newTriggerid chdHostid) done db₁ = .ok (true, db₂)) : db₂.NotBelow nodeid c .functions :=
  untilFail_invariant (fun _ _ _ _ hcall hs => (dbCopyTriggerToHost_grows hcall).1.notBelow hs) hdone
    ((dbAddTrigger_grows hadd).1.notBelow hnot)

/-- A copy fails exactly when it comes to a host that lacks an item. -/
theorem dbCopyTriggerToHost_fails_iff (hnot : db.NotBelow nodeid c .functions) :
    (∃ depth db', dbCopyTriggerToHost nodeid c stray functionid order copyMode depth db triggerid hostid =
      .ok (false, db')) ↔ ComesToLack nodeid c stray functionid order copyMode db triggerid hostid := by
  constructor
  · rintro ⟨depth, db', h⟩
    induction depth generalizing db triggerid hostid db' with
    | zero => cases h
    | succ depth ih =>
        rw [dbCopyTriggerToHost] at h
        split at h
        · cases h
        · next row hrow =>
          dsimp only at h
          split at h
          · cases (dbUpdateTrigger_keeps h).1
          · next hsame =>
            obtain ⟨⟨newTriggerid, db₁⟩, hadd, hrest⟩ := bind_eq_ok h
            cases newTriggerid with
            | none => exact .lacks hrow hsame ((dbAddTrigger_none_iff hnot).mp ⟨db₁, hadd⟩)
            | some newTriggerid =>
                obtain ⟨done, chdHostid, rest, db₂, hhosts, hdone, hfails⟩ := untilFail_false_iff.mp hrest
                exact .linked hrow hsame hadd hhosts hdone (ih (notBelow_done hnot hadd hdone) db' hfails)
  · intro h
    induction h with
    | lacks hrow hsame hlacks =>
        obtain ⟨db', hadd⟩ := (dbAddTrigger_none_iff hnot).mpr hlacks
        refine ⟨1, db', ?_⟩
        rw [dbCopyTriggerToHost, hrow]
        dsimp only
        rw [hsame]
        dsimp only
        rw [hadd]
        rfl
    | @linked _ _ _ _ _ newTriggerid _ depth _ _ _ hrow hsame hadd hhosts hdone _ ih =>
        obtain ⟨depth', db', hfails⟩ := ih (notBelow_done hnot hadd hdone)
        refine ⟨max depth depth' + 1, db', ?_⟩
        rw [dbCopyTriggerToHost, hrow]
        dsimp only
        rw [hsame]
        dsimp only
        rw [hadd, ok_bind]
        exact untilFail_false_iff.mpr ⟨_, _, _, _, hhosts,
          untilFail_mono (fun _ _ _ hcall => dbCopyTriggerToHost_mono (le_max_left _ _) hcall) hdone,
          dbCopyTriggerToHost_mono (le_max_right _ _) hfails⟩

/-! ## any copy -/

/-- The tables of triggers are as they were. -/
structure SameTriggers (db db' : HostDb) : Prop where
  triggers : db'.triggers = db.triggers
  functions : db'.functions = db.functions
  depends : db'.triggerDepends = db.triggerDepends

variable (nodeid c stray functionid order copyMode) in
/-- A copy that fails leaves the tables as they were. -/
def LeavesNoTrace (db : HostDb) (triggerid hostid : ℕ) : Prop :=
  ∀ depth db', dbCopyTriggerToHost nodeid c stray functionid order copyMode depth db triggerid hostid =
    .ok (false, db') → SameTriggers db db'

theorem not_leavesNoTrace (hnot : db.NotBelow nodeid c .functions)
    (h : ComesToLack nodeid c stray functionid order copyMode db triggerid hostid) :
    ¬LeavesNoTrace nodeid c stray functionid order copyMode db triggerid hostid := by
  obtain ⟨depth, db', hfails⟩ := (dbCopyTriggerToHost_fails_iff hnot).mpr h
  intro hsame
  have hlt := (dbCopyTriggerToHost_grows hfails).2 rfl
  rw [(hsame depth db' hfails).triggers] at hlt
  exact lt_irrefl _ hlt

/-- A copy that fails leaves no trace exactly when it cannot fail, as it does not come to a host that lacks an item: the
trigger that has been added there stays. -/
theorem leavesNoTrace_iff (hnot : db.NotBelow nodeid c .functions) :
    LeavesNoTrace nodeid c stray functionid order copyMode db triggerid hostid ↔
      ¬ComesToLack nodeid c stray functionid order copyMode db triggerid hostid := by
  constructor
  · exact fun hsame h => not_leavesNoTrace hnot h hsame
  · exact fun h depth db' hfails => absurd ((dbCopyTriggerToHost_fails_iff hnot).mp ⟨depth, db', hfails⟩) h

/-- A copy to a host that has all the items, and that no host is linked to, does not fail. -/
theorem not_comesToLack
    (hitems : ∀ f ∈ db.functions, f.triggerid = triggerid → (db.itemLike hostid f.itemid).isSome)
    (hhosts : db.linkedHosts hostid = []) :
    ¬ComesToLack nodeid c stray functionid order copyMode db triggerid hostid := by
  intro h
  cases h with
  | @lacks _ _ _ row hrow hsame hlacks =>
      obtain ⟨f, hf, hid, hitem⟩ := hlacks.missing
      have hrowid : row.triggerid = triggerid := by simpa using List.find?_some hrow
      have hsome := hitems f hf (hid.trans hrowid)
      rw [hitem] at hsome
      cases hsome
  | linked hrow hsame hadd hlinked hdone hbelow =>
      rw [HostDb.linkedHosts, (dbAddTrigger_grows hadd).1.hostsTemplates, ← HostDb.linkedHosts, hhosts] at hlinked
      exact absurd hlinked.symm (List.append_ne_nil_of_right_ne_nil _ (List.cons_ne_nil _ _))

/-- `loadTriggerDb` with a host that has the items. -/
def otherHostDb (items : List Item) : HostDb :=
  { loadTriggerDb with
    hosts := loadTriggerDb.hosts ++ [⟨20, bytes "db", 0⟩]
    items := loadTriggerDb.items ++ items }

theorem notBelow_otherHostDb (items : List Item) : (otherHostDb items).NotBelow 0 idColumn .functions :=
  fun _ h => nomatch h

/-- Where the host has the item, the trigger is copied. -/
theorem leavesNoTrace_load : LeavesNoTrace 0 idColumn (fun db _ => db.noTrigger) 0 id false
    (otherHostDb [⟨2, 20, bytes "load[,avg1]", 0⟩]) 100 20 := by
  refine (leavesNoTrace_iff (notBelow_otherHostDb _)).mpr (not_comesToLack ?_ rfl)
  intro f hf _
  obtain rfl := List.mem_singleton.mp hf
  decide

/-- Where it has not, a trigger stays. -/
theorem not_leavesNoTrace_load :
    ¬LeavesNoTrace 0 idColumn (fun db _ => db.noTrigger) 0 id false (otherHostDb []) 100 20 := by
  refine not_leavesNoTrace (notBelow_otherHostDb []) (.lacks (rfl : _ = some loadTrigger) rfl ?_)
  exact {
    missing := ⟨_, List.mem_singleton_self _, rfl, by decide⟩
    triggers := by decide
    functions := by decide }

end Zabbix.Host
