import Zabbix.Host.Tables

/-!
# Zabbix.Host.DeleteGraph

The deletion of a graph, with the graphs that are linked to it (`DBdelete_graph` of `libs/zbxdbhigh/host.c`).

The loop over the linked graphs reads them into the variable that the graph itself came in.  What is deleted
behind the loop are therefore the rows of the last linked graph, once more, and a graph stays if another one is
linked to it.
-/

namespace Zabbix.Host

open Cascade Outcome Propagate Relation

/-- `SCREEN_RESOURCE_GRAPH` -/
def screenResourceGraph : ℤ := 0

/-- The three statements that delete the rows of a graph. -/
def HostDb.deleteGraphRows (db : HostDb) (graphid : ℕ) : HostDb :=
  { db with
    screensItems := db.screensItems.filter fun row =>
      ¬(row.resourceid = graphid ∧ row.resourcetype = screenResourceGraph)
    graphsItems := db.graphsItems.filter fun row => row.graphid ≠ graphid
    graphs := db.graphs.filter fun row => row.graphid ≠ graphid }

/-- `select graphid from graphs where templateid=..` -/
def HostDb.linkedGraphs (db : HostDb) (graphid : ℕ) : List ℕ :=
  (db.graphs.filter (·.templateid = graphid)).map Graph.graphid

/-- `DBdelete_graph`, with up to `depth` calls nested. -/
def dbDeleteGraph : (depth : ℕ) → (db : HostDb) → (graphid : ℕ) → Result
  | 0, _, _ => .error .deeper
  | depth + 1, db, graphid =>
      if ∃ row ∈ db.graphs, row.graphid = graphid then do
        let elements := db.linkedGraphs graphid
        let r ← untilFail (dbDeleteGraph depth) elements db
        -- each row has been read into `graphid`
        let graphid := elements.getLastD graphid
        if r.1 then .ok (true, r.2.deleteGraphRows graphid) else .ok r
      else .ok (true, db)

/-! ## the linkage -/

/-- The graph `b` is linked to the graph `a`. -/
def HostDb.GraphLinked (db : HostDb) (a b : ℕ) : Prop := ∃ row ∈ db.graphs, row.templateid = a ∧ row.graphid = b

/-- What the deletion of a graph is for: the graph and all that are linked below it are gone, with what shows them,
and nothing else. -/
structure GraphsDeleted (graphid : ℕ) (db db' : HostDb) : Prop where
  graphs : ∀ row, row ∈ db'.graphs ↔ row ∈ db.graphs ∧ ¬ReflTransGen db.GraphLinked graphid row.graphid
  graphsItems : ∀ row, row ∈ db'.graphsItems ↔
    row ∈ db.graphsItems ∧ ¬ReflTransGen db.GraphLinked graphid row.graphid
  screensItems : ∀ row, row ∈ db'.screensItems ↔ row ∈ db.screensItems ∧
    ¬(row.resourcetype = screenResourceGraph ∧ ReflTransGen db.GraphLinked graphid row.resourceid)

variable {db db' : HostDb} {graphid : ℕ}

theorem mem_linkedGraphs {b : ℕ} : b ∈ db.linkedGraphs graphid ↔ db.GraphLinked graphid b := by
  simp [HostDb.linkedGraphs, HostDb.GraphLinked, and_assoc]

theorem GraphLinked.mono (h : db'.graphs ⊆ db.graphs) {a b : ℕ} (hab : db'.GraphLinked a b) : db.GraphLinked a b := by
  obtain ⟨row, hrow, htemplate, hid⟩ := hab
  exact ⟨row, h hrow, htemplate, hid⟩

theorem below_of_subset (h : db'.graphs ⊆ db.graphs) {a b : ℕ} (hab : ReflTransGen db'.GraphLinked a b) :
    ReflTransGen db.GraphLinked a b :=
  ReflTransGen.mono (fun _ _ => GraphLinked.mono h) a b hab

theorem mem_deleteGraphRows {row : Graph} :
    row ∈ (db.deleteGraphRows graphid).graphs ↔ row ∈ db.graphs ∧ row.graphid ≠ graphid := by
  simp [HostDb.deleteGraphRows]

theorem deleteGraphRows_subset : (db.deleteGraphRows graphid).graphs ⊆ db.graphs :=
  fun _ hrow => (mem_deleteGraphRows.mp hrow).1

/-- What is read last is the graph, if there is nothing to read, or one that is linked to it. -/
theorem getLastD_linkedGraphs (h : db.linkedGraphs graphid ≠ []) :
    db.GraphLinked graphid ((db.linkedGraphs graphid).getLastD graphid) := by
  rw [← mem_linkedGraphs, List.getLastD_eq_getLast?, List.getLast?_eq_getLast_of_ne_nil h]
  exact List.getLast_mem h

/-! ## what a deletion keeps -/

/-- No graph comes in. -/
theorem dbDeleteGraph_subset {depth : ℕ} {r : Bool × HostDb} (h : dbDeleteGraph depth db graphid = .ok r) :
    r.2.graphs ⊆ db.graphs := by
  induction depth generalizing db graphid r with
  | zero => cases h
  | succ depth ih =>
      rw [dbDeleteGraph] at h
      split at h
      · obtain ⟨r', hloop, h⟩ := bind_eq_ok h
        have hsubset : r'.2.graphs ⊆ db.graphs :=
          untilFail_invariant (I := fun s : HostDb => s.graphs ⊆ db.graphs)
            (fun a _ s r hcall hs => List.Subset.trans (ih hcall) hs) hloop fun _ => id
        split at h
        · cases h
          exact fun row hrow => hsubset (deleteGraphRows_subset hrow)
        · cases h
          exact hsubset
      · cases h
        exact fun _ => id

/-- A graph that is not below the one that is deleted stays. -/
theorem dbDeleteGraph_kept {depth : ℕ} {r : Bool × HostDb} (h : dbDeleteGraph depth db graphid = .ok r) {row : Graph}
    (hrow : row ∈ db.graphs) (hbelow : ¬ReflTransGen db.GraphLinked graphid row.graphid) : row ∈ r.2.graphs := by
  induction depth generalizing db graphid r with
  | zero => cases h
  | succ depth ih =>
      rw [dbDeleteGraph] at h
      split at h
      · obtain ⟨r', hloop, h⟩ := bind_eq_ok h
        have hkept : r'.2.graphs ⊆ db.graphs ∧ row ∈ r'.2.graphs := by
          refine untilFail_invariant (I := fun s : HostDb => s.graphs ⊆ db.graphs ∧ row ∈ s.graphs) ?_ hloop
            ⟨fun _ => id, hrow⟩
          rintro a ha s r hcall ⟨hsubset, hmem⟩
          refine ⟨List.Subset.trans (dbDeleteGraph_subset hcall) hsubset, ih hcall hmem fun hab => hbelow ?_⟩
          exact .head (mem_linkedGraphs.mp ha) (below_of_subset hsubset hab)
        split at h
        · cases h
          refine mem_deleteGraphRows.mpr ⟨hkept.2, fun hid => hbelow ?_⟩
          by_cases hnil : db.linkedGraphs graphid = []
          · rw [hid, hnil]
            exact .refl
          · rw [hid]
            exact .single (getLastD_linkedGraphs hnil)
        · cases h
          exact hkept.2
      · cases h
        exact hrow

/-- **A deletion returns**, and succeeds, when there is no way in the linkage that leads back. -/
theorem dbDeleteGraph_succeeds (h : Acyclic db.GraphLinked) (graphid : ℕ) :
    ∃ depth db', dbDeleteGraph depth db graphid = .ok (true, db') := by
  obtain ⟨height, -, hheight⟩ := exists_height h (db.graphs.map Graph.graphid).toFinset
    fun a b ⟨row, hrow, _, hid⟩ => List.mem_toFinset.mpr (List.mem_map.mpr ⟨row, hrow, hid⟩)
  have hreturns : ∀ depth graphid s, height graphid < depth → s.graphs ⊆ db.graphs →
      ∃ s', dbDeleteGraph depth s graphid = .ok (true, s') ∧ s'.graphs ⊆ db.graphs := by
    intro depth
    induction depth with
    | zero => intro graphid s hlt; omega
    | succ depth ih =>
        intro graphid s hlt hs
        rw [dbDeleteGraph]
        split
        · have hcalls : ∀ a ∈ s.linkedGraphs graphid, ∀ t : HostDb, t.graphs ⊆ db.graphs →
              ∃ t', dbDeleteGraph depth t a = .ok (true, t') ∧ t'.graphs ⊆ db.graphs := by
            intro a ha t ht
            have := hheight _ _ (GraphLinked.mono hs (mem_linkedGraphs.mp ha))
            exact ih a t (by omega) ht
          obtain ⟨s', hloop, hs'⟩ := untilFail_succeeds hcalls hs
          dsimp only
          rw [hloop, ok_bind, if_pos rfl]
          exact ⟨_, rfl, List.Subset.trans deleteGraphRows_subset hs'⟩
        · exact ⟨s, rfl, hs⟩
  obtain ⟨s', hs', -⟩ := hreturns (height graphid + 1) graphid db (Nat.lt_succ_self _) fun _ => id
  exact ⟨_, s', hs'⟩

/-! ## the deletion -/

/-- A graph stays when another one is linked to it. -/
theorem dbDeleteGraph_stays (hacyclic : Acyclic db.GraphLinked) {depth : ℕ} {r : Bool × HostDb}
    (h : dbDeleteGraph depth db graphid = .ok r) {row : Graph} (hrow : row ∈ db.graphs) (hid : row.graphid = graphid)
    (hlinked : db.linkedGraphs graphid ≠ []) : row ∈ r.2.graphs := by
  cases depth with
  | zero => cases h
  | succ depth =>
      rw [dbDeleteGraph, if_pos ⟨row, hrow, hid⟩] at h
      obtain ⟨r', hloop, h⟩ := bind_eq_ok h
      have hkept : r'.2.graphs ⊆ db.graphs ∧ row ∈ r'.2.graphs := by
        refine untilFail_invariant (I := fun s : HostDb => s.graphs ⊆ db.graphs ∧ row ∈ s.graphs) ?_ hloop
          ⟨fun _ => id, hrow⟩
        rintro a ha s r hcall ⟨hsubset, hmem⟩
        refine ⟨List.Subset.trans (dbDeleteGraph_subset hcall) hsubset, dbDeleteGraph_kept hcall hmem fun hab => ?_⟩
        rw [hid] at hab
        exact hacyclic graphid (.head' (mem_linkedGraphs.mp ha) (below_of_subset hsubset hab))
      split at h
      · cases h
        refine mem_deleteGraphRows.mpr ⟨hkept.2, fun heq => ?_⟩
        have hlast := getLastD_linkedGraphs hlinked
        rw [← heq, hid] at hlast
        exact hacyclic graphid (.single hlast)
      · cases h
        exact hkept.2

/-- Only the graph itself is below it when none is linked to it. -/
theorem below_iff_of_linkedGraphs_nil (h : db.linkedGraphs graphid = []) {b : ℕ} :
    ReflTransGen db.GraphLinked graphid b ↔ b = graphid := by
  constructor
  · intro hab
    rcases ReflTransGen.cases_head hab with heq | ⟨c, hc, -⟩
    · exact heq.symm
    · exact absurd (mem_linkedGraphs.mpr hc) (by rw [h]; exact List.not_mem_nil)
  · rintro rfl
    exact .refl

/-- A graph that none is linked to is deleted. -/
theorem dbDeleteGraph_single {row : Graph} (hrow : row ∈ db.graphs) (hid : row.graphid = graphid)
    (hlinked : db.linkedGraphs graphid = []) :
    dbDeleteGraph 1 db graphid = .ok (true, db.deleteGraphRows graphid) ∧
      GraphsDeleted graphid db (db.deleteGraphRows graphid) := by
  constructor
  · rw [dbDeleteGraph, if_pos ⟨row, hrow, hid⟩, hlinked]
    rfl
  · constructor
    · intro row
      rw [mem_deleteGraphRows, below_iff_of_linkedGraphs_nil hlinked]
    · intro row
      rw [below_iff_of_linkedGraphs_nil hlinked]
      simp [HostDb.deleteGraphRows]
    · intro row
      rw [below_iff_of_linkedGraphs_nil hlinked]
      simp only [HostDb.deleteGraphRows, List.mem_filter, decide_eq_true_eq, and_comm]

/-- **The deletion of a graph** deletes the graph and those that are linked below it, and nothing else, if and only if
none is linked to it. -/
theorem dbDeleteGraph_iff {db : HostDb} (hacyclic : Acyclic db.GraphLinked) {graphid : ℕ}
    (hgraph : ∃ row ∈ db.graphs, row.graphid = graphid) :
    (∃ depth db', dbDeleteGraph depth db graphid = .ok (true, db') ∧ GraphsDeleted graphid db db') ↔
      ∀ row ∈ db.graphs, row.templateid ≠ graphid := by
  obtain ⟨row, hrow, hid⟩ := hgraph
  constructor
  · rintro ⟨depth, db', hcall, hdeleted⟩ child hchild htemplate
    have hlinked : db.linkedGraphs graphid ≠ [] :=
      List.ne_nil_of_mem (mem_linkedGraphs.mpr ⟨child, hchild, htemplate, rfl⟩)
    have hstays := dbDeleteGraph_stays hacyclic hcall hrow hid hlinked
    exact ((hdeleted.graphs row).mp hstays).2 (by rw [hid])
  · intro hnone
    have hlinked : db.linkedGraphs graphid = [] := by
      rw [HostDb.linkedGraphs, List.filter_eq_nil_iff.mpr fun row hrow => by simpa using hnone row hrow, List.map_nil]
    exact ⟨1, _, dbDeleteGraph_single hrow hid hlinked⟩

/-- A graph with the settings that are the default of the table. -/
def defaultGraph (graphid templateid : ℕ) : Graph where
  graphid := graphid
  name := []
  width := 0
  height := 0
  yaxistype := 0
  yaxismin := 0
  yaxismax := 0
  templateid := templateid
  showWorkPeriod := 1
  showTriggers := 1
  graphtype := 0
  showLegend := 0
  show3d := 0
  percentLeft := 0
  percentRight := 0

/-- A graph, and one that is linked to it. -/
def linkedGraphsDb : HostDb := { HostDb.empty with graphs := [defaultGraph 1 0, defaultGraph 2 1] }

theorem acyclic_linkedGraphsDb : Acyclic linkedGraphsDb.GraphLinked := by
  refine acyclic_of_lt id ?_
  rintro a b ⟨row, hrow, rfl, rfl⟩
  exact (by decide : ∀ row ∈ linkedGraphsDb.graphs, row.templateid < row.graphid) row hrow

/-- A graph without others that are linked to it. -/
theorem dbDeleteGraph_two :
    (∃ depth db', dbDeleteGraph depth linkedGraphsDb 2 = .ok (true, db') ∧ GraphsDeleted 2 linkedGraphsDb db') ↔
      ∀ row ∈ linkedGraphsDb.graphs, row.templateid ≠ 2 :=
  dbDeleteGraph_iff acyclic_linkedGraphsDb (by decide)

/-- The graph stays, and the linked one alone is deleted. -/
theorem not_dbDeleteGraph_one :
    Acyclic linkedGraphsDb.GraphLinked ∧
      (dbDeleteGraph 2 linkedGraphsDb 1).map (fun r => (r.1, r.2.graphs.map Graph.graphid)) = .ok (true, [1]) ∧
      ¬∃ depth db', dbDeleteGraph depth linkedGraphsDb 1 = .ok (true, db') ∧ GraphsDeleted 1 linkedGraphsDb db' := by
  refine ⟨acyclic_linkedGraphsDb, by decide, ?_⟩
  rintro ⟨depth, db', hcall, hdeleted⟩
  have hstays := dbDeleteGraph_stays acyclic_linkedGraphsDb hcall (List.mem_cons_self : defaultGraph 1 0 ∈ _) rfl
    (by decide)
  exact ((hdeleted.graphs _).mp hstays).2 .refl

end Zabbix.Host
