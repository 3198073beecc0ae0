import Zabbix.Lib.Cursor
import Zabbix.Lib.Run

/-!
# Zabbix.Nodes.HistorySync

How a node forwards the history of a table with the flag `ZBX_HISTORY_SYNC`
(`process_history_table_data` of `zabbix_server/nodewatcher/history.c`), among the
processes that write it.

A row gets its identifier when it is inserted, and is seen by others once the transaction
of its writer is committed.  Statements are atomic, and between any two of them other
processes may have theirs.  The rows that the master has accepted are deleted by the last
of their identifiers.  A row with a smaller one that has been committed since the select
goes with them; as long as there is none, what is deleted has been accepted.
-/

namespace Zabbix

/-- A row of a table with the flag `ZBX_HISTORY_SYNC`. -/
structure SyncRow (α : Type) where
  id : ℕ
  nodeid : ℕ
  value : α
deriving DecidableEq

/-- Where `process_history_table_data` is. -/
inductive ForwardSender (α : Type)
  | idle
  /-- the rows of a node have been selected -/
  | selected (nodeid : ℕ) (rows : List (SyncRow α))
  /-- `send_to_node` has succeeded -/
  | sent (nodeid : ℕ) (rows : List (SyncRow α))
deriving DecidableEq

/-- What `send_to_node` comes to: the master has not accepted the data, or its answer has
been lost, or all is well. -/
inductive SendResult
  | failed
  | unanswered
  | succeeded
deriving DecidableEq, Repr

/-- The table, the sender, and what has become of the rows. -/
structure HistoryForward (α : Type) where
  /-- the next value of the `auto_increment` column -/
  autoIncrement : ℕ
  /-- what has been inserted and not yet committed, with the writer -/
  uncommitted : List (ℕ × SyncRow α)
  table : List (SyncRow α)
  sender : ForwardSender α
  /-- what has been in the data that the master has accepted -/
  accepted : List (SyncRow α)
  deleted : List (SyncRow α)
deriving DecidableEq

/-- A step of a writer or of the sender. -/
inductive ForwardEvent (α : Type)
  | insert (writer nodeid : ℕ) (value : α)
  | commit (writer : ℕ)
  | rollback (writer : ℕ)
  | select (nodeid : ℕ)
  | send (result : SendResult)
  | delete
deriving DecidableEq

variable {α : Type}

/-- The rows that are selected for a node. -/
def selectHistory (nodeid : ℕ) (table : List (SyncRow α)) : List (SyncRow α) :=
  ((table.filter (·.nodeid = nodeid)).insertionSort fun a b => a.id ≤ b.id).take 10000

/-- `lastid`, behind the loop over the rows. -/
def forwardLastid (rows : List (SyncRow α)) : ℕ := rows.foldl (fun _ row => row.id) 0

/-- A row that is deleted for the last identifier of a node. -/
def isForwarded (nodeid lastid : ℕ) (row : SyncRow α) : Bool := row.nodeid = nodeid ∧ row.id ≤ lastid

namespace HistoryForward

/-- The rows of one writer. -/
def rowsOf (s : HistoryForward α) (writer : ℕ) : List (SyncRow α) :=
  (s.uncommitted.filter (·.1 = writer)).map (·.2)

/-- One step.  A step that the sender is not at does nothing. -/
def step (s : HistoryForward α) : ForwardEvent α → HistoryForward α
  | .insert writer nodeid value =>
      { s with
        autoIncrement := s.autoIncrement + 1
        uncommitted := s.uncommitted ++ [(writer, ⟨s.autoIncrement, nodeid, value⟩)] }
  | .commit writer =>
      { s with
        uncommitted := s.uncommitted.filter (·.1 ≠ writer)
        table := s.table ++ s.rowsOf writer }
  | .rollback writer => { s with uncommitted := s.uncommitted.filter (·.1 ≠ writer) }
  | .select nodeid =>
      match s.sender with
      | .idle =>
          let rows := selectHistory nodeid s.table
          if rows = [] then s else { s with sender := .selected nodeid rows }
      | .selected .. | .sent .. => s
  | .send result =>
      match s.sender, result with
      | .selected .., .failed => { s with sender := .idle }
      | .selected _ rows, .unanswered => { s with sender := .idle, accepted := s.accepted ++ rows }
      | .selected nodeid rows, .succeeded =>
          { s with sender := .sent nodeid rows, accepted := s.accepted ++ rows }
      | .idle, _ | .sent .., _ => s
  | .delete =>
      match s.sender with
      | .sent nodeid rows =>
          { s with
            sender := .idle
            table := s.table.filter fun row => !isForwarded nodeid (forwardLastid rows) row
            deleted := s.deleted ++ s.table.filter (isForwarded nodeid (forwardLastid rows)) }
      | .idle | .selected .. => s

/-- Before there is any history. -/
def initial : HistoryForward α :=
  { autoIncrement := 1
    uncommitted := []
    table := []
    sender := .idle
    accepted := []
    deleted := [] }

/-- The rows that have been selected for a node, until they are deleted. -/
def inHand (s : HistoryForward α) : Option (ℕ × List (SyncRow α)) :=
  match s.sender with
  | .idle => none
  | .selected nodeid rows | .sent nodeid rows => some (nodeid, rows)

/-- A step that does not commit a row of the node at or below the last identifier in hand. -/
def CommitsAbove (s : HistoryForward α) : ForwardEvent α → Prop
  | .commit writer => ∀ hand ∈ s.inHand, ∀ row ∈ s.rowsOf writer, row.nodeid = hand.1 → forwardLastid hand.2 < row.id
  | .insert .. | .rollback _ | .select _ | .send _ | .delete => True

/-! ## selections -/

/-- The selection as a batch; the keys are the successors of the identifiers, which are all
above zero. -/
theorem selectHistory_eq_batch (nodeid : ℕ) (table : List (SyncRow α)) :
    selectHistory nodeid table =
      Cursor.batch (fun row : SyncRow α => row.id + 1) 0 10000 (table.filter (·.nodeid = nodeid)) := by
  have hfilter : (table.filter (·.nodeid = nodeid)).filter (fun row => 0 < row.id + 1) =
      table.filter (·.nodeid = nodeid) := by
    rw [List.filter_eq_self]
    intro row _
    exact decide_eq_true (Nat.succ_pos _)
  rw [selectHistory, Cursor.batch, hfilter]
  simp only [Nat.add_le_add_iff_right]

theorem forwardLastid_eq {rows : List (SyncRow α)} (h : rows ≠ []) (mark : ℕ) :
    forwardLastid rows + 1 = Cursor.markAfter (fun row : SyncRow α => row.id + 1) mark rows := by
  obtain ⟨init, last, rfl⟩ := (List.eq_nil_or_concat rows).resolve_left h
  rw [List.concat_eq_append, Cursor.markAfter_concat, forwardLastid, List.foldl_append]
  rfl

/-- The rows up to the last one that is selected are all selected. -/
theorem mem_selectHistory {nodeid : ℕ} {table : List (SyncRow α)} (hids : (table.map (·.id)).Nodup)
    (hne : selectHistory nodeid table ≠ []) {row : SyncRow α} (hrow : row ∈ table) (hnode : row.nodeid = nodeid)
    (hle : row.id ≤ forwardLastid (selectHistory nodeid table)) : row ∈ selectHistory nodeid table := by
  have hkeys : ((table.filter (·.nodeid = nodeid)).map fun row : SyncRow α => row.id + 1).Nodup := by
    have hsub := hids.sublist ((List.filter_sublist (p := fun row : SyncRow α => decide (row.nodeid = nodeid))).map
      (·.id))
    have hmap := hsub.map (Nat.succ_injective)
    rwa [List.map_map] at hmap
  have hmark := forwardLastid_eq hne 0
  rw [selectHistory_eq_batch] at hmark hle ⊢
  exact Cursor.mem_batch_of_le hkeys (List.mem_filter.mpr ⟨hrow, decide_eq_true hnode⟩) (Nat.succ_pos _)
    (hmark ▸ Nat.succ_le_succ hle)

/-! ## the invariant -/

/-- The identifiers of all rows, seen or not. -/
def ids (s : HistoryForward α) : List ℕ := s.table.map (·.id) ++ s.uncommitted.map (·.2.id)

/-- The rows and what is in hand fit together. -/
structure Consistent (s : HistoryForward α) : Prop where
  nodup : s.ids.Nodup
  lt_autoIncrement : ∀ id ∈ s.ids, id < s.autoIncrement
  /-- no row of the node up to the last one in hand is left out -/
  covered : ∀ hand ∈ s.inHand, ∀ row ∈ s.table, row.nodeid = hand.1 → row.id ≤ forwardLastid hand.2 → row ∈ hand.2
  sent : ∀ nodeid rows, s.sender = .sent nodeid rows → ∀ row ∈ rows, row ∈ s.accepted
  deleted : ∀ row ∈ s.deleted, row ∈ s.accepted

variable {s : HistoryForward α}

theorem Consistent.insert (h : s.Consistent) (writer nodeid : ℕ) (value : α) :
    (s.step (.insert writer nodeid value)).Consistent := by
  have hids : (s.step (.insert writer nodeid value)).ids = s.ids ++ [s.autoIncrement] := by
    simp [ids, step]
  constructor
  · rw [hids, List.nodup_append]
    refine ⟨h.nodup, List.nodup_singleton _, fun a ha b hb => ?_⟩
    rw [List.mem_singleton.mp hb]
    exact Nat.ne_of_lt (h.lt_autoIncrement a ha)
  · rw [hids, List.forall_mem_append]
    refine ⟨fun id hid => Nat.lt_succ_of_lt (h.lt_autoIncrement id hid), fun id hid => ?_⟩
    rw [List.mem_singleton.mp hid]
    exact Nat.lt_succ_self _
  · exact h.covered
  · exact h.sent
  · exact h.deleted

/-- What a writer has not committed can go away. -/
theorem Consistent.rollback (h : s.Consistent) (writer : ℕ) : (s.step (.rollback writer)).Consistent := by
  have hids : (s.step (.rollback writer)).ids.Sublist s.ids :=
    (List.Sublist.refl _).append (List.filter_sublist.map _)
  exact
    { h with
      nodup := h.nodup.sublist hids
      lt_autoIncrement := fun id hid => h.lt_autoIncrement id (hids.subset hid) }

/-- A commit only moves identifiers. -/
theorem perm_ids_commit (s : HistoryForward α) (writer : ℕ) : (s.step (.commit writer)).ids.Perm s.ids := by
  have hsplit : ((s.uncommitted.filter (·.1 = writer)) ++ s.uncommitted.filter (·.1 ≠ writer)).Perm
      s.uncommitted := by
    simpa using List.filter_append_perm (fun r : ℕ × SyncRow α => decide (r.1 = writer)) s.uncommitted
  rw [ids, ids, step, rowsOf, List.map_append, List.map_map, List.append_assoc]
  refine List.Perm.append_left _ ?_
  have := hsplit.map (·.2.id)
  rwa [List.map_append] at this

/-- A commit of rows that are all above what is in hand. -/
theorem Consistent.commit (h : s.Consistent) {writer : ℕ} (habove : s.CommitsAbove (.commit writer)) :
    (s.step (.commit writer)).Consistent := by
  have hids := perm_ids_commit s writer
  constructor
  · exact hids.nodup_iff.mpr h.nodup
  · exact fun id hid => h.lt_autoIncrement id (hids.mem_iff.mp hid)
  · intro hand hhand row hrow hnode hle
    rcases List.mem_append.mp hrow with hrow | hrow
    · exact h.covered hand hhand row hrow hnode hle
    · exact absurd hle (Nat.not_le.mpr (habove hand hhand row hrow hnode))
  · exact h.sent
  · exact h.deleted

theorem Consistent.select (h : s.Consistent) (nodeid : ℕ) : (s.step (.select nodeid)).Consistent := by
  cases hsender : s.sender with
  | selected n rows => simpa [step, hsender] using h
  | sent n rows => simpa [step, hsender] using h
  | idle =>
      by_cases hnil : selectHistory nodeid s.table = []
      · simpa [step, hsender, hnil] using h
      · simp only [step, hsender, if_neg hnil]
        have htable := (List.nodup_append.mp h.nodup).1
        exact
          { nodup := h.nodup
            lt_autoIncrement := h.lt_autoIncrement
            covered := by
              intro hand hhand row hrow hnode hle
              obtain rfl := Option.some.inj hhand
              exact mem_selectHistory htable hnil hrow hnode hle
            sent := fun _ _ heq => nomatch heq
            deleted := h.deleted }

/-- The sender gives up what is in hand, whether the master has accepted it or not. -/
theorem Consistent.drop (h : s.Consistent) {accepted : List (SyncRow α)} (hmono : ∀ row ∈ s.accepted, row ∈ accepted) :
    Consistent { s with sender := .idle, accepted := accepted } where
  nodup := h.nodup
  lt_autoIncrement := h.lt_autoIncrement
  covered := fun _ hhand => nomatch hhand
  sent := fun _ _ heq => nomatch heq
  deleted := fun row hrow => hmono row (h.deleted row hrow)

theorem Consistent.send (h : s.Consistent) (result : SendResult) : (s.step (.send result)).Consistent := by
  cases hsender : s.sender with
  | idle => simpa [step, hsender] using h
  | sent n rows => simpa [step, hsender] using h
  | selected n rows =>
      cases result with
      | failed =>
          simp only [step, hsender]
          exact h.drop fun row hrow => hrow
      | unanswered =>
          simp only [step, hsender]
          exact h.drop fun row hrow => List.mem_append_left _ hrow
      | succeeded =>
          simp only [step, hsender]
          have hcovered := h.covered (n, rows)
          simp only [inHand, hsender] at hcovered
          constructor
          · exact h.nodup
          · exact h.lt_autoIncrement
          · intro hand hhand
            obtain rfl := Option.some.inj hhand
            exact hcovered rfl
          · intro nodeid rows' heq row hrow
            cases heq
            exact List.mem_append_right _ hrow
          · exact fun row hrow => List.mem_append_left _ (h.deleted row hrow)

/-- What is deleted is in hand. -/
theorem Consistent.delete (h : s.Consistent) : (s.step .delete).Consistent := by
  cases hsender : s.sender with
  | idle => simpa [step, hsender] using h
  | selected n rows => simpa [step, hsender] using h
  | sent n rows =>
      simp only [step, hsender]
      have hcovered := h.covered (n, rows)
      simp only [inHand, hsender] at hcovered
      have hids : (s.table.filter (fun row => !isForwarded n (forwardLastid rows) row)).map (·.id) ++
          s.uncommitted.map (·.2.id) |>.Sublist s.ids :=
        (List.filter_sublist.map _).append (List.Sublist.refl _)
      constructor
      · exact h.nodup.sublist hids
      · exact fun id hid => h.lt_autoIncrement id (hids.subset hid)
      · exact fun _ hhand => nomatch hhand
      · exact fun _ _ heq => nomatch heq
      · intro row hrow
        rcases List.mem_append.mp hrow with hrow | hrow
        · exact h.deleted row hrow
        · obtain ⟨hmem, hforwarded⟩ := List.mem_filter.mp hrow
          obtain ⟨hnode, hle⟩ := of_decide_eq_true hforwarded
          exact h.sent n rows hsender row (hcovered rfl row hmem hnode hle)

/-- **One step.** -/
theorem Consistent.step (h : s.Consistent) {e : ForwardEvent α} (habove : s.CommitsAbove e) :
    (s.step e).Consistent := by
  cases e with
  | insert writer nodeid value => exact h.insert writer nodeid value
  | commit writer => exact h.commit habove
  | rollback writer => exact h.rollback writer
  | select nodeid => exact h.select nodeid
  | send result => exact h.send result
  | delete => exact h.delete

theorem consistent_initial : (initial : HistoryForward α).Consistent where
  nodup := List.nodup_nil
  lt_autoIncrement := fun _ h => nomatch h
  covered := fun _ h => nomatch h
  sent := fun _ _ h => nomatch h
  deleted := fun _ h => nomatch h

end HistoryForward

open HistoryForward in
/-- **What is deleted has been accepted**, in every run in which no transaction commits a row
of the node behind the last one that has been selected. -/
theorem forwarded_before_deleted (es : List (ForwardEvent α))
    (h : Run.Along HistoryForward.step CommitsAbove .initial es) :
    ∀ row ∈ (Run.run HistoryForward.step .initial es).deleted,
      row ∈ (Run.run HistoryForward.step .initial es).accepted :=
  (Run.invariant_run (fun _ _ hs habove => hs.step habove) consistent_initial h).deleted

/-- Two writers that commit before the select, and one behind it. -/
def orderlyForward : List (ForwardEvent ℕ) :=
  [.insert 0 2 70, .insert 1 2 80, .commit 1, .commit 0, .select 2, .insert 2 2 90, .commit 2, .send .succeeded,
    .delete]

theorem forwarded_before_deleted_orderly :
    Run.Along HistoryForward.step HistoryForward.CommitsAbove .initial orderlyForward ∧
      (Run.run HistoryForward.step .initial orderlyForward).deleted = [⟨2, 2, 80⟩, ⟨1, 2, 70⟩] ∧
      ∀ row ∈ (Run.run HistoryForward.step .initial orderlyForward).deleted,
        row ∈ (Run.run HistoryForward.step .initial orderlyForward).accepted :=
  have h : Run.Along HistoryForward.step HistoryForward.CommitsAbove .initial orderlyForward :=
    ⟨trivial, trivial, (fun _ hhand => nomatch hhand), (fun _ hhand => nomatch hhand), trivial, trivial, by
      intro hand hhand row hrow _
      obtain rfl := Option.some.inj hhand
      obtain rfl := List.mem_singleton.mp hrow
      decide, trivial, trivial, trivial⟩
  ⟨h, by decide, forwarded_before_deleted orderlyForward h⟩

/-- The writer that has inserted first is committed behind the select. -/
def overtakenForward : List (ForwardEvent ℕ) :=
  [.insert 0 2 70, .insert 1 2 80, .commit 1, .select 2, .commit 0, .send .succeeded, .delete]

/-- The row of the first writer is deleted, and the master has never had it. -/
theorem deleted_unsent :
    ∃ row ∈ (Run.run HistoryForward.step .initial overtakenForward).deleted,
      row ∉ (Run.run HistoryForward.step .initial overtakenForward).accepted :=
  ⟨⟨1, 2, 70⟩, by decide, by decide⟩

end Zabbix
