import Zabbix.Proxyconfig.Values

/-!
# Zabbix.Proxyconfig.Apply

The execution of the statements of a table.

The statements are executed in parts, and the rows that are no longer there are
deleted in between; this comes to the same as all statements and the deletion
behind them (`executeAll_filter`, `foldlM_push`), because what is deleted is
not what the statements are about.
-/

namespace Zabbix

open Ascii Printf Nesting

/-! ## one statement -/

/-- What the values of a statement are for the database. -/
def ProxyDb.assignments (db : ProxyDb) (values : List (CString × SqlValue)) : Option (List (CString × CString)) :=
  values.mapM fun v => (db.read v.2).map fun value => (v.1, value)

@[simp] theorem DbRow.recid_assign (row : DbRow) (values : List (CString × CString)) :
    (row.assign values).recid = row.recid := rfl

variable (db : ProxyDb) (table : ZbxTable)

theorem execute_eq {s : ProxyStatement} {values : List (CString × CString)}
    (h : db.assignments s.values = some values) (rows : List DbRow) :
    db.execute table rows s =
      if s.insert then
        if rows.any (·.recid = s.recid) then none
        else some (rows ++ [DbRow.assign ⟨s.recid, db.default table.table⟩ values])
      else some (rows.map fun row => if row.recid = s.recid then row.assign values else row) := by
  rw [ProxyDb.assignments] at h
  rw [ProxyDb.execute, h, Option.bind_some]

/-- A statement does not touch what has another identifier. -/
theorem execute_filter {s : ProxyStatement} {values : List (CString × CString)}
    (h : db.assignments s.values = some values) {ids : List ℕ} (hs : s.recid ∉ ids) (rows : List DbRow) :
    (db.execute table rows s).map (List.filter fun row => row.recid ∉ ids) =
      db.execute table (rows.filter fun row => row.recid ∉ ids) s := by
  have hany : (rows.filter fun row => row.recid ∉ ids).any (·.recid = s.recid) = rows.any (·.recid = s.recid) := by
    rw [List.any_filter]
    refine List.any_congr rfl fun row => ?_
    by_cases heq : row.recid = s.recid
    · simp [heq, hs]
    · simp [heq]
  rw [execute_eq db table h, execute_eq db table h, hany]
  cases s.insert with
  | true =>
      cases rows.any (·.recid = s.recid) with
      | true => rfl
      | false =>
          rw [if_pos rfl, if_pos rfl, if_neg (by decide), if_neg (by decide), Option.map_some,
            List.filter_append]
          simp [hs]
  | false =>
      rw [if_neg (by decide), if_neg (by decide), Option.map_some, List.filter_map]
      refine congrArg (fun l => some (List.map _ l)) (List.filter_congr fun row _ => ?_)
      rw [Function.comp_apply]
      split <;> rfl

/-- Statements that the database can read. -/
def ProxyDb.Readable (sql : List ProxyStatement) : Prop := ∀ s ∈ sql, (db.assignments s.values).isSome = true

variable {db}

/-- Statements do not touch what has other identifiers. -/
theorem executeAll_filter {sql : List ProxyStatement} (h : db.Readable sql) {ids : List ℕ}
    (hids : ∀ s ∈ sql, s.recid ∉ ids) (rows : List DbRow) :
    (db.executeAll table rows sql).map (List.filter fun row => row.recid ∉ ids) =
      db.executeAll table (rows.filter fun row => row.recid ∉ ids) sql := by
  induction sql generalizing rows with
  | nil => rfl
  | cons s sql ih =>
      rw [ProxyDb.Readable, List.forall_mem_cons] at h
      rw [List.forall_mem_cons] at hids
      obtain ⟨values, hvalues⟩ := Option.isSome_iff_exists.mp h.1
      have hstep := execute_filter db table hvalues hids.1 rows
      rw [ProxyDb.executeAll, ProxyDb.executeAll, List.foldlM_cons, List.foldlM_cons, ← hstep]
      cases db.execute table rows s with
      | none => rfl
      | some rows' => exact ih h.2 hids.2 rows'

/-- A row that a statement is about, behind it. -/
structure SetBy (db : ProxyDb) (s : ProxyStatement) (row : DbRow) : Prop where
  recid : row.recid = s.recid
  assigned : ∃ (base : DbRow) (values : List (CString × CString)), db.assignments s.values = some values ∧ row = base.assign values

/-- Statements for different rows, which are inserted just when they are not there. -/
structure Fresh (rows : List DbRow) (sql : List ProxyStatement) : Prop where
  nodup : (sql.map (·.recid)).Nodup
  insert : ∀ s ∈ sql, s.insert = true → ∀ row ∈ rows, row.recid ≠ s.recid
  update : ∀ s ∈ sql, s.insert = false → ∃ row ∈ rows, row.recid = s.recid

/-- What a statement makes of the rows. -/
structure StatementStep (db : ProxyDb) (s : ProxyStatement) (rows rows' : List DbRow) : Prop where
  of_mem : ∀ row ∈ rows', SetBy db s row ∨ (row ∈ rows ∧ row.recid ≠ s.recid)
  mem : ∃ row ∈ rows', row.recid = s.recid
  kept : ∀ row ∈ rows, ∃ row' ∈ rows', row'.recid = row.recid

/-- A statement is executed. -/
theorem execute_step {s : ProxyStatement} (h : (db.assignments s.values).isSome = true) {rows : List DbRow}
    (hinsert : s.insert = true → ∀ row ∈ rows, row.recid ≠ s.recid)
    (hupdate : s.insert = false → ∃ row ∈ rows, row.recid = s.recid) :
    ∃ rows', db.execute table rows s = some rows' ∧ StatementStep db s rows rows' := by
  obtain ⟨values, hvalues⟩ := Option.isSome_iff_exists.mp h
  rw [execute_eq db table hvalues]
  cases hs : s.insert with
  | true =>
      have hnew : rows.any (·.recid = s.recid) = false := by simpa using hinsert hs
      rw [if_pos rfl, hnew, if_neg (by decide)]
      refine ⟨_, rfl, ?_, ?_, ?_⟩
      · intro row hrow
        rcases List.mem_append.mp hrow with hrow | hrow
        · exact .inr ⟨hrow, hinsert hs row hrow⟩
        · obtain rfl := List.mem_singleton.mp hrow
          exact .inl ⟨rfl, _, values, hvalues, rfl⟩
      · exact ⟨_, List.mem_append_right _ (List.mem_singleton_self _), rfl⟩
      · exact fun row hrow => ⟨row, List.mem_append_left _ hrow, rfl⟩
  | false =>
      have hrecid : ∀ row : DbRow, (if row.recid = s.recid then row.assign values else row).recid = row.recid := by
        intro row
        split <;> rfl
      rw [if_neg (by decide)]
      refine ⟨_, rfl, ?_, ?_, ?_⟩
      · intro row hrow
        obtain ⟨base, hbase, rfl⟩ := List.mem_map.mp hrow
        split
        · next heq => exact .inl ⟨heq, base, values, hvalues, rfl⟩
        · next hne => exact .inr ⟨hbase, hne⟩
      · obtain ⟨row, hrow, heq⟩ := hupdate hs
        exact ⟨_, List.mem_map_of_mem hrow, (hrecid row).trans heq⟩
      · exact fun row hrow => ⟨_, List.mem_map_of_mem hrow, hrecid row⟩

/-- The other statements stay fresh. -/
theorem Fresh.tail {rows rows' : List DbRow} {s : ProxyStatement} {sql : List ProxyStatement}
    (h : Fresh rows (s :: sql)) (hstep : StatementStep db s rows rows') : Fresh rows' sql where
  nodup := (List.nodup_cons.mp h.nodup).2
  insert := by
    intro t ht hinsert row hrow
    rcases hstep.of_mem row hrow with hset | ⟨hold, -⟩
    · rw [hset.recid]
      rintro heq
      exact (List.nodup_cons.mp h.nodup).1 (List.mem_map.mpr ⟨t, ht, heq.symm⟩)
    · exact h.insert t (List.mem_cons_of_mem s ht) hinsert row hold
  update := by
    intro t ht hupdate
    obtain ⟨row, hrow, heq⟩ := h.update t (List.mem_cons_of_mem s ht) hupdate
    obtain ⟨row', hrow', heq'⟩ := hstep.kept row hrow
    exact ⟨row', hrow', heq'.trans heq⟩

/-- **The run of statements**: all of them are executed; behind them every row is one that
they are about, or one from before that they are not about. -/
theorem executeAll_run {sql : List ProxyStatement} (h : db.Readable sql) {rows : List DbRow}
    (hfresh : Fresh rows sql) :
    ∃ after, db.executeAll table rows sql = some after ∧
      (∀ row ∈ after, (∃ s ∈ sql, SetBy db s row) ∨ (row ∈ rows ∧ ∀ s ∈ sql, row.recid ≠ s.recid)) ∧
      (∀ s ∈ sql, ∃ row ∈ after, row.recid = s.recid) ∧ ∀ row ∈ rows, ∃ row' ∈ after, row'.recid = row.recid := by
  induction sql generalizing rows with
  | nil => exact ⟨rows, rfl, fun row hrow => .inr ⟨hrow, by simp⟩, by simp, fun row hrow => ⟨row, hrow, rfl⟩⟩
  | cons s sql ih =>
      rw [ProxyDb.Readable, List.forall_mem_cons] at h
      obtain ⟨rows', hexec, hstep⟩ := execute_step table h.1 (hfresh.insert s (List.mem_cons_self ..))
        (hfresh.update s (List.mem_cons_self ..))
      obtain ⟨after, hafter, hrows, hmem, hkept⟩ := ih h.2 (hfresh.tail hstep)
      refine ⟨after, ?_, ?_, ?_, ?_⟩
      · rw [ProxyDb.executeAll, List.foldlM_cons, hexec]
        exact hafter
      · intro row hrow
        rcases hrows row hrow with ⟨t, ht, hset⟩ | ⟨hrow', hother⟩
        · exact .inl ⟨t, List.mem_cons_of_mem s ht, hset⟩
        · rcases hstep.of_mem row hrow' with hset | ⟨hold, hne⟩
          · exact .inl ⟨s, List.mem_cons_self .., hset⟩
          · exact .inr ⟨hold, List.forall_mem_cons.mpr ⟨hne, hother⟩⟩
      · rw [List.forall_mem_cons]
        refine ⟨?_, hmem⟩
        obtain ⟨row', hrow', heq'⟩ := hstep.mem
        obtain ⟨row, hrow, heq⟩ := hkept row' hrow'
        exact ⟨row, hrow, heq.trans heq'⟩
      · intro row hrow
        obtain ⟨row', hrow', heq'⟩ := hstep.kept row hrow
        obtain ⟨row'', hrow'', heq''⟩ := hkept row' hrow'
        exact ⟨row'', hrow'', heq''.trans heq'⟩

/-! ## the loop over the rows -/

/-- What the loop does with the statement for a row. -/
def TableSync.push (db : ProxyDb) (table : ZbxTable) (s : TableSync) (statement : ProxyStatement) : Option TableSync :=
  let sql := s.sql ++ [statement]
  let new := uint64ArrayAdd s.new statement.recid
  if sqlOffset db.backend table sql > zbxMaxSqlSize then
    (db.executeAll table s.rows sql).map fun rows => { new := new, sql := [], rows := rows }
  else some { new := new, sql := sql, rows := s.rows }

theorem proxyconfigRow_eq (db : ProxyDb) (table : ZbxTable) (fields : List ZbxField) (old : List ℕ) (s : TableSync)
    (p : Ptr) : proxyconfigRow db table fields old s p =
      (proxyconfigStatement db.backend fields old p).bind (TableSync.push db table s) := by
  rw [proxyconfigRow]
  cases proxyconfigStatement db.backend fields old p <;> rfl

theorem executeAll_append_sql (rows : List DbRow) (sql sql' : List ProxyStatement) :
    db.executeAll table rows (sql ++ sql') =
      (db.executeAll table rows sql).bind fun rows => db.executeAll table rows sql' :=
  List.foldlM_append ..

/-- **The loop**: what has been executed and what is left to be executed are all statements. -/
theorem foldlM_push {sql : List ProxyStatement} {s : TableSync} {after : List DbRow}
    (h : db.executeAll table s.rows (s.sql ++ sql) = some after) :
    ∃ s', sql.foldlM (TableSync.push db table) s = some s' ∧ db.executeAll table s'.rows s'.sql = some after ∧
      s'.new = (sql.map (·.recid)).foldl uint64ArrayAdd s.new ∧ s'.sql <:+ s.sql ++ sql := by
  induction sql generalizing s with
  | nil =>
      rw [List.append_nil] at h ⊢
      exact ⟨s, rfl, h, rfl, List.suffix_rfl⟩
  | cons statement sql ih =>
      have hsplit : s.sql ++ statement :: sql = (s.sql ++ [statement]) ++ sql := by simp
      rw [List.foldlM_cons, TableSync.push]
      split
      · rw [hsplit, executeAll_append_sql] at h
        obtain ⟨rows, hrows, hrest⟩ := Option.bind_eq_some_iff.mp h
        obtain ⟨s', hs', hafter, hnew, hsuffix⟩ :=
          @ih ⟨uint64ArrayAdd s.new statement.recid, [], rows⟩ hrest
        rw [hrows]
        exact ⟨s', hs', hafter, hnew, hsuffix.trans ⟨s.sql ++ [statement], by simp⟩⟩
      · obtain ⟨s', hs', hafter, hnew, hsuffix⟩ :=
          @ih ⟨uint64ArrayAdd s.new statement.recid, s.sql ++ [statement], s.rows⟩ (hsplit ▸ h)
        exact ⟨s', hs', hafter, hnew, hsplit ▸ hsuffix⟩

/-- Every statement is longer than the text that is not executed. -/
theorem length_text (s : ProxyStatement) : 16 < (s.text table).length := by
  rw [ProxyStatement.text]
  split
  · have hinsert : (bytes "insert into ").length = 12 ∧ (bytes ") values (").length = 10 := by decide
    simp only [List.length_append, hinsert]
    omega
  · have hupdate : (bytes "update ").length = 7 ∧ (bytes " set ").length = 5 ∧ (bytes " where ").length = 7 := by
      decide
    simp only [List.length_append, hupdate]
    omega

/-- **What is done behind the loop**: the rest is executed, and the rows that are no longer
there are deleted. -/
theorem proxyconfigFinish_eq {s : TableSync} (h : db.Readable s.sql) {old : List ℕ} (hold : Nearest.Sorted id old)
    (hnew : ∀ statement ∈ s.sql, statement.recid ∈ s.new) {after : List DbRow}
    (hafter : db.executeAll table s.rows s.sql = some after) :
    proxyconfigFinish db table old s = some (after.filter fun row => row.recid ∉ uint64ArrayRm old s.new) := by
  have hids : ∀ statement ∈ s.sql, statement.recid ∉ uint64ArrayRm old s.new := by
    intro statement hmem hrm
    exact ((mem_uint64ArrayRm hold s.new).mp hrm).2 (hnew statement hmem)
  have hfilter := executeAll_filter table h hids s.rows
  rw [hafter, Option.map_some] at hfilter
  have hrows : (if (uint64ArrayRm old s.new).length > 0 then
      s.rows.filter fun row => row.recid ∉ uint64ArrayRm old s.new else s.rows) =
        s.rows.filter fun row => row.recid ∉ uint64ArrayRm old s.new := by
    split
    · rfl
    · next hlen =>
        rw [List.eq_nil_of_length_eq_zero (Nat.eq_zero_of_not_pos hlen)]
        simp
  rw [proxyconfigFinish, hrows]
  generalize (if db.backend = .oracle then 5 else 0) = closing
  split
  · exact hfilter.symm
  · next hoffset =>
      have hsql : s.sql = [] := by
        cases hsql : s.sql with
        | nil => rfl
        | cons statement sql =>
            have hlen := length_text table statement
            rw [hsql, sqlOffset, List.map_cons, List.sum_cons] at hoffset
            omega
      rw [hsql] at hfilter
      exact hfilter.symm

/-- **A table behind its statements**: they have set all rows. -/
theorem sync_table {sql : List ProxyStatement} (h : db.Readable sql) {rows : List DbRow} (hfresh : Fresh rows sql)
    {old : List ℕ} (hold : Nearest.Sorted id old) (hmem : ∀ row ∈ rows, row.recid ∈ old) :
    ∃ after, (sql.foldlM (TableSync.push db table) ⟨[], [], rows⟩).bind (proxyconfigFinish db table old) =
        some after ∧
      (∀ row ∈ after, ∃ s ∈ sql, SetBy db s row) ∧ ∀ s ∈ sql, ∃ row ∈ after, row.recid = s.recid := by
  obtain ⟨all, hall, hset, hthere, -⟩ := executeAll_run table h hfresh
  obtain ⟨s, hs, hexec, hnew, hsuffix⟩ := @foldlM_push db table sql ⟨[], [], rows⟩ all hall
  have hids : ∀ x, x ∈ s.new ↔ x ∈ sql.map (·.recid) := by
    intro x
    have hadded := (foldl_uint64ArrayAdd (List.Pairwise.nil : Nearest.Sorted id []) (sql.map (·.recid))).2 x
    rw [hnew, hadded]
    simp
  have hread : db.Readable s.sql := fun t ht => h t (hsuffix.mem ht)
  have hlast : ∀ t ∈ s.sql, t.recid ∈ s.new :=
    fun t ht => (hids _).mpr (List.mem_map_of_mem (hsuffix.mem ht))
  rw [hs, Option.bind_some, proxyconfigFinish_eq table hread hold hlast hexec]
  refine ⟨_, rfl, fun row hrow => ?_, fun t ht => ?_⟩
  · obtain ⟨hrow, hkept⟩ := List.mem_filter.mp hrow
    rcases hset row hrow with hset | ⟨hbefore, hother⟩
    · exact hset
    · rw [decide_eq_true_eq, mem_uint64ArrayRm hold, not_and, not_not, hids, List.mem_map] at hkept
      obtain ⟨t, ht, heq⟩ := hkept (hmem row hbefore)
      exact absurd heq.symm (hother t ht)
  · obtain ⟨row, hrow, heq⟩ := hthere t ht
    refine ⟨row, List.mem_filter.mpr ⟨hrow, ?_⟩, heq⟩
    rw [decide_eq_true_eq, mem_uint64ArrayRm hold, not_and, not_not, hids, heq]
    exact fun _ => List.mem_map_of_mem ht

end Zabbix
