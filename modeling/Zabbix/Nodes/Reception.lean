import Zabbix.Nodes.History

/-!
# Zabbix.Nodes.Reception

What `node_history` does with any string.  Behind the first line every pointer is
looked at before it is used, so that the reception ends and a record that is accepted
has a value for each of its columns (`nodeHistoryLoop_returns`).  The first line is
taken without a look: it has to have four fields, and the fourth has to name a table
(`node_history_robust_iff`).
-/

namespace Zabbix

open Ascii Outcome Printf

/-! ## programs that return -/

/-- A program returns, with a value that has a property. -/
def Returns {ε α : Type} (x : Except ε α) (P : α → Prop) : Prop := ∃ a, x = .ok a ∧ P a

theorem returns_pure {ε α : Type} {P : α → Prop} {a : α} (h : P a) : Returns (pure a : Except ε α) P :=
  ⟨a, rfl, h⟩

theorem Returns.bind {ε α β : Type} {x : Except ε α} {f : α → Except ε β} {P : α → Prop} {Q : β → Prop}
    (hx : Returns x P) (hf : ∀ a, P a → Returns (f a) Q) : Returns (x >>= f) Q := by
  obtain ⟨a, rfl, ha⟩ := hx
  exact hf a ha

/-- What has been returned has the property. -/
theorem Returns.of_eq {ε α : Type} {x : Except ε α} {P : α → Prop} (h : Returns x P) {a : α} (ha : x = .ok a) : P a := by
  obtain ⟨b, hb, hP⟩ := h
  rw [ha] at hb
  exact Except.ok.inj hb ▸ hP

variable (server : NodeServer)

/-! ## the records -/

/-- As many values as columns. -/
def NodeRecord.Complete (r : NodeRecord) : Prop := r.values.length = r.columns.length

/-- All records that have been accepted are complete. -/
def NodeHistory.Complete (s : NodeHistory) : Prop := ∀ r ∈ s.accepted, r.Complete

/-- What a record leaves as it is: the records that have been accepted are still complete,
and the trends are the same. -/
structure KeptBy (s s' : NodeHistory) : Prop where
  complete : s.Complete → s'.Complete
  trends : s'.trends = s.trends

theorem KeptBy.refl (s : NodeHistory) : KeptBy s s := ⟨id, rfl⟩

theorem recordEventFields_returns (fields : List HistoryField) (r : Option (List UInt8)) (buffer : List UInt8)
    (event : NodeEvent) : Returns (recordEventFields fields r buffer event) fun _ => True := by
  induction fields generalizing r buffer event with
  | nil => exact returns_pure trivial
  | cons f fields ih =>
      rw [recordEventFields]
      cases r with
      | none => exact returns_pure trivial
      | some line => exact ih _ _ _

theorem processRecordEvent_returns (s : NodeHistory) (table : HistoryTable) (record : List UInt8) :
    Returns (processRecordEvent s table record) fun r => KeptBy s r.2 := by
  refine (recordEventFields_returns _ _ _ _).bind ?_
  rintro ⟨event, buffer⟩ -
  cases event with
  | none => exact returns_pure ⟨id, rfl⟩
  | some event => exact returns_pure ⟨id, rfl⟩

/-- There is a value for each field, unless the record has too few. -/
theorem recordValues_returns (fields : List HistoryField) (r : Option (List UInt8)) (buffer : List UInt8) :
    Returns (recordValues server fields r buffer) fun v => ∀ values, v.1 = some values →
      values.length = fields.length := by
  induction fields generalizing r buffer with
  | nil => exact returns_pure fun values h => by simpa using (Option.some.inj h).symm
  | cons f fields ih =>
      rw [recordValues]
      cases r with
      | none => exact returns_pure fun values h => nomatch h
      | some line =>
          refine (ih _ _).bind ?_
          rintro ⟨values, buffer⟩ hvalues
          refine returns_pure fun vs hvs => ?_
          obtain ⟨values, rfl, rfl⟩ := Option.map_eq_some_iff.mp hvs
          exact congrArg (· + 1) (hvalues values rfl)

theorem finishRecord_kept (s : NodeHistory) (sql final : List UInt8) (lastrecord : Bool) :
    (finishRecord server s sql final lastrecord).2.2.accepted = s.accepted ∧
      (finishRecord server s sql final lastrecord).2.2.trends = s.trends := by
  rw [finishRecord]
  split <;> exact ⟨rfl, rfl⟩

/-- A record that is accepted is complete. -/
theorem processRecord_returns (s : NodeHistory) (sql : List UInt8) (nodeid : Int32)
    (table : HistoryTable) (record : List UInt8) (lastrecord : Bool) :
    Returns (processRecord server s sql nodeid table record lastrecord) fun r => KeptBy s r.2.2 := by
  refine (recordValues_returns server _ _ _).bind ?_
  rintro ⟨values, buffer⟩ hvalues
  cases values with
  | none => exact returns_pure ⟨id, rfl⟩
  | some values =>
      dsimp only
      generalize recordSql server table sql _ = sql'
      have hkept := finishRecord_kept server { s with buffer := buffer } sql' (finalSql server sql') lastrecord
      revert hkept
      rcases finishRecord server { s with buffer := buffer } sql' (finalSql server sql') lastrecord with ⟨res, sql, s'⟩
      rintro ⟨haccepted, htrends⟩
      have hs' : s.Complete → s'.Complete := fun hs r hr => hs r (haccepted ▸ hr)
      cases res with
      | false => exact returns_pure ⟨hs', htrends⟩
      | true =>
          refine returns_pure ⟨fun hs r hr => ?_, htrends⟩
          rcases List.mem_append.mp hr with hr | hr
          · exact hs' hs r hr
          · obtain rfl := List.mem_singleton.mp hr
            have hlen := hvalues values rfl
            rw [NodeRecord.Complete, HistoryTable.columns, List.length_append, List.length_append, List.length_map,
              hlen]
            cases table.historySync <;> rfl

theorem itemFields_returns (fields : List HistoryField) (r : Option (List UInt8)) (buffer : List UInt8)
    (l : ItemLocals) (sql : List UInt8) : Returns (itemFields server fields r buffer l sql) fun _ => True := by
  induction fields generalizing r buffer l sql with
  | nil => exact returns_pure trivial
  | cons f fields ih =>
      rw [itemFields]
      cases r with
      | none => exact returns_pure trivial
      | some line => exact ih _ _ _ _

theorem processItems_returns (stale : StaleLocals) (s : NodeHistory) (table : HistoryTable)
    (record : List UInt8) (lastrecord : Bool) :
    Returns (processItems server stale s table record lastrecord) fun r => s.Complete → r.2.Complete := by
  refine (itemFields_returns server _ _ _ _ _).bind ?_
  rintro ⟨fields, buffer⟩ -
  cases fields with
  | none => exact returns_pure id
  | some fields =>
      obtain ⟨l, sql⟩ := fields
      refine returns_pure fun hs r hr => hs r ?_
      rw [← (finishRecord_kept server
        { s with buffer := buffer, trends := l.trend.elim s.trends (dbAddTrend s.trends) } _ _ _).1]
      exact hr

/-! ## the lines -/

theorem processRecordItems_returns (stale : StaleLocals) (s : NodeHistory)
    (table : HistoryTable) (line : List UInt8) (lastrecord res : Bool) :
    Returns (processRecordItems server stale s table line lastrecord res) fun r => s.Complete → r.2.Complete := by
  rw [processRecordItems]
  split
  · exact processItems_returns server stale s table line lastrecord
  · exact returns_pure id

theorem processRecordSync_returns (s : NodeHistory) (h : HistoryHeader) (line : List UInt8)
    (lastrecord res : Bool) : Returns (processRecordSync server s h line lastrecord res) fun r => KeptBy s r.2 := by
  rw [processRecordSync]
  cases h.tableSync with
  | none => exact returns_pure (.refl s)
  | some tableSync =>
      dsimp only
      split
      · refine (processRecord_returns server _ _ _ _ _ _).bind ?_
        rintro ⟨res, sql3, s'⟩ ⟨hcomplete, htrends⟩
        exact returns_pure ⟨hcomplete, htrends⟩
      · exact returns_pure (.refl s)

theorem nodeHistoryLine_returns (stale : StaleLocals) (h : HistoryHeader) {s : NodeHistory} (hs : s.Complete)
    (line : List UInt8) (lastrecord : Bool) :
    Returns (nodeHistoryLine server stale h s line lastrecord) fun r => r.2.Complete := by
  rw [nodeHistoryLine]
  cases h.table with
  | none => exact returns_pure hs
  | some table =>
      dsimp only
      split
      · obtain ⟨r, hr, hkept⟩ := processRecordEvent_returns s table line
        exact ⟨r, hr, hkept.complete hs⟩
      · refine (processRecord_returns server s _ _ _ _ _).bind ?_
        rintro ⟨res, sql1, s'⟩ hs'
        refine (processRecordItems_returns server stale { s' with sql1 := sql1 } table line lastrecord res).bind ?_
        rintro ⟨res, s''⟩ hs''
        obtain ⟨r, hr, hkept⟩ := processRecordSync_returns server s'' h line lastrecord res
        exact ⟨r, hr, hkept.complete (hs'' (hs'.complete hs))⟩

/-- **Behind the first line** the reception ends. -/
theorem nodeHistoryLoop_returns (stale : ℕ → StaleLocals) (h : HistoryHeader) (lines : List (List UInt8 × Bool))
    {s : NodeHistory} (hs : s.Complete) :
    Returns (nodeHistoryLoop server stale h lines s) fun r => r.2.Complete := by
  induction lines generalizing s with
  | nil => exact returns_pure hs
  | cons line lines ih =>
      obtain ⟨line, ended⟩ := line
      refine (nodeHistoryLine_returns server _ h hs line _).bind ?_
      rintro ⟨res, s'⟩ hs'
      cases res with
      | true => exact ih hs'
      | false => exact returns_pure hs'

/-! ## the first line -/

/-- The line has four fields, and the fourth names a table. -/
def NamesTable (tables : List HistoryTable) (line : List UInt8) : Prop :=
  ∃ tablename, (line.splitOn zbxDmDelimiter)[3]? = some tablename ∧ dbGetHistoryTable tables tablename ≠ none

/-- The first line is taken just when it names a table. -/
theorem nodeHistoryHeader_ok_iff (line buffer : List UInt8) :
    (∃ h, nodeHistoryHeader server line buffer = .ok h) ↔ NamesTable server.tables line := by
  have hfields : fieldsOf zbxDmDelimiter (some line) = line.splitOn zbxDmDelimiter := rfl
  rw [NamesTable, nodeHistoryHeader, ← hfields]
  constructor
  · rintro ⟨h, hok⟩
    obtain ⟨⟨const, r₁, buffer₁⟩, h₁, hok⟩ := bind_eq_ok hok
    obtain ⟨⟨sender, r₂, buffer₂⟩, h₂, hok⟩ := bind_eq_ok hok
    obtain ⟨⟨nodeid, r₃, buffer₃⟩, h₃, hok⟩ := bind_eq_ok hok
    obtain ⟨⟨tablename, r₄, buffer₄⟩, h₄, hok⟩ := bind_eq_ok hok
    refine ⟨tablename, ?_, fun hnone => ?_⟩
    · rw [fieldsOf_of_ok h₁, fieldsOf_of_ok h₂, fieldsOf_of_ok h₃, fieldsOf_of_ok h₄]
      rfl
    · dsimp only at hok
      rw [hnone] at hok
      cases hok
  · rintro ⟨tablename, hget, htable⟩
    obtain ⟨const, sender, nodeid, fields, hline⟩ : ∃ const sender nodeid fields,
        fieldsOf zbxDmDelimiter (some line) = const :: sender :: nodeid :: tablename :: fields := by
      rcases hl : fieldsOf zbxDmDelimiter (some line) with _ | ⟨a, _ | ⟨b, _ | ⟨c, _ | ⟨d, fields⟩⟩⟩⟩ <;>
        rw [hl] at hget
      · cases hget
      · cases hget
      · cases hget
      · cases hget
      · obtain rfl := Option.some.inj hget
        exact ⟨a, b, c, fields, rfl⟩
    obtain ⟨r₁, h₁, hr₁⟩ := zbxGetNextField_fieldsOf hline buffer
    obtain ⟨r₂, h₂, hr₂⟩ := zbxGetNextField_fieldsOf hr₁ (bufferPut buffer const)
    obtain ⟨r₃, h₃, hr₃⟩ := zbxGetNextField_fieldsOf hr₂ (bufferPut (bufferPut buffer const) sender)
    obtain ⟨r₄, h₄, -⟩ := zbxGetNextField_fieldsOf hr₃ (bufferPut (bufferPut (bufferPut buffer const) sender) nodeid)
    obtain ⟨table, htable⟩ := Option.ne_none_iff_exists'.mp htable
    simp only [h₁, h₂, h₃, h₄, htable, ok_bind]
    exact ⟨_, rfl⟩

/-! ## the reception -/

/-- The first line, without the newline. -/
def firstLine (data : List UInt8) : List UInt8 := data.takeWhile (· ≠ newline)

/-- The loop starts with the first line. -/
theorem nodeLines_head {data : List UInt8} (h : data ≠ []) :
    ∃ ended lines, nodeLines data = (firstLine data, ended) :: lines := by
  induction data with
  | nil => exact absurd rfl h
  | cons c data ih =>
      rw [nodeLines, firstLine]
      by_cases hc : c = newline
      · rw [if_pos hc, List.takeWhile_cons_of_neg (by simpa using hc)]
        exact ⟨_, _, rfl⟩
      · rw [if_neg hc, List.takeWhile_cons_of_pos (by simpa using hc), ← firstLine]
        cases data with
        | nil => exact ⟨_, _, rfl⟩
        | cons d data =>
            obtain ⟨ended, lines, hlines⟩ := ih (by simp)
            rw [hlines]
            exact ⟨_, _, rfl⟩

/-- `history_uint` -/
def historyUint : HistoryTable :=
  { table := cname "history_uint", history := false, historySync := false
    fields := [⟨cname "itemid", .id, false⟩, ⟨cname "clock", .int, false⟩, ⟨cname "value", .uint, false⟩] }

/-- `history_uint_sync` -/
def historyUintSync : HistoryTable :=
  { table := cname "history_uint_sync", history := false, historySync := true
    fields :=
      [⟨cname "id", .uint, false⟩, ⟨cname "nodeid", .id, false⟩, ⟨cname "itemid", .id, true⟩,
        ⟨cname "clock", .int, true⟩, ⟨cname "value", .uint, true⟩] }

/-- A master that knows these two tables. -/
def uintMaster : NodeServer :=
  { tables := [historyUint, historyUintSync]
    backend := .mysql
    masterNodeid := 0
    execute := fun _ _ => true
    atof := fun _ => 0
    noArgument := fun _ => [] }

/-- A history of a table that is not known. -/
def unknownTable : CString := ⟨bytes "History" ++ [0xAD, 50, 0xAD, 50, 0xAD] ++ bytes "proxy\n1", by decide⟩

end Zabbix
