import Zabbix.Nodes.SyncReplay

/-!
# Zabbix.Nodes.SyncStatement

What a node executes for a record that another one has sent.

The loop of `process_record` takes the fields one by one, and the statement has the text of
each value (`processRecord_recordLine`).  It is read as the values of the row when all of
them arrive (`record_roundtrip`).
-/

namespace Zabbix.Nodesync

open Ascii Outcome Printf SqlLiteral SqlStatement

variable {schema : NodeSchema} (node : ConfigNode schema) (db : NodeDb schema)

/-! ## the loop -/

/-- The columns with the texts of their values. -/
def writtenFields (b : Backend) (sent : ZbxField → Option (List UInt8)) (fields : List ZbxField) :
    List (List UInt8 × List UInt8) :=
  fields.map fun f => (f.name.val, literalText b f.type (sent f))

/-- The texts behind the loop. -/
def RecordTexts.addAll (t : RecordTexts) (written : List (List UInt8 × List UInt8)) : RecordTexts where
  fieldsUpdate := t.fieldsUpdate ++ written.flatMap fun w => w.1 ++ equals :: w.2 ++ [comma]
  fields := t.fields ++ written.flatMap fun w => w.1 ++ [comma]
  values := t.values ++ written.flatMap fun w => w.2 ++ [comma]

/-- A field of a table, as far as a record goes. -/
structure IsSent (sent : ZbxField → Option (List UInt8)) (f : ZbxField) : Prop where
  identifier : IsIdentifier f.name
  length : f.name.val.length ≤ zbxNameLen
  number : SentNumber f.type (sent f)

theorem not_mem_name {name : CString} (h : IsIdentifier name) {c : UInt8} (hc : ∀ d, isNameByte d = true → d ≠ c) :
    c ∉ name.val :=
  fun hmem => hc c (h c hmem) rfl

theorem delimiter_not_mem {name : CString} (h : IsIdentifier name) : zbxDmDelimiter ∉ name.val :=
  not_mem_name h fun _ hd => (isNameByte_ne hd).2.2.1

@[simp] theorem addAll_addAll (t : RecordTexts) (ws ws' : List (List UInt8 × List UInt8)) :
    (t.addAll ws).addAll ws' = t.addAll (ws ++ ws') := by
  simp [RecordTexts.addAll]

/-- A round of the loop. -/
theorem recordLoop_step (b : Backend) {sent : ZbxField → Option (List UInt8)} {f : ZbxField} (h : IsSent sent f)
    (rest : Option (List UInt8)) (buffer : List UInt8) (t : RecordTexts) :
    ∃ buffer', recordLoop b nodeConfiglogOpUpdate
        (some (fieldText f (sent f) ++ rest.elim [] (zbxDmDelimiter :: ·))) buffer t =
      recordLoop b nodeConfiglogOpUpdate rest buffer' (t.addAll (writtenFields b sent [f])) := by
  obtain ⟨output, hnext⟩ := nextReceived_eq (delimiter_not_mem h.identifier) h.number rest buffer
  obtain ⟨buffer', hvalue⟩ := recordValue_eq b t h.length h.number output
  have htake : f.name.val.take zbxNameLen = f.name.val := List.take_of_length_le h.length
  refine ⟨buffer', ?_⟩
  rw [recordLoop]
  split
  · next heq =>
      rw [hnext] at heq
      cases heq
  · next heq =>
      rw [hnext] at heq
      cases heq
      rw [if_pos rfl, hvalue, htake]
      dsimp only
      rw [zbxSnprintfAlloc_of_lt (by rw [List.length_append, List.length_singleton]; omega)]
      simp [RecordTexts.addAll, writtenFields]

/-- **The loop adds the fields one by one.** -/
theorem recordLoop_eq (b : Backend) {sent : ZbxField → Option (List UInt8)} {f : ZbxField} {fields : List ZbxField}
    (h : ∀ g ∈ f :: fields, IsSent sent g) (buffer : List UInt8) (t : RecordTexts) :
    recordLoop b nodeConfiglogOpUpdate
        (some (fieldText f (sent f) ++ fields.flatMap fun g => zbxDmDelimiter :: fieldText g (sent g))) buffer t =
      .ok (some (t.addAll (writtenFields b sent (f :: fields)))) := by
  induction fields generalizing f buffer t with
  | nil =>
      obtain ⟨buffer', hstep⟩ := recordLoop_step b (h f (List.mem_cons_self ..)) none buffer t
      rw [List.flatMap_nil]
      refine hstep.trans ?_
      rw [recordLoop]
      rfl
  | cons g fields ih =>
      obtain ⟨buffer', hstep⟩ := recordLoop_step b (h f (List.mem_cons_self ..))
        (some (fieldText g (sent g) ++ fields.flatMap fun g => zbxDmDelimiter :: fieldText g (sent g))) buffer t
      rw [List.flatMap_cons, List.cons_append]
      refine hstep.trans ?_
      rw [ih (fun k hk => h k (List.mem_cons_of_mem f hk)), addAll_addAll]
      rfl

/-! ## the statement -/

/-- A list of texts, each with a comma behind it, without the last comma. -/
theorem dropLast_flatMap_comma {α : Type} (f : α → List UInt8) {l : List α} (h : l ≠ []) :
    (l.flatMap fun a => f a ++ [comma]).dropLast = [comma].intercalate (l.map f) := by
  induction l with
  | nil => contradiction
  | cons a l ih =>
      cases l with
      | nil => simp
      | cons b l =>
          have hne : ((b :: l).flatMap fun a => f a ++ [comma]) ≠ [] := by simp
          rw [List.flatMap_cons, List.dropLast_append_of_ne_nil hne, ih (by simp), List.map_cons (a := a), List.map_cons,
            List.intercalate_cons_cons, List.append_assoc]

/-- What is executed for a row that is there. -/
theorem recordUpdate_eq (table : ZbxTable) (recid : UInt64) (t : RecordTexts)
    {written : List (List UInt8 × List UInt8)} (hne : written ≠ [])
    (ht : t.fieldsUpdate = written.flatMap fun w => w.1 ++ equals :: w.2 ++ [comma]) :
    recordUpdate table recid t = updateText table.table.val written (table.recid.val, ui64 recid) := by
  have hset : t.fieldsUpdate.dropLast = setText written := by
    rw [ht]
    exact dropLast_flatMap_comma (fun w => w.1 ++ equals :: w.2) hne
  have hlen := length_ui64_le recid
  have hdrop : t.fieldsUpdate.dropLast.length = t.fieldsUpdate.length - 1 := List.length_dropLast
  have hwords : (bytes "update ").length = 7 ∧ (bytes " set ").length = 5 ∧ (bytes " where ").length = 7 := by
    decide
  rw [recordUpdate, zbxVsnprintf_of_lt, hset, updateText]
  · simp [List.append_assoc]
    rfl
  · simp only [List.length_append, List.length_cons, hwords, hdrop]
    omega

/-- What is executed for a row that is not there. -/
theorem recordInsert_eq (table : ZbxTable) (t : RecordTexts) {written : List (List UInt8 × List UInt8)}
    (hne : written ≠ []) (hfields : t.fields = written.flatMap fun w => w.1 ++ [comma])
    (hvalues : t.values = written.flatMap fun w => w.2 ++ [comma]) :
    recordInsert table t = insertText table.table.val written := by
  have hnames : t.fields.dropLast = [comma].intercalate (written.map (·.1)) := by
    rw [hfields]
    exact dropLast_flatMap_comma _ hne
  have htexts : t.values.dropLast = [comma].intercalate (written.map (·.2)) := by
    rw [hvalues]
    exact dropLast_flatMap_comma _ hne
  have hdrop : t.fields.dropLast.length = t.fields.length - 1 := List.length_dropLast
  have hdrop' : t.values.dropLast.length = t.values.length - 1 := List.length_dropLast
  have hwords : (bytes "insert into ").length = 12 ∧ (bytes " (").length = 2 ∧ (bytes ") values (").length = 10 := by
    decide
  rw [recordInsert, zbxVsnprintf_of_lt, hnames, htexts, insertText]
  · simp [List.append_assoc]
    rfl
  · simp only [List.length_append, List.length_singleton, hwords, hdrop, hdrop']
    omega

/-- What is set in the database: in a row that is there, the columns, and otherwise the
identifier with them. -/
def assignment (table : ZbxTable) (there : Bool) (recid : UInt64) (row : List (List UInt8 × Option (List UInt8))) :
    Statement (Option (List UInt8)) :=
  if there then .update table.table.val row (table.recid.val, some (ui64 recid))
  else .insert table.table.val ((table.recid.val, some (ui64 recid)) :: row)

/-- A field with the text of its value. -/
def codedField {table : ZbxTable} (sent : ZbxField → Option (List UInt8)) {f : ZbxField} (h : IsSent sent f) :
    Coded db.read table.table.val where
  column := f.name.val
  text := literalText db.backend f.type (sent f)
  value := storedValue db table.table.val f.name.val f.type (sent f)
  comma := not_mem_name h.identifier fun _ hd => (isNameByte_ne hd).2.2.2.2.1
  equals := not_mem_name h.identifier fun _ hd => (isNameByte_ne hd).2.2.2.2.2.1
  rparen := not_mem_name h.identifier fun _ hd => (isNameByte_ne hd).2.2.2.2.2.2
  reads := fun _ hrest => read_literalText db table.table.val f.name.val h.number hrest

theorem isNumberText_ui64 (n : UInt64) : IsNumberText (ui64 n) := by
  refine ⟨dec_ne_nil _, fun c hc => ?_⟩
  rw [isNumberByte, isDigit_of_mem_dec hc]
  rfl

/-- The identifier of a row with its text. -/
def codedRecid (table : ZbxTable) (h : IsIdentifier table.recid) (recid : UInt64) :
    Coded db.read table.table.val where
  column := table.recid.val
  text := ui64 recid
  value := some (some (ui64 recid))
  comma := not_mem_name h fun _ hd => (isNameByte_ne hd).2.2.2.2.1
  equals := not_mem_name h fun _ hd => (isNameByte_ne hd).2.2.2.2.2.1
  rparen := not_mem_name h fun _ hd => (isNameByte_ne hd).2.2.2.2.2.2
  reads := by
    intro rest hrest
    have hnumber := isNumberText_ui64 recid
    have hbyte : ∀ c ∈ ui64 recid, c ≠ squote ∧ endsWord c = false :=
      fun c hc => (isNumberByte_ne (hnumber.2 c hc)).2.2.2.2.2
    rw [read_word db _ _ hnumber.1 hbyte hrest, word_number db hnumber]

/-- **A record is taken as a statement with its values.** -/
theorem processRecord_eq {row : CksumRow} {table : ZbxTable}
    (htable : dbGetTable schema.toSchema row.tablename = some table) {sent : ZbxField → Option (List UInt8)}
    {f : ZbxField} {fields : List ZbxField} (h : ∀ g ∈ f :: fields, IsSent sent g) (heap : RecordHeap) :
    let recid := (table.recid.val, ui64 row.recordid)
    let written := writtenFields db.backend sent (f :: fields)
    ∃ names, processRecord schema.toSchema db.backend db.there heap
        (row.tablename.val ++ zbxDmDelimiter :: (ui64 row.recordid ++ zbxDmDelimiter ::
          (d32 nodeConfiglogOpUpdate ++ (f :: fields).flatMap fun g => zbxDmDelimiter :: fieldText g (sent g)))) =
      .ok (.executed
        (if db.there table row.recordid then updateText table.table.val written recid
          else insertText table.table.val (recid :: written)) names) := by
  intro recid written
  obtain ⟨hmem, heq⟩ := dbGetTable_mem htable
  have hname : zbxDmDelimiter ∉ row.tablename.val := by
    rw [← heq]
    exact delimiter_not_mem (schema.table_identifier table hmem)
  have hdigits : zbxDmDelimiter ∉ ui64 row.recordid := fun h =>
    (isNumberByte_ne ((isNumberText_ui64 row.recordid).2 _ h)).2.2.1 rfl
  have hop : zbxDmDelimiter ∉ d32 nodeConfiglogOpUpdate := by decide
  have hatoi : atoi (d32 nodeConfiglogOpUpdate) = nodeConfiglogOpUpdate := by decide
  have hstring : bufferString row.tablename.val = row.tablename :=
    Subtype.ext (cstr_of_not_mem row.tablename.property)
  have hrecid := (schema.recid_identifier table hmem).2
  have hdigits_length := length_ui64_le row.recordid
  have hfields : zbxVsnprintf 128 (table.recid.val ++ [comma]) = table.recid.val ++ [comma] := by
    apply zbxVsnprintf_of_lt
    rw [List.length_append, List.length_singleton]
    rw [zbxNameLen] at hrecid
    omega
  have hvalues : zbxVsnprintf 128 (ui64 row.recordid ++ [comma]) = ui64 row.recordid ++ [comma] := by
    apply zbxVsnprintf_of_lt
    rw [List.length_append, List.length_singleton]
    omega
  have hwritten : written ≠ [] := by simp [written, writtenFields]
  rw [List.flatMap_cons, List.cons_append, processRecord, zbxGetNextField_append hname, ok_bind]
  dsimp only
  rw [hstring, htable]
  dsimp only
  rw [zbxGetNextField_append hdigits, ok_bind]
  dsimp only
  rw [zbxGetNextField_append hop, ok_bind]
  dsimp only
  rw [hatoi, if_neg (by decide), zbxStr2uint64_ui64, Option.getD_some, recordLoop_eq db.backend h, ok_bind, hfields,
    hvalues]
  dsimp only
  rw [if_neg (not_not_intro rfl), recordUpdate_eq table row.recordid _ hwritten (by rfl),
    recordInsert_eq table _ (List.cons_ne_nil recid written) (by simp [RecordTexts.addAll, written, recid])
      (by simp [RecordTexts.addAll, written, recid])]
  exact ⟨_, rfl⟩

/-- A record is one line. -/
theorem newline_not_mem_recordLine {row : CksumRow} {table : ZbxTable} {values : ConfigValues table}
    (htable : dbGetTable schema.toSchema row.tablename = some table) {fields : List ZbxField}
    (h : ∀ f ∈ fields, IsSent (sentField node values) f) : newline ∉ recordLine node values row fields := by
  obtain ⟨hmem, heq⟩ := dbGetTable_mem htable
  have hname : newline ∉ row.tablename.val := by
    rw [← heq]
    exact not_mem_name (schema.table_identifier table hmem) fun _ hd => (isNameByte_ne hd).2.1
  have hdigits : newline ∉ ui64 row.recordid := fun h =>
    (isNumberByte_ne ((isNumberText_ui64 row.recordid).2 _ h)).2.1 rfl
  have hop : newline ∉ d32 nodeConfiglogOpUpdate := by decide
  have hcode : ∀ type : ZbxFieldType, newline ∉ d32 type.code := by
    intro type
    cases type <;> decide
  have hd : newline ≠ zbxDmDelimiter := by decide
  have hfield : ∀ f ∈ fields, newline ∉ fieldText f (sentField node values f) := by
    intro f hf
    have hidentifier := not_mem_name (h f hf).identifier (c := newline) fun _ hd => (isNameByte_ne hd).2.1
    have htext : newline ∉ sentText f.type (sentField node values f) := fun hmem =>
      (sentText_ne (h f hf).number hmem).2.1 rfl
    simp [fieldText, hidentifier, hcode, htext, hd]
  have hflat : newline ∉ fields.flatMap fun f => zbxDmDelimiter :: fieldText f (sentField node values f) := by
    rw [List.mem_flatMap]
    rintro ⟨f, hf, hmem⟩
    rcases List.mem_cons.mp hmem with hc | hmem
    · exact hd hc
    · exact hfield f hf hmem
  simp [recordLine, hname, hdigits, hop, hflat, hd]

/-- **The statement is read as the values of the row** when all of the values are read. -/
theorem readStatement_iff {table : ZbxTable} (hmem : table ∈ schema.tables) (there : Bool) (recid : UInt64)
    {sent : ZbxField → Option (List UInt8)} {fields : List ZbxField} (hne : fields ≠ [])
    (h : ∀ f ∈ fields, IsSent sent f) (column : ZbxField → Option (List UInt8)) :
    readStatement db.read
        (if there then updateText table.table.val (writtenFields db.backend sent fields) (table.recid.val, ui64 recid)
          else insertText table.table.val
            ((table.recid.val, ui64 recid) :: writtenFields db.backend sent fields)) =
      some (assignment table there recid (fields.map fun f => (f.name.val, column f))) ↔
        ∀ f ∈ fields, storedValue db table.table.val f.name.val f.type (sent f) = some (column f) := by
  have hspace : space ∉ table.table.val :=
    not_mem_name (schema.table_identifier table hmem) fun _ hd => (isNameByte_ne hd).2.2.2.1
  let coded := fun f : { f // IsSent sent f } => @codedField schema db table sent f.1 f.2
  let key := codedRecid db table (schema.recid_identifier table hmem).1 recid
  let l := fields.attachWith (IsSent sent) h
  have hl : l ≠ [] := by simpa [l] using hne
  have hcs : l.map coded ≠ [] := by simpa using hl
  have hwritten : writtenFields db.backend sent fields = (l.map coded).map Coded.written := by
    rw [List.map_map]
    exact (List.attachWith_map_val (f := fun f => (f.name.val, literalText db.backend f.type (sent f))) h).symm
  have hcolumn : (fields.map fun f => (f.name.val, column f)) = l.map fun f => ((coded f).column, column f.1) :=
    (List.attachWith_map_val (f := fun f => (f.name.val, column f)) h).symm
  have hiff : (l.map coded).mapM Coded.assigned = some (fields.map fun f => (f.name.val, column f)) ↔
      ∀ f ∈ fields, storedValue db table.table.val f.name.val f.type (sent f) = some (column f) := by
    rw [hcolumn, mapM_assigned_iff]
    constructor
    · intro hall f hf
      exact hall ⟨f, h f hf⟩ ((List.mem_attachWith h _).mpr hf)
    · intro hall f hf
      exact hall f.1 ((List.mem_attachWith h f).mp hf)
  have hkey : key.assigned = some (table.recid.val, some (ui64 recid)) := rfl
  rw [← hiff, hwritten]
  cases there with
  | true =>
      have hread : readStatement db.read (updateText table.table.val ((l.map coded).map Coded.written)
          (table.recid.val, ui64 recid)) = ((l.map coded).mapM Coded.assigned).map fun set =>
            .update table.table.val set (table.recid.val, some (ui64 recid)) := by
        refine (read_updateText hspace hcs key).trans ?_
        rw [hkey]
        cases (l.map coded).mapM Coded.assigned <;> rfl
      rw [if_pos rfl, hread, assignment, if_pos rfl]
      cases (l.map coded).mapM Coded.assigned <;> simp
  | false =>
      have hread : readStatement db.read (insertText table.table.val
          ((table.recid.val, ui64 recid) :: (l.map coded).map Coded.written)) =
            ((l.map coded).mapM Coded.assigned).map fun row =>
              .insert table.table.val ((table.recid.val, some (ui64 recid)) :: row) := by
        refine (read_insertText hspace (List.cons_ne_nil key (l.map coded))).trans ?_
        rw [List.mapM_cons, hkey]
        cases (l.map coded).mapM Coded.assigned <;> rfl
      rw [if_neg (by decide), hread, assignment, if_neg (by decide)]
      cases (l.map coded).mapM Coded.assigned <;> simp

/-- **The record round trip**: what a node executes for the record of a row assigns to each of
the fields that are sent, and to no others, the value in the row, exactly when all of them
arrive. -/
theorem record_roundtrip {row : CksumRow} {table : ZbxTable} {values : ConfigValues table}
    (htable : dbGetTable schema.toSchema row.tablename = some table) (hrow : node.row table row.recordid = some values)
    (dest : NodeType) (data : List UInt8) (stale : Mem) {curr : List UInt8}
    (hcurr : dbValue node.backend (row.curr.map (·.val)) = some curr) {fields : List ZbxField}
    (hfields : changedFields dest (syncMarks node stale (row.sync.map (·.val))) table.fields
      (dbValue node.backend (row.prev.map (·.val))) (some curr) 0 = some fields) (hne : fields ≠ [])
    (heap : RecordHeap) :
    ∃ line sql names,
      configRow node dest (data, stale) row =
        some (data ++ line ++ [newline], syncMarks node stale (row.sync.map (·.val))) ∧
      newline ∉ line ∧
      processRecord schema.toSchema db.backend db.there heap line = .ok (.executed sql names) ∧
      (readStatement db.read sql = some (assignment table (db.there table row.recordid) row.recordid
          (fields.map fun f => (f.name.val, values.column f.name))) ↔
        ∀ f ∈ fields, Arrives node db table f (values.column f.name)) := by
  obtain ⟨hmem, heq⟩ := dbGetTable_mem htable
  have hfield : ∀ f ∈ fields, f ∈ table.fields := changedFields_mem hfields
  have hsent : ∀ f ∈ fields, IsSent (sentField node values) f := by
    intro f hf
    have hname := schema.field_name table hmem f (hfield f hf)
    exact ⟨(schema.field_identifier table hmem f (hfield f hf)).1, hname.2, fun htype v hv =>
      isNumberText values (hfield f hf) htype (sentField_number node values htype hv)⟩
  obtain ⟨f, fs, rfl⟩ := List.exists_cons_of_ne_nil hne
  obtain ⟨names, hprocess⟩ := processRecord_eq db htable hsent heap
  refine ⟨recordLine node values row (f :: fs), _, names, ?_, newline_not_mem_recordLine node htable hsent, hprocess,
    ?_⟩
  · rw [configRow, htable]
    dsimp only
    rw [hcurr]
    dsimp only
    rw [hfields, Option.bind_eq_bind, Option.bind_some, if_neg hne, hrow]
    dsimp only
    rw [configUpdate_eq node values hmem heq hfield]
    rfl
  · rw [readStatement_iff db hmem _ row.recordid hne hsent fun f => values.column f.name]
    refine forall₂_congr fun f hf => ?_
    exact storedValue_iff node db hmem (hfield f hf) fun htype v hv =>
      (values.number f (hfield f hf) htype v hv).1

/-! ## the messages of actions -/

/-- The messages of actions, of which one is sent. -/
def actionsTable : ZbxTable where
  table := cname "actions"
  recid := cname "actionid"
  sync := true
  fields :=
    [⟨cname "actionid", .id, true, false, false⟩, ⟨cname "def_longdata", .blob, true, true, false⟩]

def actionsSchema : NodeSchema where
  tables := [actionsTable]
  table_name := by decide
  field_name := by decide
  table_identifier := by decide
  recid_identifier := by decide
  field_identifier := by decide

/-- An action with a message. -/
def actionValues (message : List UInt8) (h : message.length < 2 ^ 30) : ConfigValues actionsTable where
  column := fun name => if name = cname "def_longdata" then some message else none
  length := by
    intro name v hv
    split at hv
    · cases hv
      exact h
    · cases hv
  number := by
    intro f hf htype v hv
    split at hv
    · next heq =>
        have hall : ∀ f ∈ actionsTable.fields, f.name = cname "def_longdata" → f.type.isNumber = false := by
          decide
        rw [hall f hf heq] at htype
        cases htype
    · cases hv

/-- A node with an action. -/
def actionNode (b : Backend) (message : List UInt8) (h : message.length < 2 ^ 30) : ConfigNode actionsSchema where
  nodeid := 2
  backend := b
  length := fun _ _ v => v.length
  length_le := fun _ _ _ => le_rfl
  length_ascii := fun _ _ _ _ => rfl
  row := fun table _ => if heq : table = actionsTable then some (heq ▸ actionValues message h) else none

/-- A node that does not have the action. -/
def actionDb (b : Backend) : NodeDb actionsSchema where
  backend := b
  rule := .itself
  bytea := fun _ _ => false
  bytea_blob := fun _ _ _ _ h => nomatch h
  there := fun _ _ => false

/-- The check sum of an action that has not been sent. -/
def actionRow : CksumRow where
  tablename := cname "actions"
  recordid := 7
  prev := none
  curr := some (cname "0cc1")
  sync := none

/-- Any bytes, from MySQL to MySQL. -/
theorem record_roundtrip_bytes : ∃ line sql names,
    configRow (actionNode .mysql [0, 255, 13, 173] (by decide)) .master ([], fun _ => 0) actionRow =
      some (line ++ [newline], syncMarks (actionNode .mysql [0, 255, 13, 173] (by decide)) (fun _ => 0) none) ∧
    processRecord actionsSchema.toSchema .mysql (fun _ _ => false) ⟨0, [], []⟩ line = .ok (.executed sql names) ∧
    readStatement (actionDb .mysql).read sql = some (.insert (bytes "actions")
      [(bytes "actionid", some (bytes "7")), (bytes "def_longdata", some [0, 255, 13, 173])]) := by
  obtain ⟨line, sql, names, hline, -, hprocess, hiff⟩ :=
    @record_roundtrip _ (actionNode .mysql [0, 255, 13, 173] (by decide)) (actionDb .mysql) actionRow actionsTable
      (actionValues [0, 255, 13, 173] (by decide)) (by decide) rfl .master [] (fun _ => 0) (bytes "0cc1")
      (by decide) [⟨cname "def_longdata", .blob, true, true, false⟩] (by decide) (by decide) ⟨0, [], []⟩
  refine ⟨line, sql, names, hline, hprocess, hiff.mpr ?_⟩
  intro f hf
  obtain rfl := List.mem_singleton.mp hf
  exact ⟨fun h => (nomatch h), fun _ => ⟨rfl, .inr trivial⟩⟩

/-- A line break is lost, from PostgreSQL to PostgreSQL: the column is text, and is given the
digits of the byte behind a backslash. -/
theorem record_line_break : ∃ line sql names,
    (configRow (actionNode .postgresql [97, 10, 98] (by decide)) .master ([], fun _ => 0) actionRow).map Prod.fst =
      some (line ++ [newline]) ∧
    processRecord actionsSchema.toSchema .postgresql (fun _ _ => false) ⟨0, [], []⟩ line =
      .ok (.executed sql names) ∧
    readStatement (actionDb .postgresql).read sql = some (.insert (bytes "actions")
      [(bytes "actionid", some (bytes "7")), (bytes "def_longdata", some (bytes "a\\012b"))]) ∧
    readStatement (actionDb .postgresql).read sql ≠ some (assignment actionsTable false 7
      [(bytes "def_longdata", some [97, 10, 98])]) :=
  ⟨bytes "actions" ++ 0xAD :: bytes "7" ++ 0xAD :: bytes "0" ++ 0xAD :: bytes "def_longdata" ++ 0xAD :: bytes "3" ++
      0xAD :: bytes "610a62",
    bytes "insert into actions (actionid,def_longdata) values (7,'a\\\\012b')", bytes "actionid,def_longdata",
    by decide +kernel, by decide +kernel, by decide +kernel, by decide +kernel⟩

end Zabbix.Nodesync
