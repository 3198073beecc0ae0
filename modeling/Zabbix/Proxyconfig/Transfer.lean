import Zabbix.Proxyconfig.Apply
import Zabbix.Lib.Upsert

/-!
# Zabbix.Proxyconfig.Transfer

The transfer of a configuration: what a proxy has after it has received what a
server has sent.

Every field of every row comes to `receivedValue` of what the server has
(`processProxyconfigTable_sent`), unless a NULL is among them, which a proxy
does not take.
-/

namespace Zabbix

open Ascii Printf Nesting

/-! ## a row -/

/-- A row as far as it is transferred. -/
def DbRow.view (table : ZbxTable) (row : DbRow) : ℕ × List (Option CString) :=
  (row.recid, table.proxied.map fun f => row.column f.name)

/-- A row as it arrives. -/
def DbRow.receivedView (table : ZbxTable) (row : DbRow) : ℕ × List (Option CString) :=
  (row.recid, table.proxied.map fun f => (row.column f.name).map (receivedValue f.type))

/-- The statement that a row comes to. -/
def rowStatement (b : Backend) (table : ZbxTable) (old : List ℕ) (row : DbRow) : Option ProxyStatement :=
  (sentValues b table.proxied row).map fun values =>
    { insert := !uint64ArrayExists old row.recid, recid := row.recid, values := values }

/-- No field of a row is NULL. -/
def DbRow.Full (table : ZbxTable) (row : DbRow) : Prop := ∀ f ∈ table.proxied, (row.column f.name).isSome = true

theorem readValue_isSome (string : Option CString) (type : ZbxJsonType) :
    (readValue (string, type)).isSome = string.isSome := by
  cases string with
  | none => rfl
  | some s => cases type <;> rfl

theorem sentValues_isSome (b : Backend) (fields : List ZbxField) (row : DbRow) :
    (sentValues b fields row).isSome = true ↔ ∀ f ∈ fields, (row.column f.name).isSome = true := by
  induction fields with
  | nil => simp [sentValues]
  | cons f fields ih =>
      have hcons : sentValues b (f :: fields) row =
          ((readValue (row.column f.name, proxyconfigType f.type)).map (statementValue b f)).bind fun value =>
            (sentValues b fields row).bind fun values => some (value :: values) := List.mapM_cons
      rw [hcons, List.forall_mem_cons, ← ih, ← readValue_isSome _ (proxyconfigType f.type)]
      cases readValue (row.column f.name, proxyconfigType f.type) with
      | none => simp
      | some buf => cases sentValues b fields row <;> simp

/-- **The values of a statement** are what is to arrive. -/
theorem assignments_sentValues (db : ProxyDb) {row : DbRow} {fields : List ZbxField}
    (hnumber : ∀ f ∈ fields, f.type.isNumber = true → ∀ v, row.column f.name = some v → IsNumber f.type v.val)
    (hnodup : (fields.map (·.name)).Nodup) {values : List (CString × SqlValue)}
    (h : sentValues db.backend fields row = some values) :
    ∃ assigned, db.assignments values = some assigned ∧ ∀ f ∈ fields, ∃ v, row.column f.name = some v ∧
      (assigned.find? (·.1 = f.name)).map (·.2) = some (receivedValue f.type v) := by
  induction fields generalizing values with
  | nil =>
      obtain rfl := Option.some.inj h
      exact ⟨[], rfl, by simp⟩
  | cons f fields ih =>
      rw [List.forall_mem_cons] at hnumber
      rw [List.map_cons, List.nodup_cons] at hnodup
      rw [sentValues, List.mapM_cons] at h
      obtain ⟨value, hvalue, h⟩ := Option.bind_eq_some_iff.mp h
      obtain ⟨rest, hrest, h⟩ := Option.bind_eq_some_iff.mp h
      obtain rfl := Option.some.inj h
      obtain ⟨buf, hbuf, rfl⟩ := Option.map_eq_some_iff.mp hvalue
      obtain ⟨v, hv⟩ : ∃ v, row.column f.name = some v := by
        rw [← Option.isSome_iff_exists, ← readValue_isSome _ (proxyconfigType f.type), hbuf, Option.isSome_some]
      obtain ⟨assigned, hassigned, hfind⟩ := ih hnumber.2 hnodup.2 hrest
      rw [hv] at hbuf
      have hread := read_statementValue db (fun htype => hnumber.1 htype v hv) hbuf
      refine ⟨(f.name, receivedValue f.type v) :: assigned, ?_, ?_⟩
      · rw [ProxyDb.assignments] at hassigned
        rw [ProxyDb.assignments, List.mapM_cons, hread, hassigned]
        rfl
      · rw [List.forall_mem_cons]
        refine ⟨⟨v, hv, by simp⟩, fun g hg => ?_⟩
        have hne : f.name ≠ g.name := by
          rintro heq
          exact hnodup.1 (List.mem_map.mpr ⟨g, hg, heq.symm⟩)
        rw [List.find?_cons_of_neg (by simpa using hne)]
        exact hfind g hg

variable {db : ProxyDb} {table : ZbxTable}

/-- What the statement for a row sets. -/
theorem view_of_setBy {row : DbRow} (htyped : row.Typed table) (hnodup : (table.proxied.map (·.name)).Nodup)
    {old : List ℕ} {s : ProxyStatement} (hs : rowStatement db.backend table old row = some s) :
    (db.assignments s.values).isSome = true ∧ ∀ row', SetBy db s row' → row'.view table = row.receivedView table := by
  obtain ⟨values, hvalues, rfl⟩ := Option.map_eq_some_iff.mp hs
  obtain ⟨assigned, hassigned, hfind⟩ := assignments_sentValues db htyped.2 hnodup hvalues
  refine ⟨Option.isSome_iff_exists.mpr ⟨assigned, hassigned⟩, ?_⟩
  rintro row' ⟨hrecid, base, values', hvalues', rfl⟩
  obtain rfl := Option.some.inj (hassigned.symm.trans hvalues')
  rw [DbRow.view, DbRow.receivedView, hrecid]
  refine congrArg (Prod.mk row.recid) (List.map_congr_left fun f hf => ?_)
  obtain ⟨v, hv, hfound⟩ := hfind f hf
  rw [hv, DbRow.assign]
  dsimp only
  rw [hfound]
  rfl

/-! ## the rows of a table -/

/-- The loop over the rows, by their statements. -/
theorem jsonEachMember_rows {rows : List DbRow} (htyped : ∀ row ∈ rows, row.Typed table) (first : ZbxField)
    (old : List ℕ) (tail : Ptr) (s : TableSync) :
    jsonEachMember (nodeRange false (arrayMembers (rows.map (rowValues table))) tail)
        (proxyconfigRow db table (first :: table.proxied) old) s =
      rows.foldlM (fun s row => (rowStatement db.backend table old row).bind (TableSync.push db table s)) s := by
  have hvalid : (arrayMembers (rows.map (rowValues table))).Valid false :=
    valid_arrayMembers (List.forall_mem_map.mpr fun row hrow => legalValue_rowValues (htyped row hrow))
  rw [jsonEachMember_enumerates (enumerates_next hvalid tail)]
  clear hvalid
  generalize closeBracket false :: tail = stop
  induction rows generalizing s with
  | nil => rfl
  | cons row rows ih =>
      rw [List.forall_mem_cons] at htyped
      have hstep := proxyconfigRow_eq db table (first :: table.proxied) old s
        (Members.nodeText false (valueMembers (rowValues table row)) ++
          (followText (arrayMembers (rows.map (rowValues table))).items ++ stop))
      rw [proxyconfigStatement_row htyped.1] at hstep
      rw [List.foldlM_cons]
      refine (congrArg (fun x => Option.bind x _) hstep).trans ?_
      exact congrArg (Option.bind _) (funext fun s => ih htyped.2 s)

/-- A loop in which something has no result. -/
theorem foldlM_bind_none {α β σ : Type} {f : α → Option β} (g : σ → β → Option σ) {l : List α} (h : ∃ a ∈ l, f a = none)
    (s : σ) : l.foldlM (fun s a => (f a).bind (g s)) s = none := by
  induction l generalizing s with
  | nil =>
      obtain ⟨a, ha, -⟩ := h
      cases ha
  | cons a l ih =>
      obtain ⟨b, hb, hnone⟩ := h
      rw [List.foldlM_cons]
      rcases List.mem_cons.mp hb with rfl | hb
      · rw [hnone]
        rfl
      · cases (f a).bind (g s) with
        | none => rfl
        | some s => exact ih ⟨b, hb, hnone⟩ s

/-- A loop in which everything has a result. -/
theorem foldlM_bind_forall₂ {α β σ : Type} {f : α → Option β} (g : σ → β → Option σ) {l : List α} {bs : List β}
    (h : List.Forall₂ (fun a b => f a = some b) l bs) (s : σ) :
    l.foldlM (fun s a => (f a).bind (g s)) s = bs.foldlM g s := by
  induction h generalizing s with
  | nil => rfl
  | cons hab _ ih =>
      rw [List.foldlM_cons, List.foldlM_cons, hab, Option.bind_some]
      refine congrArg (Option.bind _) (funext fun s => ?_)
      exact ih s

/-- The statements for full rows. -/
theorem forall₂_rowStatement (b : Backend) (old : List ℕ) {rows : List DbRow} (h : ∀ row ∈ rows, row.Full table) :
    ∃ sql, List.Forall₂ (fun row s => rowStatement b table old row = some s) rows sql := by
  induction rows with
  | nil => exact ⟨[], .nil⟩
  | cons row rows ih =>
      rw [List.forall_mem_cons] at h
      obtain ⟨sql, hsql⟩ := ih h.2
      obtain ⟨values, hvalues⟩ := Option.isSome_iff_exists.mp ((sentValues_isSome b table.proxied row).mpr h.1)
      refine ⟨⟨!uint64ArrayExists old row.recid, row.recid, values⟩ :: sql, .cons ?_ hsql⟩
      rw [rowStatement, hvalues]
      rfl

theorem mem_of_forall₂ {α β : Type} {R : α → β → Prop} {l : List α} {l' : List β} (h : List.Forall₂ R l l') :
    (∀ a ∈ l, ∃ b ∈ l', R a b) ∧ ∀ b ∈ l', ∃ a ∈ l, R a b := by
  induction h with
  | nil => simp
  | cons hab _ ih =>
      rw [List.forall_mem_cons, List.forall_mem_cons]
      refine ⟨⟨⟨_, List.mem_cons_self .., hab⟩, fun a ha => ?_⟩, ⟨_, List.mem_cons_self .., hab⟩, fun b hb => ?_⟩
      · obtain ⟨b, hb, hR⟩ := ih.1 a ha
        exact ⟨b, List.mem_cons_of_mem _ hb, hR⟩
      · obtain ⟨a, ha, hR⟩ := ih.2 b hb
        exact ⟨a, List.mem_cons_of_mem _ ha, hR⟩

theorem recid_of_rowStatement {b : Backend} {old : List ℕ} {row : DbRow} {s : ProxyStatement}
    (h : rowStatement b table old row = some s) :
    s.recid = row.recid ∧ s.insert = !uint64ArrayExists old row.recid := by
  obtain ⟨values, -, rfl⟩ := Option.map_eq_some_iff.mp h
  exact ⟨rfl, rfl⟩

/-- **The rows arrive**, over rows of any kind. -/
theorem sync_rows {rows : List DbRow} (htyped : ∀ row ∈ rows, row.Typed table)
    (hrecids : (rows.map (·.recid)).Nodup) (hnames : (table.proxied.map (·.name)).Nodup)
    {before : List DbRow} {old : List ℕ} (hold : Nearest.Sorted id old)
    (hbefore : ∀ x, x ∈ old ↔ ∃ row ∈ before, row.recid = x) (hfull : ∀ row ∈ rows, row.Full table)
    (first : ZbxField) (tail : Ptr) :
    ∃ after, (jsonEachMember (nodeRange false (arrayMembers (rows.map (rowValues table))) tail)
        (proxyconfigRow db table (first :: table.proxied) old) ⟨[], [], before⟩).bind
          (proxyconfigFinish db table old) = some after ∧
      ∀ v, v ∈ after.map (DbRow.view table) ↔ v ∈ rows.map (DbRow.receivedView table) := by
  obtain ⟨sql, hsql⟩ := forall₂_rowStatement db.backend old hfull
  obtain ⟨hof, hfrom⟩ := mem_of_forall₂ hsql
  have hread : db.Readable sql := by
    intro s hs
    obtain ⟨row, hrow, hstatement⟩ := hfrom s hs
    exact (view_of_setBy (htyped row hrow) hnames hstatement).1
  have hids : sql.map (·.recid) = rows.map (·.recid) := by
    clear hof hfrom hread hrecids htyped hfull
    induction hsql with
    | nil => rfl
    | cons hab _ ih => rw [List.map_cons, List.map_cons, ih, (recid_of_rowStatement hab).1]
  have hfresh : Fresh before sql := by
    refine ⟨hids ▸ hrecids, fun s hs hinsert row hrow heq => ?_, fun s hs hupdate => ?_⟩
    · obtain ⟨row', -, hstatement⟩ := hfrom s hs
      obtain ⟨hrecid, hflag⟩ := recid_of_rowStatement hstatement
      rw [hinsert, Eq.comm, Bool.not_eq_true', ← hrecid, ← heq] at hflag
      exact absurd ((uint64ArrayExists_iff hold).mpr ((hbefore _).mpr ⟨row, hrow, rfl⟩)) (by simp [hflag])
    · obtain ⟨row', -, hstatement⟩ := hfrom s hs
      obtain ⟨hrecid, hflag⟩ := recid_of_rowStatement hstatement
      rw [hupdate, Eq.comm, Bool.not_eq_false', ← hrecid] at hflag
      exact (hbefore _).mp ((uint64ArrayExists_iff hold).mp hflag)
  obtain ⟨after, hafter, hset, hthere⟩ := sync_table table hread hfresh hold
    fun row hrow => (hbefore _).mpr ⟨row, hrow, rfl⟩
  refine ⟨after, ?_, fun v => ?_⟩
  · rw [jsonEachMember_rows htyped, foldlM_bind_forall₂ _ hsql]
    exact hafter
  · rw [List.mem_map, List.mem_map]
    constructor
    · rintro ⟨row', hrow', rfl⟩
      obtain ⟨s, hs, hsetBy⟩ := hset row' hrow'
      obtain ⟨row, hrow, hstatement⟩ := hfrom s hs
      exact ⟨row, hrow, ((view_of_setBy (htyped row hrow) hnames hstatement).2 row' hsetBy).symm⟩
    · rintro ⟨row, hrow, rfl⟩
      obtain ⟨s, hs, hstatement⟩ := hof row hrow
      obtain ⟨row', hrow', heq⟩ := hthere s hs
      obtain ⟨t, ht, hsetBy⟩ := hset row' hrow'
      obtain rfl : t = s :=
        List.inj_on_of_nodup_map hfresh.nodup ht hs (hsetBy.recid.symm.trans heq)
      exact ⟨row', hrow', (view_of_setBy (htyped row hrow) hnames hstatement).2 row' hsetBy⟩

/-- A row with a NULL. -/
theorem sync_rows_none {rows : List DbRow} (htyped : ∀ row ∈ rows, row.Typed table)
    (hnull : ¬∀ row ∈ rows, row.Full table) (first : ZbxField) (old : List ℕ) (tail : Ptr) (s : TableSync) :
    jsonEachMember (nodeRange false (arrayMembers (rows.map (rowValues table))) tail)
        (proxyconfigRow db table (first :: table.proxied) old) s = none := by
  rw [jsonEachMember_rows htyped]
  refine foldlM_bind_none _ ?_ s
  push Not at hnull
  obtain ⟨row, hrow, hnull⟩ := hnull
  refine ⟨row, hrow, ?_⟩
  rw [rowStatement, Option.map_eq_none_iff, ← Option.not_isSome_iff_eq_none, sentValues_isSome]
  exact hnull

/-! ## a table -/

/-- A name that is read back, and is that of a field. -/
structure FieldName (table : ZbxTable) (f : ZbxField) : Prop where
  find : table.fields.find? (fun g => g.name.val = f.name.val) = some f
  clean : ∀ c ∈ f.name.val, jsonClean c = true
  length : f.name.val.length < maxStringLen

/-- A name in the loop over `"fields"`. -/
def nextName (jp : ZbxJsonParse) (p : Option Ptr) : Scan (Ptr × Scan (List UInt8 × Ptr)) :=
  (zbxJsonNext jp p).map fun p => (p, zbxJsonDecodevalue p maxStringLen)

/-- Where the loop goes on. -/
def behindName (r : Ptr × Scan (List UInt8 × Ptr)) : Ptr :=
  match r.2 with
  | .found d => d.2
  | .null | .overrun => r.1

/-- What is found for a name. -/
def addField (table : ZbxTable) (fields : List ZbxField) (r : Ptr × Scan (List UInt8 × Ptr)) : Option (List ZbxField) :=
  match r.2 with
  | .found d => (table.fields.find? fun f => f.name.val = cstr d.1).map fun f => fields ++ [f]
  | .null | .overrun => none

/-- The names that are enumerated are those of the fields. -/
theorem enumerates_names {ms : Members} (h : ms.Valid false) (tail : Ptr) {fs : List ZbxField}
    (hfs : ∀ f ∈ fs, FieldName table f) (hne : fs ≠ [] → ms.items ≠ []) {p : Option Ptr}
    (hp : zbxJsonNext (nodeRange false ms tail) p =
      firstMember (entries (closeBracket false :: tail) (valueMembers (fs.map fun f => (some f.name, .string))).items)) :
    ∃ bs, Enumerates (nextName (nodeRange false ms tail)) behindName p bs ∧
      ∀ fields, bs.foldlM (addField table) fields = some (fields ++ fs) := by
  induction fs generalizing p with
  | nil =>
      refine ⟨[], ?_, by simp⟩
      change nextName _ p = .null
      rw [nextName, hp]
      rfl
  | cons f fs ih =>
      rw [List.forall_mem_cons] at hfs
      obtain ⟨hfind, hclean, hlen⟩ := hfs.1
      have hmember := @zbxJsonNext_some false false ms h tail [] rfl
        (valueMembers (fs.map fun f => (some f.name, .string))).items (hne (by simp))
      obtain ⟨bs, henum, hfold⟩ := ih hfs.2 (fun _ => hne (by simp)) hmember
      have hmember : zbxJsonNext (nodeRange false ms tail) p = .found (jsonInsstring (some f.name) .string ++
        (followText (valueMembers (fs.map fun f => (some f.name, .string))).items ++ closeBracket false :: tail)) := hp
      rw [List.nil_append] at henum
      generalize followText (valueMembers (fs.map fun f => (some f.name, .string))).items ++
        closeBracket false :: tail = rest at henum hmember
      have hread := decodestringLoop_flatMap hclean (le_roomOf hlen) rest
      rw [← zbxJsonDecodevalue_string] at hread
      refine ⟨(jsonInsstring (some f.name) .string ++ rest, .found (f.name.val, rest)) :: bs, ⟨?_, henum⟩,
        fun fields => ?_⟩
      · rw [nextName, hmember, ← hread]
        rfl
      · rw [List.foldlM_cons, addField]
        dsimp only
        rw [cstr_of_not_mem f.name.property, hfind]
        exact (hfold (fields ++ [f])).trans (by simp)

/-- **The loop over `"fields"`** finds the fields. -/
theorem proxyconfigFields_names {fs : List ZbxField} (hfs : ∀ f ∈ fs, FieldName table f) (tail : Ptr) :
    proxyconfigFields table (nodeRange false (valueMembers (fs.map fun f => (some f.name, .string))) tail) = some fs := by
  have hvalid : (valueMembers (fs.map fun f => (some f.name, ZbxJsonType.string))).Valid false :=
    valid_valueMembers (List.forall_mem_map.mpr fun _ _ => .inl rfl)
  have hitems : fs ≠ [] → (valueMembers (fs.map fun f => (some f.name, ZbxJsonType.string))).items ≠ [] := by
    rw [items_valueMembers]
    simp
  obtain ⟨bs, henum, hfold⟩ := enumerates_names hvalid tail hfs hitems (zbxJsonNext_none hvalid tail)
  exact (jsonEach_enumerates _ _ _ henum).trans (hfold [])

theorem jsonClean_of_isPlain {name : CString} (h : IsPlain name) : ∀ c ∈ name.val, jsonClean c = true := by
  intro c hc
  rw [jsonClean, decide_eq_true_eq]
  exact .inr (h c hc)

theorem fieldName_of_mem (schema : Schema) (htable : table ∈ schema.tables) (htransfer : table.Transferable)
    {f : ZbxField} (hf : f ∈ table.fields) : FieldName table f where
  find := by
    have hnames : (table.fields.map fun f => f.name.val).Nodup := by
      have hmap := List.Nodup.map (f := fun name : CString => name.val) (fun _ _ => Subtype.ext)
        htransfer.names_nodup
      rwa [List.map_map] at hmap
    exact Upsert.find?_of_nodup hnames hf
  clean := jsonClean_of_isPlain (htransfer.plain.2 f hf)
  length := lt_of_le_of_lt (schema.field_name table htable f hf).2 (by decide)

/-- The names of the members of a table. -/
theorem readableNames_tableMembers (table : ZbxTable) (rows : List DbRow) :
    ReadableNames maxStringLen (tableMembers table rows).items := by
  have hname : ∀ s : CString, (∀ c ∈ s.val, jsonClean c = true) → s.val.length < maxStringLen →
      CleanName (some s) ∧ (nameBytes (some s)).length < maxStringLen := fun _ hclean hlen => ⟨hclean, hlen⟩
  simp only [tableMembers, Members.items, ReadableNames, List.forall_mem_cons]
  refine ⟨hname _ (by decide) (by decide), hname _ (by decide) (by decide), ?_⟩
  intro _ h
  cases h

theorem bracketsByName_found {jp : ZbxJsonParse} {name : List UInt8} {object object' : Bool} {ms : Members} {t : Ptr}
    (h : zbxJsonPairByName jp name = .found (Members.nodeText object ms ++ t)) (hms : ms.Valid object') :
    zbxJsonBracketsByName jp name = .found (nodeRange object ms t) := by
  rw [zbxJsonBracketsByName, h, Scan.found_bind, zbxJsonBracketsOpen_nodeText hms]

/-- Preprocessing changes no identifiers. -/
theorem recid_preprocessItems (rows : List DbRow) : (preprocessItems rows).map (·.recid) = rows.map (·.recid) := by
  simp [preprocessItems, Function.comp_def]

/-- **A table is received** in the loop over its rows. -/
theorem processProxyconfigTable_eq (schema : ProxySchema) (htable : table ∈ schema.tables)
    (htransfer : table.Transferable) {tables : CString → List DbRow}
    (hlt : ∀ row ∈ tables table.table, row.recid < 2 ^ 63) {rows : List DbRow}
    (htyped : ∀ row ∈ rows, row.Typed table) (tail : Ptr) :
    ∃ first before old tail', Nearest.Sorted id old ∧ (∀ x, x ∈ old ↔ ∃ row ∈ before, row.recid = x) ∧
      processProxyconfigTable db schema.toSchema tables table.table (nodeRange true (tableMembers table rows) tail) =
        ((jsonEachMember (nodeRange false (arrayMembers (rows.map (rowValues table))) tail')
          (proxyconfigRow db table (first :: table.proxied) old) ⟨[], [], before⟩).bind
            (proxyconfigFinish db table old)).map fun rows => Function.update tables table.table rows := by
  obtain ⟨first, hfirst, hrecid⟩ := htransfer.recid
  have hget : dbGetTable schema.toSchema table.table = some table := Upsert.find?_of_nodup schema.tables_nodup htable
  have hvalid : (tableMembers table rows).Valid true := valid_tableMembers htyped
  have hlookup := zbxJsonPairByName_lookup hvalid tail (readableNames_tableMembers table rows)
  have hfieldnames : ((fieldNames table).map fun name => (some name, ZbxJsonType.string)) =
      (first :: table.proxied).map fun f => (some f.name, ZbxJsonType.string) := by
    simp [fieldNames, hrecid, Function.comp_def]
  have hfields := fun tail => @proxyconfigFields_names table (first :: table.proxied) (by
    rw [List.forall_mem_cons]
    exact ⟨fieldName_of_mem schema.toSchema htable htransfer hfirst, fun f hf =>
      fieldName_of_mem schema.toSchema htable htransfer (List.mem_of_mem_filter hf)⟩) tail
  have hne : some (cname "fields") ≠ some (cname "data") := by decide
  have hjpFields := bracketsByName_found ((hlookup (cname "fields")).trans (lookupEntry_cons_self rfl _))
    (valid_valueMembers (List.forall_mem_map.mpr fun _ _ => .inl rfl))
  have hjpData := bracketsByName_found (((hlookup (cname "data")).trans (lookupEntry_cons_of_ne hne _)).trans
    (lookupEntry_cons_self rfl _))
      (valid_arrayMembers (List.forall_mem_map.mpr fun row hrow => legalValue_rowValues (htyped row hrow)))
  rw [hfieldnames] at hjpFields
  have hrecids : (if table.table = cname "items" then preprocessItems (tables table.table)
      else tables table.table).map (·.recid) = (tables table.table).map (·.recid) := by
    split
    · exact recid_preprocessItems _
    · rfl
  have hold : (tables table.table).map (fun row => zbxAtoui64 (dec row.recid)) =
      (tables table.table).map (·.recid) :=
    List.map_congr_left fun row hrow => zbxAtoui64_dec (hlt row hrow)
  refine ⟨first, if table.table = cname "items" then preprocessItems (tables table.table) else tables table.table,
    ((tables table.table).map fun row => zbxAtoui64 (dec row.recid)).foldl uint64ArrayAdd [],
    followText Members.nil.items ++ closeBracket true :: tail, (foldl_uint64ArrayAdd .nil _).1, fun x => ?_, ?_⟩
  · rw [(foldl_uint64ArrayAdd .nil _).2 x, hold, ← hrecids, List.mem_map]
    simp
  · rw [processProxyconfigTable, hget]
    dsimp only
    rw [show bytes "fields" = (cname "fields").val from rfl, hjpFields]
    dsimp only
    rw [hfields]
    dsimp only
    rw [show bytes "data" = (cname "data").val from rfl, hjpData]

end Zabbix
