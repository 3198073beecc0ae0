import Zabbix.Nodes.Reception

/-!
# Zabbix.Nodes.Trends

What the reception of a history adds to the trends.

Each record has an item, a clock and a value of its own, in the fields of these
names (`ownSample`).  `process_items` hands over the `double` of its locals for an
unsigned value too, which nothing has been assigned to: the trends are right as far
as the number in it happens to be the value of the record (`node_trends_own`).
-/

namespace Zabbix

open Ascii Outcome Printf

/-! ## what a record says -/

/-- The fields of a table, with what a record has for them. -/
def HistoryTable.recordFields (table : HistoryTable) (record : List UInt8) : List (HistoryField × List UInt8) :=
  table.received.zip (record.splitOn zbxDmDelimiter)

/-- A field by its name. -/
def fieldNamed (name : List UInt8) (fields : List (HistoryField × List UInt8)) :
    Option (HistoryField × List UInt8) :=
  fields.find? fun p => p.1.name.val = name

/-- The value that a text of a type is. -/
def sampleOf (server : NodeServer) (itemid : UInt64) (clock : Int32) (type : ZbxFieldType) (value : List UInt8) :
    Option TrendSample :=
  match type with
  | .float => some { itemid := itemid, clock := clock, valueType := .float, value := server.atof value }
  | .uint =>
      (zbxStr2uint64 value).map fun value =>
        { itemid := itemid, clock := clock, valueType := .uint64, value := value }
  | _ => none

/-- The value of a record, of its own item and at its own clock. -/
def ownSample (server : NodeServer) (table : HistoryTable) (record : List UInt8) : Option TrendSample :=
  (fieldNamed (bytes "itemid") (table.recordFields record)).bind fun itemid =>
    (fieldNamed (bytes "clock") (table.recordFields record)).bind fun clock =>
      (fieldNamed (bytes "value") (table.recordFields record)).bind fun value =>
        sampleOf server ((zbxStr2uint64 itemid.2).getD 0) (atoi clock.2) value.1.type value.2

/-- The local that is handed over for an unsigned value holds the value of the record. -/
def StaleAgrees (stale : StaleLocals) (table : HistoryTable) (record : List UInt8) : Prop :=
  ∀ field value, fieldNamed (bytes "value") (table.recordFields record) = some (field, value) →
    field.type = .uint → zbxStr2uint64 value = some (uint64OfDouble stale.valueDouble)

/-- A table that trends can be built from: no two fields have the same name, and there
are an item and a clock. -/
structure HistoryTable.Trended (table : HistoryTable) : Prop where
  nodup : (table.received.map (·.name.val)).Nodup
  itemid : ∃ f ∈ table.received, f.name.val = bytes "itemid"
  clock : ∀ f ∈ table.received, f.name.val = bytes "clock" → f.type.isNumber = true
  clock_mem : ∃ f ∈ table.received, f.name.val = bytes "clock"

variable (server : NodeServer)

/-! ## the loop of process_items -/

/-- The loop goes through the fields that there are texts for; there is one for each. -/
theorem itemFields_locals {fields : List HistoryField} {r : Option (List UInt8)} {buffer buffer' : List UInt8}
    {l l' : ItemLocals} {sql sql' : List UInt8}
    (h : itemFields server fields r buffer l sql = .ok (some (l', sql'), buffer')) :
    fields.length ≤ (fieldsOf zbxDmDelimiter r).length ∧
      l' = (fields.zip (fieldsOf zbxDmDelimiter r)).foldl (fun l p => itemLocals server l p.1 p.2) l := by
  induction fields generalizing r buffer l sql with
  | nil =>
      cases h
      exact ⟨Nat.zero_le _, rfl⟩
  | cons f fields ih =>
      rw [itemFields] at h
      cases r with
      | none => cases h
      | some line =>
          rw [if_neg (by simp), zbxGetNextField_some, ok_bind] at h
          obtain ⟨hlen, hl⟩ := ih h
          rw [fieldsOf_some, List.zip_cons_cons, List.foldl_cons]
          exact ⟨Nat.succ_le_succ hlen, hl⟩

/-- With distinct names, what a part of the locals is at the end is what the field of one
name makes of it. -/
theorem foldl_itemLocals {β : Type} (part : ItemLocals → β) (name : List UInt8)
    (new : HistoryField × List UInt8 → β → β)
    (hpart : ∀ l f field, part (itemLocals server l f field) =
      if f.name.val = name then new (f, field) (part l) else part l)
    {pairs : List (HistoryField × List UInt8)} (hnodup : (pairs.map (·.1.name.val)).Nodup) (l : ItemLocals) :
    part (pairs.foldl (fun l p => itemLocals server l p.1 p.2) l) =
      (fieldNamed name pairs).elim (part l) fun p => new p (part l) := by
  induction pairs generalizing l with
  | nil => rfl
  | cons p pairs ih =>
      rw [List.map_cons, List.nodup_cons] at hnodup
      rw [List.foldl_cons, ih hnodup.2, hpart, fieldNamed, fieldNamed, List.find?_cons]
      by_cases hp : p.1.name.val = name
      · have hnone : (pairs.find? fun p => decide (p.1.name.val = name)) = none := by
          rw [List.find?_eq_none]
          rintro q hq hname
          rw [decide_eq_true_eq] at hname
          exact hnodup.1 (List.mem_map.mpr ⟨q, hq, hname.trans hp.symm⟩)
        rw [hnone, decide_eq_true hp, if_pos hp]
        rfl
      · rw [decide_eq_false hp, if_neg hp]

theorem clock_itemLocals (l : ItemLocals) (f : HistoryField) (field : List UInt8) :
    (itemLocals server l f field).clock =
      if f.name.val = bytes "clock" then (if f.type.isNumber then atoi field else l.clock) else l.clock := by
  rw [itemLocals]
  dsimp only
  by_cases hname : f.name.val = bytes "clock"
  · rw [if_pos hname]
    simp only [hname, and_true]
  · rw [if_neg hname, if_neg fun h => hname h.2]

/-- The type of the value and the local for a `double`. -/
def ItemLocals.value (l : ItemLocals) : Option ZbxFieldType × ℚ := (l.valueType, l.valueDouble)

theorem value_itemLocals (l : ItemLocals) (f : HistoryField) (field : List UInt8) :
    (itemLocals server l f field).value =
      if f.name.val = bytes "value" then
        (if f.type.isNumber then (some f.type, if f.type = .float then server.atof field else l.value.2) else l.value)
      else l.value := by
  rw [itemLocals, ItemLocals.value, ItemLocals.value]
  dsimp only
  by_cases hname : f.name.val = bytes "value"
  · rw [if_pos hname]
    cases f.type <;> simp [hname, ZbxFieldType.isNumber]
  · rw [if_neg hname, if_neg fun h => hname h.2, if_neg fun h => hname h.1]

theorem recordFields_names {table : HistoryTable} {record : List UInt8}
    (h : table.received.length ≤ (record.splitOn zbxDmDelimiter).length) :
    (table.recordFields record).map (·.1.name.val) = table.received.map (·.name.val) := by
  rw [← List.map_fst_zip h, List.map_map]
  rfl

/-- A record with enough fields has a text for every field of the table. -/
theorem fieldNamed_recordFields {table : HistoryTable} {record : List UInt8}
    (h : table.received.length ≤ (record.splitOn zbxDmDelimiter).length) {name : List UInt8}
    (hname : ∃ f ∈ table.received, f.name.val = name) :
    ∃ p, fieldNamed name (table.recordFields record) = some p ∧ p.1 ∈ table.received ∧ p.1.name.val = name := by
  obtain ⟨f, hf, hfname⟩ := hname
  have hmem : name ∈ (table.recordFields record).map (·.1.name.val) := by
    rw [recordFields_names h]
    exact List.mem_map.mpr ⟨f, hf, hfname⟩
  obtain ⟨p, hp, hpname⟩ := List.mem_map.mp hmem
  cases hfind : fieldNamed name (table.recordFields record) with
  | none =>
      rw [fieldNamed, List.find?_eq_none] at hfind
      exact absurd (decide_eq_true hpname) (hfind p hp)
  | some q =>
      have hq := List.mem_of_find?_eq_some hfind
      refine ⟨q, rfl, (List.of_mem_zip hq).1, ?_⟩
      simpa using List.find?_some hfind

/-- **What a record adds**: its own value, when what is handed over for an unsigned one
agrees with it. -/
theorem trend_eq_ownSample {table : HistoryTable} (ht : table.Trended) {record : List UInt8}
    (h : table.received.length ≤ (record.splitOn zbxDmDelimiter).length) {stale : StaleLocals}
    (hstale : StaleAgrees stale table record) :
    ((table.recordFields record).foldl (fun l p => itemLocals server l p.1 p.2)
      { itemid := 0, clock := stale.clock, valueType := none, valueDouble := stale.valueDouble,
        valueUint64 := none }).trend = ownSample server table record := by
  have hnodup : ((table.recordFields record).map (·.1.name.val)).Nodup := by
    rw [recordFields_names h]
    exact ht.nodup
  generalize hl₀ : (⟨0, stale.clock, none, stale.valueDouble, none⟩ : ItemLocals) = l₀
  obtain ⟨i, hi, -, -⟩ := fieldNamed_recordFields h ht.itemid
  obtain ⟨c, hc, hcmem, hcname⟩ := fieldNamed_recordFields h ht.clock_mem
  have hitemid := foldl_itemLocals server ItemLocals.itemid (bytes "itemid")
    (fun p itemid => (zbxStr2uint64 p.2).getD itemid) (fun _ _ _ => rfl) hnodup l₀
  have hclock := foldl_itemLocals server ItemLocals.clock (bytes "clock")
    (fun p clock => if p.1.type.isNumber then atoi p.2 else clock) (clock_itemLocals server) hnodup l₀
  have hvalue := foldl_itemLocals server ItemLocals.value (bytes "value")
    (fun p value => if p.1.type.isNumber then
      (some p.1.type, if p.1.type = .float then server.atof p.2 else value.2) else value)
    (value_itemLocals server) hnodup l₀
  generalize (table.recordFields record).foldl _ l₀ = l at hitemid hclock hvalue ⊢
  subst hl₀
  rw [hi, Option.elim_some] at hitemid
  rw [hc, Option.elim_some, if_pos (ht.clock c.1 hcmem hcname)] at hclock
  rw [ItemLocals.trend, ownSample, hi, hc, Option.bind_some, Option.bind_some]
  cases hv : fieldNamed (bytes "value") (table.recordFields record) with
  | none =>
      rw [hv, Option.elim_none] at hvalue
      obtain ⟨htype, -⟩ : l.valueType = none ∧ l.valueDouble = stale.valueDouble := Prod.mk.inj hvalue
      rw [htype]
      rfl
  | some p =>
      obtain ⟨f, text⟩ := p
      rw [hv, Option.elim_some] at hvalue
      have hagrees := hstale f text hv
      rw [Option.bind_some]
      dsimp only at hvalue ⊢
      cases htype : f.type with
      | float =>
          rw [htype] at hvalue
          obtain ⟨hvt, hvd⟩ : l.valueType = some .float ∧ l.valueDouble = server.atof text := Prod.mk.inj hvalue
          rw [hvt, hvd, hitemid, hclock]
          rfl
      | uint =>
          rw [htype] at hvalue
          obtain ⟨hvt, hvd⟩ : l.valueType = some .uint ∧ l.valueDouble = stale.valueDouble := Prod.mk.inj hvalue
          rw [hvt, hvd, hitemid, hclock, sampleOf, hagrees htype]
          rfl
      | int =>
          rw [htype] at hvalue
          obtain ⟨hvt, -⟩ : l.valueType = some .int ∧ l.valueDouble = stale.valueDouble := Prod.mk.inj hvalue
          rw [hvt]
          rfl
      | id =>
          rw [htype] at hvalue
          obtain ⟨hvt, -⟩ : l.valueType = some .id ∧ l.valueDouble = stale.valueDouble := Prod.mk.inj hvalue
          rw [hvt]
          rfl
      | char | blob | text =>
          rw [htype] at hvalue
          obtain ⟨hvt, -⟩ : l.valueType = none ∧ l.valueDouble = stale.valueDouble := Prod.mk.inj hvalue
          rw [hvt]
          rfl

/-! ## a reception -/

/-- What a line of a table adds. -/
def lineSample (table : Option HistoryTable) (line : List UInt8) : Option TrendSample :=
  table.bind fun table => if table.isHistory then ownSample server table line else none

/-- The locals agree for all lines of a table. -/
def LinesAgree (stale : ℕ → StaleLocals) (table : Option HistoryTable) : List (List UInt8 × Bool) → Prop
  | [] => True
  | (line, _) :: lines =>
      (∀ t, table = some t → t.isHistory = true → StaleAgrees (stale lines.length) t line) ∧
        LinesAgree stale table lines

/-- The trends with a value, if there is one. -/
def addSample (db : TrendDb) (sample : Option TrendSample) : TrendDb := sample.elim db (dbAddTrend db)

theorem processItems_trends {table : HistoryTable} (ht : table.Trended) {stale : StaleLocals} {record : List UInt8}
    (hstale : StaleAgrees stale table record) {s s' : NodeHistory} {lastrecord : Bool}
    (h : processItems server stale s table record lastrecord = .ok (true, s')) :
    s'.trends = addSample s.trends (ownSample server table record) := by
  obtain ⟨⟨fields, buffer⟩, hfields, hok⟩ := bind_eq_ok h
  cases fields with
  | none => cases hok
  | some fields =>
      obtain ⟨l, sql⟩ := fields
      obtain ⟨hlen, hl⟩ := itemFields_locals server hfields
      have htrend := trend_eq_ownSample server ht hlen hstale
      have hs' : s' = _ := (congrArg Prod.snd (Except.ok.inj hok)).symm
      have hkept := (finishRecord_kept server
        { s with buffer := buffer, trends := l.trend.elim s.trends (dbAddTrend s.trends) }
        (sql ++ bytes " where itemid=" ++ ui64 l.itemid ++ bytes ";\n")
        (if server.backend = .oracle then
          sql ++ bytes " where itemid=" ++ ui64 l.itemid ++ bytes ";\n" ++ bytes "end;\n"
          else sql ++ bytes " where itemid=" ++ ui64 l.itemid ++ bytes ";\n") lastrecord).2
      rw [hs', ← htrend]
      refine hkept.trans ?_
      rw [hl]
      rfl

/-- The last call for a record succeeds only when those before it have. -/
theorem processRecordSync_true {s s' : NodeHistory} {h : HistoryHeader} {line : List UInt8} {lastrecord res : Bool}
    (hok : processRecordSync server s h line lastrecord res = .ok (true, s')) : res = true := by
  rw [processRecordSync] at hok
  cases hsync : h.tableSync with
  | none =>
      rw [hsync] at hok
      exact congrArg Prod.fst (Except.ok.inj hok)
  | some tableSync =>
      rw [hsync] at hok
      dsimp only at hok
      split at hok
      · rename_i hres
        exact hres.1
      · exact congrArg Prod.fst (Except.ok.inj hok)

/-- **What a line adds.** -/
theorem nodeHistoryLine_trends {h : HistoryHeader} (htrended : ∀ t, h.table = some t → t.isHistory = true → t.Trended)
    {stale : StaleLocals} {line : List UInt8}
    (hstale : ∀ t, h.table = some t → t.isHistory = true → StaleAgrees stale t line) {s s' : NodeHistory}
    {lastrecord : Bool} (hok : nodeHistoryLine server stale h s line lastrecord = .ok (true, s')) :
    s'.trends = addSample s.trends (lineSample server h.table line) := by
  rw [nodeHistoryLine] at hok
  cases htable : h.table with
  | none =>
      rw [htable] at hok
      cases hok
      rfl
  | some table =>
      rw [htable] at hok
      dsimp only at hok
      rw [lineSample, Option.bind_some]
      split at hok
      · rename_i hevents
        have hhistory : table.isHistory = false := by
          rw [HistoryTable.isHistory, of_decide_eq_true hevents]
          decide
        obtain ⟨r, hr, hkept⟩ := processRecordEvent_returns s table line
        rw [hr] at hok
        obtain rfl := Except.ok.inj hok
        rw [hhistory, if_neg (by decide)]
        exact hkept.trends
      · obtain ⟨⟨res, sql1, s₁⟩, h₁, hok⟩ := bind_eq_ok hok
        obtain ⟨⟨res₂, s₂⟩, h₂, h₃⟩ := bind_eq_ok hok
        have hkept₁ := (processRecord_returns server s s.sql1 h.nodeid table line lastrecord).of_eq h₁
        have hkept₃ := (processRecordSync_returns server s₂ h line lastrecord res₂).of_eq h₃
        obtain rfl := processRecordSync_true server h₃
        rw [hkept₃.trends]
        dsimp only [processRecordItems] at h₂
        split at h₂
        · rename_i hitems
          have htrends : s₁.trends = s.trends := hkept₁.trends
          have hadd := processItems_trends server (htrended table htable hitems.2) (hstale table htable hitems.2) h₂
          rw [if_pos hitems.2, ← htrends]
          exact hadd
        · rename_i hitems
          obtain ⟨rfl, rfl⟩ := Prod.mk.inj (Except.ok.inj h₂)
          rw [if_neg fun hhistory => hitems ⟨rfl, hhistory⟩]
          exact hkept₁.trends

/-- What the lines add, one after the other. -/
theorem nodeHistoryLoop_trends {h : HistoryHeader} (htrended : ∀ t, h.table = some t → t.isHistory = true → t.Trended)
    {stale : ℕ → StaleLocals} {lines : List (List UInt8 × Bool)} (hstale : LinesAgree stale h.table lines)
    {s s' : NodeHistory} (hok : nodeHistoryLoop server stale h lines s = .ok (true, s')) :
    s'.trends = (lines.filterMap fun line => lineSample server h.table line.1).foldl dbAddTrend s.trends := by
  induction lines generalizing s with
  | nil =>
      cases hok
      rfl
  | cons line lines ih =>
      obtain ⟨line, ended⟩ := line
      obtain ⟨⟨res, s₁⟩, h₁, hok⟩ := bind_eq_ok hok
      cases res with
      | false => cases hok
      | true =>
          have hline := nodeHistoryLine_trends server htrended hstale.1 h₁
          rw [ih hstale.2 hok, hline, List.filterMap_cons]
          cases lineSample server h.table line <;> rfl

/-- The table that the first line leads to. -/
def headerTable (line : List UInt8) : Option HistoryTable :=
  (line.splitOn zbxDmDelimiter)[3]?.bind fun tablename =>
    (dbGetHistoryTable server.tables tablename).bind fun table => (headerTables server table tablename).1

theorem nodeHistoryHeader_table {line buffer buffer' : List UInt8} {h : HistoryHeader}
    (hok : nodeHistoryHeader server line buffer = .ok (h, buffer')) : h.table = headerTable server line := by
  obtain ⟨⟨const, r₁, buffer₁⟩, h₁, hok⟩ := bind_eq_ok hok
  obtain ⟨⟨sender, r₂, buffer₂⟩, h₂, hok⟩ := bind_eq_ok hok
  obtain ⟨⟨nodeid, r₃, buffer₃⟩, h₃, hok⟩ := bind_eq_ok hok
  obtain ⟨⟨tablename, r₄, buffer₄⟩, h₄, hok⟩ := bind_eq_ok hok
  have hfields : line.splitOn zbxDmDelimiter =
      const :: sender :: nodeid :: tablename :: fieldsOf zbxDmDelimiter r₄ := by
    change fieldsOf zbxDmDelimiter (some line) = _
    rw [fieldsOf_of_ok h₁, fieldsOf_of_ok h₂, fieldsOf_of_ok h₃, fieldsOf_of_ok h₄]
  dsimp only at hok
  rw [headerTable, hfields]
  change h.table = (dbGetHistoryTable server.tables tablename).bind fun table =>
    (headerTables server table tablename).1
  cases htable : dbGetHistoryTable server.tables tablename with
  | none =>
      rw [htable] at hok
      cases hok
  | some table =>
      rw [htable] at hok
      obtain rfl := (Prod.mk.inj (Except.ok.inj hok)).1
      rfl

/-- What a table name leads to is a table of the description. -/
theorem headerTable_mem {line : List UInt8} {table : HistoryTable} (h : headerTable server line = some table) :
    table ∈ server.tables := by
  obtain ⟨tablename, -, h⟩ := Option.bind_eq_some_iff.mp h
  obtain ⟨t, ht, h⟩ := Option.bind_eq_some_iff.mp h
  have hmem : t ∈ server.tables := List.mem_of_find?_eq_some ht
  rw [headerTables] at h
  split at h
  · split at h
    · exact List.mem_of_find?_eq_some h
    · exact Option.some.inj h ▸ hmem
  · split at h
    · exact Option.some.inj h ▸ hmem
    · cases h

/-! ## receptions -/

/-- A string that is received, and what the memory holds then. -/
structure NodeReception where
  data : CString
  malloc : List UInt8
  stale : ℕ → StaleLocals

/-- One reception after the other: the trends, and the receptions that are accepted. -/
def receiveHistory : TrendDb → List NodeReception → Except NullPointer (TrendDb × List NodeReception)
  | db, [] => pure (db, [])
  | db, c :: cs => do
      let (res, s) ← nodeHistory server c.stale c.malloc db c.data
      let (db, accepted) ← receiveHistory s.trends cs
      pure (db, if res then c :: accepted else accepted)

namespace NodeReception

variable (c : NodeReception)

/-- The table of the records. -/
def table : Option HistoryTable := headerTable server (firstLine c.data.val)

/-- The lines behind the first. -/
def lines : List (List UInt8 × Bool) := (nodeLines c.data.val).tail

/-- The values of the records. -/
def samples : List TrendSample := c.lines.filterMap fun line => lineSample server (c.table server) line.1

/-- For every record of an unsigned value, the local that is handed over holds it. -/
def Agrees : Prop := LinesAgree c.stale (c.table server) c.lines

end NodeReception

/-- A master whose history tables have items and clocks. -/
structure TrendServer extends NodeServer where
  trended : ∀ t ∈ tables, t.isHistory = true → t.Trended

/-- What an accepted reception adds. -/
theorem nodeHistory_trends (server : TrendServer) {c : NodeReception} (hagrees : c.Agrees server.toNodeServer)
    {db : TrendDb} {s : NodeHistory}
    (hok : nodeHistory server.toNodeServer c.stale c.malloc db c.data = .ok (true, s)) :
    s.trends = (c.samples server.toNodeServer).foldl dbAddTrend db := by
  by_cases hempty : c.data.val = []
  · rw [nodeHistory, hempty, nodeLines] at hok
    obtain rfl := (Prod.mk.inj (Except.ok.inj hok)).2
    rw [NodeReception.samples, NodeReception.lines, hempty]
    rfl
  · obtain ⟨ended, lines, hlines⟩ := nodeLines_head hempty
    rw [NodeReception.Agrees, NodeReception.lines, hlines, List.tail_cons] at hagrees
    rw [NodeReception.samples, NodeReception.lines, hlines, List.tail_cons]
    rw [nodeHistory, hlines] at hok
    obtain ⟨⟨h, buffer⟩, hheader, hok⟩ := bind_eq_ok hok
    obtain ⟨⟨res, s'⟩, hloop, hok⟩ := bind_eq_ok hok
    obtain ⟨rfl, rfl⟩ := Prod.mk.inj (Except.ok.inj hok)
    have htable := nodeHistoryHeader_table server.toNodeServer hheader
    rw [NodeReception.table, ← htable] at hagrees ⊢
    refine nodeHistoryLoop_trends server.toNodeServer (fun t ht => ?_) hagrees hloop
    exact server.trended t (headerTable_mem server.toNodeServer (htable ▸ ht))

/-- A rollback leaves the trends as they were. -/
theorem nodeHistory_rollback {stale : ℕ → StaleLocals} {malloc : List UInt8} {db : TrendDb} {data : CString}
    {s : NodeHistory} (hok : nodeHistory server stale malloc db data = .ok (false, s)) : s.trends = db := by
  rw [nodeHistory] at hok
  dsimp only at hok
  split at hok
  · cases hok
  · obtain ⟨⟨h, buffer⟩, -, hok⟩ := bind_eq_ok hok
    obtain ⟨⟨res, s'⟩, -, hok⟩ := bind_eq_ok hok
    obtain ⟨rfl, rfl⟩ := Prod.mk.inj (Except.ok.inj hok)
    rfl

/-- **The trends of a node**: after any receptions, the rows are those that the values of
the accepted records make, each added once by `DBadd_trend` or `DBadd_trend_uint`; as far
as the local that is handed over for an unsigned value holds it. -/
theorem node_trends_own (server : TrendServer) {db db' : TrendDb} {cs accepted : List NodeReception}
    (hrun : receiveHistory server.toNodeServer db cs = .ok (db', accepted))
    (hagrees : ∀ c ∈ accepted, c.Agrees server.toNodeServer) :
    db' = (accepted.flatMap fun c => c.samples server.toNodeServer).foldl dbAddTrend db := by
  induction cs generalizing db accepted with
  | nil =>
      cases hrun
      rfl
  | cons c cs ih =>
      obtain ⟨⟨res, s⟩, hc, hrun⟩ := bind_eq_ok hrun
      obtain ⟨⟨db₂, accepted₂⟩, hcs, hrun⟩ := bind_eq_ok hrun
      obtain ⟨rfl, rfl⟩ := Prod.mk.inj (Except.ok.inj hrun)
      cases res with
      | true =>
          rw [if_pos rfl, List.forall_mem_cons] at hagrees
          rw [if_pos rfl, List.flatMap_cons, List.foldl_append, ← nodeHistory_trends server hagrees.1 hc]
          exact ih hcs hagrees.2
      | false =>
          rw [if_neg (by decide)] at hagrees ⊢
          rw [nodeHistory_rollback server.toNodeServer hc] at hcs
          exact ih hcs hagrees

/-- A master that knows `history_uint` and its table for the synchronisation. -/
def trendMaster : TrendServer :=
  { uintMaster with
    trended := by
      have htables : ∀ t ∈ uintMaster.tables, (t.received.map (·.name.val)).Nodup ∧
          (∃ f ∈ t.received, f.name.val = bytes "itemid") ∧
          (∀ f ∈ t.received, f.name.val = bytes "clock" → f.type.isNumber = true) ∧
          ∃ f ∈ t.received, f.name.val = bytes "clock" := by
        decide
      intro t ht _
      obtain ⟨hnodup, hitemid, hclock, hclockmem⟩ := htables t ht
      exact ⟨hnodup, hitemid, hclock, hclockmem⟩ }

/-- The value 7 of the item 5, with a number in the local. -/
def sevenReception (valueDouble : ℚ) : NodeReception :=
  { data :=
      ⟨bytes "History" ++ [0xAD, 50, 0xAD, 50, 0xAD] ++ bytes "history_uint_sync\n5" ++ [0xAD, 48, 0xAD, 55],
        by decide⟩
    malloc := []
    stale := fun _ => { clock := 0, valueDouble := valueDouble } }

/-- With 7 in the local the row is right. -/
theorem node_trends_seven :
    ∃ db, receiveHistory trendMaster.toNodeServer (fun _ => none) [sevenReception 7] = .ok (db, [sevenReception 7]) ∧
      db = ([sevenReception 7].flatMap fun c => c.samples trendMaster.toNodeServer).foldl dbAddTrend fun _ => none := by
  refine ⟨_, rfl, @node_trends_own trendMaster (fun _ => none) _ [sevenReception 7] [sevenReception 7] rfl ?_⟩
  rw [List.forall_mem_singleton]
  have htable : (sevenReception 7).table trendMaster.toNodeServer = some historyUint := by decide
  have hlines : (sevenReception 7).lines = [([53, 0xAD, 48, 0xAD, 55], false)] := by decide
  have hvalue : fieldNamed (bytes "value") (historyUint.recordFields [53, 0xAD, 48, 0xAD, 55]) =
      some (⟨cname "value", .uint, false⟩, [55]) := by
    decide
  rw [NodeReception.Agrees, htable, hlines]
  refine ⟨?_, trivial⟩
  intro t ht _ field value hfield _
  obtain rfl := Option.some.inj ht
  rw [hvalue] at hfield
  obtain ⟨-, rfl⟩ := Prod.mk.inj (Option.some.inj hfield)
  decide

/-- With 0 in the local the row of the value 7 is a row of the value 0. -/
theorem node_trends_zero :
    ∃ db, receiveHistory trendMaster.toNodeServer (fun _ => none) [sevenReception 0] = .ok (db, [sevenReception 0]) ∧
      db ≠ ([sevenReception 0].flatMap fun c => c.samples trendMaster.toNodeServer).foldl dbAddTrend fun _ => none := by
  refine ⟨_, rfl, fun heq => ?_⟩
  have hrow := congrArg (Option.map TrendRow.valueMax) (congrFun heq ⟨.uint64, 5, 0⟩)
  revert hrow
  decide

end Zabbix
