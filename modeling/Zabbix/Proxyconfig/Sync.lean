import Zabbix.Proxyconfig.Tables
import Zabbix.Proxyconfig.Transfer

/-!
# Zabbix.Proxyconfig.Sync

The synchronisation of a whole configuration: from the rows that a server
selects to the rows that a proxy has.
-/

namespace Zabbix

open Ascii Printf Nesting

/-! ## the tables -/

/-- What is sent of a table. -/
structure SentTable (schema : ProxySchema) (x : ZbxTable × List DbRow) : Prop where
  mem : x.1 ∈ schema.tables
  transferable : x.1.Transferable
  typed : ∀ row ∈ x.2, row.Typed x.1
  nodup : (x.2.map (·.recid)).Nodup

/-- The rows of a table are those that have been sent, as they arrive. -/
def Arrived (after : CString → List DbRow) (x : ZbxTable × List DbRow) : Prop :=
  ∀ v, v ∈ (after x.1.table).map (DbRow.view x.1) ↔ v ∈ x.2.map (DbRow.receivedView x.1)

variable {db : ProxyDb} {schema : ProxySchema}

/-- A table is received. -/
theorem processProxyconfigTable_full {x : ZbxTable × List DbRow} (hx : SentTable schema x)
    (hfull : ∀ row ∈ x.2, row.Full x.1) {tables : CString → List DbRow}
    (hlt : ∀ row ∈ tables x.1.table, row.recid < 2 ^ 63) (tail : Ptr) :
    ∃ after, processProxyconfigTable db schema.toSchema tables x.1.table
        (nodeRange true (tableMembers x.1 x.2) tail) = some (Function.update tables x.1.table after) ∧
      ∀ v, v ∈ after.map (DbRow.view x.1) ↔ v ∈ x.2.map (DbRow.receivedView x.1) := by
  obtain ⟨first, before, old, tail', hold, hbefore, heq⟩ :=
    @processProxyconfigTable_eq db x.1 schema hx.mem hx.transferable tables hlt x.2 hx.typed tail
  have hnames : (x.1.proxied.map (·.name)).Nodup :=
    hx.transferable.names_nodup.sublist (List.Sublist.map _ List.filter_sublist)
  obtain ⟨after, hafter, hview⟩ := @sync_rows db x.1 x.2 hx.typed hx.nodup hnames before old hold hbefore hfull
    first tail'
  exact ⟨after, by rw [heq, hafter, Option.map_some], hview⟩

/-- A table with a NULL is refused. -/
theorem processProxyconfigTable_null {x : ZbxTable × List DbRow} (hx : SentTable schema x)
    (hnull : ¬∀ row ∈ x.2, row.Full x.1) {tables : CString → List DbRow}
    (hlt : ∀ row ∈ tables x.1.table, row.recid < 2 ^ 63) (tail : Ptr) :
    processProxyconfigTable db schema.toSchema tables x.1.table (nodeRange true (tableMembers x.1 x.2) tail) =
      none := by
  obtain ⟨first, before, old, tail', -, -, heq⟩ :=
    @processProxyconfigTable_eq db x.1 schema hx.mem hx.transferable tables hlt x.2 hx.typed tail
  rw [heq, sync_rows_none hx.typed hnull]
  rfl

/-! ## the document -/

/-- What is done for a pair of the document. -/
def processPair (db : ProxyDb) (schema : Schema) (tables : CString → List DbRow) (r : List UInt8 × Ptr) :
    Option (CString → List DbRow) :=
  match zbxJsonBracketsOpen r.2 with
  | .null | .overrun => none
  | .found jpObj => processProxyconfigTable db schema tables (bufferString r.1) jpObj

/-- The pairs of a document. -/
def documentPairs (stop : Ptr) (xs : List (ZbxTable × List DbRow)) : List (List UInt8 × Ptr) :=
  (entries stop (documentMembers xs).items).map fun e => (nameBytes e.name, e.value)

theorem processPair_table {x : ZbxTable × List DbRow} (hx : SentTable schema x) (tables : CString → List DbRow)
    (tail : Ptr) :
    processPair db schema.toSchema tables (x.1.table.val, Members.nodeText true (tableMembers x.1 x.2) ++ tail) =
      processProxyconfigTable db schema.toSchema tables x.1.table (nodeRange true (tableMembers x.1 x.2) tail) := by
  have hname : bufferString x.1.table.val = x.1.table := Subtype.ext (bufferString_val x.1.table.property)
  rw [processPair, zbxJsonBracketsOpen_nodeText (valid_tableMembers hx.typed)]
  dsimp only
  rw [hname]

/-- **The run over the tables**, none of which has a NULL. -/
theorem foldlM_processPair_full {xs : List (ZbxTable × List DbRow)} (hxs : ∀ x ∈ xs, SentTable schema x)
    (hnodup : (xs.map (·.1.table)).Nodup) (hfull : ∀ x ∈ xs, ∀ row ∈ x.2, row.Full x.1)
    {tables : CString → List DbRow} (hlt : ∀ x ∈ xs, ∀ row ∈ tables x.1.table, row.recid < 2 ^ 63) (stop : Ptr) :
    ∃ after, (documentPairs stop xs).foldlM (processPair db schema.toSchema) tables = some after ∧
      (∀ x ∈ xs, Arrived after x) ∧ ∀ name ∉ xs.map (·.1.table), after name = tables name := by
  induction xs generalizing tables with
  | nil => exact ⟨tables, rfl, by simp, fun _ _ => rfl⟩
  | cons x xs ih =>
      rw [List.forall_mem_cons] at hxs hfull hlt
      rw [List.map_cons, List.nodup_cons] at hnodup
      obtain ⟨rows, hrows, hview⟩ := @processProxyconfigTable_full db schema x hxs.1 hfull.1 tables hlt.1
        (followText (documentMembers xs).items ++ stop)
      have hother : ∀ y ∈ xs, Function.update tables x.1.table rows y.1.table = tables y.1.table := by
        intro y hy
        refine Function.update_of_ne (fun heq => hnodup.1 ?_) ..
        exact List.mem_map.mpr ⟨y, hy, heq⟩
      obtain ⟨after, hafter, harrived, hrest⟩ := @ih hxs.2 hnodup.2 hfull.2
        (Function.update tables x.1.table rows) fun y hy => by
          rw [hother y hy]
          exact hlt.2 y hy
      refine ⟨after, ?_, ?_, ?_⟩
      · rw [← processPair_table hxs.1] at hrows
        change ((processPair db schema.toSchema tables _).bind fun tables => _) = _
        exact (congrArg (fun t => Option.bind t _) hrows).trans hafter
      · rw [List.forall_mem_cons]
        refine ⟨?_, harrived⟩
        rw [Arrived, hrest _ hnodup.1, Function.update_self]
        exact hview
      · intro name hname
        rw [List.map_cons, List.mem_cons, not_or] at hname
        rw [hrest name hname.2, Function.update_of_ne hname.1]

/-- The run over the tables ends at a NULL. -/
theorem foldlM_processPair_null {xs : List (ZbxTable × List DbRow)} (hxs : ∀ x ∈ xs, SentTable schema x)
    (hnodup : (xs.map (·.1.table)).Nodup) (hnull : ¬∀ x ∈ xs, ∀ row ∈ x.2, row.Full x.1)
    {tables : CString → List DbRow} (hlt : ∀ x ∈ xs, ∀ row ∈ tables x.1.table, row.recid < 2 ^ 63) (stop : Ptr) :
    (documentPairs stop xs).foldlM (processPair db schema.toSchema) tables = none := by
  induction xs generalizing tables with
  | nil => exact absurd (fun x hx => nomatch hx) hnull
  | cons x xs ih =>
      rw [List.forall_mem_cons] at hxs hlt hnull
      rw [List.map_cons, List.nodup_cons] at hnodup
      have hstep := @processPair_table db schema x hxs.1 tables (followText (documentMembers xs).items ++ stop)
      change ((processPair db schema.toSchema tables _).bind fun tables => _) = _
      refine (congrArg (fun t => Option.bind t _) hstep).trans ?_
      by_cases hfull : ∀ row ∈ x.2, row.Full x.1
      · obtain ⟨rows, hrows, -⟩ := @processProxyconfigTable_full db schema x hxs.1 hfull tables hlt.1
          (followText (documentMembers xs).items ++ stop)
        rw [hrows]
        refine ih hxs.2 hnodup.2 (fun hrest => hnull ⟨hfull, hrest⟩) fun y hy => ?_
        rw [Function.update_of_ne fun heq => hnodup.1 (List.mem_map.mpr ⟨y, hy, heq⟩)]
        exact hlt.2 y hy
      · rw [processProxyconfigTable_null hxs.1 hfull hlt.1]
        rfl

/-- The proxy goes through the pairs of the document. -/
theorem processConfigurationSync_eq (garbage : Mem) (rows : CString → List DbRow) (proxyHostid : ℕ)
    (hxs : ∀ x ∈ sentRows schema.toSchema rows proxyHostid, SentTable schema x) (tables : CString → List DbRow) :
    processConfigurationSync db schema.toSchema tables
        (sendProxyconfig garbage schema.toSchema rows proxyHostid) =
      (documentPairs [closeBracket true] (sentRows schema.toSchema rows proxyHostid)).foldlM
        (processPair db schema.toSchema) tables := by
  have hvalid : (documentMembers (sentRows schema.toSchema rows proxyHostid)).Valid true :=
    valid_documentMembers fun x hx => (hxs x hx).typed
  have hdocument := jsonDocument_getProxyconfigData schema.toSchema rows proxyHostid
  have hopen := zbxJsonOpen_jsonRun garbage (512 * 1024) (hdocument ▸ hvalid)
  rw [hdocument] at hopen
  have hnames : ReadableNames maxStringLen (documentMembers (sentRows schema.toSchema rows proxyHostid)).items := by
    generalize sentRows schema.toSchema rows proxyHostid = xs at hxs
    clear hdocument hvalid hopen
    induction xs with
    | nil => exact fun item h => nomatch h
    | cons x xs ih =>
        rw [List.forall_mem_cons] at hxs
        refine List.forall_mem_cons.mpr ⟨⟨?_, ?_⟩, ih hxs.2⟩
        · exact jsonClean_of_isPlain hxs.1.transferable.plain.1
        · exact lt_of_le_of_lt (schema.table_name x.1 hxs.1.mem).2 (by decide)
  rw [processConfigurationSync, sendProxyconfig, hopen]
  exact jsonEachPair_enumerates (enumerates_pairNext hvalid [] hnames) _ tables

/-! ## the selection -/

theorem sentTables_mem {schema : Schema} {x : ZbxTable × Proxytable} (h : x ∈ sentTables schema) :
    x.1 ∈ schema.tables ∧ x.1.table ∈ proxytables.map (·.table) ∧ x.2.table = x.1.table := by
  obtain ⟨t, ht, hx⟩ := List.mem_flatMap.mp h
  obtain ⟨pt, hpt, rfl⟩ := List.mem_map.mp hx
  obtain ⟨hmem, heq⟩ := List.mem_filter.mp hpt
  rw [decide_eq_true_eq] at heq
  exact ⟨ht, List.mem_map.mpr ⟨pt, hmem, heq⟩, heq⟩

/-- Every table is sent once. -/
theorem nodup_sentTables (schema : ProxySchema) : ((sentTables schema.toSchema).map (·.1.table)).Nodup := by
  have hmap : (sentTables schema.toSchema).map (·.1.table) =
      schema.tables.flatMap fun t => (proxytables.filter (·.table = t.table)).map (·.table) := by
    rw [sentTables, List.map_flatMap]
    refine List.flatMap_congr fun t _ => ?_
    rw [List.map_map]
    refine List.map_congr_left fun pt hpt => ?_
    simpa [eq_comm] using (List.mem_filter.mp hpt).2
  have hnames : (proxytables.map (·.table)).Nodup := by decide
  rw [hmap, List.nodup_flatMap]
  refine ⟨fun t _ => hnames.sublist (List.Sublist.map _ List.filter_sublist), ?_⟩
  refine (List.pairwise_map.mp schema.tables_nodup).imp fun hne name hname hname' => ?_
  obtain ⟨pt, hpt, rfl⟩ := List.mem_map.mp hname
  obtain ⟨pt', hpt', heq⟩ := List.mem_map.mp hname'
  have htable := (List.mem_filter.mp hpt).2
  have htable' := (List.mem_filter.mp hpt').2
  rw [decide_eq_true_eq] at htable htable'
  exact hne (htable.symm.trans (heq.symm.trans htable'))

/-- The rows of the select are rows of the table. -/
theorem mem_proxyconfigSelect {rows : CString → List DbRow} {proxyHostid : ℕ} {pt : Proxytable} {row : DbRow} :
    row ∈ proxyconfigSelect rows proxyHostid pt ↔
      row ∈ rows pt.table ∧ proxyconfigWhere rows proxyHostid pt row = true := by
  rw [proxyconfigSelect, List.mem_mergeSort, List.mem_filter]

/-- What is sent can be sent. -/
theorem sentTable_sentRows (server : Database schema.toSchema) (proxyHostid : ℕ) :
    ∀ x ∈ sentRows schema.toSchema server.rows proxyHostid, SentTable schema x := by
  intro x hx
  obtain ⟨⟨t, pt⟩, hmem, rfl⟩ := List.mem_map.mp hx
  obtain ⟨ht, hname, hpt⟩ := sentTables_mem hmem
  dsimp only at ht hname hpt ⊢
  have hrow : ∀ row ∈ proxyconfigSelect server.rows proxyHostid pt, row ∈ server.rows t.table := by
    intro row hrow
    rw [← hpt]
    exact (mem_proxyconfigSelect.mp hrow).1
  refine ⟨ht, schema.transferable t ht hname, fun row h => ⟨server.recid_lt t ht row (hrow row h), ?_⟩, ?_⟩
  · exact fun f hf => server.number t ht row (hrow row h) f (List.mem_of_mem_filter hf)
  · have hnodup := server.nodup t ht
    rw [← hpt] at hnodup
    exact ((List.mergeSort_perm _ _).map _).nodup_iff.mpr
      (hnodup.sublist (List.Sublist.map _ List.filter_sublist))

/-! ## the transfer -/

/-- The rows of every transferred table, as far as they are transferred, are those that the
server has selected. -/
def Transferred (schema : Schema) (server : CString → List DbRow) (proxyHostid : ℕ) (after : CString → List DbRow) :
    Prop :=
  ∀ x ∈ sentRows schema server proxyHostid,
    ∀ v, v ∈ (after x.1.table).map (DbRow.view x.1) ↔ v ∈ x.2.map (DbRow.view x.1)

/-- No value of what is selected is NULL, and no string of it is changed on its way. -/
def Transmissible (schema : Schema) (server : CString → List DbRow) (proxyHostid : ℕ) : Prop :=
  ∀ x ∈ sentRows schema server proxyHostid, ∀ row ∈ x.2, ∀ f ∈ x.1.proxied,
    ∃ v, row.column f.name = some v ∧ (f.type.isNumber = false → Intact v)

theorem receivedView_eq_iff {x : ZbxTable × List DbRow} {row : DbRow} :
    row.receivedView x.1 = row.view x.1 ↔
      ∀ f ∈ x.1.proxied, ∀ v, row.column f.name = some v → f.type.isNumber = false → Intact v := by
  rw [DbRow.receivedView, DbRow.view, Prod.mk.injEq, List.map_inj_left]
  simp only [true_and]
  refine forall_congr' fun f => forall_congr' fun _ => ?_
  cases row.column f.name with
  | none => simp
  | some v =>
      simp only [Option.map_some, Option.some.injEq, forall_eq']
      cases htype : f.type.isNumber with
      | true => simp [receivedValue, htype]
      | false => simp [receivedValue_eq_iff htype]

theorem nodup_sentRows (schema : ProxySchema) (rows : CString → List DbRow) (proxyHostid : ℕ) :
    ((sentRows schema.toSchema rows proxyHostid).map (·.1.table)).Nodup := by
  rw [sentRows, List.map_map]
  exact nodup_sentTables schema

/-- What a proxy has received, when nothing is NULL. -/
theorem processConfigurationSync_full (garbage : Mem) (server proxy : Database schema.toSchema) (proxyHostid : ℕ)
    (hfull : ∀ x ∈ sentRows schema.toSchema server.rows proxyHostid, ∀ row ∈ x.2, row.Full x.1) :
    ∃ after, processConfigurationSync db schema.toSchema proxy.rows
        (sendProxyconfig garbage schema.toSchema server.rows proxyHostid) = some after ∧
      ∀ x ∈ sentRows schema.toSchema server.rows proxyHostid, Arrived after x := by
  have hxs := sentTable_sentRows server proxyHostid
  obtain ⟨after, hafter, harrived, -⟩ := foldlM_processPair_full hxs (nodup_sentRows ..) hfull
    (fun x hx => proxy.recid_lt x.1 (hxs x hx).mem) [closeBracket true]
  exact ⟨after, by rw [processConfigurationSync_eq garbage server.rows proxyHostid hxs, hafter], harrived⟩

/-- What has been transferred could be. -/
theorem transmissible_of_transferred (garbage : Mem) (server proxy : Database schema.toSchema) (proxyHostid : ℕ)
    {after : CString → List DbRow}
    (hsync : processConfigurationSync db schema.toSchema proxy.rows
      (sendProxyconfig garbage schema.toSchema server.rows proxyHostid) = some after)
    (h : Transferred schema.toSchema server.rows proxyHostid after) :
    Transmissible schema.toSchema server.rows proxyHostid := by
  have hxs := sentTable_sentRows server proxyHostid
  by_cases hfull : ∀ x ∈ sentRows schema.toSchema server.rows proxyHostid, ∀ row ∈ x.2, row.Full x.1
  · obtain ⟨after', hafter', harrived⟩ := @processConfigurationSync_full db schema garbage server proxy proxyHostid
      hfull
    obtain rfl := Option.some.inj (hsync.symm.trans hafter')
    intro x hx row hrow f hf
    obtain ⟨v, hv⟩ := Option.isSome_iff_exists.mp (hfull x hx row hrow f hf)
    have hthere := (harrived x hx _).mpr (List.mem_map_of_mem hrow)
    obtain ⟨row', hrow', heq⟩ := List.mem_map.mp ((h x hx _).mp hthere)
    obtain rfl : row' = row :=
      List.inj_on_of_nodup_map (hxs x hx).nodup hrow' hrow (congrArg Prod.fst heq)
    exact ⟨v, hv, receivedView_eq_iff.mp heq.symm f hf v hv⟩
  · have hnone := @foldlM_processPair_null db schema (sentRows schema.toSchema server.rows proxyHostid) hxs
      (nodup_sentRows ..) hfull proxy.rows (fun x hx => proxy.recid_lt x.1 (hxs x hx).mem) [closeBracket true]
    rw [processConfigurationSync_eq garbage server.rows proxyHostid hxs, hnone] at hsync
    cases hsync

/-- **The transfer of a configuration**: a proxy, whatever it has had, has what the server
has selected for it just when no value of it is NULL, every string is shorter than
`MAX_STRING_LEN`, and none has a carriage return or a control character that is
written with its digits. -/
theorem proxyconfig_transferred_iff (garbage : Mem) (db : ProxyDb) (schema : ProxySchema)
    (server proxy : Database schema.toSchema) (proxyHostid : ℕ) :
    (∃ after, processConfigurationSync db schema.toSchema proxy.rows
        (sendProxyconfig garbage schema.toSchema server.rows proxyHostid) = some after ∧
      Transferred schema.toSchema server.rows proxyHostid after) ↔
      Transmissible schema.toSchema server.rows proxyHostid := by
  constructor
  · rintro ⟨after, hsync, h⟩
    exact transmissible_of_transferred garbage server proxy proxyHostid hsync h
  · intro h
    have hfull : ∀ x ∈ sentRows schema.toSchema server.rows proxyHostid, ∀ row ∈ x.2, row.Full x.1 := by
      intro x hx row hrow f hf
      obtain ⟨v, hv, -⟩ := h x hx row hrow f hf
      rw [hv, Option.isSome_some]
    obtain ⟨after, hafter, harrived⟩ := @processConfigurationSync_full db schema garbage server proxy proxyHostid
      hfull
    refine ⟨after, hafter, fun x hx v => ?_⟩
    have hviews : x.2.map (DbRow.receivedView x.1) = x.2.map (DbRow.view x.1) := by
      refine List.map_congr_left fun row hrow => receivedView_eq_iff.mpr fun f hf v hv hstring => ?_
      obtain ⟨v', hv', hintact⟩ := h x hx row hrow f hf
      obtain rfl := Option.some.inj (hv.symm.trans hv')
      exact hintact hstring
    rw [harrived x hx v, hviews]

/-- The columns of a host and of a database monitor item of it: what is not given is `0`. -/
def monitorColumn (name : CString) : Option CString :=
  if name = cname "hostid" then some (cname "10")
  else if name = cname "proxy_hostid" then some (cname "5")
  else if name = cname "type" then some (cname "11")
  else if name = cname "params" then some (cname "select 1\r\nfrom t")
  else some (cname "0")

/-- A host of proxy 5 with one item, whose query has two lines. -/
def monitorServer : Database proxySchema.toSchema where
  rows := fun name =>
    if name = cname "hosts" then [⟨10, monitorColumn⟩]
    else if name = cname "items" then [⟨20, monitorColumn⟩]
    else []
  nodup := by decide
  recid_lt := by decide
  number := by
    intro t ht row hrow f hf htype v hv
    have hall : ∀ t ∈ proxySchema.tables, ∀ row ∈ (if t.table = cname "hosts" then [⟨10, monitorColumn⟩]
        else if t.table = cname "items" then [⟨20, monitorColumn⟩] else [] : List DbRow), ∀ f ∈ t.fields,
          f.type.isNumber = true → (row.column f.name).all (fun v =>
            v.val.all isNumberByte && decide (v.val.length ≤ 40) && JsonText.isInt v.val) = true := by
      decide
    have hcolumn := hall t ht row hrow f hf htype
    rw [hv, Option.all_some, Bool.and_eq_true, Bool.and_eq_true, List.all_eq_true, decide_eq_true_eq] at hcolumn
    exact ⟨hcolumn.1.1, hcolumn.1.2, fun _ => hcolumn.2⟩

/-- A proxy that has nothing. -/
def emptyProxy (schema : Schema) : Database schema where
  rows := fun _ => []
  nodup := by simp
  recid_lt := by simp
  number := by simp

/-- A MySQL proxy, which reads a byte behind a backslash as itself. -/
def monitorProxyDb : ProxyDb where
  backend := .mysql
  rule := .itself
  default := fun _ _ => none

/-- The carriage return of a line end does not arrive. -/
theorem proxyconfig_drops_cr :
    ¬∃ after, processConfigurationSync monitorProxyDb proxySchema.toSchema (emptyProxy proxySchema.toSchema).rows
        (sendProxyconfig (fun _ => 0) proxySchema.toSchema monitorServer.rows 5) = some after ∧
      Transferred proxySchema.toSchema monitorServer.rows 5 after := by
  rintro ⟨after, hsync, h⟩
  have hsent := transmissible_of_transferred (fun _ => 0) monitorServer (emptyProxy proxySchema.toSchema) 5 hsync h
  have htable : (itemsTable, ⟨cname "items", some (cname "hosts", cname "hostid")⟩) ∈
      sentTables proxySchema.toSchema := by
    decide
  have hrow : ⟨20, monitorColumn⟩ ∈ proxyconfigSelect monitorServer.rows 5
      ⟨cname "items", some (cname "hosts", cname "hostid")⟩ :=
    mem_proxyconfigSelect.mpr ⟨List.mem_singleton_self _, by decide⟩
  have hfield : ⟨cname "params", .text, true, true, true⟩ ∈ itemsTable.proxied := by decide
  obtain ⟨v, hv, hintact⟩ := hsent _ (List.mem_map_of_mem htable) _ hrow _ hfield
  have hparams : monitorColumn (cname "params") = some (cname "select 1\r\nfrom t") := by decide
  obtain rfl := Option.some.inj (hparams.symm.trans hv)
  revert hintact
  decide

end Zabbix
