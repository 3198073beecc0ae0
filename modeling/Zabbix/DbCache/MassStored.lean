import Zabbix.DbCache.MassHistory

/-!
# Zabbix.DbCache.MassStored

What a batch of the history cache asks to store.

`historyInserts` and `proxyHistoryInserts` list the rows for each table: the
entries eligible for storage, each with its item, clock and value.  The
sections of `DCmass_add_history` and `DCmass_proxy_add_history` format these
rows and no others (`formats_massHistory`, `formats_massProxyHistory`).
-/

namespace Zabbix

open Ascii Printf SqlLiteral

/-! ## what is to be stored -/

/-- Eligible for storage: history is kept for the item and there is a value. -/
def stored (e : Sample Double) : Bool := e.keepHistory ≠ 0 && !e.valueNull

/-- The fields of `(itemid,clock,value)`. -/
def valuesFields (e : Sample Double) (value : Field) : List Field :=
  [.num (ui64 e.itemid), .num (d32 e.clock), value]

/-- The fields of `(nodeid,itemid,clock,value)`. -/
def syncFields (e : Sample Double) (value : Field) : List Field :=
  [.num (d32 (getNodeidById e.itemid)), .num (ui64 e.itemid), .num (d32 e.clock), value]

/-- The value of a float entry. -/
def floatField (e : Sample Double) : Option Field :=
  match e.value with
  | .float _ value => some (.num (lf value))
  | _ => none

/-- The value of an unsigned entry. -/
def uintField (e : Sample Double) : Option Field :=
  match e.value with
  | .uint64 _ value => some (.num (ui64 value))
  | _ => none

/-- The value of a character entry, as much of it as the column takes. -/
def strField (e : Sample Double) : Option Field :=
  match e.value with
  | .str valueStr => some (.str ((kept valueStr).take historyStrValueLen))
  | _ => none

/-- The row of a text entry. -/
def textFields (e : Sample Double) : Option (UInt64 → List Field) :=
  match e.value with
  | .text valueStr =>
      some fun id => [.num (ui64 id), .num (ui64 e.itemid), .num (d32 e.clock), .str (kept valueStr)]
  | _ => none

/-- The row of a log entry. -/
def logFields (e : Sample Double) : Option (UInt64 → List Field) :=
  match e.value with
  | .log valueStr timestamp source severity _ =>
      some fun id =>
        [.num (ui64 id), .num (ui64 e.itemid), .num (d32 e.clock), .num (d32 timestamp),
          .str ((kept (source.getD [])).take historyLogSourceLen), .num (d32 severity),
          .str (kept valueStr)]
  | _ => none

/-- The rows that a batch of the server asks to store, table by table. -/
def historyInserts (node : NodeConfig) (dbGetMaxidNum : String → Nat → UInt64)
    (history : List (Sample Double)) : List Insert :=
  let es := history.filter stored
  [{ head := historyHead, rows := es.filterMap fun e => (floatField e).map (valuesFields e) }] ++
  (if node.distributed then
    [{ head := historySyncHead, rows := es.filterMap fun e => (floatField e).map (syncFields e) }]
    else []) ++
  [{ head := historyUintHead, rows := es.filterMap fun e => (uintField e).map (valuesFields e) }] ++
  (if node.distributed then
    [{ head := historyUintSyncHead
       rows := es.filterMap fun e => (uintField e).map (syncFields e) }] else []) ++
  [{ head := historyStrHead, rows := es.filterMap fun e => (strField e).map (valuesFields e) }] ++
  (if node.distributed then
    [{ head := historyStrSyncHead, rows := es.filterMap fun e => (strField e).map (syncFields e) }]
    else []) ++
  (if 0 < historyTextNum history then
    [{ head := historyTextHead
       rows := number (dbGetMaxidNum "history_text" (historyTextNum history))
         (es.filterMap textFields) }] else []) ++
  (if 0 < historyLogNum history then
    [{ head := historyLogHead
       rows := number (dbGetMaxidNum "history_log" (historyLogNum history))
         (es.filterMap logFields) }] else [])

/-- The value that a proxy stores, as a string. -/
def proxyFloatField (e : Sample Double) : Option Field :=
  match e.value with
  | .float valueOrig _ => some (.str (lf valueOrig))
  | _ => none

def proxyUintField (e : Sample Double) : Option Field :=
  match e.value with
  | .uint64 valueOrig _ => some (.str (ui64 valueOrig))
  | _ => none

def proxyStrField (e : Sample Double) : Option Field :=
  match e.value with
  | .str valueStr => some (.str (kept valueStr))
  | _ => none

def proxyTextField (e : Sample Double) : Option Field :=
  match e.value with
  | .text valueStr => some (.str (kept valueStr))
  | _ => none

def proxyLogFields (e : Sample Double) : Option (List Field) :=
  match e.value with
  | .log valueStr timestamp source severity _ =>
      some
        [.num (ui64 e.itemid), .num (d32 e.clock), .num (d32 timestamp),
          .str ((kept (source.getD [])).take historyLogSourceLen), .num (d32 severity),
          .str (kept valueStr)]
  | _ => none

/-- The rows that a batch of the proxy asks to store: a proxy keeps every
value. -/
def proxyHistoryInserts (history : List (Sample Double)) : List Insert :=
  [{ head := proxyHistoryHead
     rows := history.filterMap fun e => (proxyFloatField e).map (valuesFields e) },
    { head := proxyHistoryHead
      rows := history.filterMap fun e => (proxyUintField e).map (valuesFields e) },
    { head := proxyHistoryHead
      rows := history.filterMap fun e => (proxyStrField e).map (valuesFields e) },
    { head := proxyHistoryHead
      rows := history.filterMap fun e => (proxyTextField e).map (valuesFields e) },
    { head := proxyHistoryLogHead, rows := history.filterMap proxyLogFields }]

/-! ## the sections format these rows -/

variable {b : Backend}

/-- A loop formats rows, entry by entry. -/
theorem formats_filterMap {head : List UInt8} {row : Sample Double → Option MassRow}
    {p : Sample Double → Bool} {fields : Sample Double → Option (List Field)}
    (hrow : ∀ e, (row e).map MassRow.values =
      if p e then (fields e).map fun r => render b.escape (rowTokens r) else none)
    (hhead : HeadOk head) (hplain : squote ∉ head)
    (hok : ∀ e r, fields e = some r → ∀ f ∈ r, f.Ok) (history : List (Sample Double)) :
    Formats b { head, rows := history.filterMap row }
      { head, rows := (history.filter p).filterMap fields } := by
  refine ⟨rfl, ?_, hhead, hplain, ?_⟩
  · rw [List.map_filterMap, List.map_filterMap, List.filterMap_filter]
    exact List.filterMap_congr fun e _ => hrow e
  · intro r hr
    obtain ⟨e, -, he⟩ := List.mem_filterMap.mp hr
    exact hok e r he

theorem map_number {β γ : Type} (g : β → γ) (id : UInt64) (rows : List (UInt64 → β)) :
    (number id rows).map g = number id (rows.map (g ∘ ·)) := by
  induction rows generalizing id with
  | nil => rfl
  | cons row rows ih => rw [number, List.map_cons, ih, List.map_cons, number, Function.comp_apply]

theorem mem_number {β : Type} {id : UInt64} {rows : List (UInt64 → β)} {x : β}
    (h : x ∈ number id rows) : ∃ row ∈ rows, ∃ id', x = row id' := by
  induction rows generalizing id with
  | nil => cases h
  | cons row rows ih =>
      rcases List.mem_cons.mp h with he | hm
      · exact ⟨row, List.mem_cons_self .., id, he⟩
      · obtain ⟨row', hr, hx⟩ := ih hm
        exact ⟨row', List.mem_cons_of_mem _ hr, hx⟩

/-- The same for a loop that numbers its rows. -/
theorem formats_number {head : List UInt8} {row : Sample Double → Option (UInt64 → MassRow)}
    {p : Sample Double → Bool} {fields : Sample Double → Option (UInt64 → List Field)}
    (hrow : ∀ e, (row e).map (MassRow.values ∘ ·) =
      if p e then (fields e).map ((fun r => render b.escape (rowTokens r)) ∘ ·) else none)
    (hhead : HeadOk head) (hplain : squote ∉ head)
    (hok : ∀ e r, fields e = some r → ∀ id, ∀ f ∈ r id, f.Ok) (id : UInt64)
    (history : List (Sample Double)) :
    Formats b { head, rows := number id (history.filterMap row) }
      { head, rows := number id ((history.filter p).filterMap fields) } := by
  refine ⟨rfl, ?_, hhead, hplain, ?_⟩
  · rw [map_number, map_number, List.map_filterMap, List.map_filterMap, List.filterMap_filter]
    exact congrArg (number id) (List.filterMap_congr fun e _ => hrow e)
  · intro r hr
    obtain ⟨row, hmem, id', rfl⟩ := mem_number hr
    obtain ⟨e, -, he⟩ := List.mem_filterMap.mp hmem
    exact hok e row he id'

theorem render_num (text : List UInt8) : render b.escape (Field.num text).tokens = text :=
  render_plain text

theorem render_str (value : List UInt8) :
    render b.escape (Field.str value).tokens = quote (value.flatMap b.escape) := by
  have hq : bytes "'" = [squote] := by decide
  simp [Field.tokens, quoted, quote, hq]

/-- A loop takes the eligible entries of its type. -/
theorem historyLoop_eq {β : Type} (row : Sample Double → Option β) (e : Sample Double) :
    historyLoop row e = if stored e then row e else none := by
  unfold historyLoop stored
  by_cases hk : e.keepHistory = 0
  · simp [hk]
  · cases row e with
    | none => simp
    | some r => cases e.valueNull <;> simp [hk]

theorem map_historyLoop {β γ : Type} {row : Sample Double → Option β} {g : β → γ}
    {fields : Option γ} {e : Sample Double} (h : (row e).map g = fields) :
    (historyLoop row e).map g = if stored e then fields else none := by
  rw [historyLoop_eq, ← h]
  split <;> rfl

/-- A bare text is its own literal body. -/
theorem flatMap_escape_of_bare {text : List UInt8} (h : Bare text) :
    text.flatMap b.escape = text := by
  induction text with
  | nil => rfl
  | cons c s ih =>
      have hc : ¬b.special c := by
        have := h c (List.mem_cons_self ..)
        simp [Backend.special, this]
      rw [List.flatMap_cons, Backend.escape_plain hc, ih fun x hx => h x (List.mem_cons_of_mem _ hx)]
      rfl

theorem render_bareField {text : List UInt8} (h : Bare text) :
    render b.escape (Field.str text).tokens = quote text := by
  rw [render_str, flatMap_escape_of_bare h]

theorem render_strField (value : List UInt8) (n : Nat) :
    render b.escape (Field.str ((kept value).take n)).tokens =
      quote (dbDynEscapeStringLen b value n) := by
  rw [render_str, dbDynEscapeStringLen_eq]

theorem render_textField (value : List UInt8) :
    render b.escape (Field.str (kept value)).tokens = quote (dbDynEscapeString b value) := by
  rw [render_str, dbDynEscapeString_eq]

/-- A row of fields is rendered field by field. -/
theorem render_rowTokens (f : Field) (fs : List Field) :
    render b.escape (rowTokens (f :: fs)) =
      bytes "(" ++ render b.escape f.tokens ++
        (fs.flatMap fun g => bytes "," ++ render b.escape g.tokens) ++ bytes ")" := by
  have hc : bytes "," = [comma] := by decide
  have hfields : render b.escape (fieldsTokens (f :: fs)) =
      render b.escape f.tokens ++ fs.flatMap fun g => bytes "," ++ render b.escape g.tokens := by
    induction fs generalizing f with
    | nil => simp [fieldsTokens]
    | cons g fs ih => simp [fieldsTokens, ih, hc]
  simp [rowTokens, hfields]

/-- A tuple format and the fields that it formats around a value. -/
structure TupleRenders (b : Backend) (tuple : Sample Double → List UInt8 → List UInt8)
    (fields : Sample Double → Field → List Field) : Prop where
  render : ∀ e v, tuple e (render b.escape v.tokens) = render b.escape (rowTokens (fields e v))
  ok : ∀ e v, v.Ok → ∀ f ∈ fields e v, f.Ok

theorem tupleRenders_values : TupleRenders b valuesTuple valuesFields := by
  constructor
  · intro e v
    simp [valuesTuple, valuesFields, render_rowTokens, render_num]
  · intro e v hv
    simpa [valuesFields, Field.Ok] using ⟨(bare_ui64 _).squote, (bare_d32 _).squote, hv⟩

theorem tupleRenders_sync : TupleRenders b syncTuple syncFields := by
  constructor
  · intro e v
    simp [syncTuple, syncFields, render_rowTokens, render_num]
  · intro e v hv
    simpa [syncFields, Field.Ok] using
      ⟨(bare_d32 _).squote, (bare_ui64 _).squote, (bare_d32 _).squote, hv⟩

/-- A loop over values formats the rows of its table. -/
theorem formats_values {head : List UInt8} {tuple : Sample Double → List UInt8 → List UInt8}
    {fields : Sample Double → Field → List Field} (ht : TupleRenders b tuple fields)
    {p : Sample Double → Bool} {row : Sample Double → Option MassRow}
    {field : Sample Double → Option Field}
    (hrow : ∀ e, (row e).map MassRow.values =
      if p e then (field e).map fun v => tuple e (render b.escape v.tokens) else none)
    (hok : ∀ e v, field e = some v → v.Ok) (hhead : HeadOk head) (hplain : squote ∉ head)
    (history : List (Sample Double)) :
    Formats b { head, rows := history.filterMap row }
      { head, rows := (history.filter p).filterMap fun e => (field e).map (fields e) } := by
  apply formats_filterMap _ hhead hplain
  · intro e r he
    obtain ⟨v, hv, rfl⟩ := Option.map_eq_some_iff.mp he
    exact ht.ok e v (hok e v hv)
  · intro e
    rw [hrow e, Option.map_map]
    exact congrArg (fun o => if p e then o else none)
      (congrFun (congrArg _ (funext fun v => ht.render e v)) _)

/-- A loop over the stored entries formats the rows of its table. -/
theorem formats_stored {tuple : Sample Double → List UInt8 → List UInt8}
    {fields : Sample Double → Field → List Field} (ht : TupleRenders b tuple fields)
    {row : Sample Double → Option MassRow} {field : Sample Double → Option Field}
    (hrow : ∀ e, (row e).map MassRow.values =
      (field e).map fun v => tuple e (render b.escape v.tokens))
    (hok : ∀ e v, field e = some v → v.Ok) {head : List UInt8} (hhead : HeadOk head)
    (hplain : squote ∉ head) (history : List (Sample Double)) :
    Formats b { head, rows := history.filterMap (historyLoop row) }
      { head, rows := (history.filter stored).filterMap fun e => (field e).map (fields e) } :=
  formats_values ht (fun e => map_historyLoop (hrow e)) hok hhead hplain history

theorem ok_floatField (e : Sample Double) (v : Field) (h : floatField e = some v) : v.Ok := by
  unfold floatField at h
  split at h
  · cases h
    exact (bare_lf _).squote
  · cases h

theorem ok_uintField (e : Sample Double) (v : Field) (h : uintField e = some v) : v.Ok := by
  unfold uintField at h
  split at h
  · cases h
    exact (bare_ui64 _).squote
  · cases h

theorem ok_strField (e : Sample Double) (v : Field) (h : strField e = some v) : v.Ok := by
  unfold strField at h
  split at h
  · cases h
    trivial
  · cases h

theorem formats_history {tuple : Sample Double → List UInt8 → List UInt8}
    {fields : Sample Double → Field → List Field} (ht : TupleRenders b tuple fields)
    {head : List UInt8} (hhead : HeadOk head) (hplain : squote ∉ head)
    (history : List (Sample Double)) :
    Formats b { head, rows := history.filterMap (historyRow tuple) }
      { head
        rows := (history.filter stored).filterMap fun e => (floatField e).map (fields e) } := by
  refine formats_stored ht (fun e => ?_) ok_floatField hhead hplain history
  cases hv : e.value <;> simp [floatField, hv, render_num]

theorem formats_historyUint {tuple : Sample Double → List UInt8 → List UInt8}
    {fields : Sample Double → Field → List Field} (ht : TupleRenders b tuple fields)
    {head : List UInt8} (hhead : HeadOk head) (hplain : squote ∉ head)
    (history : List (Sample Double)) :
    Formats b { head, rows := history.filterMap (historyUintRow tuple) }
      { head
        rows := (history.filter stored).filterMap fun e => (uintField e).map (fields e) } := by
  refine formats_stored ht (fun e => ?_) ok_uintField hhead hplain history
  cases hv : e.value <;> simp [uintField, hv, render_num]

theorem formats_historyStr {tuple : Sample Double → List UInt8 → List UInt8}
    {fields : Sample Double → Field → List Field} (ht : TupleRenders b tuple fields)
    {head : List UInt8} (hhead : HeadOk head) (hplain : squote ∉ head)
    (history : List (Sample Double)) :
    Formats b { head, rows := history.filterMap (historyStrRow b tuple) }
      { head
        rows := (history.filter stored).filterMap fun e => (strField e).map (fields e) } := by
  refine formats_stored ht (fun e => ?_) ok_strField hhead hplain history
  cases hv : e.value <;> simp [strField, hv, render_strField]

theorem formats_historyText (id : UInt64) (history : List (Sample Double)) :
    Formats b
      { head := historyTextHead, rows := number id (history.filterMap (historyTextRow b)) }
      { head := historyTextHead
        rows := number id ((history.filter stored).filterMap textFields) } := by
  apply formats_number _ (by decide) (by decide)
  · intro e r hr id
    unfold textFields at hr
    split at hr
    · cases hr
      simp [Field.Ok, (bare_ui64 _).squote, (bare_d32 _).squote]
    · cases hr
  · intro e
    apply map_historyLoop
    cases hv : e.value <;>
      simp [textFields, hv, Function.comp_def, render_rowTokens, render_num, render_textField]

theorem formats_historyLog (id : UInt64) (history : List (Sample Double)) :
    Formats b
      { head := historyLogHead, rows := number id (history.filterMap (historyLogRow b)) }
      { head := historyLogHead
        rows := number id ((history.filter stored).filterMap logFields) } := by
  apply formats_number _ (by decide) (by decide)
  · intro e r hr id
    unfold logFields at hr
    split at hr
    · cases hr
      simp [Field.Ok, (bare_ui64 _).squote, (bare_d32 _).squote]
    · cases hr
  · intro e
    apply map_historyLoop
    cases hv : e.value <;>
      simp [logFields, hv, Function.comp_def, render_rowTokens, render_num, render_textField,
        render_strField]

/-- The sections of `DCmass_add_history` format the rows to be stored. -/
theorem formats_massHistory (b : Backend) (node : NodeConfig)
    (dbGetMaxidNum : String → Nat → UInt64) (history : List (Sample Double)) :
    List.Forall₂ (Formats b) (massHistorySections b node dbGetMaxidNum history)
      (historyInserts node dbGetMaxidNum history) := by
  have hone : ∀ {s i}, Formats b s i → List.Forall₂ (Formats b) [s] [i] :=
    fun h => .cons h .nil
  have hif : ∀ {c : Prop} [Decidable c] {s i}, Formats b s i →
      List.Forall₂ (Formats b) (if c then [s] else []) (if c then [i] else []) := by
    intro c _ s i h
    split
    · exact hone h
    · exact .nil
  have hv := tupleRenders_values (b := b)
  have hs := tupleRenders_sync (b := b)
  unfold massHistorySections historyInserts
  refine List.rel_append ?_ (hif (formats_historyLog _ history))
  refine List.rel_append ?_ (hif (formats_historyText _ history))
  refine List.rel_append ?_ (hif (formats_historyStr hs (by decide) (by decide) history))
  refine List.rel_append ?_ (hone (formats_historyStr hv (by decide) (by decide) history))
  refine List.rel_append ?_ (hif (formats_historyUint hs (by decide) (by decide) history))
  refine List.rel_append ?_ (hone (formats_historyUint hv (by decide) (by decide) history))
  refine List.rel_append ?_ (hif (formats_history hs (by decide) (by decide) history))
  exact hone (formats_history hv (by decide) (by decide) history)

/-- The value of a proxy's row is a literal. -/
theorem formats_proxy {row : Sample Double → Option MassRow}
    {field : Sample Double → Option Field}
    (hrow : ∀ e, (row e).map MassRow.values =
      (field e).map fun v => valuesTuple e (render b.escape v.tokens))
    (hok : ∀ e v, field e = some v → v.Ok) (history : List (Sample Double)) :
    Formats b { head := proxyHistoryHead, rows := history.filterMap row }
      { head := proxyHistoryHead
        rows := history.filterMap fun e => (field e).map (valuesFields e) } := by
  have h := formats_values (p := fun _ => true) tupleRenders_values
    (by simpa using hrow) hok (by decide : HeadOk proxyHistoryHead) (by decide) history
  rwa [List.filter_true] at h

theorem formats_proxyFloat (history : List (Sample Double)) :
    Formats b { head := proxyHistoryHead, rows := history.filterMap proxyFloatRow }
      { head := proxyHistoryHead
        rows := history.filterMap fun e => (proxyFloatField e).map (valuesFields e) } := by
  apply formats_proxy
  · intro e
    cases hv : e.value <;> simp [proxyFloatRow, proxyFloatField, hv, render_bareField (bare_lf _)]
  · intro e v hv
    unfold proxyFloatField at hv
    split at hv <;> cases hv
    trivial

theorem formats_proxyUint (history : List (Sample Double)) :
    Formats b { head := proxyHistoryHead, rows := history.filterMap proxyUintRow }
      { head := proxyHistoryHead
        rows := history.filterMap fun e => (proxyUintField e).map (valuesFields e) } := by
  apply formats_proxy
  · intro e
    cases hv : e.value <;> simp [proxyUintRow, proxyUintField, hv, render_bareField (bare_ui64 _)]
  · intro e v hv
    unfold proxyUintField at hv
    split at hv <;> cases hv
    trivial

theorem formats_proxyStr (history : List (Sample Double)) :
    Formats b { head := proxyHistoryHead, rows := history.filterMap (proxyStrRow b) }
      { head := proxyHistoryHead
        rows := history.filterMap fun e => (proxyStrField e).map (valuesFields e) } := by
  apply formats_proxy
  · intro e
    cases hv : e.value <;> simp [proxyStrRow, proxyStrField, hv, render_textField]
  · intro e v hv
    unfold proxyStrField at hv
    split at hv <;> cases hv
    trivial

theorem formats_proxyText (history : List (Sample Double)) :
    Formats b { head := proxyHistoryHead, rows := history.filterMap (proxyTextRow b) }
      { head := proxyHistoryHead
        rows := history.filterMap fun e => (proxyTextField e).map (valuesFields e) } := by
  apply formats_proxy
  · intro e
    cases hv : e.value <;> simp [proxyTextRow, proxyTextField, hv, render_textField]
  · intro e v hv
    unfold proxyTextField at hv
    split at hv <;> cases hv
    trivial

theorem formats_proxyLog (history : List (Sample Double)) :
    Formats b { head := proxyHistoryLogHead, rows := history.filterMap (proxyLogRow b) }
      { head := proxyHistoryLogHead, rows := history.filterMap proxyLogFields } := by
  have h : Formats b { head := proxyHistoryLogHead, rows := history.filterMap (proxyLogRow b) }
      { head := proxyHistoryLogHead
        rows := (history.filter fun _ => true).filterMap proxyLogFields } := by
    apply formats_filterMap _ (by decide) (by decide)
    · intro e r hr
      unfold proxyLogFields at hr
      split at hr <;> cases hr
      simp [Field.Ok, (bare_ui64 _).squote, (bare_d32 _).squote]
    · intro e
      cases hv : e.value <;>
        simp [proxyLogRow, proxyLogFields, hv, render_rowTokens, render_num, render_textField,
          render_strField]
  rwa [List.filter_true] at h

/-- The sections of `DCmass_proxy_add_history` format the rows to be stored. -/
theorem formats_massProxyHistory (b : Backend) (history : List (Sample Double)) :
    List.Forall₂ (Formats b) (massProxyHistorySections b history)
      (proxyHistoryInserts history) :=
  .cons (formats_proxyFloat history) (.cons (formats_proxyUint history)
    (.cons (formats_proxyStr history) (.cons (formats_proxyText history)
      (.cons (formats_proxyLog history) .nil))))

end Zabbix
