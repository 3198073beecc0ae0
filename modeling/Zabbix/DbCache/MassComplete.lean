import Zabbix.DbCache.MassStored

/-!
# Zabbix.DbCache.MassComplete

When the mass insert of a batch stores it.  The caps of the numeric, text and
log loops leave room for everything they format.  The loops of character
values allow 512 bytes for a fragment, and escaping may double a value, so a
batch is stored exactly when each of its character values fits
(`massHistory_stores_iff`).
-/

namespace Zabbix

open Ascii Printf SqlLiteral

variable {b : Backend}

/-! ## lengths -/

theorem length_quote (s : List UInt8) : (quote s).length = s.length + 2 := by
  have h : (bytes "'").length = 1 := by decide
  simp only [quote, List.length_append]
  omega

theorem length_valuesTuple (e : Sample Double) (value : List UInt8) :
    (valuesTuple e value).length =
      (ui64 e.itemid).length + (d32 e.clock).length + value.length + 4 := by
  have h1 : (bytes "(").length = 1 := by decide
  have h2 : (bytes ",").length = 1 := by decide
  have h3 : (bytes ")").length = 1 := by decide
  simp only [valuesTuple, List.length_append]
  omega

theorem length_syncTuple (e : Sample Double) (value : List UInt8) :
    (syncTuple e value).length =
      (d32 (getNodeidById e.itemid)).length + (valuesTuple e value).length + 1 := by
  have h1 : (bytes ",").length = 1 := by decide
  rw [length_valuesTuple]
  have h2 : (bytes "(").length = 1 := by decide
  have h3 : (bytes ")").length = 1 := by decide
  simp only [syncTuple, List.length_append]
  omega

/-- A tuple format adds little to its value. -/
def TupleShort (tuple : Sample Double → List UInt8 → List UInt8) : Prop :=
  ∀ e v, (tuple e v).length ≤ v.length + 47

theorem tupleShort_values : TupleShort valuesTuple := by
  intro e v
  have h1 := length_ui64_le e.itemid
  have h2 := length_d32_le e.clock
  rw [length_valuesTuple]
  omega

theorem tupleShort_sync : TupleShort syncTuple := by
  intro e v
  have h1 := length_ui64_le e.itemid
  have h2 := length_d32_le e.clock
  have h3 := length_d32_le (getNodeidById e.itemid)
  rw [length_syncTuple, length_valuesTuple]
  omega

theorem fits_filterMap_iff (b : Backend) (head : List UInt8) (row : Sample Double → Option MassRow)
    (history : List (Sample Double)) :
    MassSection.Fits b { head, rows := history.filterMap row } ↔
      ∀ e ∈ history, ∀ r, row e = some r → b.overhead head + r.values.length < r.maxLen := by
  simp only [MassSection.Fits, length_fragment, List.mem_filterMap]
  grind

theorem fits_number {head : List UInt8} {row : Sample Double → Option (UInt64 → MassRow)}
    (h : ∀ e r, row e = some r → ∀ id, b.overhead head + (r id).values.length < (r id).maxLen)
    (id : UInt64) (history : List (Sample Double)) :
    MassSection.Fits b { head, rows := number id (history.filterMap row) } := by
  intro r hr
  obtain ⟨f, hf, id', rfl⟩ := mem_number hr
  obtain ⟨e, -, he⟩ := List.mem_filterMap.mp hf
  rw [length_fragment]
  exact h e f he id'

theorem historyLoop_eq_some {β : Type} {row : Sample Double → Option β} {e : Sample Double} {r : β} :
    historyLoop row e = some r ↔ stored e ∧ row e = some r := by
  rw [historyLoop_eq]
  split <;> simp_all

/-! ## the fragments of the server -/

theorem fits_history {head : List UInt8} {tuple : Sample Double → List UInt8 → List UInt8}
    (ht : TupleShort tuple) (hhead : head.length ≤ 100) (history : List (Sample Double)) :
    MassSection.Fits b { head, rows := history.filterMap (historyRow tuple) } := by
  rw [fits_filterMap_iff]
  intro e _ r hr
  have ho := overhead_le b head
  have hrow := (historyLoop_eq_some.mp hr).2
  split at hrow <;> cases hrow
  next o value _ =>
    have hv := length_lf_le value
    have hl := ht e (lf value)
    dsimp only
    omega

theorem fits_historyUint {head : List UInt8} {tuple : Sample Double → List UInt8 → List UInt8}
    (ht : TupleShort tuple) (hhead : head.length ≤ 100) (history : List (Sample Double)) :
    MassSection.Fits b { head, rows := history.filterMap (historyUintRow tuple) } := by
  rw [fits_filterMap_iff]
  intro e _ r hr
  have ho := overhead_le b head
  have hrow := (historyLoop_eq_some.mp hr).2
  split at hrow <;> cases hrow
  next o value _ =>
    have hv := length_ui64_le value
    have hl := ht e (ui64 value)
    dsimp only
    omega

theorem fits_historyText (id : UInt64) (history : List (Sample Double)) :
    MassSection.Fits b
      { head := historyTextHead, rows := number id (history.filterMap (historyTextRow b)) } := by
  apply fits_number
  intro e r hr id
  have ho := overhead_le b historyTextHead
  have hh : historyTextHead.length ≤ 100 := by decide
  have hrow := (historyLoop_eq_some.mp hr).2
  split at hrow <;> cases hrow
  have h1 := length_ui64_le id
  have h2 := length_ui64_le e.itemid
  have h3 := length_d32_le e.clock
  have hopen : (bytes "(").length = 1 := by decide
  have hcomma : (bytes ",").length = 1 := by decide
  have hclose : (bytes ")").length = 1 := by decide
  simp only [List.length_append, length_quote]
  omega

theorem fits_historyLog (id : UInt64) (history : List (Sample Double)) :
    MassSection.Fits b
      { head := historyLogHead, rows := number id (history.filterMap (historyLogRow b)) } := by
  apply fits_number
  intro e r hr id
  have ho := overhead_le b historyLogHead
  have hh : historyLogHead.length ≤ 100 := by decide
  have hrow := (historyLoop_eq_some.mp hr).2
  split at hrow <;> cases hrow
  next valueStr timestamp source severity _ _ =>
    have h1 := length_ui64_le id
    have h2 := length_ui64_le e.itemid
    have h3 := length_d32_le e.clock
    have h4 := length_d32_le timestamp
    have h5 := length_d32_le severity
    have h6 := length_dbDynEscapeStringLen_le b (source.getD []) historyLogSourceLen
    have hmax : historyLogSourceLen = 64 := rfl
    have hopen : (bytes "(").length = 1 := by decide
    have hcomma : (bytes ",").length = 1 := by decide
    have hclose : (bytes ")").length = 1 := by decide
    simp only [List.length_append, length_quote]
    omega

/-- The rows of character values fit when each of them does. -/
theorem fits_historyStr_iff {head : List UInt8} (tuple : Sample Double → List UInt8 → List UInt8)
    (history : List (Sample Double)) :
    MassSection.Fits b { head, rows := history.filterMap (historyStrRow b tuple) } ↔
      ∀ e ∈ history, ∀ valueStr, e.value = .str valueStr → stored e →
        b.overhead head +
          (tuple e (quote (dbDynEscapeStringLen b valueStr historyStrValueLen))).length < 512 := by
  rw [fits_filterMap_iff]
  apply forall₂_congr
  intro e _
  constructor
  · intro h valueStr hv hs
    apply h
      { values := tuple e (quote (dbDynEscapeStringLen b valueStr historyStrValueLen))
        maxLen := 512 }
    rw [historyStrRow, historyLoop_eq_some]
    exact ⟨hs, by rw [hv]⟩
  · intro h r hr
    obtain ⟨hs, hrow⟩ := historyLoop_eq_some.mp hr
    split at hrow <;> cases hrow
    next valueStr hv => exact h valueStr hv hs

/-! ## the fragments of the proxy -/

theorem fits_proxyFloat (history : List (Sample Double)) :
    MassSection.Fits b { head := proxyHistoryHead, rows := history.filterMap proxyFloatRow } := by
  rw [fits_filterMap_iff]
  intro e _ r hr
  have ho := overhead_le b proxyHistoryHead
  have hh : proxyHistoryHead.length ≤ 100 := by decide
  unfold proxyFloatRow at hr
  split at hr <;> cases hr
  next valueOrig _ _ =>
    have hv := length_lf_le valueOrig
    have hl := tupleShort_values e (quote (lf valueOrig))
    rw [length_quote] at hl
    dsimp only
    omega

theorem fits_proxyUint (history : List (Sample Double)) :
    MassSection.Fits b { head := proxyHistoryHead, rows := history.filterMap proxyUintRow } := by
  rw [fits_filterMap_iff]
  intro e _ r hr
  have ho := overhead_le b proxyHistoryHead
  have hh : proxyHistoryHead.length ≤ 100 := by decide
  unfold proxyUintRow at hr
  split at hr <;> cases hr
  next valueOrig _ _ =>
    have hv := length_ui64_le valueOrig
    have hl := tupleShort_values e (quote (ui64 valueOrig))
    rw [length_quote] at hl
    dsimp only
    omega

theorem fits_proxyText (history : List (Sample Double)) :
    MassSection.Fits b
      { head := proxyHistoryHead, rows := history.filterMap (proxyTextRow b) } := by
  rw [fits_filterMap_iff]
  intro e _ r hr
  have ho := overhead_le b proxyHistoryHead
  have hh : proxyHistoryHead.length ≤ 100 := by decide
  unfold proxyTextRow at hr
  split at hr <;> cases hr
  next valueStr _ =>
    have hl := tupleShort_values e (quote (dbDynEscapeString b valueStr))
    rw [length_quote] at hl
    dsimp only
    omega

theorem fits_proxyLog (history : List (Sample Double)) :
    MassSection.Fits b
      { head := proxyHistoryLogHead, rows := history.filterMap (proxyLogRow b) } := by
  rw [fits_filterMap_iff]
  intro e _ r hr
  have ho := overhead_le b proxyHistoryLogHead
  have hh : proxyHistoryLogHead.length ≤ 100 := by decide
  unfold proxyLogRow at hr
  split at hr <;> cases hr
  next valueStr timestamp source severity _ _ =>
    have h1 := length_ui64_le e.itemid
    have h2 := length_d32_le e.clock
    have h3 := length_d32_le timestamp
    have h4 := length_d32_le severity
    have h5 := length_dbDynEscapeStringLen_le b (source.getD []) historyLogSourceLen
    have hmax : historyLogSourceLen = 64 := rfl
    have hopen : (bytes "(").length = 1 := by decide
    have hcomma : (bytes ",").length = 1 := by decide
    have hclose : (bytes ")").length = 1 := by decide
    simp only [List.length_append, length_quote]
    omega

theorem fits_proxyStr_iff (history : List (Sample Double)) :
    MassSection.Fits b { head := proxyHistoryHead, rows := history.filterMap (proxyStrRow b) } ↔
      ∀ e ∈ history, ∀ valueStr, e.value = .str valueStr →
        b.overhead proxyHistoryHead +
          (valuesTuple e (quote (dbDynEscapeString b valueStr))).length < 512 := by
  rw [fits_filterMap_iff]
  apply forall₂_congr
  intro e _
  constructor
  · intro h valueStr hv
    apply h { values := valuesTuple e (quote (dbDynEscapeString b valueStr)), maxLen := 512 }
    rw [proxyStrRow, hv]
  · intro h r hr
    unfold proxyStrRow at hr
    split at hr <;> cases hr
    next valueStr hv => exact h valueStr hv

/-! ## the condition -/

/-- The fragments of a character value are shorter than 512 bytes: the
statement head (except on MySQL), six bytes of punctuation, the item, the
clock and the escaped value; for the master node also the node and a comma. -/
def StrFits (b : Backend) (node : NodeConfig) (e : Sample Double) : Prop :=
  ∀ valueStr, e.value = .str valueStr → stored e →
    let data := (ui64 e.itemid).length + (d32 e.clock).length +
      (dbDynEscapeStringLen b valueStr historyStrValueLen).length
    b.overhead historyStrHead + data + 6 < 512 ∧
      (node.distributed →
        b.overhead historyStrSyncHead + (d32 (getNodeidById e.itemid)).length + data + 7 < 512)

/-- The same for the proxy, which stores every value. -/
def ProxyStrFits (b : Backend) (e : Sample Double) : Prop :=
  ∀ valueStr, e.value = .str valueStr →
    b.overhead proxyHistoryHead + (ui64 e.itemid).length + (d32 e.clock).length +
      (dbDynEscapeString b valueStr).length + 6 < 512

/-- The sections of the server fit when its character values do. -/
theorem fits_massHistory_iff (b : Backend) (node : NodeConfig)
    (dbGetMaxidNum : String → Nat → UInt64) (history : List (Sample Double)) :
    (∀ s ∈ massHistorySections b node dbGetMaxidNum history, s.Fits b) ↔
      ∀ e ∈ history, StrFits b node e := by
  have hif : ∀ (c : Prop) [Decidable c] (s : MassSection),
      (∀ x ∈ (if c then [s] else []), x.Fits b) ↔ (c → s.Fits b) := by
    intro c _ s
    split <;> simp_all
  have hv := tupleShort_values
  have hs := tupleShort_sync
  simp only [massHistorySections, List.forall_mem_append, hif, List.forall_mem_singleton]
  simp only [fits_history hv (by decide : historyHead.length ≤ 100),
    fits_history hs (by decide : historySyncHead.length ≤ 100),
    fits_historyUint hv (by decide : historyUintHead.length ≤ 100),
    fits_historyUint hs (by decide : historyUintSyncHead.length ≤ 100),
    fits_historyText, fits_historyLog, fits_historyStr_iff, length_valuesTuple, length_syncTuple,
    length_quote, implies_true, true_and, and_true]
  constructor
  · rintro ⟨h, hd⟩ e he valueStr hvalue hst
    have h1 := h e he valueStr hvalue hst
    refine ⟨by omega, fun hdist => ?_⟩
    have h2 := hd hdist e he valueStr hvalue hst
    omega
  · intro h
    constructor
    · intro e he valueStr hvalue hst
      have h1 := (h e he valueStr hvalue hst).1
      omega
    · intro hdist e he valueStr hvalue hst
      have h2 := (h e he valueStr hvalue hst).2 hdist
      omega

/-- The sections of the proxy fit when its character values do. -/
theorem fits_massProxyHistory_iff (b : Backend) (history : List (Sample Double)) :
    (∀ s ∈ massProxyHistorySections b history, s.Fits b) ↔ ∀ e ∈ history, ProxyStrFits b e := by
  simp only [massProxyHistorySections, List.forall_mem_cons, List.not_mem_nil, IsEmpty.forall_iff,
    implies_true, fits_proxyFloat, fits_proxyUint, fits_proxyText, fits_proxyLog,
    fits_proxyStr_iff, length_valuesTuple, length_quote, true_and, and_true]
  apply forall₂_congr
  intro e _
  apply forall₂_congr
  intro valueStr _
  omega

/-- `DCmass_add_history` stores its batch exactly when the character values
fit. -/
theorem dcMassAddHistory_stores_iff (b : Backend) (rule : UnescapeRule) (node : NodeConfig)
    (dbGetMaxidNum : String → Nat → UInt64) (history : List (Sample Double)) :
    Stores b rule (historyInserts node dbGetMaxidNum history)
        (dcMassAddHistorySql b node dbGetMaxidNum history) ↔
      ∀ e ∈ history, StrFits b node e := by
  rw [dcMassAddHistorySql, stores_iff b rule (formats_massHistory b node dbGetMaxidNum history),
    fits_massHistory_iff]

/-- `DCmass_proxy_add_history` stores its batch exactly when the character
values fit. -/
theorem dcMassProxyAddHistory_stores_iff (b : Backend) (rule : UnescapeRule)
    (history : List (Sample Double)) :
    Stores b rule (proxyHistoryInserts history) (dcMassProxyAddHistorySql b history) ↔
      ∀ e ∈ history, ProxyStrFits b e := by
  rw [dcMassProxyAddHistorySql, stores_iff b rule (formats_massProxyHistory b history),
    fits_massProxyHistory_iff]

/-- **A batch is stored exactly when its character values fit**: on every
backend, for every batch, the SQL text of the server and of the proxy is the
text with one closed tuple for each value to be stored, and with nothing else,
if and only if every fragment of a character value stays below 512 bytes. -/
theorem massHistory_stores_iff (b : Backend) (rule : UnescapeRule) (node : NodeConfig)
    (dbGetMaxidNum : String → Nat → UInt64) (history : List (Sample Double)) :
    (Stores b rule (historyInserts node dbGetMaxidNum history)
        (dcMassAddHistorySql b node dbGetMaxidNum history) ↔
      ∀ e ∈ history, StrFits b node e) ∧
    (Stores b rule (proxyHistoryInserts history) (dcMassProxyAddHistorySql b history) ↔
      ∀ e ∈ history, ProxyStrFits b e) :=
  ⟨dcMassAddHistory_stores_iff b rule node dbGetMaxidNum history,
    dcMassProxyAddHistory_stores_iff b rule history⟩

/-- A character value of 255 quotes. -/
def quotesSample : Sample Double :=
  { itemid := 1, clock := 1, value := .str (List.replicate 255 squote), keepHistory := 1 }

/-- With `HAVE_MYSQL`, a value of 255 quotes is cut out of its tuple. -/
theorem massHistory_quotes_cut :
    ¬Stores .mysql ⟨fun c => [c], rfl, rfl⟩
      (historyInserts { nodeNohistory := 1, masterNodeid := 0 } (fun _ _ => 1) [quotesSample])
      (dcMassAddHistorySql .mysql { nodeNohistory := 1, masterNodeid := 0 } (fun _ _ => 1)
        [quotesSample]) := by
  rw [dcMassAddHistory_stores_iff]
  intro h
  have hfit := (h quotesSample (List.mem_singleton_self _) _ rfl rfl).1
  revert hfit
  decide +kernel

end Zabbix
