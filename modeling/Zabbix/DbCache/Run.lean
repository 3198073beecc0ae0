import Zabbix.DbCache.Text

/-!
# Zabbix.DbCache.Run

Runs of the history cache.  A run starts from the cache that
`init_database_cache` leaves, whatever the shared memory segment held, and
interleaves `DCadd_history*` calls, batch extractions and compactions in any
order; a call that finds no room leaves only a compacted text buffer behind
and may be tried again later.

Beside the cache a run records the values admitted (`added`), the values taken
(`delivered`) and the abstract queue (`queued`), which is kept as lists and
never reads the ring or the text buffer.  `HistoryInv` says that the cache
refines that queue, and the two main theorems read off it:

* `historyCache_fifo`: exactly-once delivery, in order for each item;
* `textBuffer_integrity`: every queued string is where its entry points.
-/

namespace Zabbix

variable {δ : Type}

/-! ## calls -/

/-- The arguments of a `DCadd_history*` call. -/
inductive HistoryCall (δ : Type)
  | float (itemid : UInt64) (valueOrig : δ) (clock : Int32)
  | uint (itemid : UInt64) (valueOrig : UInt64) (clock : Int32)
  | str (itemid : UInt64) (valueOrig : CString) (clock : Int32)
  | text (itemid : UInt64) (valueOrig : CString) (clock : Int32)
  | log (itemid : UInt64) (valueOrig : CString) (clock timestamp : Int32)
      (source : Option CString) (severity lastlogsize : Int32)

namespace HistoryCall

/-- Run the call on the cache. -/
def apply [Zero δ] (c : ZbxDcCache δ) : HistoryCall δ → HistoryAdd δ
  | float itemid valueOrig clock => dcAddHistory c itemid valueOrig clock
  | uint itemid valueOrig clock => dcAddHistoryUint c itemid valueOrig clock
  | str itemid valueOrig clock => dcAddHistoryStr c itemid valueOrig clock
  | text itemid valueOrig clock => dcAddHistoryText c itemid valueOrig clock
  | log itemid valueOrig clock timestamp source severity lastlogsize =>
      dcAddHistoryLog c itemid valueOrig clock timestamp source severity lastlogsize

/-- The value that the call hands over, its strings cut to the length that the
cache stores; a log source that is NULL or empty is absent. -/
def sample [Zero δ] : HistoryCall δ → Sample δ
  | float itemid valueOrig clock => { itemid, clock, value := .float valueOrig 0 }
  | uint itemid valueOrig clock => { itemid, clock, value := .uint64 valueOrig 0 }
  | str itemid valueOrig clock =>
      { itemid, clock, value := .str (valueOrig.val.take historyStrValueLen) }
  | text itemid valueOrig clock =>
      { itemid, clock, value := .text (valueOrig.val.take historyTextValueLen) }
  | log itemid valueOrig clock timestamp source severity lastlogsize =>
      { itemid, clock
        value := .log (valueOrig.val.take historyLogValueLen) timestamp
          ((source.filter fun s => s.val ≠ []).map fun s => s.val.take historyLogSourceLen)
          severity lastlogsize }

end HistoryCall

/-- What an add leaves, given how its entry is placed in the text buffer: the
layout survives, and when the entry is admitted its sample joins the queue. -/
theorem TextLayout.addHistoryWith {c : ZbxDcCache δ} {es : List (Placed δ)}
    (h : TextLayout c es) {textLen : Nat} (hlen : textLen ≤ zbxTextbufferSize)
    (placed : Nat → Placed δ) (store : Mem → Nat → Mem) {s : Sample δ}
    (hs : ∀ p, (placed p).map Prod.snd = s)
    (hstore : ∀ m hi rs, Mem.Laid m hi 0 rs →
      Mem.Laid (store m hi) (hi + textLen) 0 (rs ++ (placed hi).value.strings)) :
    match dcAddHistoryWith c textLen (fun p => (placed p).map Prod.fst) store with
    | .exit => False
    | .retry c' => ∃ es', TextLayout c' es' ∧ given es' = given es
    | .done c' => ∃ es', TextLayout c' es' ∧ given es' = given es ++ [s] := by
  have hp := h.getHistoryPtr textLen
  unfold dcAddHistoryWith
  cases hptr : dcGetHistoryPtr c textLen with
  | exit =>
      rw [hptr] at hp
      exact absurd hlen (Nat.not_le.mpr hp)
  | retry c' => rwa [hptr] at hp
  | ptr c' hnum =>
      rw [hptr] at hp
      obtain ⟨hroom, es', hl, hg⟩ := hp
      refine ⟨es' ++ [placed c'.lastText],
        hl.add hnum (placed c'.lastText) (store c'.text c'.lastText) hroom
          (hstore _ _ _ hl.laid), ?_⟩
      rw [given, List.map_append, List.map_singleton, hs, ← given, hg]

/-- **Each `DCadd_history*` call** keeps the layout and appends its sample; it
never asks for more text than the buffer can hold. -/
theorem TextLayout.apply [Zero δ] {c : ZbxDcCache δ} {es : List (Placed δ)}
    (h : TextLayout c es) (call : HistoryCall δ) :
    match call.apply c with
    | .exit => False
    | .retry c' => ∃ es', TextLayout c' es' ∧ given es' = given es
    | .done c' => ∃ es', TextLayout c' es' ∧ given es' = given es ++ [call.sample] := by
  cases call with
  | float itemid valueOrig clock =>
      exact h.addHistoryWith (Nat.zero_le _)
        (fun _ => { itemid, clock, value := .float valueOrig 0 }) (fun m _ => m) (fun _ => rfl)
        (fun _ _ _ hl => by simpa [HistoryValue.strings] using hl)
  | uint itemid valueOrig clock =>
      exact h.addHistoryWith (Nat.zero_le _)
        (fun _ => { itemid, clock, value := .uint64 valueOrig 0 }) (fun m _ => m) (fun _ => rfl)
        (fun _ _ _ hl => by simpa [HistoryValue.strings] using hl)
  | str itemid valueOrig clock =>
      exact h.addHistoryWith (le_trans (textLenMax_le _ _) (by decide))
        (fun p =>
          { itemid, clock, value := .str (p, valueOrig.val.take historyStrValueLen) })
        (fun m p => zbxStrlcpy m p valueOrig.val
          (textLenMax valueOrig.val historyStrValueLenMax)) (fun _ => rfl)
        (fun _ _ _ hl => laid_zbxStrlcpy hl valueOrig historyStrValueLen)
  | text itemid valueOrig clock =>
      exact h.addHistoryWith (le_trans (textLenMax_le _ _) (by decide))
        (fun p =>
          { itemid, clock, value := .text (p, valueOrig.val.take historyTextValueLen) })
        (fun m p => zbxStrlcpy m p valueOrig.val
          (textLenMax valueOrig.val historyTextValueLenMax)) (fun _ => rfl)
        (fun _ _ _ hl => laid_zbxStrlcpy hl valueOrig historyTextValueLen)
  | log itemid valueOrig clock timestamp source severity lastlogsize =>
      simp only [HistoryCall.apply, HistoryCall.sample, dcAddHistoryLog]
      cases source.filter fun s => s.val ≠ [] with
      | none =>
          exact h.addHistoryWith (le_trans (textLenMax_le _ _) (by decide))
            (fun p =>
              { itemid, clock
                value := .log (p, valueOrig.val.take historyLogValueLen) timestamp none severity
                  lastlogsize })
            (fun m p => zbxStrlcpy m p valueOrig.val
              (textLenMax valueOrig.val historyLogValueLenMax)) (fun _ => rfl)
            (fun _ _ _ hl => laid_zbxStrlcpy hl valueOrig historyLogValueLen)
      | some source =>
          have hlen : textLenMax valueOrig.val historyLogValueLenMax +
              textLenMax source.val historyLogSourceLenMax ≤ zbxTextbufferSize :=
            le_trans (Nat.add_le_add (textLenMax_le _ _) (textLenMax_le _ _)) (by decide)
          refine h.addHistoryWith hlen
            (fun p =>
              { itemid, clock
                value := .log (p, valueOrig.val.take historyLogValueLen) timestamp
                  (some (p + textLenMax valueOrig.val historyLogValueLenMax,
                    source.val.take historyLogSourceLen)) severity lastlogsize })
            (fun m p => zbxStrlcpy
              (zbxStrlcpy m p valueOrig.val (textLenMax valueOrig.val historyLogValueLenMax))
              (p + textLenMax valueOrig.val historyLogValueLenMax) source.val
              (textLenMax source.val historyLogSourceLenMax)) (fun _ => rfl) ?_
          intro m hi rs hl
          have h1 := laid_zbxStrlcpy hl valueOrig historyLogValueLen
          have h2 := laid_zbxStrlcpy h1 source historyLogSourceLen
          rw [List.append_assoc, Nat.add_assoc] at h2
          exact h2

/-- Taking a batch keeps the layout of what stays. -/
theorem TextLayout.sync {c : ZbxDcCache δ} {es : List (Placed δ)} (h : TextLayout c es)
    (p : ZbxProcess) :
    ∃ es', TextLayout (dcSyncBatch p c).cache es' ∧
      given es' = (Batch.extract (syncSkip p) zbxSyncMax [] (given es)).2 := by
  obtain ⟨-, hq, ht, hl⟩ := dcSyncBatch_eq p c
  have hfst := Batch.extract_map (ZbxDcHistory.map Prod.fst) (syncSkip p) (syncSkip p)
    (fun taken (e : Placed δ) => syncSkip_map p Prod.fst taken e) zbxSyncMax [] es
  have hsnd := Batch.extract_map (ZbxDcHistory.map Prod.snd) (syncSkip p) (syncSkip p)
    (fun taken (e : Placed δ) => syncSkip_map p Prod.snd taken e) zbxSyncMax [] es
  refine ⟨(Batch.extract (syncSkip p) zbxSyncMax [] es).2, ⟨?_, ?_, ?_⟩, ?_⟩
  · rw [hq, h.queue]
    exact congrArg Prod.snd hfst
  · rw [ht, hl]
    exact h.laid.sublist ((Batch.extract_snd_sublist _ _ _ _).flatMap _)
  · rw [hl]
    exact h.lastText_le
  · exact (congrArg Prod.snd hsnd).symm

/-! ## runs -/

/-- A step of a run. -/
inductive HistoryOp (δ : Type)
  | add (call : HistoryCall δ)
  | vacuum
  | sync

/-- The cache and the record of the run that led to it: the values admitted,
the values taken, and the abstract queue. -/
structure HistoryRun (δ : Type) where
  cache : ZbxDcCache δ
  added : List (Sample δ) := []
  delivered : List (Sample δ) := []
  queued : List (Sample δ) := []

/-- One step.  A call that must wait leaves only the cache it has compacted. -/
def HistoryRun.step [Zero δ] (p : ZbxProcess) (w : HistoryRun δ) : HistoryOp δ → HistoryRun δ
  | .add call =>
      match call.apply w.cache with
      | .exit => w
      | .retry c => { w with cache := c }
      | .done c =>
          { w with
            cache := c, added := w.added ++ [call.sample], queued := w.queued ++ [call.sample] }
  | .vacuum => { w with cache := dcVacuumText w.cache }
  | .sync =>
      { w with
        cache := (dcSyncBatch p w.cache).cache
        delivered := w.delivered ++ (dcSyncBatch p w.cache).history
        queued := (Batch.extract (syncSkip p) zbxSyncMax [] w.queued).2 }

/-- The run of `ops` from the empty cache over any shared memory segment. -/
def historyRun [Zero δ] (p : ZbxProcess) (history : Fin zbxHistorySize → ZbxDcHistory δ Nat)
    (text : Mem) (ops : List (HistoryOp δ)) : HistoryRun δ :=
  ops.foldl (HistoryRun.step p) { cache := initDatabaseCache history text }

/-- The cache refines the abstract queue, and what was admitted is what was
taken and what is queued: each value once, in order for each item. -/
structure HistoryInv (w : HistoryRun δ) : Prop where
  layout : ∃ es, TextLayout w.cache es ∧ given es = w.queued
  perm : (w.delivered ++ w.queued).Perm w.added
  fifo : ∀ itemid, w.delivered.filter (·.itemid = itemid) ++ w.queued.filter (·.itemid = itemid) =
    w.added.filter (·.itemid = itemid)

namespace HistoryInv

variable {w : HistoryRun δ}

/-- The strings read through the queue are those of the abstract queue. -/
theorem samples_eq (h : HistoryInv w) : w.cache.samples = w.queued := by
  obtain ⟨es, hl, hg⟩ := h.layout
  rw [hl.samples_eq, hg]

theorem init (history : Fin zbxHistorySize → ZbxDcHistory δ Nat) (text : Mem) :
    HistoryInv { cache := initDatabaseCache history text } where
  layout := ⟨[], ⟨rfl, Nat.le_refl 0, Nat.zero_le _⟩, rfl⟩
  perm := List.Perm.refl _
  fifo _ := rfl

/-- Admitting a value. -/
theorem addSample (h : HistoryInv w) {c : ZbxDcCache δ} (s : Sample δ)
    (hl : ∃ es, TextLayout c es ∧ given es = w.queued ++ [s]) :
    HistoryInv { w with cache := c, added := w.added ++ [s], queued := w.queued ++ [s] } where
  layout := hl
  perm := by
    dsimp only
    rw [← List.append_assoc]
    exact h.perm.append_right _
  fifo itemid := by
    dsimp only
    rw [List.filter_append, List.filter_append, ← List.append_assoc, h.fifo]

/-- Taking a batch. -/
theorem sync (h : HistoryInv w) (p : ZbxProcess) :
    HistoryInv
      { w with
        cache := (dcSyncBatch p w.cache).cache
        delivered := w.delivered ++ (dcSyncBatch p w.cache).history
        queued := (Batch.extract (syncSkip p) zbxSyncMax [] w.queued).2 } := by
  have hb : (dcSyncBatch p w.cache).history =
      (Batch.extract (syncSkip p) zbxSyncMax [] w.queued).1 := by
    rw [← h.samples_eq]
    exact congrArg Prod.fst (samples_dcSyncBatch p w.cache)
  refine ⟨?_, ?_, fun itemid => ?_⟩
  · obtain ⟨es, hl, hg⟩ := h.layout
    obtain ⟨es', hl', hg'⟩ := hl.sync p
    exact ⟨es', hl', by rw [hg', hg]⟩
  · dsimp only
    rw [hb, List.append_assoc]
    exact ((Batch.extract_perm _ _ _ _).append_left _).trans h.perm
  · dsimp only
    rw [hb, List.filter_append, List.append_assoc, keyOrdered_syncSkip p, List.filter_nil,
      List.nil_append, h.fifo]

/-- **One step keeps the invariant.** -/
theorem step [Zero δ] (h : HistoryInv w) (p : ZbxProcess) (op : HistoryOp δ) :
    HistoryInv (w.step p op) := by
  obtain ⟨es, hl, hg⟩ := h.layout
  cases op with
  | add call =>
      have ha := hl.apply call
      simp only [HistoryRun.step]
      cases hc : call.apply w.cache with
      | exit =>
          rw [hc] at ha
          contradiction
      | retry c =>
          rw [hc] at ha
          obtain ⟨es', hl', hg'⟩ := ha
          exact ⟨⟨es', hl', hg'.trans hg⟩, h.perm, h.fifo⟩
      | done c =>
          rw [hc] at ha
          obtain ⟨es', hl', hg'⟩ := ha
          exact h.addSample call.sample ⟨es', hl', by rw [hg', hg]⟩
  | vacuum =>
      obtain ⟨es', hl', hg'⟩ := hl.vacuum
      exact ⟨⟨es', hl', hg'.trans hg⟩, h.perm, h.fifo⟩
  | sync => exact h.sync p

/-- **Every run keeps the invariant.** -/
theorem run [Zero δ] (p : ZbxProcess) (history : Fin zbxHistorySize → ZbxDcHistory δ Nat)
    (text : Mem) (ops : List (HistoryOp δ)) : HistoryInv (historyRun p history text ops) := by
  unfold historyRun
  induction ops using List.reverseRecOn with
  | nil => exact init history text
  | append_singleton ops op ih =>
      rw [List.foldl_append]
      exact ih.step p op

end HistoryInv

/-! ## the main theorems -/

/-- **Exactly-once FIFO delivery.**  In every state of every run the next batch
splits the queue: nothing is lost or duplicated and what stays keeps its
order.  Over the whole run the values taken and the values queued are the
values admitted, for each item in the order in which they were admitted.  A
server takes the oldest value of each of the items met first, a proxy the
front of the queue. -/
theorem historyCache_fifo [Zero δ] (p : ZbxProcess)
    (history : Fin zbxHistorySize → ZbxDcHistory δ Nat) (text : Mem) (ops : List (HistoryOp δ)) :
    let w := historyRun p history text ops
    let b := dcSyncBatch p w.cache
    (b.history ++ b.cache.samples).Perm w.cache.samples ∧
      b.cache.samples.Sublist w.cache.samples ∧
      (w.delivered ++ w.cache.samples).Perm w.added ∧
      (∀ itemid, w.delivered.filter (·.itemid = itemid) ++
          w.cache.samples.filter (·.itemid = itemid) = w.added.filter (·.itemid = itemid)) ∧
      match p with
      | .server => (b.history.map ZbxDcHistory.itemid).Nodup ∧
          b.history = (Batch.firstBy ZbxDcHistory.itemid w.cache.samples).take zbxSyncMax
      | .proxy => b.history = w.cache.samples.take (min w.cache.historyNum zbxSyncMax) := by
  intro w b
  have hinv : HistoryInv w := HistoryInv.run p history text ops
  have hb : (b.history, b.cache.samples) = _ := samples_dcSyncBatch p w.cache
  have hh : b.history = _ := congrArg Prod.fst hb
  have hs : b.cache.samples = _ := congrArg Prod.snd hb
  refine ⟨?_, ?_, ?_, ?_, ?_⟩
  · rw [hh, hs]
    exact Batch.extract_perm _ _ _ _
  · rw [hs]
    exact Batch.extract_snd_sublist _ _ _ _
  · rw [hinv.samples_eq]
    exact hinv.perm
  · rw [hinv.samples_eq]
    exact hinv.fifo
  · cases p with
    | server =>
        refine ⟨?_, ?_⟩
        · rw [hh]
          exact Batch.nodup_extract_seen _ _ _ _ List.nodup_nil
        · rw [hh]
          simp [syncSkip, Batch.extract_seen_fst]
    | proxy =>
        have hlen : w.cache.samples.length = w.cache.historyNum := by simp [ZbxDcCache.samples]
        have htake : w.cache.samples.take (min w.cache.historyNum zbxSyncMax) =
            w.cache.samples.take zbxSyncMax := by
          rw [← hlen, Nat.min_comm, ← List.take_eq_take_min]
        dsimp only
        rw [hh, htake]
        simp [syncSkip, Batch.extract_never]

/-- **Text buffer integrity.**  In every state of every run each string
pointer of a queued entry designates a NUL-terminated range inside
`[text, last_text)`, the ranges are pairwise disjoint, and what they hold is
what the abstract queue has: the strings given when the entry was added. -/
theorem textBuffer_integrity [Zero δ] (p : ZbxProcess)
    (history : Fin zbxHistorySize → ZbxDcHistory δ Nat) (text : Mem) (ops : List (HistoryOp δ)) :
    let w := historyRun p history text ops
    let c := w.cache
    c.lastText ≤ zbxTextbufferSize ∧
      c.samples = w.queued ∧
      (∀ e ∈ c.queue, ∀ ptr ∈ e.value.strings,
        c.text.Holds ptr (c.strdup ptr) ∧ ptr + (c.strdup ptr).length < c.lastText) ∧
      (c.queue.flatMap fun e => e.value.strings).Pairwise fun ptr ptr' =>
        ptr + (c.strdup ptr).length < ptr' ∨ ptr' + (c.strdup ptr').length < ptr := by
  intro w c
  have hinv : HistoryInv w := HistoryInv.run p history text ops
  obtain ⟨es, hl, hg⟩ := hinv.layout
  have hptrs : (c.queue.flatMap fun e => e.value.strings) = (ranges es).map Prod.fst :=
    hl.flatMap_strings
  refine ⟨hl.lastText_le, hinv.samples_eq, ?_, ?_⟩
  · intro e he ptr hptr
    have hmem : ptr ∈ (ranges es).map Prod.fst := by
      rw [← hptrs]
      exact List.mem_flatMap.mpr ⟨e, he, hptr⟩
    obtain ⟨⟨q, s⟩, hr, rfl⟩ := List.mem_map.mp hmem
    obtain ⟨-, hlt, hholds, -⟩ := hl.laid.of_mem hr
    rw [hl.strdup_eq hr]
    exact ⟨hholds, hlt⟩
  · rw [hptrs, List.pairwise_map]
    refine hl.laid.pairwise.imp_of_mem ?_
    rintro ⟨q, s⟩ ⟨q', s'⟩ hr hr' hle
    left
    rw [hl.strdup_eq hr]
    exact hle

end Zabbix
