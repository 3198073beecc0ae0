import Zabbix.DbCache.History

/-!
# Zabbix.DbCache.Sync

The batch that `DCsync_history` takes, in terms of the queue alone: the loop
over the ring, which slides entries over the holes it makes while its indexes
wrap, is the list walk `Batch.extract` (`dcSyncBatch_eq`).  On a server the
walk skips the items that the batch already holds, on a proxy it skips
nothing.
-/

namespace Zabbix

variable {δ σ : Type}

/-- The skip test of a process: a server skips the items already taken. -/
def syncSkip : ZbxProcess → List (ZbxDcHistory δ σ) → ZbxDcHistory δ σ → Bool
  | .server => Batch.seen ZbxDcHistory.itemid
  | .proxy => Batch.never

/-- The skip test is the condition that the loop evaluates. -/
theorem syncSkip_eq_false_iff (p : ZbxProcess) (taken : List (ZbxDcHistory δ σ))
    (e : ZbxDcHistory δ σ) :
    syncSkip p taken e = false ↔ p = .proxy ∨ dcItemAlreadyExists taken e.itemid = false := by
  cases p <;> simp [syncSkip, Batch.seen, Batch.never, dcItemAlreadyExists]

/-- The skip test does not look at the strings of the entries. -/
theorem syncSkip_map {τ : Type} (p : ZbxProcess) (f : σ → τ) (taken : List (ZbxDcHistory δ σ))
    (e : ZbxDcHistory δ σ) :
    syncSkip p (taken.map (ZbxDcHistory.map f)) (e.map f) = syncSkip p taken e := by
  cases p with
  | proxy => rfl
  | server =>
      simp only [syncSkip, Batch.seen, List.any_map]
      rfl

/-- Both skip tests let the values of one item leave in queue order. -/
theorem keyOrdered_syncSkip (p : ZbxProcess) :
    Batch.KeyOrdered ZbxDcHistory.itemid (syncSkip (δ := δ) (σ := σ) p) := by
  cases p with
  | server => exact Batch.keyOrdered_seen _
  | proxy => exact Batch.keyOrdered_never _

namespace ZbxDcCache

@[simp] theorem length_queue (c : ZbxDcCache δ) : c.queue.length = c.historyNum :=
  CircBuf.length_contents _ _ _

@[simp] theorem text_remove (c : ZbxDcCache δ) (f : Fin zbxHistorySize) :
    (c.remove f).text = c.text := rfl

@[simp] theorem lastText_remove (c : ZbxDcCache δ) (f : Fin zbxHistorySize) :
    (c.remove f).lastText = c.lastText := rfl

/-- The entry `k` places behind the front of the queue. -/
theorem history_index (c : ZbxDcCache δ) {kept rest : List (ZbxDcHistory δ Nat)}
    {e : ZbxDcHistory δ Nat} (h : c.queue = kept ++ e :: rest) :
    c.history (CircBuf.index c.historyFirst kept.length) = e := by
  have hlen : kept.length < c.queue.length := by simp [h]
  rw [← CircBuf.getElem_contents c.history c.historyFirst c.historyNum kept.length hlen]
  change c.queue[kept.length] = e
  simp [h]

/-- Removing an entry leaves the others in order. -/
theorem queue_remove (c : ZbxDcCache δ) {kept rest : List (ZbxDcHistory δ Nat)}
    {e : ZbxDcHistory δ Nat} (h : c.queue = kept ++ e :: rest) :
    (c.remove (CircBuf.index c.historyFirst kept.length)).queue = kept ++ rest := by
  have hlt : kept.length < c.historyNum := by
    rw [← length_queue, h]
    simp
  have he : (c.remove (CircBuf.index c.historyFirst kept.length)).queue =
      c.queue.eraseIdx kept.length :=
    CircBuf.contents_slide c.history c.historyFirst hlt c.historyNum_le
  rw [he, h, List.eraseIdx_append_of_length_le (le_refl _)]
  simp

end ZbxDcCache

/-- **The loop is the list walk.**  With `kept` already passed over, `rest`
still to look at and `taken` the ring entries whose copies are in the batch,
the loop extends the batch by what the walk takes and leaves what it skips. -/
theorem dcSyncLoop_eq (p : ZbxProcess) (kept rest taken : List (ZbxDcHistory δ Nat))
    (b : SyncBatch δ) (hq : b.cache.queue = kept ++ rest)
    (hb : b.history = taken.map (ZbxDcHistory.map b.cache.strdup)) :
    (dcSyncLoop p rest.length (CircBuf.index b.cache.historyFirst kept.length) b).history =
        (Batch.extract (syncSkip p) zbxSyncMax taken rest).1.map
          (ZbxDcHistory.map b.cache.strdup) ∧
      (dcSyncLoop p rest.length (CircBuf.index b.cache.historyFirst kept.length) b).cache.queue =
        kept ++ (Batch.extract (syncSkip p) zbxSyncMax taken rest).2 ∧
      (dcSyncLoop p rest.length (CircBuf.index b.cache.historyFirst kept.length) b).cache.text =
        b.cache.text ∧
      (dcSyncLoop p rest.length (CircBuf.index b.cache.historyFirst kept.length) b).cache.lastText =
        b.cache.lastText := by
  induction rest generalizing kept taken b with
  | nil => simpa [dcSyncLoop, Batch.extract, hb] using hq
  | cons e rest ih =>
      have he := b.cache.history_index hq
      have hskip : syncSkip p b.history (e.map b.cache.strdup) = syncSkip p taken e := by
        rw [hb, syncSkip_map]
      have hlen : b.history.length = taken.length := by simp [hb]
      simp only [List.length_cons, dcSyncLoop, Batch.extract, he, hlen, CircBuf.index_index]
      by_cases hfull : taken.length < zbxSyncMax
      · by_cases hs : syncSkip p taken e = true
        · -- the item is in the batch: the entry stays and joins `kept`
          have hc : ¬(p = .proxy ∨ dcItemAlreadyExists b.history e.itemid = false) := by
            intro h
            have hf := (syncSkip_eq_false_iff p b.history (e.map b.cache.strdup)).mpr h
            rw [hskip, hs] at hf
            contradiction
          rw [if_pos hfull, if_neg hc, if_pos hfull, if_pos hs]
          have h := ih (kept ++ [e]) taken
            { b with
              skippedClock := if b.skippedClock = 0 then e.clock else b.skippedClock }
            (by simpa using hq) hb
          simpa using h
        · -- the entry moves to the batch and the entries of `kept` slide
          have hc : p = .proxy ∨ dcItemAlreadyExists b.history e.itemid = false := by
            apply (syncSkip_eq_false_iff p b.history (e.map b.cache.strdup)).mp
            rw [hskip]
            simpa using hs
          rw [if_pos hfull, if_pos hc, if_pos hfull, if_neg hs]
          have h := ih kept (taken ++ [e])
            { b with
              history := b.history ++ [e.map b.cache.strdup]
              cache := b.cache.remove (CircBuf.index b.cache.historyFirst kept.length) }
            (b.cache.queue_remove hq)
            (by simp only [hb, List.map_append, List.map_singleton]; rfl)
          have hf : CircBuf.index (CircBuf.index b.cache.historyFirst 1) kept.length =
              CircBuf.index b.cache.historyFirst (kept.length + 1) := by
            rw [CircBuf.index_index, Nat.add_comm]
          simp only [ZbxDcCache.remove, hf] at h
          exact h
      · rw [if_neg hfull, if_neg hfull]
        exact ⟨hb, hq, rfl, rfl⟩

/-- **The batch of a process**: the walk over the queue, its entries copied
out of the text buffer, which is left as it is. -/
theorem dcSyncBatch_eq (p : ZbxProcess) (c : ZbxDcCache δ) :
    (dcSyncBatch p c).history =
        (Batch.extract (syncSkip p) zbxSyncMax [] c.queue).1.map (ZbxDcHistory.map c.strdup) ∧
      (dcSyncBatch p c).cache.queue = (Batch.extract (syncSkip p) zbxSyncMax [] c.queue).2 ∧
      (dcSyncBatch p c).cache.text = c.text ∧ (dcSyncBatch p c).cache.lastText = c.lastText := by
  have h := dcSyncLoop_eq p [] c.queue [] { history := [], skippedClock := 0, cache := c } rfl rfl
  simpa [dcSyncBatch] using h

/-- The batch and the remaining queue, as lists of entries with their strings. -/
theorem samples_dcSyncBatch (p : ZbxProcess) (c : ZbxDcCache δ) :
    ((dcSyncBatch p c).history, (dcSyncBatch p c).cache.samples) =
      Batch.extract (syncSkip p) zbxSyncMax [] c.samples := by
  obtain ⟨hh, hq, ht, -⟩ := dcSyncBatch_eq p c
  have hs : (dcSyncBatch p c).cache.strdup = c.strdup := by
    funext q
    simp [ZbxDcCache.strdup, ht]
  have hm := Batch.extract_map (ZbxDcHistory.map c.strdup) (syncSkip p) (syncSkip p)
    (fun taken e => syncSkip_map p c.strdup taken e) zbxSyncMax [] c.queue
  rw [ZbxDcCache.samples, ZbxDcCache.samples, hh, hq, hs]
  exact hm.symm

end Zabbix
