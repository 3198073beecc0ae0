import Zabbix.DbCache.Sync

/-!
# Zabbix.DbCache.Text

The text buffer of the history cache.  The invariant is `TextLayout c es`:
`es` is the queue with each string carried as an offset *and* its content, and
the ranges of `es`, taken in queue order, are laid out one after the other in
`[0, last_text)`.

Queue order is buffer order because strings are only ever added at
`last_text` while their entry joins the end of the queue, and because taking a
batch keeps the order of what stays.  This is why `DCvacuum_text` may free
everything before the first queued string and shift every pointer by the same
offset.
-/

namespace Zabbix

variable {δ : Type}

/-- An entry whose strings are known both as offsets and as contents. -/
abbrev Placed (δ : Type) : Type := ZbxDcHistory δ (Nat × List UInt8)

/-- The ranges of the placed strings, in queue order. -/
def ranges (es : List (Placed δ)) : List (Nat × List UInt8) := es.flatMap fun e => e.value.strings

/-- The entries with the contents of their strings. -/
def given (es : List (Placed δ)) : List (ZbxDcHistory δ (List UInt8)) :=
  es.map (ZbxDcHistory.map Prod.snd)

/-- The queued entries are `es`, and their strings are laid out in queue order
in `[0, last_text)`. -/
structure TextLayout (c : ZbxDcCache δ) (es : List (Placed δ)) : Prop where
  queue : c.queue = es.map (ZbxDcHistory.map Prod.fst)
  laid : Mem.Laid c.text c.lastText 0 (ranges es)
  lastText_le : c.lastText ≤ zbxTextbufferSize

namespace TextLayout

variable {c : ZbxDcCache δ} {es : List (Placed δ)}

/-- A string that an entry designates is the one placed there. -/
theorem strdup_eq (h : TextLayout c es) {p : Nat} {s : List UInt8} (hp : (p, s) ∈ ranges es) :
    c.strdup p = s := by
  obtain ⟨-, hlt, hholds, h0⟩ := h.laid.of_mem hp
  have hle := h.lastText_le
  exact Mem.strAt_of_holds hholds h0 (by omega)

/-- Reading the strings of the queue returns the contents. -/
theorem samples_eq (h : TextLayout c es) : c.samples = given es := by
  rw [ZbxDcCache.samples, h.queue, given, List.map_map]
  apply List.map_congr_left
  intro e he
  rw [Function.comp_apply, ZbxDcHistory.map_map]
  apply ZbxDcHistory.map_congr
  rintro ⟨p, s⟩ hs
  exact h.strdup_eq (List.mem_flatMap.mpr ⟨e, he, hs⟩)

/-- The string pointers of the queue are the offsets of the ranges. -/
theorem flatMap_strings (h : TextLayout c es) :
    (c.queue.flatMap fun e => e.value.strings) = (ranges es).map Prod.fst := by
  rw [h.queue, ranges, List.map_flatMap, List.flatMap_map]
  simp

/-- The first queued string is the first of the ranges. -/
theorem findSome?_valueStr (h : TextLayout c es) :
    (c.queue.findSome? fun e => e.value.valueStr) = (ranges es).head?.map Prod.fst := by
  rw [← List.head?_map, ← h.flatMap_strings, List.head?_flatMap]
  simp only [HistoryValue.valueStr_eq_head?]

/-! ## compaction -/

/-- **`DCvacuum_text` keeps the layout**, with the same contents. -/
theorem vacuum (h : TextLayout c es) :
    ∃ es', TextLayout (dcVacuumText c) es' ∧ given es' = given es := by
  have hfirst := h.findSome?_valueStr
  unfold dcVacuumText
  cases hr : ranges es with
  | nil =>
      rw [hr, List.head?_nil, Option.map_none] at hfirst
      rw [hfirst]
      refine ⟨es, ⟨h.queue, ?_, Nat.zero_le _⟩, rfl⟩
      rw [hr]
      exact Nat.le_refl 0
  | cons r rs =>
      obtain ⟨off, s⟩ := r
      rw [hr, List.head?_cons, Option.map_some] at hfirst
      rw [hfirst]
      dsimp only
      by_cases h0 : off = 0
      · rw [if_pos h0]
        exact ⟨es, h, rfl⟩
      · rw [if_neg h0]
        -- every string moves down by the offset of the first one
        let shift : Nat × List UInt8 → Nat × List UInt8 := fun r => (r.1 - off, r.2)
        have hlaid : Mem.Laid c.text c.lastText off (ranges es) := by
          have hl := h.laid
          rw [hr] at hl ⊢
          exact ⟨le_refl _, hl.2⟩
        have hle := h.lastText_le
        have hlo := hlaid.le
        have hmove := hlaid.move (n := zbxTextbufferSize - off) (le_refl _) (by omega)
        refine ⟨es.map (ZbxDcHistory.map shift), ⟨?_, ?_, ?_⟩, ?_⟩
        · change CircBuf.contents _ c.historyFirst c.historyNum = _
          rw [CircBuf.contents_mapCells _ _ _ c.historyNum_le]
          change c.queue.map _ = _
          rw [h.queue, List.map_map, List.map_map]
          apply List.map_congr_left
          intro e _
          simp only [Function.comp_apply, ZbxDcHistory.map_map]
          rfl
        · have hranges : ranges (es.map (ZbxDcHistory.map shift)) = (ranges es).map shift := by
            rw [ranges, ranges, List.map_flatMap, List.flatMap_map]
            simp
          rw [hranges]
          rwa [Nat.sub_self] at hmove
        · dsimp only
          omega
        · simp only [given, List.map_map]
          apply List.map_congr_left
          intro e _
          simp only [Function.comp_apply, ZbxDcHistory.map_map]
          rfl

/-- What an attempt of `DCget_history_ptr` returns keeps the layout; when it
returns a slot, the text buffer has the room asked for. -/
theorem getHistoryPtr (h : TextLayout c es) (textLen : Nat) :
    match dcGetHistoryPtr c textLen with
    | .exit => zbxTextbufferSize < textLen
    | .retry c' => ∃ es', TextLayout c' es' ∧ given es' = given es
    | .ptr c' _ => c'.lastText + textLen ≤ zbxTextbufferSize ∧
        ∃ es', TextLayout c' es' ∧ given es' = given es := by
  have hle := h.lastText_le
  obtain ⟨es', hv, hg⟩ := h.vacuum
  have hvle := hv.lastText_le
  unfold dcGetHistoryPtr
  split_ifs with h1 h2 h3 h4 h5
  · exact h3
  · exact ⟨es', hv, hg⟩
  · exact ⟨by omega, es', hv, hg⟩
  · exact ⟨by omega, es, h, rfl⟩
  · exact ⟨by omega, es, h, rfl⟩
  · exact ⟨es, h, rfl⟩

/-! ## adding an entry -/

/-- Storing an entry one past the queue, with its strings at `last_text`,
extends the layout. -/
theorem add (h : TextLayout c es) (hnum : c.historyNum < zbxHistorySize) {textLen : Nat}
    (e : Placed δ) (text : Mem) (hroom : c.lastText + textLen ≤ zbxTextbufferSize)
    (hlaid : Mem.Laid text (c.lastText + textLen) 0 (ranges es ++ e.value.strings)) :
    TextLayout
      { c with
        history := Function.update c.history (CircBuf.index c.historyFirst c.historyNum)
          (e.map Prod.fst)
        historyNum := c.historyNum + 1
        text := text
        lastText := c.lastText + textLen
        historyNum_le := hnum } (es ++ [e]) where
  queue := by
    have hp := CircBuf.contents_update_index c.history c.historyFirst (e.map Prod.fst) hnum
    have hq := h.queue
    rw [ZbxDcCache.queue] at hq
    rw [ZbxDcCache.queue]
    dsimp only
    rw [hp, hq, List.map_append, List.map_singleton]
  laid := by simpa [ranges] using hlaid
  lastText_le := hroom

end TextLayout

/-- A bound of `max + 1` bytes keeps `max` of the string. -/
theorem textLenMax_succ (s : List UInt8) (max : Nat) :
    textLenMax s (max + 1) = (s.take max).length + 1 := by
  rw [textLenMax, List.length_take]
  split <;> omega

theorem textLenMax_le (s : List UInt8) (max : Nat) : textLenMax s max ≤ max := by
  rw [textLenMax]
  split <;> omega

/-- The copy of a string that is cut to `max` bytes. -/
theorem zbxStrlcpy_textLenMax (m : Mem) (dst : Nat) (s : List UInt8) (max : Nat) :
    zbxStrlcpy m dst s (textLenMax s (max + 1)) = m.write dst (s.take max ++ [0]) := by
  rw [textLenMax_succ, zbxStrlcpy_eq_write, List.length_take]
  congr 2
  rcases Nat.le_total max s.length with h | h
  · rw [Nat.min_eq_left h]
  · rw [Nat.min_eq_right h, List.take_of_length_le h, List.take_of_length_le (le_refl _)]

/-- A string cut to `max` bytes is laid out by its copy at the end. -/
theorem laid_zbxStrlcpy {m : Mem} {hi : Nat} {rs : List (Nat × List UInt8)}
    (h : Mem.Laid m hi 0 rs) (s : CString) (max : Nat) :
    Mem.Laid (zbxStrlcpy m hi s.val (textLenMax s.val (max + 1)))
      (hi + textLenMax s.val (max + 1)) 0 (rs ++ [(hi, s.val.take max)]) := by
  rw [zbxStrlcpy_textLenMax, textLenMax_succ]
  exact h.alloc fun h0 => s.property (List.mem_of_mem_take h0)

end Zabbix
