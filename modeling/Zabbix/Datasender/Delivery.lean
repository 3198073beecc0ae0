import Zabbix.Datasender.HistorySender

/-!
# Zabbix.Datasender.Delivery

What the server gets of the history.

The data sender keeps the greatest identifier it has sent, and never looks at
what is not above it.  A row whose identifier was given out early and whose
transaction is committed late can come in behind that mark, and then it is
never sent.  As long as no row does, and the items of the rows that are still
to be sent are there, every row is sent; and, unless an answer of the server is
lost, once.
-/

namespace Zabbix

/-! ## selections -/

theorem id_joinHistory {items : HostItems} {row : ProxyHistory} {r : HistoryRecord}
    (h : joinHistory items row = some r) : r.id = row.id ∧ r.value = row.value := by
  rw [joinHistory, Option.map_eq_some_iff] at h
  obtain ⟨_, -, rfl⟩ := h
  exact ⟨rfl, rfl⟩

theorem exists_joinHistory {items : HostItems} {row : ProxyHistory} (h : (items row.value.itemid).isSome) :
    ∃ r, joinHistory items row = some r := by
  rw [joinHistory]
  exact Option.isSome_iff_exists.mp (Option.isSome_map.trans h)

/-- A row and its record carry the same value. -/
def HistoryRecord.Carries (r : HistoryRecord) (row : ProxyHistory) : Prop := r.id = row.id ∧ r.value = row.value

theorem nodup_filterMap_joinHistory {history : List ProxyHistory} (h : (history.map (·.id)).Nodup)
    (items : HostItems) : ((history.filterMap (joinHistory items)).map (·.id)).Nodup := by
  refine List.Sublist.nodup ?_ h
  clear h
  induction history with
  | nil => exact .slnil
  | cons row history ih =>
      rw [List.filterMap_cons, List.map_cons]
      cases hr : joinHistory items row with
      | none => exact ih.cons _
      | some r =>
          dsimp only
          rw [List.map_cons, (id_joinHistory hr).1]
          exact ih.cons_cons _

section

variable {items : HostItems} {nextid : Option ℕ} {history : List ProxyHistory}

theorem mem_getHistoryData {r : HistoryRecord} (h : r ∈ getHistoryData items nextid history) :
    (∃ row ∈ history, r.Carries row) ∧ getLastid nextid < r.id := by
  obtain ⟨hmem, hlt⟩ := Cursor.mem_batch h
  obtain ⟨row, hrow, hr⟩ := List.mem_filterMap.mp hmem
  exact ⟨⟨row, hrow, id_joinHistory hr⟩, hlt⟩

/-- `*lastid` is the mark of the batch. -/
theorem historyLastid_eq {records : List HistoryRecord} (h : records ≠ []) (mark : ℕ) :
    historyLastid records = Cursor.markAfter HistoryRecord.id mark records := by
  obtain ⟨init, last, rfl⟩ := (List.eq_nil_or_concat records).resolve_left h
  rw [List.concat_eq_append, historyLastid, Cursor.markAfter_concat, Cursor.markAfter_concat]

theorem lt_historyLastid (h : getHistoryData items nextid history ≠ []) :
    getLastid nextid < historyLastid (getHistoryData items nextid history) := by
  rw [historyLastid_eq h (getLastid nextid)]
  exact Cursor.lt_markAfter_batch h

/-- Of the rows whose items are there, none up to the mark of the batch is left
out. -/
theorem exists_mem_getHistoryData (hids : (history.map (·.id)).Nodup) {row : ProxyHistory}
    (hrow : row ∈ history) (hlt : getLastid nextid < row.id) (hitem : (items row.value.itemid).isSome)
    (hle : row.id ≤
      Cursor.markAfter HistoryRecord.id (getLastid nextid) (getHistoryData items nextid history)) :
    ∃ r ∈ getHistoryData items nextid history, r.Carries row := by
  obtain ⟨r, hr⟩ := exists_joinHistory hitem
  have hid := (id_joinHistory hr).1.symm
  exact ⟨r, Cursor.mem_batch_of_le (nodup_filterMap_joinHistory hids items)
    (List.mem_filterMap.mpr ⟨row, hrow, hr⟩) (hid ▸ hlt) (hid ▸ hle), id_joinHistory hr⟩

theorem getHistoryData_ne_nil {row : ProxyHistory} (hrow : row ∈ history)
    (hlt : getLastid nextid < row.id) (hitem : (items row.value.itemid).isSome) :
    getHistoryData items nextid history ≠ [] := by
  obtain ⟨r, hr⟩ := exists_joinHistory hitem
  exact Cursor.batch_ne_nil (List.mem_filterMap.mpr ⟨row, hrow, hr⟩) ((id_joinHistory hr).1.symm ▸ hlt) (by decide)

end

/-! ## the mark -/

namespace ProxyState

/-- The mark of the sender, as it is stored. -/
def lastid (s : ProxyState) : ℕ := getLastid s.nextid

/-- The records that the sender has selected, until it stores the mark. -/
def inHand (s : ProxyState) : List HistoryRecord :=
  match s.sender with
  | .idle => []
  | .selected records | .answered records => records

/-- The mark of the sender, once it has stored that of the records in hand. -/
def mark (s : ProxyState) : ℕ := Cursor.markAfter HistoryRecord.id s.lastid s.inHand

/-- The server has got the value of a row. -/
def Sent (s : ProxyState) (row : ProxyHistory) : Prop := ∃ r ∈ s.received, r.Carries row

/-- A step that does not commit a row behind the mark, nor selects where the
item of a row that is to be sent is missing. -/
def OnTime (s : ProxyState) : ProxyEvent → Prop
  | .writer (.commit writer) => ∀ row ∈ s.rowsOf writer, s.mark < row.id
  | .select items => ∀ row ∈ s.history, s.lastid < row.id → (items row.value.itemid).isSome
  | .writer (.insert ..) | .writer (.rollback _) | .put _ | .setLastid => True

/-- The identifiers of all rows, seen or not. -/
def ids (s : ProxyState) : List ℕ := s.history.map (·.id) ++ s.uncommitted.map (·.2.id)

/-- The rows, the mark, and what is in hand fit together. -/
structure Consistent (s : ProxyState) : Prop where
  nodup : s.ids.Nodup
  lt_autoIncrement : ∀ id ∈ s.ids, id < s.autoIncrement
  complete : Cursor.Complete ProxyHistory.id s.history s.Sent s.lastid
  inHand_ne : s.sender = .idle ∨ s.inHand ≠ []
  inHand_gt : ∀ r ∈ s.inHand, s.lastid < r.id ∧ r.id ≤ s.mark
  inHand_nodup : (s.inHand.map (·.id)).Nodup
  /-- no row between the stored mark and the next is left out -/
  covered : ∀ row ∈ s.history, s.lastid < row.id → row.id ≤ s.mark → ∃ r ∈ s.inHand, r.Carries row
  answered : ∀ records, s.sender = .answered records → ∀ r ∈ records, r ∈ s.received
  genuine : ∀ r, r ∈ s.received ∨ r ∈ s.inHand → ∃ row ∈ s.history, r.Carries row

/-! ## writers -/

variable {s : ProxyState}

theorem Consistent.lastid_le_mark (h : s.Consistent) : s.lastid ≤ s.mark := by
  rcases List.eq_nil_or_concat s.inHand with hnil | ⟨init, last, hlast⟩
  · rw [mark, hnil]
    exact Nat.le_refl _
  · have hr := h.inHand_gt last (by simp [hlast])
    omega

theorem Consistent.insert (h : s.Consistent) (writer : ℕ) (value : ProxyValue) :
    (s.writerStep (.insert writer value)).Consistent := by
  have hids : (s.writerStep (.insert writer value)).ids = s.ids ++ [s.autoIncrement] := by
    simp [ids, writerStep]
  constructor
  · rw [hids, List.nodup_append]
    refine ⟨h.nodup, List.nodup_singleton _, fun a ha b hb => ?_⟩
    rw [List.mem_singleton.mp hb]
    exact Nat.ne_of_lt (h.lt_autoIncrement a ha)
  · rw [hids, List.forall_mem_append]
    refine ⟨fun id hid => Nat.lt_succ_of_lt (h.lt_autoIncrement id hid), fun id hid => ?_⟩
    rw [List.mem_singleton.mp hid]
    exact Nat.lt_succ_self _
  · exact h.complete
  · exact h.inHand_ne
  · exact h.inHand_gt
  · exact h.inHand_nodup
  · exact h.covered
  · exact h.answered
  · exact h.genuine

/-- What a writer has not committed can go away. -/
theorem Consistent.rollback (h : s.Consistent) (writer : ℕ) : (s.writerStep (.rollback writer)).Consistent := by
  have hids : (s.writerStep (.rollback writer)).ids.Sublist s.ids :=
    (List.Sublist.refl _).append (List.filter_sublist.map _)
  exact
    { h with
      nodup := h.nodup.sublist hids
      lt_autoIncrement := fun id hid => h.lt_autoIncrement id (hids.subset hid) }

/-- A commit only moves identifiers. -/
theorem perm_ids_commit (s : ProxyState) (writer : ℕ) : (s.writerStep (.commit writer)).ids.Perm s.ids := by
  have hsplit : ((s.uncommitted.filter (·.1 = writer)) ++ s.uncommitted.filter (·.1 ≠ writer)).Perm
      s.uncommitted := by
    simpa using List.filter_append_perm (fun r : ℕ × ProxyHistory => decide (r.1 = writer)) s.uncommitted
  rw [ids, ids, writerStep, rowsOf, List.map_append, List.map_map, List.append_assoc]
  refine List.Perm.append_left _ ?_
  have := hsplit.map (·.2.id)
  rwa [List.map_append] at this

/-- A commit of rows that are all above the mark. -/
theorem Consistent.commit (h : s.Consistent) {writer : ℕ} (hontime : s.OnTime (.writer (.commit writer))) :
    (s.writerStep (.commit writer)).Consistent := by
  have hids := perm_ids_commit s writer
  constructor
  · exact hids.nodup_iff.mpr h.nodup
  · exact fun id hid => h.lt_autoIncrement id (hids.mem_iff.mp hid)
  · exact h.complete.append fun row hrow => Nat.lt_of_le_of_lt h.lastid_le_mark (hontime row hrow)
  · exact h.inHand_ne
  · exact h.inHand_gt
  · exact h.inHand_nodup
  · intro row hrow hlt hle
    rcases List.mem_append.mp hrow with hrow | hrow
    · exact h.covered row hrow hlt hle
    · exact absurd hle (Nat.not_le.mpr (hontime row hrow))
  · exact h.answered
  · intro r hr
    obtain ⟨row, hrow, hcarries⟩ := h.genuine r hr
    exact ⟨row, List.mem_append_left _ hrow, hcarries⟩

/-! ## the sender -/

theorem step_select (s : ProxyState) (items : HostItems) :
    (s.sender = .idle ∧ getHistoryData items s.nextid s.history ≠ [] ∧
      s.step (.select items) = { s with sender := .selected (getHistoryData items s.nextid s.history) }) ∨
      (s.sender = .idle → getHistoryData items s.nextid s.history = []) ∧ s.step (.select items) = s := by
  cases hsender : s.sender with
  | idle =>
      by_cases hnil : getHistoryData items s.nextid s.history = []
      · right
        simp [step, hsender, hnil]
      · left
        simp [step, hsender, hnil]
  | selected records => simp [step, hsender]
  | answered records => simp [step, hsender]

theorem Consistent.select (h : s.Consistent) {items : HostItems} (hontime : s.OnTime (.select items)) :
    (s.step (.select items)).Consistent := by
  rcases step_select s items with ⟨hidle, hne, hstep⟩ | ⟨-, hstep⟩
  · rw [hstep]
    have hhistory := (List.nodup_append.mp h.nodup).1
    exact
      { nodup := h.nodup
        lt_autoIncrement := h.lt_autoIncrement
        complete := h.complete
        inHand_ne := .inr hne
        inHand_gt := fun r hr => ⟨(mem_getHistoryData hr).2, (Cursor.le_markAfter_batch ..).2 r hr⟩
        inHand_nodup := Cursor.nodup_batch (nodup_filterMap_joinHistory hhistory items) ..
        covered := fun row hrow hlt hle =>
          exists_mem_getHistoryData hhistory hrow hlt (hontime row hrow hlt) hle
        answered := fun _ h => nomatch h
        genuine := fun r hr => hr.elim (fun hr => h.genuine r (.inl hr)) fun hr => (mem_getHistoryData hr).1 }
  · rw [hstep]
    exact h

theorem Sent.mono {row : ProxyHistory} (h : s.Sent row) {s' : ProxyState}
    (hreceived : ∀ r ∈ s.received, r ∈ s'.received) : s'.Sent row :=
  let ⟨r, hr, hcarries⟩ := h
  ⟨r, hreceived r hr, hcarries⟩

/-- The sender gives up what is in hand, whether the server has got it or not. -/
theorem Consistent.drop (h : s.Consistent) {received : List HistoryRecord}
    (hreceived : ∀ r ∈ received, r ∈ s.received ∨ r ∈ s.inHand) (hmono : ∀ r ∈ s.received, r ∈ received) :
    Consistent { s with sender := .idle, received := received } where
  nodup := h.nodup
  lt_autoIncrement := h.lt_autoIncrement
  complete := h.complete.mono fun _ hsent => hsent.mono hmono
  inHand_ne := .inl rfl
  inHand_gt := fun _ h => nomatch h
  inHand_nodup := List.nodup_nil
  covered := fun _ _ hlt hle => absurd hle (Nat.not_le.mpr hlt)
  answered := fun _ h => nomatch h
  genuine := fun r hr => hr.elim (fun hr => h.genuine r (hreceived r hr)) fun hr => nomatch hr

theorem inHand_of_selected {records : List HistoryRecord} (h : s.sender = .selected records) :
    s.inHand = records := by
  rw [inHand, h]

theorem inHand_of_answered {records : List HistoryRecord} (h : s.sender = .answered records) :
    s.inHand = records := by
  rw [inHand, h]

theorem Consistent.put (h : s.Consistent) (result : PutResult) : (s.step (.put result)).Consistent := by
  cases hsender : s.sender with
  | idle => simpa [step, hsender] using h
  | answered records => simpa [step, hsender] using h
  | selected records =>
      have hinHand := inHand_of_selected hsender
      cases result with
      | failed =>
          simp only [step, hsender]
          exact h.drop (fun r hr => .inl hr) fun r hr => hr
      | unanswered =>
          simp only [step, hsender]
          refine h.drop (fun r hr => ?_) fun r hr => List.mem_append_left _ hr
          rw [hinHand]
          exact List.mem_append.mp hr
      | succeeded =>
          simp only [step, hsender]
          have hmark : mark { s with sender := .answered records, received := s.received ++ records } =
              s.mark := by rw [mark, mark, hinHand]; rfl
          have hne := h.inHand_ne
          have hgt := h.inHand_gt
          have hnodup := h.inHand_nodup
          have hcovered := h.covered
          rw [hinHand] at hne hgt hnodup hcovered
          constructor
          · exact h.nodup
          · exact h.lt_autoIncrement
          · exact h.complete.mono fun _ hsent => hsent.mono fun r hr => List.mem_append_left _ hr
          · exact .inr (hne.resolve_left (by simp [hsender]))
          · rw [hmark]
            exact hgt
          · exact hnodup
          · rw [hmark]
            exact hcovered
          · intro records' heq r hr
            obtain rfl := HistorySender.answered.inj heq
            exact List.mem_append_right _ hr
          · intro r hr
            refine h.genuine r ?_
            rw [hinHand]
            exact hr.elim List.mem_append.mp .inr

/-- What storing the mark does. -/
theorem Consistent.step_setLastid (h : s.Consistent) :
    (∃ records, s.sender = .answered records ∧
      s.step .setLastid = { s with sender := .idle, nextid := some s.mark }) ∨
      s.step .setLastid = s := by
  cases hsender : s.sender with
  | idle => simp [step, hsender]
  | selected records => simp [step, hsender]
  | answered records =>
      left
      have hne : records ≠ [] := by
        have hne := h.inHand_ne.resolve_left (by simp [hsender])
        rwa [inHand_of_answered hsender] at hne
      have hmark : historyLastid records = s.mark := by
        rw [mark, inHand_of_answered hsender]
        exact historyLastid_eq hne s.lastid
      exact ⟨records, rfl, by simp [step, hsender, hmark]⟩

theorem Consistent.setLastid (h : s.Consistent) : (s.step .setLastid).Consistent := by
  rcases h.step_setLastid with ⟨records, hsender, hstep⟩ | hstep
  · rw [hstep]
    constructor
    · exact h.nodup
    · exact h.lt_autoIncrement
    · refine h.complete.advance fun row hrow hlt hle => ?_
      obtain ⟨r, hr, hcarries⟩ := h.covered row hrow hlt hle
      rw [inHand_of_answered hsender] at hr
      exact ⟨r, h.answered records hsender r hr, hcarries⟩
    · exact .inl rfl
    · exact fun _ h => nomatch h
    · exact List.nodup_nil
    · exact fun _ _ hlt hle => absurd hle (Nat.not_le.mpr hlt)
    · exact fun _ h => nomatch h
    · exact fun r hr => hr.elim (fun hr => h.genuine r (.inl hr)) fun hr => nomatch hr
  · rw [hstep]
    exact h

/-- **One step.** -/
theorem Consistent.step (h : s.Consistent) {e : ProxyEvent} (hontime : s.OnTime e) : (s.step e).Consistent := by
  cases e with
  | writer e =>
      cases e with
      | insert writer value => exact h.insert writer value
      | commit writer => exact h.commit hontime
      | rollback writer => exact h.rollback writer
  | select items => exact h.select hontime
  | put result => exact h.put result
  | setLastid => exact h.setLastid

theorem consistent_initial : initial.Consistent where
  nodup := List.nodup_nil
  lt_autoIncrement := fun _ h => nomatch h
  complete := fun _ h => nomatch h
  inHand_ne := .inl rfl
  inHand_gt := fun _ h => nomatch h
  inHand_nodup := List.nodup_nil
  covered := fun _ h => nomatch h
  answered := fun _ h => nomatch h
  genuine := fun _ hr => hr.elim (fun h => nomatch h) fun h => nomatch h

theorem consistent_run {es : List ProxyEvent} (hs : s.Consistent) (h : Run.Along ProxyState.step OnTime s es) :
    (Run.run ProxyState.step s es).Consistent :=
  Run.invariant_run (fun _ _ hs hontime => hs.step hontime) hs h

/-! ## once -/

/-- The greatest identifier that the server may have got. -/
def sentMark (s : ProxyState) : ℕ :=
  match s.sender with
  | .answered _ => s.mark
  | .idle | .selected _ => s.lastid

/-- What the server has got, it has got once. -/
structure Once (s : ProxyState) : Prop where
  nodup : (s.received.map (·.id)).Nodup
  le_sentMark : ∀ r ∈ s.received, r.id ≤ s.sentMark

/-- A writer leaves the sender alone. -/
theorem writerStep_sender (s : ProxyState) (e : WriterEvent) :
    (s.writerStep e).sender = s.sender ∧ (s.writerStep e).nextid = s.nextid ∧
      (s.writerStep e).received = s.received := by
  cases e <;> exact ⟨rfl, rfl, rfl⟩

theorem Once.writer (h : s.Once) (e : WriterEvent) : (s.writerStep e).Once := by
  cases e <;> exact ⟨h.nodup, h.le_sentMark⟩

theorem Once.select (h : s.Once) (items : HostItems) : (s.step (.select items)).Once := by
  rcases step_select s items with ⟨hidle, -, hstep⟩ | ⟨-, hstep⟩
  · have hle := h.le_sentMark
    rw [sentMark, hidle] at hle
    rw [hstep]
    exact ⟨h.nodup, hle⟩
  · rw [hstep]
    exact h

/-- What the server gets is above what it has got before. -/
theorem Once.put (h : s.Once) (hs : s.Consistent) {result : PutResult} (hanswer : result ≠ .unanswered) :
    (s.step (.put result)).Once := by
  cases hsender : s.sender with
  | idle => simpa [ProxyState.step, hsender] using h
  | answered records => simpa [ProxyState.step, hsender] using h
  | selected records =>
      have hle : ∀ r ∈ s.received, r.id ≤ s.lastid := by simpa [sentMark, hsender] using h.le_sentMark
      cases result with
      | unanswered => exact absurd rfl hanswer
      | failed =>
          simp only [ProxyState.step, hsender]
          exact ⟨h.nodup, hle⟩
      | succeeded =>
          simp only [ProxyState.step, hsender]
          have hmark : s.mark = Cursor.markAfter HistoryRecord.id s.lastid records := by
            rw [mark, inHand_of_selected hsender]
          have hgt := hs.inHand_gt
          have hnodup := hs.inHand_nodup
          rw [inHand_of_selected hsender] at hgt hnodup
          constructor
          · rw [List.map_append, List.nodup_append]
            refine ⟨h.nodup, hnodup, ?_⟩
            rintro a ha b hb rfl
            obtain ⟨r, hr, rfl⟩ := List.mem_map.mp ha
            obtain ⟨r', hr', heq⟩ := List.mem_map.mp hb
            have hlow := hle r hr
            have hhigh := (hgt r' hr').1
            omega
          · change ∀ r ∈ s.received ++ records, r.id ≤ Cursor.markAfter HistoryRecord.id s.lastid records
            rw [← hmark, List.forall_mem_append]
            exact ⟨fun r hr => Nat.le_trans (hle r hr) hs.lastid_le_mark, fun r hr => (hgt r hr).2⟩

theorem Once.setLastid (h : s.Once) (hs : s.Consistent) : (s.step .setLastid).Once := by
  rcases hs.step_setLastid with ⟨records, hsender, hstep⟩ | hstep
  · have hle := h.le_sentMark
    rw [sentMark, hsender] at hle
    rw [hstep]
    exact ⟨h.nodup, hle⟩
  · rw [hstep]
    exact h

/-- **One step**, in which no answer is lost. -/
theorem Once.step (h : s.Once) (hs : s.Consistent) {e : ProxyEvent} (hanswer : e ≠ .put .unanswered) :
    (s.step e).Once := by
  cases e with
  | writer e => exact h.writer e
  | select items => exact h.select items
  | put result => exact h.put hs fun heq => hanswer (heq ▸ rfl)
  | setLastid => exact h.setLastid hs

theorem once_initial : initial.Once := ⟨List.nodup_nil, fun _ h => nomatch h⟩

theorem once_run {es : List ProxyEvent} (hs : s.Consistent) (h : s.Once)
    (hontime : Run.Along ProxyState.step OnTime s es) (hanswer : ∀ e ∈ es, e ≠ .put .unanswered) :
    (Run.run ProxyState.step s es).Once := by
  induction es generalizing s with
  | nil => exact h
  | cons e es ih =>
      exact ih (hs.step hontime.1) (h.step hs (hanswer e (List.mem_cons_self ..))) hontime.2
        fun e he => hanswer e (List.mem_cons_of_mem _ he)

/-! ## cycles of the sender -/

end ProxyState

/-- A cycle of the data sender in which the data is sent, and what the writers
do meanwhile. -/
structure SenderCycle where
  beforeSelect : List WriterEvent
  items : HostItems
  beforePut : List WriterEvent
  beforeStore : List WriterEvent

/-- The steps of a cycle. -/
def SenderCycle.events (c : SenderCycle) : List ProxyEvent :=
  c.beforeSelect.map .writer ++ .select c.items ::
    (c.beforePut.map .writer ++ .put .succeeded :: (c.beforeStore.map .writer ++ [.setLastid]))

namespace ProxyState

variable {s : ProxyState}

/-- Writers leave the sender alone, and only add to what can be seen. -/
theorem run_writers (s : ProxyState) (ws : List WriterEvent) :
    (Run.run ProxyState.step s (ws.map .writer)).sender = s.sender ∧
      (Run.run ProxyState.step s (ws.map .writer)).nextid = s.nextid ∧
      ∀ row ∈ s.history, row ∈ (Run.run ProxyState.step s (ws.map .writer)).history := by
  induction ws generalizing s with
  | nil => exact ⟨rfl, rfl, fun _ h => h⟩
  | cons w ws ih =>
      obtain ⟨hsender, hnextid, hhistory⟩ := ih (s.writerStep w)
      obtain ⟨hsender', hnextid', -⟩ := writerStep_sender s w
      refine ⟨hsender.trans hsender', hnextid.trans hnextid', fun row hrow => hhistory row ?_⟩
      cases w with
      | insert writer value => exact hrow
      | commit writer => exact List.mem_append_left _ hrow
      | rollback writer => exact hrow

/-- **A cycle** takes the mark on, unless there is nothing above it. -/
theorem cycle (hidle : s.sender = .idle) (c : SenderCycle)
    (hontime : Run.Along ProxyState.step OnTime s c.events) :
    (Run.run ProxyState.step s c.events).sender = .idle ∧
      s.lastid ≤ (Run.run ProxyState.step s c.events).lastid ∧
      ∀ row ∈ s.history, row ∈ (Run.run ProxyState.step s c.events).history ∧
        (row.id ≤ s.lastid ∨ s.lastid < (Run.run ProxyState.step s c.events).lastid) := by
  rw [SenderCycle.events, Run.along_append] at hontime
  obtain ⟨hsender₁, hnextid₁, hhistory₁⟩ := run_writers s c.beforeSelect
  rw [SenderCycle.events, Run.run_append, Run.run_cons, Run.run_append, Run.run_cons, Run.run_append,
    Run.run_cons, Run.run_nil]
  set s₁ := Run.run ProxyState.step s (c.beforeSelect.map .writer) with hs₁
  have hlastid₁ : s₁.lastid = s.lastid := by rw [lastid, lastid, hnextid₁]
  set s₂ := s₁.step (.select c.items) with hs₂
  obtain ⟨hsender₃, hnextid₃, hhistory₃⟩ := run_writers s₂ c.beforePut
  set s₃ := Run.run ProxyState.step s₂ (c.beforePut.map .writer)
  set s₄ := s₃.step (.put .succeeded) with hs₄
  obtain ⟨hsender₅, hnextid₅, hhistory₅⟩ := run_writers s₄ c.beforeStore
  set s₅ := Run.run ProxyState.step s₄ (c.beforeStore.map .writer)
  rcases step_select s₁ c.items with ⟨-, hne, hstep⟩ | ⟨hnil, hstep⟩
  · rw [hs₂, hstep] at hsender₃ hhistory₃
    have hs₄' : s₄ = { s₃ with
        sender := .answered (getHistoryData c.items s₁.nextid s₁.history)
        received := s₃.received ++ getHistoryData c.items s₁.nextid s₁.history } := by
      rw [hs₄]
      simp [ProxyState.step, hsender₃]
    rw [hs₄'] at hsender₅ hhistory₅
    have hfinal : s₅.step .setLastid = { s₅ with
        sender := .idle
        nextid := some (historyLastid (getHistoryData c.items s₁.nextid s₁.history)) } := by
      simp [ProxyState.step, hsender₅]
    have hlt : s.lastid < (s₅.step .setLastid).lastid := by
      rw [hfinal, ← hlastid₁]
      exact lt_historyLastid hne
    refine ⟨by rw [hfinal], Nat.le_of_lt hlt, fun row hrow => ⟨?_, .inr hlt⟩⟩
    rw [hfinal]
    exact hhistory₅ row (hhistory₃ row (hhistory₁ row hrow))
  · have hsender₂ : s₂.sender = .idle := by rw [hs₂, hstep, hsender₁, hidle]
    have hs₄' : s₄ = s₃ := by
      rw [hs₄]
      simp [ProxyState.step, hsender₃, hsender₂]
    rw [hs₄'] at hsender₅ hnextid₅ hhistory₅
    have hidle₅ : s₅.sender = .idle := by rw [hsender₅, hsender₃, hsender₂]
    have hfinal : s₅.step .setLastid = s₅ := by simp [ProxyState.step, hidle₅]
    have hlastid : s₅.lastid = s.lastid := by
      rw [lastid, hnextid₅, hnextid₃, hs₂, hstep]
      exact hlastid₁
    rw [hfinal, hlastid]
    refine ⟨hidle₅, Nat.le_refl _, fun row hrow => ⟨?_, .inl ?_⟩⟩
    · refine hhistory₅ row (hhistory₃ row ?_)
      rw [hs₂, hstep]
      exact hhistory₁ row hrow
    · by_contra hgt
      rw [Nat.not_le, ← hlastid₁] at hgt
      exact getHistoryData_ne_nil (hhistory₁ row hrow) hgt (hontime.2.1 row (hhistory₁ row hrow) hgt)
        (hnil (hsender₁.trans hidle))

/-- The mark gets to every row. -/
theorem le_lastid_cycles (hidle : s.sender = .idle) {row : ProxyHistory} (hrow : row ∈ s.history)
    {cs : List SenderCycle} (hontime : Run.Along ProxyState.step OnTime s (cs.flatMap SenderCycle.events))
    (hle : row.id ≤ s.lastid + cs.length) :
    row ∈ (Run.run ProxyState.step s (cs.flatMap SenderCycle.events)).history ∧
      row.id ≤ (Run.run ProxyState.step s (cs.flatMap SenderCycle.events)).lastid := by
  induction cs generalizing s with
  | nil => exact ⟨hrow, hle⟩
  | cons c cs ih =>
      rw [List.flatMap_cons, Run.along_append] at hontime
      rw [List.flatMap_cons, Run.run_append]
      obtain ⟨hidle', hmono, hrows⟩ := cycle hidle c hontime.1
      obtain ⟨hrow', hlt⟩ := hrows row hrow
      rw [List.length_cons] at hle
      exact ih hidle' hrow' hontime.2 (by omega)

end ProxyState

/-- **Proxy history is delivered**: in a run in which no row is committed behind
the mark of the sender, and the items of the rows that are to be sent are there,
every row up to the stored mark has been sent, and all that has been sent are
rows that have been committed; unless an answer of the server gets lost, none
has been sent twice; and a row has been sent after as many cycles of the
sender as its identifier is above the mark, at the latest. -/
theorem history_delivered (es : List ProxyEvent)
    (h : Run.Along ProxyState.step ProxyState.OnTime .initial es) :
    (∀ row ∈ (Run.run ProxyState.step .initial es).history,
      row.id ≤ (Run.run ProxyState.step .initial es).lastid →
        (Run.run ProxyState.step .initial es).Sent row) ∧
    (∀ r ∈ (Run.run ProxyState.step .initial es).received,
      ∃ row ∈ (Run.run ProxyState.step .initial es).history, r.Carries row) ∧
    ((∀ e ∈ es, e ≠ .put .unanswered) →
      ((Run.run ProxyState.step .initial es).received.map (·.id)).Nodup) ∧
    ∀ pre (cycles : List SenderCycle), es = pre ++ cycles.flatMap SenderCycle.events →
      (Run.run ProxyState.step .initial pre).sender = .idle →
      ∀ row ∈ (Run.run ProxyState.step .initial pre).history,
        row.id ≤ (Run.run ProxyState.step .initial pre).lastid + cycles.length →
        (Run.run ProxyState.step .initial es).Sent row := by
  have hs := ProxyState.consistent_run ProxyState.consistent_initial h
  refine ⟨hs.complete, fun r hr => hs.genuine r (.inl hr), fun hanswer => ?_, ?_⟩
  · exact (ProxyState.once_run ProxyState.consistent_initial ProxyState.once_initial h hanswer).nodup
  · rintro pre cycles rfl hidle row hrow hle
    rw [Run.along_append] at h
    rw [Run.run_append] at hs ⊢
    obtain ⟨hrow', hle'⟩ := ProxyState.le_lastid_cycles hidle hrow h.2 hle
    exact hs.complete row hrow' hle'

/-- A value of an item. -/
def someValue (itemid : ℕ) : ProxyValue :=
  { itemid := itemid
    clock := 100
    timestamp := 0
    source := CString.empty
    severity := 0
    value := ⟨[49], by decide⟩ }

/-- Every item is there. -/
def allItems : HostItems := fun _ => some (⟨[104], by decide⟩, ⟨[107], by decide⟩)

/-- Two writers whose transactions are committed in the order of their
identifiers, and a cycle of the sender in between. -/
def orderedRun : List ProxyEvent :=
  [.writer (.insert 0 (someValue 7)), .writer (.insert 1 (someValue 8)), .writer (.commit 0), .select allItems,
    .writer (.commit 1), .put .succeeded, .setLastid]

theorem history_delivered_ordered :
    Run.Along ProxyState.step ProxyState.OnTime .initial orderedRun ∧
    (∀ row ∈ (Run.run ProxyState.step .initial orderedRun).history,
      row.id ≤ (Run.run ProxyState.step .initial orderedRun).lastid →
        (Run.run ProxyState.step .initial orderedRun).Sent row) ∧
    (∀ r ∈ (Run.run ProxyState.step .initial orderedRun).received,
      ∃ row ∈ (Run.run ProxyState.step .initial orderedRun).history, r.Carries row) ∧
    ((∀ e ∈ orderedRun, e ≠ .put .unanswered) →
      ((Run.run ProxyState.step .initial orderedRun).received.map (·.id)).Nodup) ∧
    ∀ pre (cycles : List SenderCycle), orderedRun = pre ++ cycles.flatMap SenderCycle.events →
      (Run.run ProxyState.step .initial pre).sender = .idle →
      ∀ row ∈ (Run.run ProxyState.step .initial pre).history,
        row.id ≤ (Run.run ProxyState.step .initial pre).lastid + cycles.length →
        (Run.run ProxyState.step .initial orderedRun).Sent row :=
  have h : Run.Along ProxyState.step ProxyState.OnTime .initial orderedRun :=
    ⟨trivial, trivial, by rw [ProxyState.OnTime]; decide, fun _ _ _ => rfl, by rw [ProxyState.OnTime]; decide, trivial, trivial, trivial⟩
  ⟨h, history_delivered orderedRun h⟩

/-- The writer that has inserted first is committed after the other's row has
been sent. -/
def overtakenRun : List ProxyEvent :=
  [.writer (.insert 0 (someValue 7)), .writer (.insert 1 (someValue 8)), .writer (.commit 1), .select allItems,
    .put .succeeded, .setLastid, .writer (.commit 0)]

/-- The row of the first writer can be seen, is not above the mark, and has not
been sent. -/
theorem history_lost :
    ∃ row ∈ (Run.run ProxyState.step .initial overtakenRun).history,
      row.id ≤ (Run.run ProxyState.step .initial overtakenRun).lastid ∧
        ¬(Run.run ProxyState.step .initial overtakenRun).Sent row := by
  refine ⟨⟨1, someValue 7⟩, by decide, by decide, ?_⟩
  rintro ⟨r, hr, hid, -⟩
  have hids : ∀ r ∈ (Run.run ProxyState.step .initial overtakenRun).received, r.id ≠ 1 := by decide
  exact hids r hr hid

end Zabbix
