import Zabbix.Agent.Thread

/-!
# Zabbix.Agent.Following

What the thread of the active checks makes of the files that it follows.

Between any two moments the pieces that are read for a metric are the part of its
file between the two offsets, whatever happens to the list of checks, to the
other metrics and to the network in between, and its lines are those of the
pieces that match (`agent_follows`).
-/

namespace Zabbix

open Ascii

/-! ## what has been done with a metric -/

namespace MetricAction

/-- The piece of a log that is read. -/
def piece : MetricAction → Option (List UInt8)
  | read piece => some piece
  | _ => none

/-- The line of a log that is handed over. -/
def logLine : MetricAction → Option ActiveBufferElement
  | line el => some el
  | _ => none

end MetricAction

/-- The pieces that are read for the metric at a place. -/
def piecesOf (actions : List (ℕ × MetricAction)) (i : ℕ) : List (List UInt8) :=
  actions.filterMap fun a => if a.1 = i then a.2.piece else none

/-- The lines that are handed over for the metric at a place. -/
def linesOf (actions : List (ℕ × MetricAction)) (i : ℕ) : List ActiveBufferElement :=
  actions.filterMap fun a => if a.1 = i then a.2.logLine else none

/-- The values that are handed over. -/
def elementsOf (actions : List (ℕ × MetricAction)) : List ActiveBufferElement :=
  actions.filterMap (·.2.element)

/-- What the server is told of a line. -/
structure ReportedLine where
  host : CString
  key : CString
  value : CString
  lastlogsize : ℤ
deriving DecidableEq

/-- The line of an element. -/
def ActiveBufferElement.reportedLine (el : ActiveBufferElement) : ReportedLine :=
  { host := el.host
    key := el.key
    value := el.value
    lastlogsize := el.lastlogsize }

variable (config : AgentConfig)

/-- The pieces that match, each with the offset behind it. -/
def matchingLines (keyOrig : CString) (pattern : List UInt8) : ℤ → List (List UInt8) → List ReportedLine
  | _, [] => []
  | lastlogsize, piece :: pieces =>
      (if pattern = [] ∨ config.matched (pieceText piece) pattern then
          [{ host := config.hostname
             key := keyOrig
             value := cstrOf (pieceText piece)
             lastlogsize := lastlogsize + piece.length }]
        else []) ++ matchingLines keyOrig pattern (lastlogsize + piece.length) pieces

/-- A piece has something, and no newline but at its end. -/
def LinePiece (piece : List UInt8) : Prop := piece ≠ [] ∧ newline ∉ piece.dropLast

variable {config}

theorem piecesOf_append (actions actions' : List (ℕ × MetricAction)) (i : ℕ) :
    piecesOf (actions ++ actions') i = piecesOf actions i ++ piecesOf actions' i :=
  List.filterMap_append

theorem linesOf_append (actions actions' : List (ℕ × MetricAction)) (i : ℕ) :
    linesOf (actions ++ actions') i = linesOf actions i ++ linesOf actions' i :=
  List.filterMap_append

theorem elementsOf_append (actions actions' : List (ℕ × MetricAction)) :
    elementsOf (actions ++ actions') = elementsOf actions ++ elementsOf actions' :=
  List.filterMap_append

theorem matchingLines_append (keyOrig : CString) (pattern : List UInt8) (n : ℤ) (pieces pieces' : List (List UInt8)) :
    matchingLines config keyOrig pattern n (pieces ++ pieces') =
      matchingLines config keyOrig pattern n pieces ++
        matchingLines config keyOrig pattern (n + pieces.flatten.length) pieces' := by
  induction pieces generalizing n with
  | nil => simp [matchingLines]
  | cons piece pieces ih =>
      rw [List.cons_append, matchingLines, matchingLines, ih, List.append_assoc, List.flatten_cons,
        List.length_append, Nat.cast_add, add_assoc]

theorem linePiece_fgets {s : List UInt8} {room : ℕ} (h : fgets s room ≠ []) : LinePiece (fgets s room) := by
  refine ⟨h, ?_⟩
  clear h
  induction s generalizing room with
  | nil => exact List.not_mem_nil
  | cons c s ih =>
      rw [fgets]
      split
      · exact List.not_mem_nil
      · split
        · exact List.not_mem_nil
        · next hc =>
            cases hread : fgets s (room - 1) with
            | nil => exact List.not_mem_nil
            | cons d t =>
                have hrest := @ih (room - 1)
                rw [hread] at hrest
                rw [List.dropLast_cons_of_ne_nil (List.cons_ne_nil _ _), List.mem_cons, not_or]
                exact ⟨Ne.symm hc, hrest⟩

/-! ## two moments -/

/-- What has become of the metric at a place, between two moments: the metric,
and what has been done since. -/
structure LogFollowed (config : AgentConfig) (filename pattern : List UInt8) (i : ℕ) (w w' : AgentWorld)
    (x x' : ActiveMetric) (new : List (ℕ × MetricAction)) : Prop where
  metric : w'.metrics.metrics[i]? = some x'
  key : x'.key = x.key
  keyOrig : x'.keyOrig = x.keyOrig
  actions : w'.actions = w.actions ++ new
  handed : w'.buffer.handed = w.buffer.handed ++ elementsOf new
  pieces : ∀ piece ∈ piecesOf new i, LinePiece piece
  offset : x'.lastlogsize = x.lastlogsize + (piecesOf new i).flatten.length
  inFile : x'.lastlogsize ≤ (w'.files filename).length
  text : (w'.files filename).take x'.lastlogsize.toNat =
    (w.files filename).take x.lastlogsize.toNat ++ (piecesOf new i).flatten
  lines : (linesOf new i).map (·.reportedLine) =
    matchingLines config x.keyOrig pattern x.lastlogsize (piecesOf new i)

/-- The metric at a place is followed, if it is a log and its file is not shorter
than its offset. -/
def LogFollows (config : AgentConfig) (i : ℕ) (w w' : AgentWorld) : Prop :=
  ∀ x filename pattern, w.metrics.metrics[i]? = some x → logParams x.key = some (filename, pattern) →
    0 ≤ x.lastlogsize → x.lastlogsize ≤ (w.files filename).length →
    ∃ x' new, LogFollowed config filename pattern i w w' x x' new

theorem LogFollowed.trans {filename pattern : List UInt8} {i : ℕ} {w w' w'' : AgentWorld} {x x' x'' : ActiveMetric}
    {new new' : List (ℕ × MetricAction)} (h : LogFollowed config filename pattern i w w' x x' new)
    (h' : LogFollowed config filename pattern i w' w'' x' x'' new') :
    LogFollowed config filename pattern i w w'' x x'' (new ++ new') where
  metric := h'.metric
  key := h'.key.trans h.key
  keyOrig := h'.keyOrig.trans h.keyOrig
  actions := by rw [h'.actions, h.actions, List.append_assoc]
  handed := by rw [h'.handed, h.handed, elementsOf_append, List.append_assoc]
  pieces := by
    rw [piecesOf_append]
    exact List.forall_mem_append.mpr ⟨h.pieces, h'.pieces⟩
  offset := by
    rw [h'.offset, h.offset, piecesOf_append, List.flatten_append, List.length_append]
    omega
  inFile := h'.inFile
  text := by rw [h'.text, h.text, piecesOf_append, List.flatten_append, List.append_assoc]
  lines := by
    rw [linesOf_append, List.map_append, h.lines, h'.lines, piecesOf_append, matchingLines_append, h.keyOrig, h.offset]

theorem LogFollows.trans {i : ℕ} {w w' w'' : AgentWorld} (h : LogFollows config i w w') (h' : LogFollows config i w' w'') :
    LogFollows config i w w'' := by
  intro x filename pattern hx hparams h0 hle
  obtain ⟨x', new, hf⟩ := h x filename pattern hx hparams h0 hle
  have h0' : 0 ≤ x'.lastlogsize := by
    rw [hf.offset]
    omega
  obtain ⟨x'', new', hf'⟩ := h' x' filename pattern hf.metric (hf.key ▸ hparams) h0' hf.inFile
  exact ⟨x'', new ++ new', hf.trans hf'⟩

/-! ## nothing is done with the metric -/

/-- The log at a place is as it was, and files have only grown. -/
structure LogUntouched (i : ℕ) (w w' : AgentWorld) (new : List (ℕ × MetricAction)) : Prop where
  metric : ∀ x, w.metrics.metrics[i]? = some x →
    ∃ x', w'.metrics.metrics[i]? = some x' ∧ x'.key = x.key ∧ x'.keyOrig = x.keyOrig ∧ x'.lastlogsize = x.lastlogsize
  files : ∀ filename, w.files filename <+: w'.files filename
  actions : w'.actions = w.actions ++ new
  handed : w'.buffer.handed = w.buffer.handed ++ elementsOf new
  pieces : piecesOf new i = []
  lines : linesOf new i = []

theorem LogUntouched.follows {i : ℕ} {w w' : AgentWorld} {new : List (ℕ × MetricAction)} (h : LogUntouched i w w' new) :
    LogFollows config i w w' := by
  intro x filename pattern hx _ h0 hle
  obtain ⟨x', hx', hkey, hkeyOrig, hoffset⟩ := h.metric x hx
  have hlength := (h.files filename).length_le
  refine ⟨x', new, hx', hkey, hkeyOrig, h.actions, h.handed, ?_, ?_, ?_, ?_, ?_⟩
  · rw [h.pieces]
    exact fun _ hmem => nomatch hmem
  · rw [h.pieces, hoffset]
    exact (Int.add_zero _).symm
  · omega
  · obtain ⟨chunk, hchunk⟩ := h.files filename
    rw [h.pieces, hoffset, ← hchunk, List.take_append_of_le_length (by omega)]
    exact (List.append_nil _).symm
  · rw [h.pieces, h.lines]
    rfl

theorem LogUntouched.trans {i : ℕ} {w w' w'' : AgentWorld} {new new' : List (ℕ × MetricAction)}
    (h : LogUntouched i w w' new) (h' : LogUntouched i w' w'' new') : LogUntouched i w w'' (new ++ new') where
  metric := by
    intro x hx
    obtain ⟨x', hx', hkey, hkeyOrig, hoffset⟩ := h.metric x hx
    obtain ⟨x'', hx'', hkey', hkeyOrig', hoffset'⟩ := h'.metric x' hx'
    exact ⟨x'', hx'', hkey'.trans hkey, hkeyOrig'.trans hkeyOrig, hoffset'.trans hoffset⟩
  files := fun filename => (h.files filename).trans (h'.files filename)
  actions := by rw [h'.actions, h.actions, List.append_assoc]
  handed := by rw [h'.handed, h.handed, elementsOf_append, List.append_assoc]
  pieces := by rw [piecesOf_append, h.pieces, h'.pieces, List.append_nil]
  lines := by rw [linesOf_append, h.lines, h'.lines, List.append_nil]

/-- Where the thread stands does not matter. -/
theorem LogUntouched.stand {i : ℕ} {w w' : AgentWorld} {new : List (ℕ × MetricAction)} (h : LogUntouched i w w' new)
    (stand : Stand) : LogUntouched i w { w' with stand := stand } new where
  metric := h.metric
  files := h.files
  actions := h.actions
  handed := h.handed
  pieces := h.pieces
  lines := h.lines

theorem logUntouched_refl (i : ℕ) (w : AgentWorld) : LogUntouched i w w [] where
  metric := fun x hx => ⟨x, hx, rfl, rfl, rfl⟩
  files := fun _ => List.prefix_rfl
  actions := (List.append_nil _).symm
  handed := (List.append_nil _).symm
  pieces := rfl
  lines := rfl

theorem getElem?_modifyAt (m : ActiveMetrics) (i j : ℕ) (f : ActiveMetric → ActiveMetric)
    (hf : ∀ x, (f x).key = x.key) :
    (m.modifyAt j f hf).metrics[i]? = (m.metrics[i]?).map fun x => if j = i then f x else x := by
  refine (List.getElem?_modify f j m.metrics i).trans ?_
  cases m.metrics[i]? with
  | none => rfl
  | some x =>
      by_cases h : j = i
      · rw [Option.map_some, if_pos h]
        simp [h]
      · rw [Option.map_some, if_neg h]
        simp [h]

/-- Another metric is changed, or a field that does not matter. -/
theorem logUntouched_modify {w : AgentWorld} (i j : ℕ) (f : ActiveMetric → ActiveMetric) (hf : ∀ x, (f x).key = x.key)
    (h : j = i → ∀ x, w.metrics.metrics[i]? = some x →
      (f x).keyOrig = x.keyOrig ∧ (f x).lastlogsize = x.lastlogsize) :
    LogUntouched i w (w.modify j f hf) [] where
  metric := by
    intro x hx
    rw [AgentWorld.modify, getElem?_modifyAt, hx, Option.map_some]
    by_cases hj : j = i
    · exact ⟨f x, by rw [if_pos hj], hf x, h hj x hx⟩
    · exact ⟨x, by rw [if_neg hj], rfl, rfl, rfl⟩
  files := fun _ => List.prefix_rfl
  actions := (List.append_nil _).symm
  handed := (List.append_nil _).symm
  pieces := rfl
  lines := rfl

theorem processValue_handed (b : BufferConfig) (s : ActiveBuffer) (c : SendContext) (p : ProcessedValue)
    (clock : Int32) : (processValue b s c p clock).handed = s.handed ++ [p.element clock] := by
  have hsend : (sendBuffer b s c).handed = s.handed := by
    rw [sendBuffer]
    split
    · dsimp only
      split <;> rfl
    · rfl
  rw [processValue]
  dsimp only
  split
  · rw [hsend]
  · split
    · rw [hsend]
    · rw [hsend]

/-- Something is handed over that is no line of the metric. -/
theorem logUntouched_report {w : AgentWorld} (i j : ℕ) {action : ActiveBufferElement → MetricAction}
    (haction : ∀ el, (action el).element = some el ∧ (action el).piece = none) (h : j = i → ∀ el, (action el).logLine = none)
    (v : Visit) (keyOrig value : CString) (lastlogsize : Option ℤ) :
    ∃ new, LogUntouched i w (w.report config j action v keyOrig value lastlogsize) new := by
  refine ⟨_, fun x hx => ⟨x, hx, rfl, rfl, rfl⟩, fun _ => List.prefix_rfl, rfl, ?_, ?_, ?_⟩
  · rw [AgentWorld.report]
    dsimp only
    rw [processValue_handed]
    simp [elementsOf, haction]
  · simp [piecesOf, haction]
  · by_cases hj : j = i
    · simp [linesOf, hj, h hj]
    · simp [linesOf, hj]

/-! ## steps -/

/-- Nothing is done with the metric in a part of a step. -/
def Quiet (i : ℕ) (w w' : AgentWorld) : Prop := ∃ new, LogUntouched i w w' new

theorem Quiet.trans {i : ℕ} {w w' w'' : AgentWorld} (h : Quiet i w w') (h' : Quiet i w' w'') : Quiet i w w'' := by
  obtain ⟨new, h⟩ := h
  obtain ⟨new', h'⟩ := h'
  exact ⟨new ++ new', h.trans h'⟩

theorem Quiet.stand {i : ℕ} {w w' : AgentWorld} (h : Quiet i w w') (stand : Stand) :
    Quiet i w { w' with stand := stand } := by
  obtain ⟨new, h⟩ := h
  exact ⟨new, h.stand stand⟩

theorem quiet_refl (i : ℕ) (w : AgentWorld) : Quiet i w w := ⟨[], logUntouched_refl i w⟩

theorem quiet_unsupported (i j : ℕ) (w : AgentWorld) (x : ActiveMetric) (v : Visit) :
    Quiet i w (w.unsupported config j x v) := by
  rw [AgentWorld.unsupported]
  refine Quiet.trans ?_ (logUntouched_report i j (fun _ => ⟨rfl, rfl⟩) (fun _ _ => rfl) ..)
  exact ⟨[], logUntouched_modify i j _ _ fun _ _ _ => ⟨rfl, rfl⟩⟩

theorem quiet_finish (i j : ℕ) (w : AgentWorld) (now : ℤ) (v : Visit) : Quiet i w (w.finish now j v) := by
  rw [AgentWorld.finish]
  refine Quiet.stand ?_ _
  exact ⟨[], logUntouched_modify i j _ _ fun _ _ _ => ⟨rfl, rfl⟩⟩

theorem quiet_nextLine (i j : ℕ) (w : AgentWorld) (now : ℤ) (x : ActiveMetric) (sCount pCount : ℕ) (v : Visit) :
    Quiet i w (w.nextLine now j x sCount pCount v) := by
  rw [AgentWorld.nextLine]
  split
  · exact quiet_finish i j w now v
  · exact (quiet_refl i w).stand _

theorem quiet_checkValue (i j : ℕ) (w : AgentWorld) (x : ActiveMetric) (v : Visit) :
    Quiet i w (w.checkValue config j x v) := by
  rw [AgentWorld.checkValue]
  split
  · exact quiet_refl i w
  · have hreport : ∀ value, Quiet i w (w.report config j .value v x.keyOrig value none) :=
      fun value => logUntouched_report i j (fun _ => ⟨rfl, rfl⟩) (fun _ _ => rfl) ..
    dsimp only
    split
    · exact (hreport _).trans ⟨[], logUntouched_modify i j _ _ fun _ _ _ => ⟨rfl, rfl⟩⟩
    · exact hreport _

/-- No line is read in front of the loop of a log. -/
theorem quiet_check (i j : ℕ) (w : AgentWorld) (now : ℤ) (x : ActiveMetric) (v : Visit) :
    Quiet i w (w.check config now j x v) := by
  rw [AgentWorld.check]
  split
  · split
    · exact quiet_finish i j w now v
    · exact (quiet_refl i w).stand _
  · split
    · split
      · exact quiet_finish i j w now v
      · exact (quiet_unsupported i j w x v).trans (quiet_finish i j _ now v)
    · exact (quiet_checkValue i j w x v).trans (quiet_finish i j _ now v)

/-- A line of another metric. -/
theorem quiet_lineRead {i j : ℕ} (h : j ≠ i) (w : AgentWorld) (x : ActiveMetric) (piece pattern value : List UInt8)
    (lastlogsize : ℤ) (v : Visit) : Quiet i w (w.lineRead config j x piece pattern value lastlogsize v) := by
  have hread : LogUntouched i w { w with actions := w.actions ++ [(j, MetricAction.read piece)] }
      [(j, MetricAction.read piece)] :=
    { metric := fun x hx => ⟨x, hx, rfl, rfl, rfl⟩
      files := fun _ => List.prefix_rfl
      actions := rfl
      handed := (List.append_nil _).symm
      pieces := by simp [piecesOf, h]
      lines := by simp [linesOf, h] }
  rw [AgentWorld.lineRead]
  refine Quiet.trans ?_ ⟨[], logUntouched_modify i j _ _ fun hj => absurd hj h⟩
  split
  · exact Quiet.trans ⟨_, hread⟩ (logUntouched_report i j (fun _ => ⟨rfl, rfl⟩) (fun hj => absurd hj h) ..)
  · exact ⟨_, hread⟩

/-! ## a line of the metric -/

theorem logPiece_eq {file : List UInt8} {n : ℤ} (h : n ≤ file.length) :
    logPiece file n = fgets (file.drop n.toNat) (maxBufLen - 1) := by
  rw [logPiece, if_neg (by omega)]

theorem processLogAt_eq {access : LogAccess} {file : List UInt8} {n : ℤ} (h0 : 0 ≤ n) (hle : n ≤ file.length) :
    processLogAt access file n = (false, n, none) ∨
      logPiece file n = [] ∧ processLogAt access file n = (true, n, none) ∨
      logPiece file n ≠ [] ∧ processLogAt access file n =
        (true, n + (logPiece file n).length, some (pieceText (logPiece file n))) := by
  have hn : n.toNat ≤ file.length := by omega
  have hcast : (n.toNat : ℤ) = n := Int.toNat_of_nonneg h0
  rw [logPiece_eq hle, processLogAt, if_neg (by omega)]
  by_cases haccess : access = .ok
  · subst haccess
    rw [processLog_ok hn]
    dsimp only
    cases hread : fgets (file.drop n.toNat) (maxBufLen - 1) with
    | nil =>
        dsimp only
        exact .inr (.inl ⟨rfl, by rw [hcast]⟩)
    | cons c s =>
        dsimp only
        exact .inr (.inr ⟨List.cons_ne_nil _ _, by rw [Nat.cast_add, hcast, pieceText]⟩)
  · rw [processLog_fail haccess hn]
    dsimp only
    rw [hcast]
    exact .inl rfl

/-- A piece that is read is what comes next in the file. -/
theorem take_logPiece {file : List UInt8} {n : ℤ} (h0 : 0 ≤ n) (hle : n ≤ file.length) :
    file.take (n + (logPiece file n).length).toNat = file.take n.toNat ++ logPiece file n ∧
      n + (logPiece file n).length ≤ file.length := by
  have hprefix : logPiece file n <+: file.drop n.toNat := by
    rw [logPiece_eq hle]
    exact fgets_prefix ..
  obtain ⟨htake, hlength⟩ := take_add_length (by omega : n.toNat ≤ file.length) hprefix
  constructor
  · rw [← htake]
    congr 1
    omega
  · omega

theorem logFollows_lineRead {w : AgentWorld} {i : ℕ} {x : ActiveMetric} {filename pattern : List UInt8}
    (hx : w.metrics.metrics[i]? = some x) (hparams : logParams x.key = some (filename, pattern))
    (hread : logPiece (w.files filename) x.lastlogsize ≠ []) (v : Visit) :
    LogFollows config i w (w.lineRead config i x (logPiece (w.files filename) x.lastlogsize) pattern
      (pieceText (logPiece (w.files filename) x.lastlogsize))
      (x.lastlogsize + (logPiece (w.files filename) x.lastlogsize).length) v) := by
  intro x' filename' pattern' hx' hparams' h0 hle
  obtain rfl := Option.some.inj (hx.symm.trans hx')
  obtain ⟨rfl, rfl⟩ := Prod.mk.inj (Option.some.inj (hparams.symm.trans hparams'))
  obtain ⟨htake, hlength⟩ := take_logPiece h0 hle
  have hpiece : LinePiece (logPiece (w.files filename) x.lastlogsize) := by
    rw [logPiece_eq hle] at hread ⊢
    exact linePiece_fgets hread
  generalize hp : logPiece (w.files filename) x.lastlogsize = piece at htake hlength hpiece
  have hlineRead : ∀ (w' : AgentWorld) new, w'.metrics = w.metrics → w'.files = w.files →
      w'.actions = w.actions ++ new → w'.buffer.handed = w.buffer.handed ++ elementsOf new → piecesOf new i = [piece] →
      (linesOf new i).map (·.reportedLine) = matchingLines config x.keyOrig pattern x.lastlogsize [piece] →
      LogFollowed config filename pattern i w
        (w'.modify i (fun x' => { x' with lastlogsize := x.lastlogsize + piece.length }) fun _ => rfl) x
        { x with lastlogsize := x.lastlogsize + piece.length } new := by
    intro w' new hmetrics hfiles hactions hhanded hpieces hlines
    have hflatten : (piecesOf new i).flatten = piece := by rw [hpieces, List.flatten_cons, List.flatten_nil, List.append_nil]
    exact
      { metric := by
          rw [AgentWorld.modify, getElem?_modifyAt, hmetrics, hx]
          simp
        key := rfl
        keyOrig := rfl
        actions := hactions
        handed := hhanded
        pieces := by
          rw [hpieces]
          exact List.forall_mem_singleton.mpr hpiece
        offset := by rw [hflatten]
        inFile := by
          rw [AgentWorld.modify, hfiles]
          exact hlength
        text := by
          rw [hflatten, AgentWorld.modify, hfiles]
          exact htake
        lines := by rw [hlines, hpieces] }
  rw [AgentWorld.lineRead]
  by_cases hmatched : pattern = [] ∨ config.matched (pieceText piece) pattern
  · rw [if_pos hmatched]
    refine ⟨_, _, hlineRead _ _ rfl rfl (List.append_assoc ..) ?_ ?_ ?_⟩
    · rw [AgentWorld.report]
      dsimp only
      rw [processValue_handed]
      rfl
    · simp [piecesOf, MetricAction.piece]
    · rw [matchingLines, if_pos hmatched]
      simp [linesOf, MetricAction.logLine, matchingLines, ActiveBufferElement.reportedLine,
        ProcessedValue.element]
  · rw [if_neg hmatched]
    refine ⟨_, _, hlineRead _ _ rfl rfl rfl (List.append_nil _).symm ?_ ?_⟩
    · simp [piecesOf, MetricAction.piece]
    · rw [matchingLines, if_neg hmatched]
      simp [linesOf, MetricAction.logLine, matchingLines]

/-! ## steps and runs -/

theorem Quiet.follows {i : ℕ} {w w' : AgentWorld} (h : Quiet i w w') : LogFollows config i w w' := by
  obtain ⟨new, h⟩ := h
  exact h.follows

theorem logFollows_logLine {w : AgentWorld} (i : ℕ) {j : ℕ} {x : ActiveMetric} {filename pattern : List UInt8}
    (hx : w.metrics.metrics[j]? = some x) (hparams : logParams x.key = some (filename, pattern)) (now : ℤ)
    (sCount pCount : ℕ) (v : Visit) :
    LogFollows config i w (w.logLine config now j x filename pattern sCount pCount v) := by
  by_cases hj : j = i
  · subst hj
    intro x' filename' pattern' hx' hparams' h0 hle
    suffices h : LogFollows config j w (w.logLine config now j x filename pattern sCount pCount v) from
      h x' filename' pattern' hx' hparams' h0 hle
    obtain rfl := Option.some.inj (hx.symm.trans hx')
    obtain ⟨rfl, rfl⟩ := Prod.mk.inj (Option.some.inj (hparams.symm.trans hparams'))
    have hcases : _ ∨ _ ∨ _ := @processLogAt_eq v.access _ _ h0 hle
    rw [AgentWorld.logLine]
    rcases hcases with heq | ⟨-, heq⟩ | ⟨hread, heq⟩
    · rw [heq]
      exact ((quiet_unsupported j j w x v).trans (quiet_finish j j _ now v)).follows
    · rw [heq]
      refine Quiet.follows (Quiet.trans ?_ (quiet_finish j j _ now v))
      refine ⟨[], logUntouched_modify j j _ _ fun _ x' hx' => ?_⟩
      obtain rfl := Option.some.inj (hx.symm.trans hx')
      exact ⟨rfl, rfl⟩
    · rw [heq]
      exact (logFollows_lineRead hx hparams hread v).trans (quiet_nextLine j j _ now x _ _ v).follows
  · rw [AgentWorld.logLine]
    split
    · exact ((quiet_unsupported i j w x v).trans (quiet_finish i j _ now v)).follows
    · refine Quiet.follows (Quiet.trans ?_ (quiet_finish i j _ now v))
      exact ⟨[], logUntouched_modify i j _ _ fun h => absurd h hj⟩
    · exact ((quiet_lineRead hj w x ..).trans (quiet_nextLine i j _ now x _ _ v)).follows

theorem logFollows_visit (w : AgentWorld) (i : ℕ) (v : Visit) : LogFollows config i w (w.visit config v) := by
  have hrefl : LogFollows config i w w := (quiet_refl i w).follows
  rw [AgentWorld.visit]
  split
  · exact hrefl
  · split
    · exact ((quiet_refl i w).stand _).follows
    · split
      · exact ((quiet_refl i w).stand _).follows
      · exact (quiet_check i _ w _ _ v).follows
  · split
    · exact hrefl
    · next hx =>
        split
        · exact hrefl
        · next hparams => exact logFollows_logLine i hx hparams _ _ _ _

theorem sendBuffer_handed (b : BufferConfig) (s : ActiveBuffer) (c : SendContext) :
    (sendBuffer b s c).handed = s.handed := by
  rw [sendBuffer]
  split
  · dsimp only
    split <;> rfl
  · rfl

/-- One step. -/
theorem logFollows_step (w : AgentWorld) (i : ℕ) (e : AgentEvent) : LogFollows config i w (w.step config e) := by
  have hrefl : LogFollows config i w w := (quiet_refl i w).follows
  cases e with
  | append filename chunk =>
      refine Quiet.follows ⟨[], ?_⟩
      exact
        { metric := fun x hx => ⟨x, hx, rfl, rfl, rfl⟩
          files := fun name => by
            rw [AgentWorld.step]
            dsimp only
            split
            · exact List.prefix_append ..
            · exact List.prefix_rfl
          actions := (List.append_nil _).symm
          handed := (List.append_nil _).symm
          pieces := rfl
          lines := rfl }
  | received response =>
      rw [AgentWorld.step]
      split
      · next metrics _ hmetrics =>
          refine Quiet.follows ⟨[], ?_⟩
          exact
            { metric := kept_parseListOfChecks hmetrics i
              files := fun _ => List.prefix_rfl
              actions := (List.append_nil _).symm
              handed := (List.append_nil _).symm
              pieces := rfl
              lines := rfl }
      · exact hrefl
  | send c =>
      rw [AgentWorld.step]
      split
      · refine Quiet.follows ⟨[], ?_⟩
        exact
          { metric := fun x hx => ⟨x, hx, rfl, rfl, rfl⟩
            files := fun _ => List.prefix_rfl
            actions := (List.append_nil _).symm
            handed := (sendBuffer_handed ..).trans (List.append_nil _).symm
            pieces := rfl
            lines := rfl }
      · exact hrefl
  | pass now =>
      rw [AgentWorld.step]
      split
      · exact ((quiet_refl i w).stand _).follows
      · exact hrefl
  | visit v => exact logFollows_visit w i v

theorem logFollows_run (w : AgentWorld) (i : ℕ) (es : List AgentEvent) :
    LogFollows config i w (Run.run (AgentWorld.step config) w es) := by
  induction es generalizing w with
  | nil => exact (quiet_refl i w).follows
  | cons e es ih => exact (logFollows_step w i e).trans (ih _)

/-- **A log is followed**: between two moments, the pieces that are read for it
are what its file has between the two offsets, its lines are the pieces that
match, in order, and all that is handed over gets into the buffer. -/
theorem agent_follows {w : AgentWorld} {i : ℕ} {x : ActiveMetric} {filename pattern : List UInt8}
    (hx : w.metrics.metrics[i]? = some x) (hparams : logParams x.key = some (filename, pattern))
    (h0 : 0 ≤ x.lastlogsize) (hle : x.lastlogsize ≤ (w.files filename).length) (es : List AgentEvent) :
    ∃ x' new, LogFollowed config filename pattern i w (Run.run (AgentWorld.step config) w es) x x' new :=
  logFollows_run w i es x filename pattern hx hparams h0 hle

/-- A log of which `a` has been read, and a metric that is no log. -/
def syslogWorld : AgentWorld where
  files := fun name => if name = bytes "/s" then [97, newline, 98] else []
  metrics :=
    { metrics :=
        [⟨literal "log[/s,b]", literal "log[/s,b]", 1, 0, .active, 2⟩,
          ⟨literal "agent.ping", literal "agent.ping", 60, 0, .active, 0⟩]
      nodup := by decide }
  buffer := .initial
  stand := .idle
  actions := []

/-- Lines match that have the byte of the pattern. -/
def syslogConfig : AgentConfig where
  buffer := ⟨3, 5, by decide⟩
  hostname := literal "web"
  matched := fun value pattern => pattern.all fun c => value.contains c

/-- The network does not answer at any time. -/
def quietVisit (time : ℤ) : Visit := ⟨.ok, some (literal "1"), ⟨time, 0, .connect⟩, 0, time⟩

/-- The piece `b` is read before the rest of its line is there. -/
def syslogEvents : List AgentEvent :=
  [.pass 10, .visit (quietVisit 10), .visit (quietVisit 10), .append (bytes "/s") [98, newline, 99, newline],
    .visit (quietVisit 10), .visit (quietVisit 10), .visit (quietVisit 10), .visit (quietVisit 10),
    .visit (quietVisit 10), .visit (quietVisit 10), .append (bytes "/s") [98, newline]]

theorem agent_follows_syslog :
    (∃ x' new, LogFollowed syslogConfig (bytes "/s") (bytes "b") 0 syslogWorld
      (Run.run (AgentWorld.step syslogConfig) syslogWorld syslogEvents)
      ⟨literal "log[/s,b]", literal "log[/s,b]", 1, 0, .active, 2⟩ x' new) ∧
    (Run.run (AgentWorld.step syslogConfig) syslogWorld syslogEvents).buffer.handed.map
        (fun el => (el.value.val, el.lastlogsize)) =
      [([98], 3), ([98], 5), (bytes "1", 0)] :=
  ⟨agent_follows rfl (by decide +kernel) (by decide) (by decide) syslogEvents, by decide +kernel⟩

end Zabbix
