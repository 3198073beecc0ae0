import Zabbix.Agent.Active
import Zabbix.Json.Tree
import Zabbix.Lib.CInt
import Zabbix.Sender.InputLine

/-!
# Zabbix.Sender.InputFile

The loop of `zabbix_sender` over its input file (`main` of
`zabbix_sender/zabbix_sender.c`), with the requests that it makes.

What becomes of a request and what the clock shows are given.  A log keeps the lines that
have been taken up, the entries in the buffer and the requests.

* `senderFile_sent_iff` — when the requests carry what the lines say.
-/

namespace Zabbix

open Ascii

/-- `VALUES_MAX` -/
def valuesMax : ℕ := 250

/-! ## requests -/

/-- The object of an entry. -/
def SenderEntry.ops (e : SenderEntry) : List JsonOp :=
  [.addobject none,
    addString (literal "host") e.host,
    addString (literal "key") e.key,
    addString (literal "value") e.value] ++
  (match e.clock with
    | some clock => [addUint64 tagClock clock]
    | none => []) ++
  [.close]

/-- The beginning of a request. -/
def openRequest : List JsonOp :=
  [addString (literal "request") (literal "sender data"), .addarray (some (literal "data"))]

/-- The clock of a request. -/
def requestClock : Option ℤ → List JsonOp
  | some clock => [addUint64 tagClock clock]
  | none => []

/-- A request: what has been put into it, and what is sent. -/
structure SenderRequest where
  entries : List SenderEntry
  clock : Option ℤ
  text : List UInt8

/-- Whether `send_value` succeeds for a request, and the time when it is made. -/
structure SenderWorld where
  succeeds : ℕ → Bool
  time : ℕ → ℤ

/-! ## the loop -/

/-- The variables of `main`, and the log. -/
structure SenderState where
  inLine : Mem
  json : ZbxJson
  totalCount : ℕ
  succeedCount : ℕ
  bufferCount : ℕ
  ret : Bool
  read : List (List UInt8)
  buffered : List SenderEntry
  requests : List SenderRequest

section

variable (world : SenderWorld) (withTimestamps : Bool)

/-- The request is sent, with the time when there are timestamps. -/
def senderSend (s : SenderState) : SenderState :=
  let n := s.requests.length
  let clock := if withTimestamps then some (CInt.cast (world.time n)) else none
  let json := (requestClock clock).foldl ZbxJson.step s.json
  { s with
    json := json
    ret := world.succeeds n
    buffered := []
    requests := s.requests ++ [{ entries := s.buffered, clock := clock, text := json.text }] }

/-- The buffer begins anew. -/
def senderReset (s : SenderState) : SenderState :=
  { s with bufferCount := 0, json := openRequest.foldl ZbxJson.step (zbxJsonClean s.json) }

/-- The array of entries is closed. -/
def senderClose (s : SenderState) : SenderState := { s with json := s.json.step .close }

/-- An entry is added to the buffer. -/
def senderAdd (s : SenderState) (e : SenderEntry) : SenderState :=
  { s with
    json := e.ops.foldl ZbxJson.step s.json
    succeedCount := s.succeedCount + 1
    bufferCount := s.bufferCount + 1
    buffered := s.buffered ++ [e] }

/-- A line has been taken up, and leaves this in the array. -/
def senderRead (s : SenderState) (line : List UInt8) (inLine : Mem) : SenderState :=
  { s with inLine := inLine, totalCount := s.totalCount + 1, read := s.read ++ [line] }

/-- One round of the loop, with the line in the array. -/
def senderLine (s : SenderState) (line : List UInt8) : SenderState :=
  match inputLine withTimestamps s.inLine with
  | (inLine, none) => senderRead s line inLine
  | (inLine, some e) =>
      let s := senderAdd (senderRead s line inLine) e
      if s.bufferCount = valuesMax then senderReset (senderSend world withTimestamps (senderClose s)) else s

/-- `while (NULL != fgets(..) && SUCCEED == ret)` -/
def senderLoop (s : SenderState) : List (List UInt8) → SenderState
  | [] => s
  | line :: lines =>
      let s := { s with inLine := storeLine s.inLine line }
      if s.ret then senderLoop (senderLine world withTimestamps s line) lines else s

/-- The variables before the loop. -/
def senderStart (garbage inLine : Mem) : SenderState :=
  { inLine := inLine
    json := openRequest.foldl ZbxJson.step (zbxJsonInit garbage zbxJsonStatBufLen)
    totalCount := 0
    succeedCount := 0
    bufferCount := 0
    ret := true
    read := []
    buffered := []
    requests := [] }

/-- The lines that `fgets` reads from a file, one after the other. -/
def fgetsLines (file : List UInt8) : List (List UInt8) :=
  match _h : fgets file (maxBufLen - 1) with
  | [] => []
  | c :: s => (c :: s) :: fgetsLines (file.drop (c :: s).length)
termination_by file.length
decreasing_by
  have hinitial := fgets_prefix file (maxBufLen - 1)
  have hle := hinitial.length_le
  rw [_h] at hle
  rw [List.length_drop]
  simp only [List.length_cons] at hle ⊢
  omega

/-- `main`, from the file on. -/
def senderFile (garbage inLine : Mem) (file : List UInt8) : SenderState :=
  let s := senderLoop world withTimestamps (senderStart garbage inLine) (fgetsLines file)
  let s := senderClose s
  if s.bufferCount ≠ 0 then senderSend world withTimestamps s else s

end

/-! ## complete requests -/

/-- The clock of an entry or of a request. -/
def clockMembers : Option ℤ → Members
  | some clock => .value (some tagClock) (some (uint64Digits clock)) .int .nil
  | none => .nil

/-- The members of the object of an entry. -/
def SenderEntry.members (e : SenderEntry) : Members :=
  .value (some (literal "host")) (some e.host) .string
    (.value (some (literal "key")) (some e.key) .string
      (.value (some (literal "value")) (some e.value) .string (clockMembers (e.clock.map Nat.cast))))

/-- The members of a request. -/
def requestMembers (entries : List SenderEntry) (clock : Option ℤ) : Members :=
  .value (some (literal "request")) (some (literal "sender data")) .string
    (.node (some (literal "data")) false (entries.foldr (fun e rest => .node none true e.members rest) .nil)
      (clockMembers clock))

/-- The text of a request. -/
def requestText (entries : List SenderEntry) (clock : Option ℤ) : List UInt8 :=
  (Members.node none true (requestMembers entries clock) .nil).text 0 true

/-- The request is whole: at most 250 entries, in a closed document. -/
def SenderRequest.Complete (r : SenderRequest) : Prop :=
  r.entries.length ≤ valuesMax ∧ r.text = requestText r.entries r.clock

theorem foldl_step_clock (clock : Option ℤ) (fs : List Frame) :
    (requestClock clock).foldl Frame.step fs = Frame.add (clockMembers clock) fs := by
  cases clock with
  | none => exact (Frame.add_nil fs).symm
  | some clock => rfl

theorem foldl_step_entry (e : SenderEntry) {fs : List Frame} (hfs : fs ≠ []) :
    e.ops.foldl Frame.step fs = Frame.add (.node none true e.members .nil) fs := by
  obtain ⟨host, key, value, clock⟩ := e
  obtain ⟨f, fs, rfl⟩ := List.exists_cons_of_ne_nil hfs
  cases clock <;> rfl

theorem foldl_step_entries (entries : List SenderEntry) {fs : List Frame} (hfs : fs ≠ []) :
    (entries.flatMap SenderEntry.ops).foldl Frame.step fs =
      Frame.add (entries.foldr (fun e rest => .node none true e.members rest) .nil) fs := by
  induction entries generalizing fs with
  | nil => exact (Frame.add_nil fs).symm
  | cons e entries ih =>
      rw [List.flatMap_cons, List.foldl_append, foldl_step_entry e hfs, ih (Frame.add_ne_nil _ hfs)]
      exact Frame.add_add ..

/-- The operations for a request. -/
def sentOps (entries : List SenderEntry) (clock : Option ℤ) : List JsonOp :=
  openRequest ++ entries.flatMap SenderEntry.ops ++ [.close] ++ requestClock clock

theorem jsonDocument_sentOps (entries : List SenderEntry) (clock : Option ℤ) :
    jsonDocument (sentOps entries clock) = requestMembers entries clock := by
  rw [jsonDocument, Frame.run, sentOps, List.foldl_append, List.foldl_append, List.foldl_append, foldl_step_clock]
  have hopen : openRequest.foldl Frame.step [{ name := none, object := true, members := .nil }] =
      [{ name := some (literal "data"), object := false, members := .nil },
        { name := none, object := true,
          members := .value (some (literal "request")) (some (literal "sender data")) .string .nil }] := rfl
  rw [hopen, foldl_step_entries entries (by simp)]
  simp [Frame.add, Frame.step, Frame.close, wrap, Members.children, Members.append, requestMembers]

/-- **What the operations for a request write** is the text of the request. -/
theorem text_sentOps (garbage : Mem) (allocate : ℕ) (entries : List SenderEntry) (clock : Option ℤ) :
    ((sentOps entries clock).foldl ZbxJson.step (zbxJsonInit garbage allocate)).text = requestText entries clock := by
  have htext := text_jsonRun garbage allocate (sentOps entries clock)
  rw [jsonDocument_sentOps] at htext
  exact htext

/-! ## the buffer -/

theorem allocated_le_jsonGrow (need allocated : ℕ) : allocated ≤ jsonGrow need allocated := by
  fun_induction jsonGrow need allocated with
  | case1 allocated h ih =>
      refine le_trans ?_ ih
      split <;> omega
  | case2 allocated h => exact le_rfl

theorem allocated_le_step (j : ZbxJson) (op : JsonOp) : j.bufferAllocated ≤ (j.step op).bufferAllocated := by
  cases op with
  | addobject name => exact allocated_le_jsonGrow ..
  | addarray name => exact allocated_le_jsonGrow ..
  | addstring name string type => exact allocated_le_jsonGrow ..
  | close =>
      rw [ZbxJson.step, zbxJsonClose]
      split <;> exact le_rfl

theorem allocated_le_foldl (j : ZbxJson) (ops : List JsonOp) :
    j.bufferAllocated ≤ (ops.foldl ZbxJson.step j).bufferAllocated := by
  induction ops generalizing j with
  | nil => exact le_rfl
  | cons op ops ih => exact (allocated_le_step j op).trans (ih _)

/-- A buffer that is cleaned is one that begins anew. -/
theorem zbxJsonClean_eq (garbage : Mem) (allocate : ℕ) (ops : List JsonOp) :
    ∃ garbage' allocate', zbxJsonClean (ops.foldl ZbxJson.step (zbxJsonInit garbage allocate)) =
      zbxJsonInit garbage' allocate' := by
  have hinit : zbxJsonStatBufLen ≤ (zbxJsonInit garbage allocate).bufferAllocated :=
    (le_max_right allocate _).trans (allocated_le_jsonGrow ..)
  have hle := hinit.trans (allocated_le_foldl (zbxJsonInit garbage allocate) ops)
  generalize ops.foldl ZbxJson.step (zbxJsonInit garbage allocate) = j at hle ⊢
  refine ⟨j.buffer, j.bufferAllocated, ?_⟩
  rw [zbxJsonClean, zbxJsonInit, max_eq_left hle]

/-- The buffer holds the entries that the log says. -/
structure SenderInv (s : SenderState) : Prop where
  json : ∃ garbage allocate, s.json =
    (openRequest ++ s.buffered.flatMap SenderEntry.ops).foldl ZbxJson.step (zbxJsonInit garbage allocate)
  count : s.bufferCount = s.buffered.length
  room : s.bufferCount < valuesMax
  complete : ∀ r ∈ s.requests, r.Complete
  failed : s.ret = false → s.buffered = []

/-- What has been put into requests, and into the buffer. -/
def SenderState.taken (s : SenderState) : List SenderEntry := s.requests.flatMap SenderRequest.entries ++ s.buffered

section

variable (world : SenderWorld) (withTimestamps : Bool)

theorem senderInv_start (garbage inLine : Mem) : SenderInv (senderStart garbage inLine) where
  json := ⟨garbage, zbxJsonStatBufLen, rfl⟩
  count := rfl
  room := (by decide : 0 < valuesMax)
  complete := fun _ hr => nomatch hr
  failed := fun _ => rfl

/-- What is sent of a buffer. -/
theorem complete_senderSend {s : SenderState} (hjson : ∃ garbage allocate, s.json =
      (openRequest ++ s.buffered.flatMap SenderEntry.ops).foldl ZbxJson.step (zbxJsonInit garbage allocate))
    (hle : s.buffered.length ≤ valuesMax) (hcomplete : ∀ r ∈ s.requests, r.Complete) :
    ∀ r ∈ (senderSend world withTimestamps (senderClose s)).requests, r.Complete := by
  intro r hr
  rw [senderSend, List.mem_append, List.mem_singleton] at hr
  rcases hr with hr | rfl
  · exact hcomplete r hr
  · obtain ⟨garbage, allocate, hjson⟩ := hjson
    refine ⟨hle, ?_⟩
    rw [senderClose]
    dsimp only
    rw [hjson, ← List.foldl_concat (f := ZbxJson.step), ← List.foldl_append]
    exact text_sentOps garbage allocate _ _

/-- The loop goes on with a buffer that begins anew. -/
theorem senderInv_reset {s : SenderState} (hjson : ∃ garbage allocate, s.json =
      (openRequest ++ s.buffered.flatMap SenderEntry.ops).foldl ZbxJson.step (zbxJsonInit garbage allocate))
    (hle : s.buffered.length ≤ valuesMax) (hcomplete : ∀ r ∈ s.requests, r.Complete) :
    SenderInv (senderReset (senderSend world withTimestamps (senderClose s))) where
  json := by
    obtain ⟨garbage, allocate, hjson⟩ := hjson
    rw [senderReset, senderSend, senderClose]
    dsimp only
    rw [hjson, ← List.foldl_concat (f := ZbxJson.step), ← List.foldl_append]
    obtain ⟨garbage', allocate', hclean⟩ := zbxJsonClean_eq garbage allocate _
    rw [hclean]
    exact ⟨garbage', allocate', rfl⟩
  count := rfl
  room := (by decide : 0 < valuesMax)
  complete := complete_senderSend world withTimestamps hjson hle hcomplete
  failed := fun _ => rfl

/-- The buffer with one entry more; it may be full. -/
theorem senderAdd_json {s : SenderState} (h : SenderInv s) (e : SenderEntry) : ∃ garbage allocate,
    (senderAdd s e).json =
      (openRequest ++ (senderAdd s e).buffered.flatMap SenderEntry.ops).foldl ZbxJson.step (zbxJsonInit garbage allocate) := by
  obtain ⟨garbage, allocate, hjson⟩ := h.json
  refine ⟨garbage, allocate, ?_⟩
  rw [senderAdd]
  dsimp only
  rw [hjson, ← List.foldl_append, List.append_assoc, List.flatMap_append, List.flatMap_singleton]

theorem senderAdd_count {s : SenderState} (h : SenderInv s) (e : SenderEntry) :
    (senderAdd s e).bufferCount = (senderAdd s e).buffered.length := by
  rw [senderAdd]
  dsimp only
  rw [List.length_append, List.length_singleton, h.count]

theorem senderInv_read {s : SenderState} (h : SenderInv s) (line : List UInt8) (inLine : Mem) :
    SenderInv (senderRead s line inLine) :=
  ⟨h.json, h.count, h.room, h.complete, h.failed⟩

theorem senderSend_taken (s : SenderState) :
    (senderReset (senderSend world withTimestamps (senderClose s))).taken = s.taken := by
  simp [SenderState.taken, senderReset, senderSend, senderClose]

/-- **A round** takes up the line and adds its entry, if there is one. -/
theorem senderLine_spec {s : SenderState} (h : SenderInv s) (hret : s.ret = true) (line : List UInt8) :
    SenderInv (senderLine world withTimestamps s line) ∧
      (senderLine world withTimestamps s line).read = s.read ++ [line] ∧
      (senderLine world withTimestamps s line).taken = s.taken ++ (inputLine withTimestamps s.inLine).2.toList := by
  rw [senderLine]
  generalize inputLine withTimestamps s.inLine = p
  obtain ⟨inLine, _ | e⟩ := p
  · exact ⟨senderInv_read h line inLine, rfl, (List.append_nil _).symm⟩
  · dsimp only
    have hinv := senderInv_read h line inLine
    have hjson := senderAdd_json hinv e
    have hcount := senderAdd_count hinv e
    have hread : (senderAdd (senderRead s line inLine) e).read = s.read ++ [line] := rfl
    have hadded : (senderAdd (senderRead s line inLine) e).bufferCount = s.bufferCount + 1 := rfl
    have htaken : (senderAdd (senderRead s line inLine) e).taken = s.taken ++ [e] := (List.append_assoc ..).symm
    have hcomplete : ∀ r ∈ (senderAdd (senderRead s line inLine) e).requests, r.Complete := h.complete
    have hretAdded : (senderAdd (senderRead s line inLine) e).ret = true := hret
    have hroom := h.room
    generalize senderAdd (senderRead s line inLine) e = added
      at hjson hcount hread hadded htaken hcomplete hretAdded ⊢
    split
    next hfull =>
      exact ⟨senderInv_reset world withTimestamps hjson (by omega) hcomplete, hread,
        (senderSend_taken world withTimestamps added).trans htaken⟩
    next hroom' =>
      exact ⟨⟨hjson, hcount, by omega, hcomplete, fun hfalse => nomatch hretAdded.symm.trans hfalse⟩, hread, htaken⟩

end

/-! ## lines -/

/-- The lines of a file, each with its newline; the last one may have none. -/
def fileLines : List UInt8 → List (List UInt8)
  | [] => []
  | c :: s =>
      if c = newline then [c] :: fileLines s
      else
        match fileLines s with
        | [] => [[c]]
        | line :: lines => (c :: line) :: lines

/-- `fgets` reads the first line, if there is room for it. -/
theorem fgets_fileLines {file line : List UInt8} {lines : List (List UInt8)} {room : ℕ}
    (h : fileLines file = line :: lines) (hroom : line.length ≤ room) :
    fgets file room = line ∧ line ≠ [] ∧ fileLines (file.drop line.length) = lines := by
  induction file generalizing line lines room with
  | nil => cases h
  | cons c s ih =>
      rw [fileLines] at h
      split at h
      next hc =>
        cases h
        rw [List.length_singleton] at hroom
        rw [fgets, if_neg (by omega), if_pos hc]
        exact ⟨rfl, List.cons_ne_nil _ _, rfl⟩
      next hc =>
        cases hs : fileLines s with
        | nil =>
            rw [hs] at h
            cases h
            rw [List.length_singleton] at hroom
            have hnil : s = [] := by
              cases s with
              | nil => rfl
              | cons d s =>
                  rw [fileLines] at hs
                  split at hs
                  · cases hs
                  · split at hs <;> cases hs
            subst hnil
            rw [fgets, if_neg (by omega), if_neg hc]
            exact ⟨rfl, List.cons_ne_nil _ _, rfl⟩
        | cons line' lines' =>
            rw [hs] at h
            cases h
            rw [List.length_cons] at hroom
            obtain ⟨hread, -, hrest⟩ := ih hs (by omega : line'.length ≤ room - 1)
            rw [fgets, if_neg (by omega), if_neg hc, hread]
            exact ⟨rfl, List.cons_ne_nil _ _, hrest⟩

/-- Lines that fit are read one after the other. -/
theorem fgetsLines_eq {file : List UInt8} (h : ∀ line ∈ fileLines file, line.length < maxBufLen) :
    fgetsLines file = fileLines file := by
  induction hn : file.length using Nat.strongRecOn generalizing file with
  | _ n ih =>
      cases hfile : fileLines file with
      | nil =>
          have hnil : file = [] := by
            cases file with
            | nil => rfl
            | cons c s =>
                rw [fileLines] at hfile
                split at hfile
                · cases hfile
                · split at hfile <;> cases hfile
          subst hnil
          rw [fgetsLines]
          rfl
      | cons line lines =>
          rw [hfile, List.forall_mem_cons] at h
          obtain ⟨hread, hne, hrest⟩ := fgets_fileLines hfile (by omega : line.length ≤ maxBufLen - 1)
          obtain ⟨c, s, rfl⟩ := List.exists_cons_of_ne_nil hne
          have hinitial := fgets_prefix file (maxBufLen - 1)
          have hle := hinitial.length_le
          rw [hread, List.length_cons] at hle
          rw [fgetsLines]
          split
          next hnil =>
            rw [hread] at hnil
            cases hnil
          next c' s' heq =>
            rw [hread] at heq
            cases heq
            rw [ih (file.drop (c :: s).length).length (by rw [List.length_drop, List.length_cons]; omega)
              (by rw [hrest]; exact h.2) rfl, hrest]

/-- What is taken of a line is what it says: with timestamps when an `int` holds its clock, or
it has too few spaces; without, when it is not taken at all. -/
def LineOk (withTimestamps : Bool) (m : Mem) (line : List UInt8) : Prop :=
  if withTimestamps then StampedOk line else ¬Spaced (storeLine m line)

theorem inputLine_eq_iff (withTimestamps : Bool) (m : Mem) {line : List UInt8} (hlen : line.length < maxBufLen) :
    (inputLine withTimestamps (storeLine m line)).2 = lineEntry withTimestamps line ↔ LineOk withTimestamps m line := by
  cases withTimestamps with
  | true =>
      rw [inputLine_stamped (inArray_storeLine m hlen), LineOk, if_pos rfl]
      exact stampedEntry_eq_iff
  | false =>
      rw [LineOk, if_neg Bool.false_ne_true, ← inputLine_plain]
      cases htaken : (inputLine false (storeLine m line)).2 with
      | none =>
          simp only [reduceCtorEq, exists_false, not_false_eq_true, iff_true]
          cases hline : lineEntry false line with
          | none => rfl
          | some e =>
              obtain ⟨e', he'⟩ := (inputLine_plain _).mpr (spaced_of_lineEntry m hlen hline).1
              rw [htaken] at he'
              cases he'
      | some e =>
          simp only [Option.some.injEq, exists_eq', not_true_eq_false, iff_false]
          intro hline
          exact (spaced_of_lineEntry m hlen hline.symm).2 (key_inputLine_plain htaken)

/-- A line that stands for an entry is taken. -/
theorem taken_of_lineEntry {withTimestamps : Bool} (m : Mem) {line : List UInt8} {e : SenderEntry}
    (hlen : line.length < maxBufLen) (h : lineEntry withTimestamps line = some e) :
    ∃ e', (inputLine withTimestamps (storeLine m line)).2 = some e' := by
  cases withTimestamps with
  | true =>
      obtain ⟨stamp, -, -, -, htaken⟩ := stampedEntry_of_lineEntry h
      exact ⟨_, (inputLine_stamped (inArray_storeLine m hlen)).trans htaken⟩
  | false => exact (inputLine_plain _).mpr (spaced_of_lineEntry m hlen h).1

/-! ## the whole file -/

section

variable (world : SenderWorld) (withTimestamps : Bool)

/-- Every line that the loop takes up is taken for what it says. -/
def LinesOk (s : SenderState) (lines : List (List UInt8)) : Prop :=
  ∀ before line behind, lines = before ++ line :: behind → (senderLoop world withTimestamps s before).ret = true →
    LineOk withTimestamps (senderLoop world withTimestamps s before).inLine line

theorem linesOk_cons {s : SenderState} (hret : s.ret = true) {line : List UInt8} {lines : List (List UInt8)} :
    LinesOk world withTimestamps s (line :: lines) ↔
      LineOk withTimestamps s.inLine line ∧
        LinesOk world withTimestamps
          (senderLine world withTimestamps { s with inLine := storeLine s.inLine line } line) lines := by
  have hloop (before : List (List UInt8)) : senderLoop world withTimestamps s (line :: before) =
      senderLoop world withTimestamps
        (senderLine world withTimestamps { s with inLine := storeLine s.inLine line } line) before := by
    rw [senderLoop]
    exact if_pos hret
  constructor
  · intro h
    refine ⟨h [] line lines rfl hret, fun before line' behind hlines hgoing => ?_⟩
    have hline := h (line :: before) line' behind (by rw [hlines, List.cons_append])
    rw [hloop] at hline
    exact hline hgoing
  · rintro ⟨hline, hrest⟩ before line' behind hlines hgoing
    cases before with
    | nil =>
        cases hlines
        exact hline
    | cons first before =>
        cases hlines
        rw [hloop] at hgoing ⊢
        exact hrest before line' behind rfl hgoing

/-- **The loop**: the lines that it takes up, and what it takes of them. -/
theorem senderLoop_spec {s : SenderState} (h : SenderInv s) {lines : List (List UInt8)}
    (hshort : ∀ line ∈ lines, line.length < maxBufLen) :
    SenderInv (senderLoop world withTimestamps s lines) ∧
      ∃ read taken, (senderLoop world withTimestamps s lines).read = s.read ++ read ∧
        (senderLoop world withTimestamps s lines).taken = s.taken ++ taken ∧
        read <+: lines ∧ (read = lines ∨ (senderLoop world withTimestamps s lines).ret = false) ∧
        (read.filterMap (lineEntry withTimestamps)).length ≤ taken.length ∧
        (taken = read.filterMap (lineEntry withTimestamps) ↔ LinesOk world withTimestamps s lines) := by
  induction lines generalizing s with
  | nil =>
      refine ⟨h, [], [], (List.append_nil _).symm, (List.append_nil _).symm, List.prefix_rfl, .inl rfl, le_rfl, ?_⟩
      refine ⟨fun _ before line behind hlines => ?_, fun _ => rfl⟩
      cases before <;> cases hlines
  | cons line lines ih =>
      rw [List.forall_mem_cons] at hshort
      have hstored : SenderInv { s with inLine := storeLine s.inLine line } := ⟨h.json, h.count, h.room, h.complete, h.failed⟩
      cases hret : s.ret with
      | false =>
          have hloop : senderLoop world withTimestamps s (line :: lines) = { s with inLine := storeLine s.inLine line } := by
            rw [senderLoop]
            exact if_neg (by rw [hret]; exact Bool.false_ne_true)
          rw [hloop]
          refine ⟨hstored, [], [], (List.append_nil _).symm, (List.append_nil _).symm, List.nil_prefix, .inr hret,
            le_rfl, fun _ before line' behind _ hgoing => ?_, fun _ => rfl⟩
          exfalso
          cases before with
          | nil =>
              rw [senderLoop, hret] at hgoing
              cases hgoing
          | cons first before =>
              rw [senderLoop, if_neg (by rw [hret]; exact Bool.false_ne_true)] at hgoing
              rw [hret] at hgoing
              cases hgoing
      | true =>
          have hloop : senderLoop world withTimestamps s (line :: lines) = senderLoop world withTimestamps
              (senderLine world withTimestamps { s with inLine := storeLine s.inLine line } line) lines := by
            rw [senderLoop]
            exact if_pos hret
          obtain ⟨hinv, hread, htaken⟩ := senderLine_spec world withTimestamps hstored hret line
          obtain ⟨hend, read, taken, hread', htaken', hprefix, hall, hle, hiff⟩ := ih hinv hshort.2
          rw [hloop, hread', hread, htaken', htaken, linesOk_cons world withTimestamps hret, ← hiff,
            ← inputLine_eq_iff withTimestamps s.inLine hshort.1]
          refine ⟨hend, line :: read, (inputLine withTimestamps (storeLine s.inLine line)).2.toList ++ taken,
            by simp, by rw [List.append_assoc]; rfl, (List.prefix_cons_inj line).mpr hprefix,
            hall.imp (fun heq => by rw [heq]) id, ?_⟩
          cases hentry : lineEntry withTimestamps line with
          | none =>
              rw [List.filterMap_cons_none hentry]
              cases hline : (inputLine withTimestamps (storeLine s.inLine line)).2 with
              | none => exact ⟨hle, by simp⟩
              | some e =>
                  refine ⟨by simp; omega, ⟨fun heq => ?_, fun hand => nomatch hand.1⟩⟩
                  have hlength := congrArg List.length heq
                  simp only [Option.toList_some, List.length_append, List.length_singleton] at hlength
                  omega
          | some e =>
              obtain ⟨e', he'⟩ := taken_of_lineEntry s.inLine hshort.1 hentry
              rw [List.filterMap_cons_some hentry, he']
              exact ⟨by simpa using hle, by simp⟩

/-- What is asked of a run over a file: the entries of the requests are those of the lines that have
been taken up, which are all unless a request has failed, and the requests are whole. -/
def SenderState.Sent (s : SenderState) (lines : List (List UInt8)) : Prop :=
  s.requests.flatMap SenderRequest.entries = s.read.filterMap (lineEntry withTimestamps) ∧
    s.read <+: lines ∧ (s.read = lines ∨ s.ret = false) ∧ ∀ r ∈ s.requests, r.Complete

/-- The last request takes what is in the buffer. -/
theorem senderFile_spec (garbage inLine : Mem) (file : List UInt8)
    (hshort : ∀ line ∈ fileLines file, line.length < maxBufLen) :
    let s := senderLoop world withTimestamps (senderStart garbage inLine) (fileLines file)
    let s' := senderFile world withTimestamps garbage inLine file
    s'.requests.flatMap SenderRequest.entries = s.taken ∧ s'.read = s.read ∧ (s.ret = false → s'.ret = false) ∧
      ∀ r ∈ s'.requests, r.Complete := by
  dsimp only
  have hinv := (senderLoop_spec world withTimestamps (senderInv_start garbage inLine) hshort).1
  rw [senderFile, fgetsLines_eq hshort]
  generalize senderLoop world withTimestamps (senderStart garbage inLine) (fileLines file) = s at hinv ⊢
  have hcount := hinv.count
  have hroom := hinv.room
  have hclose : (senderClose s).bufferCount = s.bufferCount := rfl
  rw [hclose]
  split
  next hsome =>
    refine ⟨by simp [senderSend, senderClose, SenderState.taken], rfl, fun hfailed => ?_,
      complete_senderSend world withTimestamps hinv.json (by omega) hinv.complete⟩
    rw [hinv.failed hfailed] at hcount
    exact absurd hcount hsome
  next hnone =>
    have hempty : s.buffered = [] := List.length_eq_zero_iff.mp (by omega)
    refine ⟨?_, rfl, id, hinv.complete⟩
    rw [SenderState.taken, hempty, List.append_nil]
    rfl

/-- **When the requests carry what the lines say**: when every line that is taken up is taken for
what it says. -/
theorem senderFile_sent_iff (garbage inLine : Mem) (file : List UInt8)
    (hshort : ∀ line ∈ fileLines file, line.length < maxBufLen) :
    (senderFile world withTimestamps garbage inLine file).Sent withTimestamps (fileLines file) ↔
      LinesOk world withTimestamps (senderStart garbage inLine) (fileLines file) := by
  obtain ⟨hinv, read, taken, hread, htaken, hprefix, hall, -, hiff⟩ :=
    senderLoop_spec world withTimestamps (senderInv_start garbage inLine) hshort
  obtain ⟨hrequests, hread', hret, hcomplete⟩ := senderFile_spec world withTimestamps garbage inLine file hshort
  have hreadAll : (senderFile world withTimestamps garbage inLine file).read = read := hread'.trans hread
  rw [← hiff, SenderState.Sent, hrequests, htaken, hreadAll]
  exact ⟨fun h => h.1, fun h => ⟨h, hprefix, hall.imp_right hret, hcomplete⟩⟩

/-- With timestamps, what is in the array before does not matter. -/
theorem linesOk_of_stamped {s : SenderState} {lines : List (List UInt8)} (h : ∀ line ∈ lines, StampedOk line) :
    LinesOk world true s lines := by
  intro before line behind hlines _
  rw [LineOk, if_pos rfl]
  exact h line (by simp [hlines])

end

/-- A server that accepts everything. -/
def acceptingWorld : SenderWorld := { succeeds := fun _ => true, time := fun _ => 1254300000 }

/-- A line with a timestamp, and one that is malformed. -/
theorem senderFile_sent_stamped :
    (senderFile acceptingWorld true (fun _ => 0) (fun _ => 0) (bytes "web load 1254300000 up and running\nweb\n")).Sent
      true (fileLines (bytes "web load 1254300000 up and running\nweb\n")) :=
  (senderFile_sent_iff acceptingWorld true (fun _ => 0) (fun _ => 0)
    (bytes "web load 1254300000 up and running\nweb\n") (by decide)).mpr
    (linesOk_of_stamped acceptingWorld (by decide))

/-- **A line without timestamp** is sent with an empty key. -/
theorem senderFile_key_lost :
    (senderFile acceptingWorld false (fun _ => 0) (fun _ => 0) (bytes "web load 1.5\n")).requests.flatMap
        SenderRequest.entries = [⟨toCString (bytes "web"), toCString [], toCString (bytes "1.5"), none⟩] ∧
      ¬(senderFile acceptingWorld false (fun _ => 0) (fun _ => 0) (bytes "web load 1.5\n")).Sent false
        (fileLines (bytes "web load 1.5\n")) := by
  have hentries : (senderFile acceptingWorld false (fun _ => 0) (fun _ => 0) (bytes "web load 1.5\n")).requests.flatMap
      SenderRequest.entries = [⟨toCString (bytes "web"), toCString [], toCString (bytes "1.5"), none⟩] := by
    decide +kernel
  refine ⟨hentries, fun h => ?_⟩
  have hsent := h.1
  rw [hentries] at hsent
  revert hsent
  decide +kernel

end Zabbix
