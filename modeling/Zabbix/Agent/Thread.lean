import Zabbix.Agent.Buffer
import Zabbix.Agent.Log
import Zabbix.Agent.Metrics
import Zabbix.Agent.UserParameter

/-!
# Zabbix.Agent.Thread

The thread of the active checks (`active_checks_thread` of `zabbix_agent/active.c`):
it asks for the list of checks, sends what is in the buffer, and goes through its
metrics (`process_active_checks`), while other programs append to the files that
it follows.

A pass is taken apart into its calls, with everything that others do in between.
-/

namespace Zabbix

open Ascii

/-! ## the parameters of a log -/

/-- The name of the file and the pattern; the same for an event log. -/
def logParams (key : CString) : Option (List UInt8 × List UInt8) :=
  match parseCommand key maxStringLen maxStringLen with
  | .withParams _ params =>
      if 2 < numParam (some params) then none
      else
        let filename := getParam params 1 maxStringLen
        if filename.found then
          let pattern := getParam params 2 maxStringLen
          some (filename.buf, if pattern.found then pattern.buf else [])
        else none
  | _ => none

/-! ## the state -/

/-- Change the metric at a place, but not its key. -/
def ActiveMetrics.modifyAt (m : ActiveMetrics) (i : ℕ) (f : ActiveMetric → ActiveMetric)
    (hf : ∀ x, (f x).key = x.key) : ActiveMetrics where
  metrics := m.metrics.modify i f
  nodup := by
    have hkeys : (m.metrics.modify i f).map (·.key) = m.metrics.map (·.key) := by
      refine List.ext_getElem? fun j => ?_
      rw [List.getElem?_map, List.getElem?_map, List.getElem?_modify]
      cases m.metrics[j]? with
      | none => rfl
      | some x =>
          dsimp only [Option.map_some]
          split
          · exact congrArg some (hf x)
          · rfl
    rw [hkeys]
    exact m.nodup

/-- What is done with a metric: a piece of a log is read; a line of it, the value
of another metric, or that the metric is not supported, is handed over. -/
inductive MetricAction
  | read (piece : List UInt8)
  | line (el : ActiveBufferElement)
  | unsupported (el : ActiveBufferElement)
  | value (el : ActiveBufferElement)

/-- The value that is handed over. -/
def MetricAction.element : MetricAction → Option ActiveBufferElement
  | read _ => none
  | line el | unsupported el | value el => some el

/-- Where the thread stands: not in `process_active_checks`, or there in front of
a metric, or in the loop over the lines of a log, with `s_count` and `p_count`. -/
inductive Stand
  | idle
  | metric (now : ℤ) (i : ℕ)
  | log (now : ℤ) (i : ℕ) (sCount pCount : ℕ)
deriving DecidableEq

/-- The files, the state of the thread, and what it has done with its metrics,
each with its place in the list. -/
structure AgentWorld where
  files : List UInt8 → List UInt8
  metrics : ActiveMetrics
  buffer : ActiveBuffer
  stand : Stand
  actions : List (ℕ × MetricAction)

/-- What a call meets: the file, the value of a metric that is no log, the
network, the time for the element, and the time behind the call. -/
structure Visit where
  access : LogAccess
  value : Option CString
  context : SendContext
  clock : Int32
  time : ℤ

/-- What happens: other programs append to a file; between two passes a list of
checks is received, or `send_buffer` is called, or a pass begins; the pass goes on. -/
inductive AgentEvent
  | append (filename chunk : List UInt8)
  | received (response : List UInt8)
  | send (c : SendContext)
  | pass (now : ℤ)
  | visit (v : Visit)

/-- The parameters of the agent, and `zbx_regexp_match`. -/
structure AgentConfig where
  buffer : BufferConfig
  hostname : CString
  matched : List UInt8 → List UInt8 → Bool

/-! ## steps -/

/-- `process_log` with a `long` as the offset; `fseek` fails for a negative one. -/
def processLogAt (access : LogAccess) (file : List UInt8) (lastlogsize : ℤ) : Bool × ℤ × Option (List UInt8) :=
  if lastlogsize < 0 then (false, lastlogsize, none)
  else
    let r := processLog access file lastlogsize.toNat
    (r.1, r.2.1, r.2.2)

/-- The bytes that `process_log` reads. -/
def logPiece (file : List UInt8) (lastlogsize : ℤ) : List UInt8 :=
  fgets (file.drop (if (file.length : ℤ) < lastlogsize then 0 else lastlogsize.toNat)) (maxBufLen - 1)

/-- The text of a piece, as `process_log` returns it. -/
def pieceText (piece : List UInt8) : List UInt8 := zbxRtrim (cstr piece) [cr, newline]

/-- `MAX_LINES_PER_SECOND` -/
def maxLinesPerSecond : Int32 := 100

variable (config : AgentConfig)

namespace AgentWorld

/-- `process_value`, which succeeds whatever becomes of the values. -/
def report (w : AgentWorld) (i : ℕ) (action : ActiveBufferElement → MetricAction) (v : Visit) (keyOrig value : CString)
    (lastlogsize : Option ℤ) : AgentWorld :=
  let p : ProcessedValue :=
    { host := config.hostname
      key := keyOrig
      value := value
      lastlogsize := lastlogsize
      timestamp := none
      source := none
      severity := none }
  { w with
    buffer := processValue config.buffer w.buffer v.context p v.clock
    actions := w.actions ++ [(i, action (p.element v.clock))] }

/-- Change a metric. -/
def modify (w : AgentWorld) (i : ℕ) (f : ActiveMetric → ActiveMetric) (hf : ∀ x, (f x).key = x.key) : AgentWorld :=
  { w with metrics := w.metrics.modifyAt i f hf }

/-- A metric that is disabled keeps its key. -/
theorem key_notsupported (x : ActiveMetric) : ({ x with status := .notsupported } : ActiveMetric).key = x.key := rfl

/-- A metric is disabled, and the server hears of it. -/
def unsupported (w : AgentWorld) (i : ℕ) (x : ActiveMetric) (v : Visit) : AgentWorld :=
  (w.modify i (fun x => { x with status := .notsupported }) key_notsupported).report config i .unsupported v x.keyOrig
    (literal "ZBX_NOTSUPPORTED") (some x.lastlogsize)

/-- The end of the loop over the metrics. -/
def finish (w : AgentWorld) (now : ℤ) (i : ℕ) (v : Visit) : AgentWorld :=
  { w.modify i (fun x => { x with nextcheck := v.time + x.refresh.toInt }) fun _ => rfl with
    stand := .metric now (i + 1) }

/-- The value of a metric that is no log. -/
def checkValue (w : AgentWorld) (i : ℕ) (x : ActiveMetric) (v : Visit) : AgentWorld :=
  match v.value with
  | none => w
  | some value =>
      let w := w.report config i .value v x.keyOrig value none
      if value = literal "ZBX_NOTSUPPORTED" then w.modify i (fun x => { x with status := .notsupported }) key_notsupported
      else w

/-- A metric that is due.  Without Windows there is no event log to read. -/
def check (w : AgentWorld) (now : ℤ) (i : ℕ) (x : ActiveMetric) (v : Visit) : AgentWorld :=
  if bytes "log[" <+: x.key.val then
    match logParams x.key with
    | none => w.finish now i v
    | some _ => { w with stand := .log now i 0 0 }
  else if bytes "eventlog[" <+: x.key.val then
    match logParams x.key with
    | none => w.finish now i v
    | some _ => (w.unsupported config i x v).finish now i v
  else (w.checkValue config i x v).finish now i v

/-- A line that is read: the offset is carried on in any case. -/
def lineRead (w : AgentWorld) (i : ℕ) (x : ActiveMetric) (piece pattern value : List UInt8) (lastlogsize : ℤ)
    (v : Visit) : AgentWorld :=
  let w := { w with actions := w.actions ++ [(i, MetricAction.read piece)] }
  let w :=
    if pattern = [] ∨ config.matched value pattern then
      w.report config i .line v x.keyOrig (cstrOf value) (some lastlogsize)
    else w
  w.modify i (fun x => { x with lastlogsize := lastlogsize }) fun _ => rfl

/-- The end of the loop over the lines of a log: not to flood the server, and not
to flood the system. -/
def nextLine (w : AgentWorld) (now : ℤ) (i : ℕ) (x : ActiveMetric) (sCount pCount : ℕ) (v : Visit) : AgentWorld :=
  if (maxLinesPerSecond * x.refresh).toInt ≤ sCount ∨ (4 * maxLinesPerSecond * x.refresh).toInt ≤ pCount then
    w.finish now i v
  else { w with stand := .log now i sCount pCount }

/-- The body of the loop over the lines of a log. -/
def logLine (w : AgentWorld) (now : ℤ) (i : ℕ) (x : ActiveMetric) (filename pattern : List UInt8)
    (sCount pCount : ℕ) (v : Visit) : AgentWorld :=
  match processLogAt v.access (w.files filename) x.lastlogsize with
  | (false, _, _) => (w.unsupported config i x v).finish now i v
  | (true, lastlogsize, none) =>
      (w.modify i (fun x => { x with lastlogsize := lastlogsize }) fun _ => rfl).finish now i v
  | (true, lastlogsize, some value) =>
      let sCount := if pattern = [] ∨ config.matched value pattern then sCount + 1 else sCount
      (w.lineRead config i x (logPiece (w.files filename) x.lastlogsize) pattern value lastlogsize v).nextLine now i x
        sCount (pCount + 1) v

/-- The next call of `process_active_checks`. -/
def visit (w : AgentWorld) (v : Visit) : AgentWorld :=
  match w.stand with
  | .idle => w
  | .metric now i =>
      match w.metrics.metrics[i]? with
      | none => { w with stand := .idle }
      | some x =>
          if now < x.nextcheck ∨ x.status ≠ .active then { w with stand := .metric now (i + 1) }
          else w.check config now i x v
  | .log now i sCount pCount =>
      match w.metrics.metrics[i]? with
      | none => w
      | some x =>
          match logParams x.key with
          | none => w
          | some (filename, pattern) => w.logLine config now i x filename pattern sCount pCount v

/-- One step. -/
def step (w : AgentWorld) : AgentEvent → AgentWorld
  | .append filename chunk =>
      { w with files := fun name => if name = filename then w.files name ++ chunk else w.files name }
  | .received response =>
      match w.stand, parseListOfChecks w.metrics response with
      | .idle, some metrics => { w with metrics := metrics }
      | _, _ => w
  | .send c => if w.stand = .idle then { w with buffer := sendBuffer config.buffer w.buffer c } else w
  | .pass now => if w.stand = .idle then { w with stand := .metric now 0 } else w
  | .visit v => w.visit config v

end AgentWorld

end Zabbix
