import Zabbix.Json.Builder
import Zabbix.Json.Parser
import Zabbix.Lib.Printf

/-!
# Zabbix.Agent.Active

The buffer of the active checks (`zabbix_agent/active.c`).

What the network does in a transmission and what the clock shows are given with
each call.  A log keeps what has been sent and what has been pushed out of the
buffer, and the values that have been handed over.
-/

namespace Zabbix

open Ascii

/-- `ZBX_ACTIVE_BUFFER_ELEMENT` -/
structure ActiveBufferElement where
  host : CString
  key : CString
  value : CString
  timestamp : Int32
  source : Option CString
  severity : Int32
  lastlogsize : ℤ
  clock : Int32
deriving DecidableEq

/-! ## the request -/

/-- A number as `zbx_json_adduint64` gets it, in decimal digits. -/
def uint64Digits (n : ℤ) : CString :=
  ⟨Printf.dec (n % 2 ^ 64).toNat, fun h => absurd (Printf.digit_of_mem_dec h).1 (by decide)⟩

/-- `zbx_json_addstring` of a string. -/
def addString (tag : CString) (value : CString) : JsonOp := .addstring (some tag) (some value) .string

/-- `zbx_json_adduint64` -/
def addUint64 (tag : CString) (n : ℤ) : JsonOp := .addstring (some tag) (some (uint64Digits n)) .int

/-- `ZBX_PROTO_TAG_CLOCK` -/
def tagClock : CString := literal "clock"

/-- The object of one element. -/
def elementOps (el : ActiveBufferElement) : List JsonOp :=
  [.addobject none,
    addString (literal "host") el.host,
    addString (literal "key") el.key,
    addString (literal "value") el.value] ++
  (if el.lastlogsize ≠ 0 then [addUint64 (literal "lastlogsize") el.lastlogsize] else []) ++
  (if el.timestamp ≠ 0 then [addUint64 (literal "timestamp") el.timestamp.toInt] else []) ++
  (match el.source with
    | some source => [addString (literal "source") source]
    | none => []) ++
  (if el.severity ≠ 0 then [addUint64 (literal "severity") el.severity.toInt] else []) ++
  [addUint64 tagClock el.clock.toInt, .close]

/-- The request of `send_buffer`, behind `zbx_json_init`. -/
def requestOps (data : List ActiveBufferElement) (clock : Int32) : List JsonOp :=
  [addString (literal "request") (literal "agent data"),
    .addarray (some (literal "data"))] ++
  data.flatMap elementOps ++ [.close, addUint64 tagClock clock.toInt]

/-! ## the response -/

/-- `check_response` is `SUCCEED`; a response behind whose end it reads is none.
The `info` of a response is only logged. -/
def checkResponse (response : CString) : Bool :=
  match (zbxJsonOpen response.val).bind fun jp => zbxJsonValueByName jp (literal "response").val maxStringLen with
  | .found value => cstr value = (literal "success").val
  | .null => false
  | .overrun => false

/-- What the network does: the call that fails, or the buffer that `zbx_tcp_recv`
returns, which may be `NULL`. -/
inductive TcpOutcome
  | connect
  | send
  | recv
  | answer (buf : Option CString)
deriving DecidableEq

/-- A response whose status is success. -/
def TcpOutcome.accepts : TcpOutcome → Bool
  | .answer (some buf) => checkResponse buf
  | _ => false

/-- `ret`, behind the transmission: what the response says does not change it. -/
def TcpOutcome.ret : TcpOutcome → Bool
  | .connect | .send | .recv => false
  | .answer _ => true

/-! ## the buffer -/

/-- What becomes of values: a request is sent with those in the buffer, or the
oldest one is pushed out, with so many in the buffer. -/
inductive BufferEvent
  | transmission (data : List ActiveBufferElement) (request : List JsonOp) (outcome : TcpOutcome)
  | eviction (el : ActiveBufferElement) (count : ℕ)
deriving DecidableEq

/-- `CONFIG_BUFFER_SIZE` and `CONFIG_BUFFER_SEND`. -/
structure BufferConfig where
  bufferSize : ℕ
  bufferSend : ℤ
  pos : 0 < bufferSize

/-- `buffer` and `lastsent`; the log, and the values that have been handed to
`process_value`. -/
structure ActiveBuffer where
  data : List ActiveBufferElement
  lastsent : ℤ
  log : List BufferEvent
  handed : List ActiveBufferElement

/-- The start of the agent. -/
def ActiveBuffer.initial : ActiveBuffer := { data := [], lastsent := 0, log := [], handed := [] }

/-- What a call of `send_buffer` meets: the time, the time for the request, and
the network. -/
structure SendContext where
  now : ℤ
  clock : Int32
  outcome : TcpOutcome
deriving DecidableEq

/-- The arguments of `process_value`. -/
structure ProcessedValue where
  host : CString
  key : CString
  value : CString
  lastlogsize : Option ℤ
  timestamp : Option UInt64
  source : Option CString
  severity : Option UInt16
deriving DecidableEq

/-- The element that `process_value` fills. -/
def ProcessedValue.element (v : ProcessedValue) (clock : Int32) : ActiveBufferElement :=
  { host := v.host
    key := v.key
    value := v.value
    timestamp := (v.timestamp.map fun timestamp => Int32.ofNat timestamp.toNat).getD 0
    source := v.source
    severity := (v.severity.map fun severity => Int32.ofNat severity.toNat).getD 0
    lastlogsize := v.lastlogsize.getD 0
    clock := clock }

variable (config : BufferConfig)

/-- A call of `send_buffer` at this time transmits. -/
def ActiveBuffer.Sends (s : ActiveBuffer) (now : ℤ) : Prop :=
  ¬(s.data.length < config.bufferSize ∧ now - s.lastsent < config.bufferSend) ∧ ¬s.data.length < 1

instance (s : ActiveBuffer) (now : ℤ) : Decidable (s.Sends config now) := inferInstanceAs (Decidable (_ ∧ _))

/-- `send_buffer` -/
def sendBuffer (s : ActiveBuffer) (c : SendContext) : ActiveBuffer :=
  if s.Sends config c.now then
    let s := { s with log := s.log ++ [.transmission s.data (requestOps s.data c.clock) c.outcome] }
    if c.outcome.ret then { s with data := [], lastsent := c.now } else s
  else s

/-- `process_value`, with the time for the element. -/
def processValue (s : ActiveBuffer) (c : SendContext) (v : ProcessedValue) (clock : Int32) : ActiveBuffer :=
  let s := sendBuffer config s c
  let el := v.element clock
  let s := { s with handed := s.handed ++ [el] }
  if s.data.length < config.bufferSize then { s with data := s.data ++ [el] }
  else
    match s.data with
    | [] => s
    | first :: data => { s with data := data ++ [el], log := s.log ++ [.eviction first s.data.length] }

/-- A call. -/
inductive ActiveCall
  | send (c : SendContext)
  | process (c : SendContext) (v : ProcessedValue) (clock : Int32)

/-- The transmission that a call may make. -/
def ActiveCall.context : ActiveCall → SendContext
  | send c => c
  | process c .. => c

/-- One call. -/
def ActiveBuffer.step (s : ActiveBuffer) : ActiveCall → ActiveBuffer
  | .send c => sendBuffer config s c
  | .process c v clock => processValue config s c v clock

end Zabbix
