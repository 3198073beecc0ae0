import Zabbix.Lib.Ascii
import Zabbix.Lib.Mem
import Zabbix.Lib.Transport

/-!
# Zabbix.Comms.Tcp

Sending and receiving a message (`libs/zbxcomms/comms.c`).

The receiver looks for the header in what its first read has given, and then
fills the static buffer of the socket, and a dynamic one when that is full.
Besides its result it keeps which bytes of its buffers it has accessed.
-/

namespace Zabbix

open Ascii

/-- `ZBX_TCP_HEADER` -/
def zbxTcpHeader : List UInt8 := bytes "ZBXD" ++ [1]

/-- `ZBX_TCP_HEADER_LEN` -/
def zbxTcpHeaderLen : ℕ := 5

/-- `ZBX_STAT_BUF_LEN`, the size of `buf_stat`. -/
def zbxStatBufLen : ℕ := 2048

/-- `ZBX_BUF_LEN`, the first size of `buf_dyn`. -/
def zbxBufLen : ℕ := zbxStatBufLen * 8

/-! ## sending -/

/-- The value of a length in an `int`. -/
def intCast (n : ℕ) : ℤ := (n + 2 ^ 31 : ℤ) % 2 ^ 32 - 2 ^ 31

/-- The loop of `zbx_tcp_send_ext`, where each `write` takes up to `writes` + 1
bytes: what is written, or `none` when it does not come to an end (the length
goes through an `int`: a negative one is an error, and a `write` of nothing is
repeated for ever). -/
def tcpWrite (writes : List ℕ) (data : List UInt8) : Option (List UInt8) :=
  if _h : data = [] then some []
  else
    if _hcount : intCast data.length ≤ 0 then none
    else
      let written := Transport.readSize writes (intCast data.length).toNat
      (tcpWrite writes.tail (data.drop written)).map (data.take written ++ ·)
termination_by data.length
decreasing_by
  have hpos : 0 < Transport.readSize writes (intCast data.length).toNat :=
    Transport.readSize_pos writes (by omega)
  have hlen := List.length_pos_of_ne_nil _h
  rw [List.length_drop]
  omega

/-- `zbx_tcp_send_ext` with `ZBX_TCP_NEW_PROTOCOL`: the bytes of the stream. -/
def zbxTcpSendExt (writes : List ℕ) (data : CString) : Option (List UInt8) :=
  (tcpWrite writes data.val).map (zbxTcpHeader ++ LittleEndian.encode 8 data.val.length ++ ·)

/-! ## receiving -/

/-- An access to `len` bytes of a buffer of `size` bytes, from `start` on. -/
structure Access where
  size : ℕ
  start : ℤ
  len : ℕ
deriving DecidableEq, Repr

/-- The bytes are in the buffer. -/
def Access.InBounds (a : Access) : Prop := 0 ≤ a.start ∧ a.start + a.len ≤ a.size

instance (a : Access) : Decidable a.InBounds := inferInstanceAs (Decidable (_ ∧ _))

/-- The receiver: what is still to come, the bytes that it has stored (those of
the static buffer before `read_bytes`, or of the dynamic one before `offset`),
`read_bytes`, and what it has accessed. -/
structure TcpRecv where
  transport : Transport
  content : List UInt8
  readBytes : ℕ
  accesses : List Access
deriving DecidableEq

/-- How a call ends; `overflow` when the size of the dynamic buffer overflows its
`int`, so that it does not return. -/
inductive TcpResult
  | succeed
  | fail
  | overflow
deriving DecidableEq, Repr

/-- What a call leaves: its result, and the receiver. -/
structure TcpReceived where
  result : TcpResult
  recv : TcpRecv
deriving DecidableEq

/-- `*data`: the string at the start of the buffer. -/
def TcpReceived.data (r : TcpReceived) : List UInt8 := r.recv.content.takeWhile (· ≠ 0)

/-- The loops end after a read: at the end of the stream, or after a read that has
given less than was asked for. -/
def stopsAfter (untilClose : Bool) (nbytes left : ℕ) : Prop :=
  if untilClose then nbytes = 0 else nbytes < left

instance (untilClose : Bool) (nbytes left : ℕ) : Decidable (stopsAfter untilClose nbytes left) :=
  inferInstanceAs (Decidable (if untilClose then nbytes = 0 else nbytes < left))

theorem pos_of_not_stopsAfter {untilClose : Bool} {nbytes left : ℕ} (h : ¬stopsAfter untilClose nbytes left)
    (hleft : 0 < left) : 0 < nbytes := by
  rw [stopsAfter] at h
  split at h <;> omega

/-- The loop that fills the static buffer, with `left` bytes to go; `true` when a
read has failed. -/
def recvStat (expectedLen : ℕ) (untilClose : Bool) (left : ℕ) (s : TcpRecv) : Bool × TcpRecv :=
  if _hloop : s.readBytes < expectedLen ∧ 0 < left then
    let accesses := s.accesses ++ [⟨zbxStatBufLen, s.readBytes, left⟩]
    match s.transport.read left with
    | (none, t) => (true, { s with transport := t, accesses := accesses })
    | (some chunk, t) =>
        let s' : TcpRecv :=
          { transport := t
            content := s.content ++ chunk
            readBytes := s.readBytes + chunk.length
            accesses := accesses }
        if _hstop : stopsAfter untilClose chunk.length left then (false, s')
        else recvStat expectedLen untilClose (left - chunk.length) s'
  else (false, s)
termination_by left
decreasing_by
  have hpos := pos_of_not_stopsAfter _hstop _hloop.2
  omega

/-- The loop of `zbx_snprintf_alloc`: the size of a buffer, an `int`, is doubled
until it is greater than `need`. -/
def growAllocated (need allocated : ℕ) : Option ℕ :=
  if need < allocated then some allocated
  else if h : 0 < allocated ∧ allocated * 2 < 2 ^ 31 then growAllocated need (allocated * 2)
  else none
termination_by 2 ^ 31 - allocated

/-- The loop that fills the dynamic buffer. -/
def recvDyn (expectedLen : ℕ) (untilClose : Bool) (allocated : ℕ) (s : TcpRecv) : TcpReceived :=
  if s.readBytes < expectedLen then
    let accesses := s.accesses ++ [⟨zbxStatBufLen, 0, zbxStatBufLen - 1⟩]
    match _hread : s.transport.read (zbxStatBufLen - 1) with
    | (none, t) => ⟨.fail, { s with transport := t, accesses := accesses }⟩
    | (some chunk, t) =>
        let accesses := accesses ++ [⟨zbxStatBufLen, chunk.length, 1⟩]
        match growAllocated (s.content.length + zbxStatBufLen) allocated with
        | none => ⟨.overflow, { s with transport := t, accesses := accesses }⟩
        | some allocated =>
            let s' : TcpRecv :=
              { transport := t
                content := s.content ++ (chunk.takeWhile (· ≠ 0)).take (zbxStatBufLen - 1)
                readBytes := s.readBytes + chunk.length
                accesses := accesses ++ [⟨allocated, s.content.length, zbxStatBufLen⟩] }
            if _hstop : stopsAfter untilClose chunk.length (zbxStatBufLen - 1) then ⟨.succeed, s'⟩
            else recvDyn expectedLen untilClose allocated s'
  else ⟨.succeed, s⟩
termination_by s.transport.stream.length
decreasing_by
  have hpos := pos_of_not_stopsAfter _hstop (by decide)
  have hlen := congrArg List.length (Transport.read_spec _hread).1
  rw [List.length_append] at hlen
  omega

/-- `buf_stat` is filled, if the byte in front of `read_bytes` is not the end of a
line ("not try to read from an empty socket"). -/
def fillStat (last : UInt8) (expectedLen : ℕ) (untilClose : Bool) (s : TcpRecv) : Bool × TcpRecv :=
  let s := { s with accesses := s.accesses ++ [⟨zbxStatBufLen, (s.readBytes : ℤ) - 1, 1⟩] }
  if last ≠ newline then recvStat expectedLen untilClose (zbxStatBufLen - s.readBytes - 1) s else (false, s)

/-- What follows once the first bytes are there; `last` is the byte in front of
`read_bytes`. -/
def recvRest (last : UInt8) (expectedLen : ℕ) (untilClose : Bool) (s : TcpRecv) : TcpReceived :=
  let (error, s) := fillStat last expectedLen untilClose s
  let s := { s with accesses := s.accesses ++ [⟨zbxStatBufLen, s.readBytes, 1⟩] }
  if s.readBytes = zbxStatBufLen - 1 then
    recvDyn expectedLen untilClose zbxBufLen
      { s with accesses := s.accesses ++ [⟨zbxBufLen, 0, zbxBufLen⟩, ⟨zbxStatBufLen, 0, zbxStatBufLen⟩] }
  else ⟨if error then .fail else .succeed, s⟩

/-- `zbx_tcp_recv_ext`; `untilClose` is the flag `ZBX_TCP_READ_UNTIL_CLOSE`,
`before` the byte of the socket in front of `buf_stat`, and `stack` what is found
in `expected_len` before it is read. -/
def zbxTcpRecvExt (before : UInt8) (stack : List UInt8) (untilClose : Bool) (transport : Transport) : TcpReceived :=
  let accesses : List Access := [⟨zbxStatBufLen, 0, zbxStatBufLen⟩, ⟨zbxStatBufLen, 0, zbxTcpHeaderLen⟩]
  match transport.read zbxTcpHeaderLen with
  | (none, t) => ⟨.fail, { transport := t, content := [], readBytes := 0, accesses := accesses }⟩
  | (some first, t) =>
      if first = zbxTcpHeader then
        let accesses := accesses ++ [⟨8, 0, 8⟩, ⟨zbxStatBufLen, 0, zbxTcpHeaderLen⟩]
        match t.read 8 with
        | (none, t) => ⟨.fail, { transport := t, content := [], readBytes := 0, accesses := accesses }⟩
        | (some second, t) =>
            let s : TcpRecv := { transport := t, content := [], readBytes := 0, accesses := accesses }
            if second.length = 0 then ⟨.succeed, s⟩
            else recvRest before (LittleEndian.decode ((second ++ stack.drop second.length).take 8)) true s
      else
        let s : TcpRecv := { transport := t, content := first, readBytes := first.length, accesses := accesses }
        if stopsAfter untilClose first.length zbxTcpHeaderLen then ⟨.succeed, s⟩
        else recvRest (first.getLastD before) (16 * 1024 * 1024) untilClose s

end Zabbix
