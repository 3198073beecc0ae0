import Zabbix.Comms.Tcp
import Zabbix.Nodes.Field

/-!
# Zabbix.StrAlloc

Strings that grow (`libs/zbxcommon/str.c`).  A buffer is the memory at `*str` with
its allocated size; nothing may be written behind that, and the size is an `int`.

Each of the three functions makes room in its own way, and then puts a text and a
NUL at the offset.  The room is enough (`StrBuffer.Has.append`), so the buffer always holds
the texts put together; `zbx_snprintf_alloc` cuts a text that is not shorter than
`max_len`, because the NUL counts.

`zbx_get_next_field` makes room for a field and its NUL (`getNextFieldAlloc_some`).
-/

namespace Zabbix

/-- Why a call does not return: a size overflows its `int`, or something is read or
written outside of its memory. -/
inductive BufferStop
  | overflow
  | outside
deriving DecidableEq, Repr

/-- The memory at `*str`, its size `*alloc_len`, and `*offset`. -/
structure StrBuffer where
  str : Mem
  allocLen : ℕ
  offset : ℕ

/-! ## appending -/

/-- Write a text and a NUL at the offset, which goes to the NUL. -/
def StrBuffer.put (b : StrBuffer) (text : List UInt8) : Except BufferStop StrBuffer :=
  if b.offset + text.length < b.allocLen then
    .ok { b with str := b.str.write b.offset (text ++ [0]), offset := b.offset + text.length }
  else .error .outside

/-- `zbx_snprintf_alloc`, where `text` is the formatted text. -/
def StrBuffer.zbxSnprintfAlloc (b : StrBuffer) (maxLen : ℕ) (text : List UInt8) : Except BufferStop StrBuffer :=
  match growAllocated (b.offset + maxLen) b.allocLen with
  | none => .error .overflow
  | some allocLen => { b with allocLen := allocLen }.put (zbxVsnprintf maxLen text)

/-- `zbx_strcpy_alloc` -/
def StrBuffer.zbxStrcpyAlloc (b : StrBuffer) (src : CString) : Except BufferStop StrBuffer :=
  let sz := src.val.length
  let allocLen :=
    if b.offset + sz ≥ b.allocLen then b.allocLen + (if sz < 32 then 64 else 2 * sz) else b.allocLen
  if 2 ^ 31 ≤ allocLen then .error .overflow else { b with allocLen := allocLen }.put src.val

/-- `zbx_chrcpy_alloc` -/
def StrBuffer.zbxChrcpyAlloc (b : StrBuffer) (src : UInt8) : Except BufferStop StrBuffer :=
  let allocLen := if b.offset + 1 ≥ b.allocLen then b.allocLen + 64 else b.allocLen
  if 2 ^ 31 ≤ allocLen then .error .overflow else { b with allocLen := allocLen }.put [src]

/-- A call that appends to a buffer. -/
inductive StrCall
  | snprintf (maxLen : ℕ) (text : List UInt8)
  | strcpy (src : CString)
  | chrcpy (src : UInt8)

def StrBuffer.append (b : StrBuffer) : StrCall → Except BufferStop StrBuffer
  | .snprintf maxLen text => b.zbxSnprintfAlloc maxLen text
  | .strcpy src => b.zbxStrcpyAlloc src
  | .chrcpy src => b.zbxChrcpyAlloc src

/-- The chunk that a call is given. -/
def StrCall.chunk : StrCall → List UInt8
  | .snprintf _ text => text
  | .strcpy src => src.val
  | .chrcpy src => [src]

/-- What a call makes room for. -/
def StrCall.room : StrCall → ℕ
  | .snprintf maxLen _ => maxLen
  | call => call.chunk.length

/-- The chunk is no longer than the maximum that the call states. -/
def StrCall.AtMost (call : StrCall) : Prop := call.chunk.length ≤ call.room

/-- The chunk, if there is one, and its NUL are no longer than the maximum that the
call states. -/
def StrCall.Below : StrCall → Prop
  | .snprintf maxLen text => text = [] ∨ text.length < maxLen
  | _ => True

/-- What is appended. -/
def StrCall.appended : StrCall → List UInt8
  | .snprintf maxLen text => zbxVsnprintf maxLen text
  | call => call.chunk

/-! ## fields -/

/-- The memory at `*output`, its size, and `*olen`. -/
structure FieldBuffer where
  output : Mem
  size : ℕ
  olen : ℕ

/-- The string in the buffer. -/
def FieldBuffer.string (b : FieldBuffer) : List UInt8 := b.output.strAt b.size 0

/-- How `zbx_get_next_field` makes room for a field; `zbx_realloc` allocates one byte
at least. -/
def FieldBuffer.grow (b : FieldBuffer) (flen : ℕ) : Except BufferStop FieldBuffer :=
  if b.olen < flen + 1 then
    if 2 ^ 31 ≤ flen * 2 then .error .overflow
    else .ok { b with size := max (flen * 2) 1, olen := flen * 2 }
  else .ok b

/-- `zbx_get_next_field`: the rest of the line, and the buffer with the field.  For a
NUL as the separator the rest of the line would be behind its end. -/
def getNextFieldAlloc (line : List UInt8) (b : FieldBuffer) (separator : UInt8) :
    Except BufferStop (Option (List UInt8) × FieldBuffer) :=
  let field := line.takeWhile (· ≠ separator)
  if separator = 0 then .error .outside
  else
    match b.grow field.length with
    | .error e => .error e
    | .ok b =>
        if field.length < b.size then
          .ok (nextField line separator, { b with output := b.output.write 0 (field ++ [0]) })
        else .error .outside

theorem nextField_eq_some {line rest : List UInt8} {separator : UInt8} (h : nextField line separator = some rest) :
    line = line.takeWhile (· ≠ separator) ++ separator :: rest := by
  have hline := List.takeWhile_append_dropWhile (p := (· ≠ separator)) (l := line)
  rw [nextField] at h
  split at h
  · cases h
  · next c _ hdrop =>
      cases h
      have hc := List.head?_dropWhile_not (· ≠ separator) line
      rw [hdrop] at hc hline
      obtain rfl : c = separator := by simpa using hc
      exact hline.symm

theorem rest_of_getNextFieldAlloc {line : List UInt8} {b b' : FieldBuffer} {separator : UInt8}
    {rest : Option (List UInt8)} (h : getNextFieldAlloc line b separator = .ok (rest, b')) :
    rest = nextField line separator := by
  rw [getNextFieldAlloc] at h
  grind

/-- `zbx_get_next_field` applied until there is no more line: the strings that the
buffer has held. -/
def allFields (separator : UInt8) (line : List UInt8) (b : FieldBuffer) : Except BufferStop (List (List UInt8)) :=
  match _h : getNextFieldAlloc line b separator with
  | .error e => .error e
  | .ok (none, b) => .ok [b.string]
  | .ok (some rest, b) => (allFields separator rest b).map (b.string :: ·)
termination_by line.length
decreasing_by
  rw [nextField_eq_some (rest_of_getNextFieldAlloc _h).symm, List.length_append, List.length_cons]
  omega

/-! ## what a buffer holds -/

/-- The buffer holds a text; the offset is behind it, and in the memory. -/
structure StrBuffer.Has (b : StrBuffer) (text : List UInt8) : Prop where
  read : b.str.read 0 b.offset = text
  offset : b.offset = text.length
  lt : b.offset < b.allocLen
  allocLen : b.allocLen < 2 ^ 31

/-- And the text ends at a NUL. -/
structure StrBuffer.Holds (b : StrBuffer) (text : List UInt8) : Prop extends b.Has text where
  nul : b.str b.offset = 0

variable {b : StrBuffer} {text : List UInt8}

theorem StrBuffer.Has.put (h : b.Has text) {s : List UInt8} (hroom : b.offset + s.length < b.allocLen) :
    ∃ b', b.put s = .ok b' ∧ b'.Holds (text ++ s) := by
  refine ⟨_, if_pos hroom, ⟨⟨?_, ?_, hroom, h.allocLen⟩, ?_⟩⟩
  · change (b.str.write b.offset (s ++ [0])).read 0 (b.offset + s.length) = text ++ s
    have hlen : s.length + 1 = (s ++ [0]).length := by simp
    have hs := Mem.read_write_self b.str b.offset (s ++ [0])
    rw [← hlen, Mem.read_add] at hs
    rw [Mem.read_add, Mem.read_write_of_le _ _ (by omega), h.read, Nat.zero_add]
    exact congrArg (text ++ ·) (List.append_inj_left hs (by simp))
  · change b.offset + s.length = (text ++ s).length
    rw [List.length_append, h.offset]
  · change b.str.write b.offset (s ++ [0]) (b.offset + s.length) = 0
    rw [Mem.write_add _ _ (by simp)]
    simp

/-- The size of `zbx_snprintf_alloc` is large enough, unless it overflows. -/
theorem growAllocated_cases (need : ℕ) {allocated : ℕ} (h : 0 < allocated) (hint : allocated < 2 ^ 31) :
    (∃ allocLen, growAllocated need allocated = some allocLen ∧ need < allocLen ∧ allocated ≤ allocLen ∧
      allocLen < 2 ^ 31) ∨ (growAllocated need allocated = none ∧ 2 ^ 30 ≤ need) := by
  rw [growAllocated]
  split
  · next hlt => exact .inl ⟨_, rfl, hlt, le_rfl, hint⟩
  · split
    · next hdouble =>
        rcases growAllocated_cases need (show 0 < allocated * 2 by omega) hdouble.2 with
          ⟨allocLen, hsome, hneed, hle, hint'⟩ | hnone
        · exact .inl ⟨allocLen, hsome, hneed, by omega, hint'⟩
        · exact .inr hnone
    · next hdouble =>
        rw [not_and, not_lt] at hdouble
        have := hdouble h
        exact .inr ⟨rfl, by omega⟩
termination_by 2 ^ 31 - allocated

/-- A larger size changes nothing of what is held. -/
theorem StrBuffer.Has.realloc (h : b.Has text) {allocLen : ℕ} (hle : b.allocLen ≤ allocLen)
    (hint : allocLen < 2 ^ 31) : { b with allocLen := allocLen }.Has text :=
  ⟨h.read, h.offset, Nat.lt_of_lt_of_le h.lt hle, hint⟩

theorem StrBuffer.Has.putIn (h : b.Has text) {allocLen : ℕ} {s : List UInt8} (hle : b.allocLen ≤ allocLen)
    (hroom : b.offset + s.length < allocLen) :
    (∃ b', (if 2 ^ 31 ≤ allocLen then .error .overflow else { b with allocLen := allocLen }.put s) =
        Except.ok b' ∧ b'.Holds (text ++ s)) ∨
      ((if 2 ^ 31 ≤ allocLen then .error .overflow else { b with allocLen := allocLen }.put s) =
        Except.error BufferStop.overflow ∧ 2 ^ 31 ≤ allocLen) := by
  split
  · next hover => exact .inr ⟨rfl, hover⟩
  · next hint => exact .inl ((h.realloc hle (not_le.mp hint)).put hroom)

/-- **The room is enough**: a call appends what it is to append, unless the size
overflows. -/
theorem StrBuffer.Has.append (h : b.Has text) (call : StrCall) :
    (∃ b', b.append call = .ok b' ∧ b'.Holds (text ++ call.appended)) ∨
      (b.append call = .error .overflow ∧ 2 ^ 29 ≤ text.length + call.room) := by
  have hlt := h.lt
  have hint := h.allocLen
  have hoffset := h.offset
  cases call with
  | snprintf maxLen chunk =>
      rw [StrBuffer.append, StrBuffer.zbxSnprintfAlloc, StrCall.room]
      rcases growAllocated_cases (b.offset + maxLen) (Nat.zero_lt_of_lt hlt) hint with
        ⟨allocLen, hsome, hneed, hle, hint'⟩ | ⟨hnone, hneed⟩
      · rw [hsome]
        refine .inl ((h.realloc hle hint').put ?_)
        change b.offset + (zbxVsnprintf maxLen chunk).length < allocLen
        rw [zbxVsnprintf, List.length_take]
        omega
      · rw [hnone]
        exact .inr ⟨rfl, by omega⟩
  | strcpy src =>
      have hput := @StrBuffer.Has.putIn b text h (if b.offset + src.val.length ≥ b.allocLen then
        b.allocLen + (if src.val.length < 32 then 64 else 2 * src.val.length) else b.allocLen) src.val
        (by grind) (by grind)
      rcases hput with hput | ⟨hstop, hover⟩
      · exact .inl hput
      · refine .inr ⟨hstop, ?_⟩
        change 2 ^ 29 ≤ text.length + src.val.length
        grind
  | chrcpy src =>
      have hput := @StrBuffer.Has.putIn b text h
        (if b.offset + 1 ≥ b.allocLen then b.allocLen + 64 else b.allocLen) [src] (by grind) (by grind)
      rcases hput with hput | ⟨hstop, hover⟩
      · exact .inl hput
      · refine .inr ⟨hstop, ?_⟩
        change 2 ^ 29 ≤ text.length + 1
        grind

theorem StrCall.appended_of_below {call : StrCall} (h : call.Below) : call.appended = call.chunk := by
  cases call with
  | snprintf maxLen chunk =>
      rcases h with rfl | h
      · exact List.take_nil
      · exact zbxVsnprintf_of_lt h
  | strcpy src => rfl
  | chrcpy src => rfl

/-- The buffer after a sequence of calls. -/
theorem StrBuffer.Has.appends (h : b.Has text) {calls : List StrCall} (hcalls : ∀ c ∈ calls, c.Below) :
    (∃ b', calls.foldlM StrBuffer.append b = .ok b' ∧ b'.Has (text ++ calls.flatMap StrCall.chunk) ∧
      (calls ≠ [] → b'.Holds (text ++ calls.flatMap StrCall.chunk))) ∨
      (calls.foldlM StrBuffer.append b = .error .overflow ∧ ∃ before call after, calls = before ++ call :: after ∧
        2 ^ 29 ≤ (text ++ before.flatMap StrCall.chunk).length + call.room) := by
  induction calls generalizing b text with
  | nil => exact .inl ⟨b, rfl, by simpa using h, by simp⟩
  | cons call calls ih =>
      obtain ⟨hcall, hcalls⟩ := List.forall_mem_cons.mp hcalls
      rw [List.foldlM_cons]
      rcases h.append call with ⟨b', hb', hholds⟩ | ⟨hstop, hover⟩
      · rw [StrCall.appended_of_below hcall] at hholds
        rw [hb', Outcome.ok_bind, List.flatMap_cons, ← List.append_assoc]
        rcases ih hholds.toHas hcalls with ⟨b'', hb'', hhas, hlast⟩ | ⟨hstop, before, next, after, rfl, hover⟩
        · refine .inl ⟨b'', hb'', hhas, fun _ => ?_⟩
          cases calls with
          | nil =>
              cases hb''
              simpa using hholds
          | cons _ _ => exact hlast (List.cons_ne_nil _ _)
        · refine .inr ⟨hstop, call :: before, next, after, rfl, ?_⟩
          rwa [List.flatMap_cons, ← List.append_assoc]
      · refine .inr ⟨?_, [], call, calls, rfl, by simpa using hover⟩
        rw [hstop]
        rfl

/-! ## what the fields are -/

/-- There is memory at `*output`, and `*olen` bytes of it at least. -/
def FieldBuffer.Valid (b : FieldBuffer) : Prop := 0 < b.size ∧ b.olen ≤ b.size

/-- One byte is there at least, and twice a length that is not zero has room for a NUL. -/
theorem FieldBuffer.Valid.grow {b : FieldBuffer} (h : b.Valid) (flen : ℕ) :
    (∃ b', b.grow flen = .ok b' ∧ b'.Valid ∧ flen < b'.size) ∨
      (b.grow flen = .error .overflow ∧ 2 ^ 30 ≤ flen) := by
  obtain ⟨hpos, hle⟩ := h
  rw [FieldBuffer.grow]
  split
  · split
    · exact .inr ⟨rfl, by omega⟩
    · exact .inl ⟨_, rfl, ⟨by dsimp only; omega, by dsimp only; omega⟩, by dsimp only; omega⟩
  · exact .inl ⟨b, rfl, ⟨hpos, hle⟩, by omega⟩

/-- **The room for a field is enough**, unless the size overflows. -/
theorem getNextFieldAlloc_some {line : List UInt8} {b : FieldBuffer} {separator : UInt8} (hb : b.Valid)
    (hline : 0 ∉ line) (hseparator : separator ≠ 0) :
    (∃ b', getNextFieldAlloc line b separator = .ok (nextField line separator, b') ∧ b'.Valid ∧
      b'.string = line.takeWhile (· ≠ separator)) ∨
      (getNextFieldAlloc line b separator = .error .overflow ∧ 2 ^ 30 ≤ line.length) := by
  have hfield : 0 ∉ line.takeWhile (· ≠ separator) := fun h => hline ((List.takeWhile_sublist _).subset h)
  have hlen := (List.takeWhile_sublist (· ≠ separator) (l := line)).length_le
  rw [getNextFieldAlloc]
  simp only [if_neg hseparator]
  rcases hb.grow (line.takeWhile (· ≠ separator)).length with ⟨b', hgrow, hb', hroom⟩ | ⟨hstop, hover⟩
  · rw [hgrow]
    refine .inl ⟨_, if_pos hroom, hb', Mem.strAt_of_holds ?_ hfield hroom⟩
    have hread := Mem.read_write_self b'.output 0 (line.takeWhile (· ≠ separator) ++ [0])
    rwa [List.length_append] at hread
  · rw [hstop]
    exact .inr ⟨rfl, by omega⟩

section Loop

variable {line : List UInt8} {b b' : FieldBuffer} {separator : UInt8}

theorem allFields_stop {e : BufferStop} (h : getNextFieldAlloc line b separator = .error e) :
    allFields separator line b = .error e := by
  rw [allFields]
  split <;> simp_all

theorem allFields_last (h : getNextFieldAlloc line b separator = .ok (none, b')) :
    allFields separator line b = .ok [b'.string] := by
  rw [allFields]
  split <;> simp_all

theorem allFields_more {rest : List UInt8} (h : getNextFieldAlloc line b separator = .ok (some rest, b')) :
    allFields separator line b = (allFields separator rest b').map (b'.string :: ·) := by
  rw [allFields]
  split <;> simp_all

end Loop

/-- The fields of a line, one after the other. -/
theorem allFields_eq {separator : UInt8} (hseparator : separator ≠ 0) {line : List UInt8} (hline : 0 ∉ line)
    {b : FieldBuffer} (hb : b.Valid) :
    allFields separator line b = .ok (line.splitOn separator) ∨
      (allFields separator line b = .error .overflow ∧ 2 ^ 30 ≤ line.length) := by
  have hsplit : line.splitOn separator = line.takeWhile (· ≠ separator) ::
      fieldsOf separator (nextField line separator) := fieldsOf_some separator line
  rw [hsplit]
  rcases getNextFieldAlloc_some hb hline hseparator with ⟨b', hfield, hb', hstring⟩ | ⟨hstop, hover⟩
  · rw [← hstring]
    cases hnext : nextField line separator with
    | none =>
        rw [hnext] at hfield
        exact .inl (allFields_last hfield)
    | some rest =>
        rw [hnext] at hfield
        have hrest := nextField_eq_some hnext
        have hmem : 0 ∉ rest := fun h => hline (hrest ▸ List.mem_append_right _ (List.mem_cons_of_mem _ h))
        have hlen : rest.length < line.length := by
          rw [hrest, List.length_append, List.length_cons]
          omega
        rw [allFields_more hfield]
        rcases allFields_eq hseparator hmem hb' with hfields | ⟨hstop, hover⟩
        · rw [hfields]
          exact .inl rfl
        · rw [hstop]
          exact .inr ⟨rfl, by omega⟩
  · exact .inr ⟨allFields_stop hstop, hover⟩
termination_by line.length

/-! ## the buffers of a sequence of calls -/

/-- **Growing strings**: after every sequence of calls whose chunks are, with a NUL,
no longer than the maximum that the call states, the buffer holds the chunks put
together, which end at a NUL, and the offset is their length and below the size;
and the fields that are taken from a string are those between the separators.
Nothing is written outside of a buffer; a call does not return when a size
overflows its `int`, which takes 2^29 bytes. -/
theorem strings_grow (str : Mem) {allocLen : ℕ} (hpos : 0 < allocLen) (hint : allocLen < 2 ^ 31)
    {calls : List StrCall} (hcalls : ∀ c ∈ calls, c.Below) {separator : UInt8} (hseparator : separator ≠ 0)
    (line : CString) {b : FieldBuffer} (hb : b.Valid) :
    ((∃ b', calls.foldlM StrBuffer.append ⟨str, allocLen, 0⟩ = .ok b' ∧ b'.Has (calls.flatMap StrCall.chunk) ∧
        (calls ≠ [] → b'.Holds (calls.flatMap StrCall.chunk))) ∨
      (calls.foldlM StrBuffer.append ⟨str, allocLen, 0⟩ = .error .overflow ∧
        ∃ before call after, calls = before ++ call :: after ∧
          2 ^ 29 ≤ (before.flatMap StrCall.chunk).length + call.room)) ∧
      (allFields separator line.val b = .ok (line.val.splitOn separator) ∨
        (allFields separator line.val b = .error .overflow ∧ 2 ^ 30 ≤ line.val.length)) :=
  ⟨StrBuffer.Has.appends ⟨rfl, rfl, hpos, hint⟩ hcalls, allFields_eq hseparator line.property hb⟩

/-- A line break and a semicolon, and a line with an empty field. -/
theorem strings_grow_statement :
    ∃ b', [StrCall.chrcpy 59, .snprintf 2 [10]].foldlM StrBuffer.append ⟨fun _ => 0, 1, 0⟩ = .ok b' ∧
      b'.Holds [59, 10] ∧ allFields 58 [97, 58] ⟨fun _ => 0, 1, 0⟩ = .ok [[97], []] := by
  have hcalls : ∀ c ∈ [StrCall.chrcpy 59, .snprintf 2 [10]], c.Below := by
    simp [StrCall.Below]
  obtain ⟨hbuffer, hfields⟩ := strings_grow (fun _ => 0) (show 0 < 1 by decide) (by decide) hcalls
    (show (58 : UInt8) ≠ 0 by decide) ⟨[97, 58], by decide⟩ (b := ⟨fun _ => 0, 1, 0⟩) ⟨by decide, by decide⟩
  rcases hbuffer with ⟨b', hrun, -, hholds⟩ | ⟨-, before, call, after, hsplit, hover⟩
  · exact ⟨b', hrun, hholds (by simp), hfields.resolve_right (by simp)⟩
  · have hrooms : ∀ c ∈ [StrCall.chrcpy 59, .snprintf 2 [10]], c.room ≤ 2 := by
      simp [StrCall.room, StrCall.chunk]
    have hroom := hrooms call (hsplit ▸ by simp)
    have hlen := congrArg (fun calls => (calls.flatMap StrCall.chunk).length) hsplit
    simp only [List.flatMap_append, List.flatMap_cons, List.flatMap_nil, List.length_append, List.length_nil,
      StrCall.chunk, List.length_cons] at hlen
    omega

/-- A text as long as `max_len` loses its last byte. -/
theorem not_strings_grow :
    ¬∀ (str : Mem) (allocLen : ℕ) (calls : List StrCall) (b' : StrBuffer), 0 < allocLen → allocLen < 2 ^ 31 →
      (∀ c ∈ calls, c.AtMost) → calls.foldlM StrBuffer.append ⟨str, allocLen, 0⟩ = .ok b' →
        b'.Has (calls.flatMap StrCall.chunk) := by
  intro h
  have hrun : [StrCall.snprintf 1 [59]].foldlM StrBuffer.append ⟨fun _ => 0, 2, 0⟩ =
      .ok ⟨Mem.write (fun _ => 0) 0 [0], 2, 0⟩ := by
    rw [List.foldlM_cons, StrBuffer.append, StrBuffer.zbxSnprintfAlloc, growAllocated, if_pos (by decide)]
    rfl
  have hhas := h _ 2 _ _ (by decide) (by decide) (by simp [StrCall.AtMost, StrCall.room, StrCall.chunk]) hrun
  exact absurd hhas.offset (by decide)

end Zabbix
