import Zabbix.Lib.Ascii
import Zabbix.Lib.Mem

/-!
# Zabbix.Json.Builder

The builder of `libs/zbxjson/json.c`, on the memory of its buffer.

The text in the buffer is a whole document at any time: every insertion moves
the closing brackets behind the offset, and writes in front of them what it
has computed the length of.  A string is a `CString`, `none` for a null
pointer; `ZBX_JSON_READABLE` is defined.
-/

namespace Zabbix

open Ascii

/-! ## strings -/

/-- `zbx_json_type_t` -/
inductive ZbxJsonType
  | unknown
  | string
  | int
  | array
  | object
  | null
deriving DecidableEq, Repr

/-- `zbx_num2hex` -/
def zbxNum2hex (c : UInt8) : UInt8 := if 10 ≤ c then c + 0x57 else c + 0x30

/-- The letter behind the backslash, for the bytes that have one. -/
def escapeLetter (c : UInt8) : Option UInt8 :=
  if c = dquote ∨ c = backslash ∨ c = slash then some c
  else if c = backspace then some 98
  else if c = formfeed then some 102
  else if c = newline then some 110
  else if c = cr then some 114
  else if c = tab then some 116
  else none

/-- What `__zbx_json_insstring` writes for a byte. -/
def jsonEscape (c : UInt8) : List UInt8 :=
  match escapeLetter c with
  | some letter => [backslash, letter]
  | none =>
      if c < 32 then [backslash, 117, 48, 48, zbxNum2hex ((c >>> 4) &&& 0xf), zbxNum2hex (c &&& 0xf)]
      else [c]

/-- What `__zbx_json_stringsize` counts for a byte. -/
def jsonEscapeSize (c : UInt8) : ℕ :=
  match escapeLetter c with
  | some _ => 2
  | none => if c < 32 then 6 else 1

/-- `string`, or the text `null`. -/
def stringOrNull : Option CString → List UInt8
  | some s => s.val
  | none => bytes "null"

/-- `__zbx_json_stringsize` -/
def jsonStringsize (string : Option CString) (type : ZbxJsonType) : ℕ :=
  ((stringOrNull string).map jsonEscapeSize).sum +
    if string.isSome ∧ type = .string then 2 else 0

/-- The bytes that `__zbx_json_insstring` writes. -/
def jsonInsstring (string : Option CString) (type : ZbxJsonType) : List UInt8 :=
  let quote := if string.isSome ∧ type = .string then [dquote] else []
  quote ++ (stringOrNull string).flatMap jsonEscape ++ quote

theorem length_jsonEscape (c : UInt8) : (jsonEscape c).length = jsonEscapeSize c := by
  rw [jsonEscape, jsonEscapeSize]
  cases escapeLetter c with
  | some letter => rfl
  | none =>
      dsimp only
      split <;> rfl

/-- **The two passes over a string agree.** -/
theorem length_jsonInsstring (string : Option CString) (type : ZbxJsonType) :
    (jsonInsstring string type).length = jsonStringsize string type := by
  have hsum : ∀ s : List UInt8, (s.flatMap jsonEscape).length = (s.map jsonEscapeSize).sum := by
    intro s
    rw [List.length_flatMap]
    exact congrArg List.sum (List.map_congr_left fun c _ => length_jsonEscape c)
  rw [jsonInsstring, jsonStringsize, List.length_append, List.length_append, hsum]
  split
  · simp only [List.length_singleton]
    omega
  · simp

/-! ## the buffer -/

/-- `zbx_json_status_t` -/
inductive ZbxJsonStatus
  | empty
  | comma
deriving DecidableEq, Repr

/-- `struct zbx_json` -/
structure ZbxJson where
  buffer : Mem
  bufferAllocated : ℕ
  bufferOffset : ℕ
  bufferSize : ℕ
  status : ZbxJsonStatus
  level : ℕ

/-- `ZBX_JSON_STAT_BUF_LEN` -/
def zbxJsonStatBufLen : ℕ := 4096

/-- The loop of `__zbx_json_realloc`: the size of the buffer is doubled until
it suffices. -/
def jsonGrow (need allocated : ℕ) : ℕ :=
  if h : allocated < need then jsonGrow need (if allocated = 0 then 1024 else allocated * 2)
  else allocated
termination_by need - allocated
decreasing_by split <;> omega

/-- `__zbx_json_realloc`, when there is a buffer; what is in it stays. -/
def ZbxJson.realloc (j : ZbxJson) (need : ℕ) : ZbxJson :=
  { j with bufferAllocated := jsonGrow need j.bufferAllocated }

/-- A name and its colon, in front of a member. -/
def nameText (name : Option CString) : List UInt8 :=
  match name with
  | none => []
  | some _ => jsonInsstring name .string ++ [colon]

/-- The length that is computed for a name. -/
def nameSize (name : Option CString) : ℕ :=
  match name with
  | none => 0
  | some _ => jsonStringsize name .string + 1

theorem length_nameText (name : Option CString) : (nameText name).length = nameSize name := by
  cases name with
  | none => rfl
  | some s => simp [nameText, nameSize, length_jsonInsstring]

/-- Make room for `len` bytes at the offset and write `text` there. -/
def ZbxJson.insert (j : ZbxJson) (len : ℕ) (text : List UInt8) : ZbxJson :=
  let j := j.realloc (j.bufferSize + len + 1)
  let moved := j.buffer.move (j.bufferOffset + len) j.bufferOffset (j.bufferSize - j.bufferOffset + 1)
  { j with buffer := moved.write j.bufferOffset text, bufferSize := j.bufferSize + len }

/-- `{` or `[` -/
def openBracket (object : Bool) : UInt8 := if object then lbrace else lbracket

/-- `}` or `]` -/
def closeBracket (object : Bool) : UInt8 := if object then rbrace else rbracket

/-- The comma, after the first member. -/
def ZbxJson.separator (j : ZbxJson) : List UInt8 := if j.status = .comma then [comma] else []

/-- A new line at a level. -/
def lineBreak (level : ℕ) : List UInt8 := newline :: List.replicate level tab

/-- `__zbx_json_addobject` -/
def jsonAddobject (j : ZbxJson) (name : Option CString) (object : Bool) : ZbxJson :=
  let len := 2 + j.level + (if j.level ≠ 0 then 1 else 0) + (if j.status = .comma then 1 else 0) +
    nameSize name
  let text := j.separator ++ (if j.level ≠ 0 then [newline] else []) ++ List.replicate j.level tab ++
    nameText name ++ [openBracket object]
  { j.insert len (text ++ [closeBracket object]) with
    bufferOffset := j.bufferOffset + text.length
    level := j.level + 1
    status := .empty }

/-- `zbx_json_addobject` -/
def zbxJsonAddobject (j : ZbxJson) (name : Option CString) : ZbxJson := jsonAddobject j name true

/-- `zbx_json_addarray` -/
def zbxJsonAddarray (j : ZbxJson) (name : Option CString) : ZbxJson := jsonAddobject j name false

/-- `zbx_json_addstring` -/
def zbxJsonAddstring (j : ZbxJson) (name string : Option CString) (type : ZbxJsonType) : ZbxJson :=
  let len := (if j.status = .comma then 1 else 0) +
    (if name.isSome then nameSize name + j.level + 1 else 0) + jsonStringsize string type
  let text := j.separator ++ (if name.isSome then lineBreak j.level else []) ++ nameText name ++
    jsonInsstring string type
  { j.insert len text with bufferOffset := j.bufferOffset + text.length, status := .comma }

/-- `zbx_json_close`; `none` on `FAIL`, which leaves `j` as it is. -/
def zbxJsonClose (j : ZbxJson) : Option ZbxJson :=
  if j.level = 1 then none
  else some { j with level := j.level - 1, bufferOffset := j.bufferOffset + 1, status := .comma }

/-- The buffer before the top level object is added. -/
def jsonStart (garbage : Mem) (allocated : ℕ) : ZbxJson :=
  { buffer := Function.update garbage 0 0
    bufferAllocated := allocated
    bufferOffset := 0
    bufferSize := 0
    status := .empty
    level := 0 }

/-- `zbx_json_init`, with what `malloc` leaves in the buffer. -/
def zbxJsonInit (garbage : Mem) (allocate : ℕ) : ZbxJson :=
  zbxJsonAddobject (jsonStart garbage (max allocate zbxJsonStatBufLen)) none

/-- `zbx_json_clean` -/
def zbxJsonClean (j : ZbxJson) : ZbxJson :=
  zbxJsonAddobject (jsonStart j.buffer j.bufferAllocated) none

/-- The document: the string in the buffer. -/
def ZbxJson.text (j : ZbxJson) : List UInt8 := j.buffer.strAt j.bufferAllocated 0

/-- The operations of a caller. -/
inductive JsonOp
  | addobject (name : Option CString)
  | addarray (name : Option CString)
  | addstring (name string : Option CString) (type : ZbxJsonType)
  | close
deriving DecidableEq

/-- One operation. -/
def ZbxJson.step (j : ZbxJson) : JsonOp → ZbxJson
  | .addobject name => zbxJsonAddobject j name
  | .addarray name => zbxJsonAddarray j name
  | .addstring name string type => zbxJsonAddstring j name string type
  | .close => (zbxJsonClose j).getD j

/-- A document under construction. -/
def jsonRun (garbage : Mem) (allocate : ℕ) (ops : List JsonOp) : ZbxJson :=
  ops.foldl ZbxJson.step (zbxJsonInit garbage allocate)

end Zabbix
