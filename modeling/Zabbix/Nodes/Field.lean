import Zabbix.Json.Builder
import Zabbix.Json.Decode
import Zabbix.Lib.Mem
import Zabbix.Lib.Outcome

/-!
# Zabbix.Nodes.Field

How the fields of a record are told apart and how the bytes of a text are
written in hexadecimal digits (`libs/zbxcommon/str.c`), in the records that the
nodes send to each other.

A buffer is the list of its bytes, those behind the NUL of the string in it
included: `zbx_hex2binary` reads on there when the number of digits is odd.
-/

namespace Zabbix

open Ascii

/-- `ZBX_DM_DELIMITER` -/
def zbxDmDelimiter : UInt8 := 0xAD

/-- What a pointer that is used, and is NULL, should have pointed to. -/
inductive NullPointer
  | line
  | table
deriving DecidableEq, Repr

/-! ## fields -/

/-- Put a string at the start of a buffer. -/
def bufferPut (buffer s : List UInt8) : List UInt8 := s ++ 0 :: buffer.drop (s.length + 1)

/-- What is left of a line behind its first field; `none` is the NULL pointer. -/
def nextField (line : List UInt8) (separator : UInt8) : Option (List UInt8) :=
  match line.dropWhile (· ≠ separator) with
  | [] => none
  | _ :: line => some line

/-- `zbx_get_next_field`: the field, the rest of the line and the buffer that the
field is put into. -/
def zbxGetNextField (line : Option (List UInt8)) (output : List UInt8) (separator : UInt8) :
    Except NullPointer (List UInt8 × Option (List UInt8) × List UInt8) :=
  match line with
  | none => throw .line
  | some line =>
      let field := line.takeWhile (· ≠ separator)
      pure (field, nextField line separator, bufferPut output field)

@[simp] theorem zbxGetNextField_none (output : List UInt8) (separator : UInt8) :
    zbxGetNextField none output separator = .error .line := rfl

@[simp] theorem zbxGetNextField_some (line output : List UInt8) (separator : UInt8) :
    zbxGetNextField (some line) output separator =
      .ok (line.takeWhile (· ≠ separator), nextField line separator,
        bufferPut output (line.takeWhile (· ≠ separator))) := rfl

/-- What is left of a line is shorter. -/
theorem zbxGetNextField_lt {line line' : Option (List UInt8)} {output output' field : List UInt8}
    {separator : UInt8} (h : zbxGetNextField line output separator = .ok (field, line', output')) :
    (line'.elim 0 fun s => s.length + 1) < line.elim 0 fun s => s.length + 1 := by
  cases line with
  | none => cases h
  | some line =>
      rw [zbxGetNextField_some] at h
      cases h
      have hle := (List.dropWhile_sublist (fun c => decide (c ≠ separator)) (l := line)).length_le
      rw [nextField]
      split
      · simp
      · next heq =>
          rw [heq, List.length_cons] at hle
          simp only [Option.elim_some]
          omega

/-- A field and what follows the separator. -/
theorem zbxGetNextField_append {field : List UInt8} {separator : UInt8} (h : separator ∉ field)
    (line output : List UInt8) :
    zbxGetNextField (some (field ++ separator :: line)) output separator =
      .ok (field, some line, bufferPut output field) := by
  have hfield : ∀ c ∈ field, decide (c ≠ separator) = true := fun c hc =>
    decide_eq_true (ne_of_mem_of_not_mem hc h)
  have htake : (field ++ separator :: line).takeWhile (· ≠ separator) = field := by
    rw [List.takeWhile_append_of_pos hfield, List.takeWhile_cons_of_neg (by simp), List.append_nil]
  have hdrop : (field ++ separator :: line).dropWhile (· ≠ separator) = separator :: line := by
    rw [List.dropWhile_append_of_pos hfield, List.dropWhile_cons_of_neg (by simp)]
  rw [zbxGetNextField_some, nextField, htake, hdrop]

/-- The last field of a line. -/
theorem zbxGetNextField_last {field : List UInt8} {separator : UInt8} (h : separator ∉ field)
    (output : List UInt8) :
    zbxGetNextField (some field) output separator = .ok (field, none, bufferPut output field) := by
  have hfield : ∀ c ∈ field, decide (c ≠ separator) = true := fun c hc =>
    decide_eq_true (ne_of_mem_of_not_mem hc h)
  have htake : field.takeWhile (· ≠ separator) = field := List.takeWhile_eq_self_iff.mpr hfield
  have hdrop : field.dropWhile (· ≠ separator) = [] := List.dropWhile_eq_nil_iff.mpr hfield
  rw [zbxGetNextField_some, nextField, htake, hdrop]

/-- The fields of what is left of a line. -/
def fieldsOf (separator : UInt8) (line : Option (List UInt8)) : List (List UInt8) :=
  line.elim [] fun line => line.splitOn separator

@[simp] theorem fieldsOf_none (separator : UInt8) : fieldsOf separator none = [] := rfl

/-- The first field, and the others. -/
theorem fieldsOf_some (separator : UInt8) (line : List UInt8) :
    fieldsOf separator (some line) =
      line.takeWhile (· ≠ separator) :: fieldsOf separator (nextField line separator) := by
  change line.splitOn separator = _
  induction line with
  | nil => rfl
  | cons c line ih =>
      rw [List.splitOn_cons_eq_if_modifyHead]
      by_cases hc : c = separator
      · have hnext : nextField (c :: line) separator = some line := by
          rw [nextField, List.dropWhile_cons_of_neg (by simpa using hc)]
        rw [if_pos (by simpa using hc), List.takeWhile_cons_of_neg (by simpa using hc), hnext]
        rfl
      · have hnext : nextField (c :: line) separator = nextField line separator := by
          rw [nextField, List.dropWhile_cons_of_pos (by simpa using hc), ← nextField]
        rw [if_neg (by simpa using hc), List.takeWhile_cons_of_pos (by simpa using hc), hnext]
        rw [ih]
        rfl

/-- `zbx_get_next_field` takes the first of the fields that are left. -/
theorem zbxGetNextField_fieldsOf {separator : UInt8} {line : Option (List UInt8)} {field : List UInt8}
    {fields : List (List UInt8)} (h : fieldsOf separator line = field :: fields) (output : List UInt8) :
    ∃ line', zbxGetNextField line output separator = .ok (field, line', bufferPut output field) ∧
      fieldsOf separator line' = fields := by
  cases line with
  | none => cases h
  | some line =>
      rw [fieldsOf_some] at h
      obtain ⟨rfl, rfl⟩ := List.cons.inj h
      exact ⟨_, rfl, rfl⟩

/-- A field that has been taken was there. -/
theorem fieldsOf_of_ok {separator : UInt8} {line line' : Option (List UInt8)} {field output output' : List UInt8}
    (h : zbxGetNextField line output separator = .ok (field, line', output')) :
    fieldsOf separator line = field :: fieldsOf separator line' := by
  cases line with
  | none => cases h
  | some line =>
      rw [zbxGetNextField_some] at h
      cases h
      exact fieldsOf_some separator line

/-! ## hexadecimal digits -/

/-- `zbx_binary2hex` -/
def zbxBinary2hex (input : List UInt8) : List UInt8 :=
  input.flatMap fun c : UInt8 => [zbxNum2hex ((c >>> 4) &&& 0xf), zbxNum2hex (c &&& 0xf)]

/-- `zbx_hex2binary`: two digits are a byte, up to a NUL in the place of a first
digit. -/
def zbxHex2binary : (io : List UInt8) → List UInt8
  | c :: d :: io => if c = 0 then [] else ((zbxHex2num c <<< 4) + zbxHex2num d) :: zbxHex2binary io
  | _ => []

/-- `zbx_pg_escape_bytea` -/
def zbxPgEscapeBytea (input : List UInt8) : List UInt8 :=
  input.flatMap fun c : UInt8 =>
    if c ≤ 0x1f ∨ 0x7f ≤ c then
      [backslash, backslash, ((c >>> 6) &&& 0x7) + 0x30, ((c >>> 3) &&& 0x7) + 0x30, (c &&& 0x7) + 0x30]
    else if c = squote then [backslash, squote]
    else if c = backslash then [backslash, backslash, backslash, backslash]
    else [c]

@[simp] theorem zbxBinary2hex_nil : zbxBinary2hex [] = [] := rfl

theorem zbxBinary2hex_cons (c : UInt8) (s : List UInt8) :
    zbxBinary2hex (c :: s) =
      zbxNum2hex ((c >>> 4) &&& 0xf) :: zbxNum2hex (c &&& 0xf) :: zbxBinary2hex s := by
  rw [zbxBinary2hex, List.flatMap_cons]
  rfl

theorem length_zbxBinary2hex (s : List UInt8) : (zbxBinary2hex s).length = 2 * s.length := by
  induction s with
  | nil => rfl
  | cons c s ih =>
      rw [zbxBinary2hex_cons, List.length_cons, List.length_cons, List.length_cons, ih]
      omega

@[simp] theorem zbxHex2binary_nul (io : List UInt8) : zbxHex2binary (0 :: io) = [] := by
  cases io with
  | nil => rw [zbxHex2binary]; simp
  | cons d io => rw [zbxHex2binary, if_pos rfl]

/-- **What is written in hexadecimal digits is read back.** -/
theorem zbxHex2binary_binary2hex (s behind : List UInt8) :
    zbxHex2binary (zbxBinary2hex s ++ 0 :: behind) = s := by
  induction s with
  | nil => rw [zbxBinary2hex_nil, List.nil_append, zbxHex2binary_nul]
  | cons c s ih =>
      have hbyte : ∀ c : UInt8, zbxNum2hex ((c >>> 4) &&& 0xf) ≠ 0 ∧
          (zbxHex2num (zbxNum2hex ((c >>> 4) &&& 0xf)) <<< 4) + zbxHex2num (zbxNum2hex (c &&& 0xf)) = c :=
        forall_byte (by decide +kernel)
      obtain ⟨hne, heq⟩ := hbyte c
      rw [zbxBinary2hex_cons, List.cons_append, List.cons_append, zbxHex2binary, if_neg hne, heq, ih]

end Zabbix
