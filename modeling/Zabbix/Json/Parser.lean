import Zabbix.Json.Builder
import Zabbix.Str

/-!
# Zabbix.Json.Parser

The parser of `libs/zbxjson/json.c`.

A pointer into a text is what stands from there up to the terminating NUL, so
that the pointer to the NUL itself is the empty list.  The functions of the
parser look at one byte after the other; a scan that would look at a byte
behind the NUL is an `overrun`, whatever it would come to.
-/

namespace Zabbix

open Ascii

/-- A pointer into a text. -/
abbrev Ptr : Type := List UInt8

/-- What a scan comes to: a result, a null pointer (or `FAIL`), or a read
behind the terminating NUL. -/
inductive Scan (α : Type)
  | found (a : α)
  | null
  | overrun
deriving DecidableEq, Repr

namespace Scan

def bind {α β : Type} (x : Scan α) (f : α → Scan β) : Scan β :=
  match x with
  | found a => f a
  | null => null
  | overrun => overrun

def map {α β : Type} (f : α → β) (x : Scan α) : Scan β := x.bind fun a => found (f a)

@[simp] theorem found_bind {α β : Type} (a : α) (f : α → Scan β) : (found a).bind f = f a := rfl

@[simp] theorem null_bind {α β : Type} (f : α → Scan β) : (null : Scan α).bind f = null := rfl

@[simp] theorem overrun_bind {α β : Type} (f : α → Scan β) : (overrun : Scan α).bind f = overrun := rfl

@[simp] theorem map_found {α β : Type} (f : α → β) (a : α) : (found a).map f = found (f a) := rfl

@[simp] theorem map_null {α β : Type} (f : α → β) : (null : Scan α).map f = null := rfl

@[simp] theorem map_overrun {α β : Type} (f : α → β) : (overrun : Scan α).map f = overrun := rfl

theorem bind_eq_found {α β : Type} {x : Scan α} {f : α → Scan β} {b : β} (h : x.bind f = found b) :
    ∃ a, x = found a ∧ f a = found b := by
  cases x with
  | found a => exact ⟨a, rfl, h⟩
  | null => cases h
  | overrun => cases h

theorem map_eq_found {α β : Type} {x : Scan α} {f : α → β} {b : β} (h : x.map f = found b) :
    ∃ a, x = found a ∧ f a = b := by
  obtain ⟨a, ha, hb⟩ := bind_eq_found h
  exact ⟨a, ha, found.inj hb⟩

theorem bind_eq_overrun {α β : Type} {x : Scan α} {f : α → Scan β} :
    x.bind f = overrun ↔ x = overrun ∨ ∃ a, x = found a ∧ f a = overrun := by
  cases x <;> simp

@[simp] theorem map_eq_overrun {α β : Type} {x : Scan α} {f : α → β} : x.map f = overrun ↔ x = overrun := by
  cases x <;> simp

end Scan

/-- `struct zbx_json_parse`; `stop` is its `end`. -/
structure ZbxJsonParse where
  start : Ptr
  stop : Ptr
deriving DecidableEq, Repr

/-! ## brackets -/

/-- The loop of `__zbx_json_rbracket`; `state` is set inside a string. -/
def rbracketLoop (rbracket : UInt8) (level : ℤ) (state : Bool) : Ptr → Scan Ptr
  | [] => .null
  | c :: p =>
      if c = dquote then rbracketLoop rbracket level (!state) p
      else if c = backslash then
        if state then
          match p with
          | [] => .overrun
          | _ :: p => rbracketLoop rbracket level state p
        else rbracketLoop rbracket level state p
      else if c = Ascii.lbracket ∨ c = lbrace then
        rbracketLoop rbracket (if state then level else level + 1) state p
      else if c = Ascii.rbracket ∨ c = rbrace then
        if state then rbracketLoop rbracket level state p
        else if level - 1 = 0 then if rbracket = c then .found (c :: p) else .null
        else rbracketLoop rbracket (level - 1) state p
      else rbracketLoop rbracket level state p

/-- `__zbx_json_rbracket` -/
def jsonRbracket (p : Ptr) : Scan Ptr :=
  if p.headD nul = lbrace then rbracketLoop rbrace 0 false p
  else if p.headD nul = Ascii.lbracket then rbracketLoop Ascii.rbracket 0 false p
  else .null

/-- The removal of tabs and line breaks, which `zbx_json_open` begins with. -/
def stripLayout (s : List UInt8) : List UInt8 := s.filter fun c => c ≠ tab ∧ c ≠ newline

/-- `zbx_json_open`; from there on the text is the one without layout. -/
def zbxJsonOpen (buffer : List UInt8) : Scan ZbxJsonParse :=
  if buffer.headD nul = lbrace then
    (jsonRbracket (stripLayout buffer)).map fun stop => { start := stripLayout buffer, stop := stop }
  else .null

/-- `zbx_json_brackets_open` -/
def zbxJsonBracketsOpen (p : Ptr) : Scan ZbxJsonParse :=
  (jsonRbracket p).map fun stop => { start := p, stop := stop }

/-! ## next -/

/-- The loop of `zbx_json_next`, while `p` is not behind the `end`, which has
`stop` bytes from there. -/
def nextLoop (stop level : ℕ) (state : Bool) : Ptr → Scan Ptr
  | [] => .null
  | c :: p =>
      if (c :: p).length < stop then .null
      else if c = dquote then nextLoop stop level (!state) p
      else if c = backslash then
        if state then
          match p with
          | [] => .null
          | _ :: p => nextLoop stop level state p
        else nextLoop stop level state p
      else if c = Ascii.lbracket ∨ c = lbrace then
        nextLoop stop (if state then level else level + 1) state p
      else if c = Ascii.rbracket ∨ c = rbrace then
        if state then nextLoop stop level state p
        else if level = 0 then .null
        else nextLoop stop (level - 1) state p
      else if c = comma then
        if state = false ∧ level = 0 then .found p else nextLoop stop level state p
      else nextLoop stop level state p

/-- `zbx_json_next` -/
def zbxJsonNext (jp : ZbxJsonParse) (p : Option Ptr) : Scan Ptr :=
  if jp.start.length = jp.stop.length + 1 then .null
  else
    match p with
    | none => .found jp.start.tail
    | some p => nextLoop jp.stop.length 0 false p

/-! ## values -/

/-- `zbx_json_type` -/
def zbxJsonType (p : Ptr) : ZbxJsonType :=
  if p.headD nul = dquote then .string
  else if (48 ≤ p.headD nul ∧ p.headD nul ≤ 57) ∨ p.headD nul = minus then .int
  else if p.headD nul = Ascii.lbracket then .array
  else if p.headD nul = lbrace then .object
  else if (bytes "null").isPrefixOf p then .null
  else .unknown

/-- `zbx_hex2num` -/
def zbxHex2num (c : UInt8) : UInt8 := if 97 ≤ c ∧ c ≤ 127 then c - 0x57 else c - 0x30

/-- The byte that a letter stands for, behind a backslash. -/
def unescapeLetter (c : UInt8) : Option UInt8 :=
  if c = dquote ∨ c = backslash ∨ c = slash then some c
  else if c = 98 then some backspace
  else if c = 102 then some formfeed
  else if c = 110 then some newline
  else if c = 114 then some cr
  else if c = 116 then some tab
  else none

/-- `*o++ = b`, in front of what the rest of a loop writes. -/
def put (b : UInt8) (x : Scan (List UInt8 × Ptr)) : Scan (List UInt8 × Ptr) :=
  x.map fun r => (b :: r.1, r.2)

@[simp] theorem put_found (b : UInt8) (s : List UInt8) (q : Ptr) :
    put b (.found (s, q)) = .found (b :: s, q) := rfl

theorem put_eq_found {b : UInt8} {x : Scan (List UInt8 × Ptr)} {s : List UInt8} {q : Ptr}
    (h : put b x = .found (s, q)) : ∃ t, x = .found (t, q) ∧ s = b :: t := by
  obtain ⟨⟨t, q'⟩, hx, heq⟩ := Scan.map_eq_found h
  cases heq
  exact ⟨t, hx, rfl⟩

@[simp] theorem put_eq_overrun {b : UInt8} {x : Scan (List UInt8 × Ptr)} :
    put b x = .overrun ↔ x = .overrun :=
  Scan.map_eq_overrun

/-- The loop of `zbx_json_decodestring` inside the string, with `room` bytes
left of the buffer: the bytes written, and the pointer behind the string. -/
def decodestringLoop (room : ℕ) : Ptr → Scan (List UInt8 × Ptr)
  | [] => .null
  | c :: p =>
      if c = dquote then .found ([], p)
      else if room = 0 then decodestringLoop room p
      else if c = backslash then
        match p with
        | [] => .overrun
        | e :: p =>
            match unescapeLetter e with
            | some b => put b (decodestringLoop (room - 1) p)
            | none =>
                if e = 117 then
                  -- the two bytes that are read are the second and the third
                  match p with
                  | _ :: x :: y :: p =>
                      put ((zbxHex2num x <<< 4) + zbxHex2num y) (decodestringLoop (room - 1) p)
                  | _ => .overrun
                else decodestringLoop room p
      else put c (decodestringLoop (room - 1) p)

/-- The branches of the loop, each with what it computes. -/
@[elab_as_elim]
theorem decodestringLoop_induction {motive : ℕ → Ptr → Prop}
    (nil : ∀ room, decodestringLoop room [] = .null → motive room [])
    (quote : ∀ room p, decodestringLoop room (dquote :: p) = .found ([], p) → motive room (dquote :: p))
    (full : ∀ c p, decodestringLoop 0 (c :: p) = decodestringLoop 0 p → motive 0 p → motive 0 (c :: p))
    (cut : ∀ room, room ≠ 0 → decodestringLoop room [backslash] = .overrun → motive room [backslash])
    (letter : ∀ room c b p, room ≠ 0 → unescapeLetter c = some b →
      decodestringLoop room (backslash :: c :: p) = put b (decodestringLoop (room - 1) p) →
      motive (room - 1) p → motive room (backslash :: c :: p))
    (unicode : ∀ room w x y p, room ≠ 0 →
      decodestringLoop room (backslash :: 117 :: w :: x :: y :: p) =
        put ((zbxHex2num x <<< 4) + zbxHex2num y) (decodestringLoop (room - 1) p) →
      motive (room - 1) p → motive room (backslash :: 117 :: w :: x :: y :: p))
    (cutUnicode : ∀ room p, room ≠ 0 → p.length < 3 →
      decodestringLoop room (backslash :: 117 :: p) = .overrun → motive room (backslash :: 117 :: p))
    (dropped : ∀ room c p, unescapeLetter c = none → c ≠ 117 →
      decodestringLoop room (backslash :: c :: p) = decodestringLoop room p →
      motive room p → motive room (backslash :: c :: p))
    (byte : ∀ room c p, room ≠ 0 → c ≠ dquote → c ≠ backslash →
      decodestringLoop room (c :: p) = put c (decodestringLoop (room - 1) p) →
      motive (room - 1) p → motive room (c :: p))
    (room : ℕ) (p : Ptr) : motive room p := by
  induction hn : p.length using Nat.strong_induction_on generalizing room p with
  | _ n ih =>
      subst hn
      have hshorter (room : ℕ) (q : Ptr) (hq : q.length < p.length) : motive room q := ih q.length hq room q rfl
      rcases p with _ | ⟨c, p⟩
      · exact nil room rfl
      have hloop := decodestringLoop.eq_def room (c :: p)
      dsimp only at hloop
      split_ifs at hloop with hquote hroom hback
      · subst hquote
        exact quote room p hloop
      · subst hroom
        exact full c p hloop (hshorter 0 p (by simp))
      · subst hback
        rcases p with _ | ⟨e, p⟩
        · exact cut room hroom hloop
        · dsimp only at hloop
          cases hletter : unescapeLetter e with
          | some b =>
              rw [hletter] at hloop
              exact letter room e b p hroom hletter hloop (hshorter _ p (by simp))
          | none =>
              rw [hletter] at hloop
              dsimp only at hloop
              split_ifs at hloop with hunicode
              · subst hunicode
                rcases p with _ | ⟨w, _ | ⟨x, _ | ⟨y, p⟩⟩⟩
                · exact cutUnicode room _ hroom (by simp) hloop
                · exact cutUnicode room _ hroom (by simp) hloop
                · exact cutUnicode room _ hroom (by simp) hloop
                · exact unicode room w x y p hroom hloop (hshorter _ p (by simp; omega))
              · exact dropped room e p hletter hunicode hloop (hshorter _ p (by simp))
      · exact byte room c p hroom hquote hback hloop (hshorter _ p (by simp))

/-- `len - 1`, a `size_t`. -/
def roomOf (len : ℕ) : ℕ := if len = 0 then 2 ^ 64 - 1 else len - 1

/-- `zbx_json_decodestring` -/
def zbxJsonDecodestring (p : Ptr) (len : ℕ) : Scan (List UInt8 × Ptr) :=
  match p with
  | [] => .null
  | c :: p => if c = dquote then decodestringLoop (roomOf len) p else .null

/-- The loop of `zbx_json_decodeint`. -/
def decodeintLoop (room : ℕ) : Ptr → Scan (List UInt8 × Ptr)
  | [] => .null
  | c :: p =>
      if (c < 48 ∨ 57 < c) ∧ c ≠ minus then .found ([], c :: p)
      else if room = 0 then decodeintLoop room p
      else put c (decodeintLoop (room - 1) p)

/-- `zbx_json_decodevalue` -/
def zbxJsonDecodevalue (p : Ptr) (len : ℕ) : Scan (List UInt8 × Ptr) :=
  match zbxJsonType p with
  | .string => zbxJsonDecodestring p len
  | .int => decodeintLoop (roomOf len) p
  | .unknown | .array | .object | .null => .null

/-- `zbx_json_next_value` -/
def zbxJsonNextValue (jp : ZbxJsonParse) (p : Option Ptr) (len : ℕ) : Scan (List UInt8 × Ptr) :=
  (zbxJsonNext jp p).bind fun p => (zbxJsonDecodevalue p len).map fun r => (r.1, p)

/-- `zbx_json_pair_next`: the name and the pointer to the value. -/
def zbxJsonPairNext (jp : ZbxJsonParse) (p : Option Ptr) (len : ℕ) : Scan (List UInt8 × Ptr) :=
  (zbxJsonNext jp p).bind fun p =>
    if zbxJsonType p = .string then
      (zbxJsonDecodestring p len).bind fun r =>
        if r.2.headD nul = colon then .found (r.1, r.2.tail) else .null
    else .null

/-- The string that a buffer with these bytes, and a NUL behind them, holds. -/
def cstr (s : List UInt8) : List UInt8 := s.takeWhile (· ≠ 0)

theorem not_mem_cstr (s : List UInt8) : (0 : UInt8) ∉ cstr s :=
  fun h => absurd (List.mem_takeWhile_imp h) (by decide)

theorem cstr_of_not_mem {s : List UInt8} (h : (0 : UInt8) ∉ s) : cstr s = s := by
  rw [cstr, List.takeWhile_eq_self_iff]
  intro c hc
  simpa using ne_of_mem_of_not_mem hc h

/-! ## pairs -/

theorem length_nextLoop {stop level : ℕ} {state : Bool} {p q : Ptr}
    (h : nextLoop stop level state p = .found q) : q.length < p.length := by
  fun_induction nextLoop stop level state p <;> grind

theorem length_decodestringLoop {room : ℕ} {p q : Ptr} {s : List UInt8}
    (h : decodestringLoop room p = .found (s, q)) : q.length < p.length := by
  induction room, p using decodestringLoop_induction generalizing s <;> grind [put_eq_found]

/-- How much is left to scan. -/
def remaining (jp : ZbxJsonParse) : Option Ptr → ℕ
  | none => jp.start.length + 1
  | some p => p.length

theorem length_zbxJsonNext {jp : ZbxJsonParse} {p : Option Ptr} {q : Ptr}
    (h : zbxJsonNext jp p = .found q) : q.length < remaining jp p := by
  rw [zbxJsonNext.eq_def] at h
  split at h
  · cases h
  · cases p with
    | none =>
        obtain rfl := Scan.found.inj h
        rw [List.length_tail, remaining]
        omega
    | some p => exact length_nextLoop h

/-- What `zbx_json_pair_next` finds is a string and a colon. -/
theorem zbxJsonPairNext_eq_found {jp : ZbxJsonParse} {p : Option Ptr} {len : ℕ} {r : List UInt8 × Ptr}
    (h : zbxJsonPairNext jp p len = .found r) :
    ∃ q, zbxJsonNext jp p = .found (dquote :: q) ∧
      decodestringLoop (roomOf len) q = .found (r.1, colon :: r.2) := by
  obtain ⟨q, hq, h⟩ := Scan.bind_eq_found h
  split at h
  · obtain ⟨⟨s, t⟩, hs, h⟩ := Scan.bind_eq_found h
    split at h
    · rename_i hcolon
      obtain rfl := Scan.found.inj h
      cases q with
      | nil => cases hs
      | cons c q =>
          rw [zbxJsonDecodestring] at hs
          split at hs
          · rename_i hquote
            subst hquote
            cases t with
            | nil => cases hcolon
            | cons d t =>
                obtain rfl : d = colon := hcolon
                exact ⟨q, hq, hs⟩
          · cases hs
    · cases h
  · cases h

theorem length_zbxJsonPairNext {jp : ZbxJsonParse} {p : Option Ptr} {len : ℕ} {r : List UInt8 × Ptr}
    (h : zbxJsonPairNext jp p len = .found r) : r.2.length < remaining jp p := by
  obtain ⟨q, hq, hr⟩ := zbxJsonPairNext_eq_found h
  have hnext := length_zbxJsonNext hq
  have hlen := length_decodestringLoop hr
  rw [List.length_cons] at hnext hlen
  omega

/-- `zbx_json_pair_by_name`, from a pointer on. -/
def pairByNameLoop (jp : ZbxJsonParse) (name : List UInt8) (p : Option Ptr) : Scan Ptr :=
  match _h : zbxJsonPairNext jp p maxStringLen with
  | .found r => if cstr r.1 = name then .found r.2 else pairByNameLoop jp name (some r.2)
  | .null => .null
  | .overrun => .overrun
termination_by remaining jp p
decreasing_by exact length_zbxJsonPairNext _h

/-- `zbx_json_pair_by_name` -/
def zbxJsonPairByName (jp : ZbxJsonParse) (name : List UInt8) : Scan Ptr := pairByNameLoop jp name none

/-- `zbx_json_value_by_name` -/
def zbxJsonValueByName (jp : ZbxJsonParse) (name : List UInt8) (len : ℕ) : Scan (List UInt8) :=
  (zbxJsonPairByName jp name).bind fun p => (zbxJsonDecodevalue p len).map fun r => r.1

/-- `zbx_json_brackets_by_name` -/
def zbxJsonBracketsByName (jp : ZbxJsonParse) (name : List UInt8) : Scan ZbxJsonParse :=
  (zbxJsonPairByName jp name).bind zbxJsonBracketsOpen

theorem pairByNameLoop_eq (jp : ZbxJsonParse) (name : List UInt8) (p : Option Ptr) :
    pairByNameLoop jp name p = (zbxJsonPairNext jp p maxStringLen).bind fun r =>
      if cstr r.1 = name then .found r.2 else pairByNameLoop jp name (some r.2) := by
  rw [pairByNameLoop]
  split
  all_goals
    rename_i h
    rw [h]
    rfl

end Zabbix
