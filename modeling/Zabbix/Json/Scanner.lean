import Zabbix.Json.Valid
import Zabbix.Lib.Nesting

/-!
# Zabbix.Json.Scanner

What the scanners of the parser pass over.

The loops that look for a bracket or a comma see of a text what `Nesting.walk`
sees, so that they pass over strings, whatever is in them, and over whole
objects and arrays.
-/

namespace Zabbix

open Ascii Nesting

/-! ## bytes -/

/-- What a byte means to the scanners. -/
def jsonKind (c : UInt8) : Kind :=
  if c = dquote then .quote
  else if c = backslash then .escape
  else if c = lbracket ∨ c = lbrace then .opening
  else if c = rbracket ∨ c = rbrace then .closing
  else if c = comma then .separator
  else .other

/-- A step of `__zbx_json_rbracket`, by what the byte means. -/
theorem rbracketLoop_cons (right c : UInt8) (level : ℤ) (state : Bool) (p : Ptr) :
    rbracketLoop right level state (c :: p) =
      match jsonKind c with
      | .quote => rbracketLoop right level (!state) p
      | .escape =>
          if state then
            match p with
            | [] => .overrun
            | _ :: p => rbracketLoop right level state p
          else rbracketLoop right level state p
      | .opening => rbracketLoop right (if state then level else level + 1) state p
      | .closing =>
          if state then rbracketLoop right level state p
          else if level - 1 = 0 then if right = c then .found (c :: p) else .null
          else rbracketLoop right (level - 1) state p
      | .separator | .other => rbracketLoop right level state p := by
  rw [rbracketLoop.eq_def, jsonKind]
  dsimp only
  split_ifs <;> rfl

/-- A step of `zbx_json_next`, by what the byte means. -/
theorem nextLoop_cons (stop level : ℕ) (state : Bool) (c : UInt8) (p : Ptr) :
    nextLoop stop level state (c :: p) =
      if (c :: p).length < stop then .null
      else match jsonKind c with
      | .quote => nextLoop stop level (!state) p
      | .escape =>
          if state then
            match p with
            | [] => .null
            | _ :: p => nextLoop stop level state p
          else nextLoop stop level state p
      | .opening => nextLoop stop (if state then level else level + 1) state p
      | .closing =>
          if state then nextLoop stop level state p
          else if level = 0 then .null
          else nextLoop stop (level - 1) state p
      | .separator =>
          if state = false ∧ level = 0 then .found p else nextLoop stop level state p
      | .other => nextLoop stop level state p := by
  rw [nextLoop.eq_def, jsonKind]
  dsimp only
  split_ifs <;> rfl

/-! ## passing over a text -/

/-- `__zbx_json_rbracket` passes over what has a walk. -/
theorem rbracketLoop_walk {state state' : Bool} {depth depth' : ℕ} {s : List UInt8}
    (h : walk jsonKind false state depth s = some (state', depth')) (right : UInt8) (t : Ptr) :
    rbracketLoop right (depth + 1) state (s ++ t) = rbracketLoop right (depth' + 1) state' t := by
  fun_induction walk jsonKind false state depth s
  case case9 state depth c s hc hs hd ih =>
    have hlevel : ((depth : ℤ) + 1 - 1) = ((depth - 1 : ℕ) : ℤ) + 1 := by omega
    have hne : ((depth - 1 : ℕ) : ℤ) + 1 ≠ 0 := by omega
    rw [List.cons_append, rbracketLoop_cons, hc, ← ih h]
    simp [hs, hlevel, hne]
  case case6 state depth c s hc ih =>
    rw [List.cons_append, rbracketLoop_cons, hc, ← ih h]
    cases state <;> rfl
  all_goals simp_all [rbracketLoop_cons]

/-- `zbx_json_next` passes over what has a walk, up to the `end`. -/
theorem nextLoop_walk {state state' : Bool} {depth depth' : ℕ} {s : List UInt8}
    (h : walk jsonKind true state depth s = some (state', depth')) {stop : ℕ} {t : Ptr}
    (hstop : stop ≤ t.length) :
    nextLoop stop depth state (s ++ t) = nextLoop stop depth' state' t := by
  have hle : ∀ (c : UInt8) (s : List UInt8), ¬(c :: (s ++ t)).length < stop := by
    intro c s
    rw [List.length_cons, List.length_append]
    omega
  fun_induction walk jsonKind true state depth s
  all_goals first
    | cases h; rfl
    | (rw [List.cons_append, nextLoop_cons, if_neg (hle _ _)]; simp_all)

/-! ## strings -/

theorem walk_jsonEscape (separators : Bool) (depth : ℕ) (c : UInt8) :
    walk jsonKind separators true depth (jsonEscape c) = some (true, depth) := by
  have hhex : ∀ c : UInt8, jsonKind (zbxNum2hex ((c >>> 4) &&& 0xf)) = .other ∧
      jsonKind (zbxNum2hex (c &&& 0xf)) = .other := forall_byte (by decide +kernel)
  have hplain : ∀ c : UInt8, escapeLetter c = none → jsonKind c ≠ .quote ∧ jsonKind c ≠ .escape :=
    forall_byte (by decide +kernel)
  rw [jsonEscape]
  cases he : escapeLetter c with
  | some letter => rw [walk_cons_of_escape rfl, walk_nil]
  | none =>
      dsimp only
      split
      · rw [walk_cons_of_escape rfl, walk_cons_of_other rfl, walk_cons_of_other rfl,
          walk_cons_of_other (hhex c).1, walk_cons_of_other (hhex c).2, walk_nil]
      · rw [walk_cons_of_inString (hplain c he).1 (hplain c he).2, walk_nil]

theorem walk_flatMap_jsonEscape (separators : Bool) (depth : ℕ) (s : List UInt8) :
    walk jsonKind separators true depth (s.flatMap jsonEscape) = some (true, depth) := by
  induction s with
  | nil => rfl
  | cons c s ih => rw [List.flatMap_cons, walk_append (walk_jsonEscape separators depth c), ih]

/-- **Scanners pass over a string, whatever is in it.** -/
theorem walk_string (separators : Bool) (depth : ℕ) (s : CString) :
    walk jsonKind separators false depth (jsonInsstring (some s) .string) = some (false, depth) := by
  have htext : jsonInsstring (some s) .string = dquote :: (s.val.flatMap jsonEscape ++ [dquote]) := rfl
  rw [htext, walk_cons_of_quote rfl, Bool.not_false,
    walk_append (walk_flatMap_jsonEscape separators depth s.val), walk_cons_of_quote rfl]
  rfl

theorem walk_of_other {separators : Bool} {depth : ℕ} {s : List UInt8}
    (h : ∀ c ∈ s, jsonKind c = .other) : walk jsonKind separators false depth s = some (false, depth) := by
  induction s with
  | nil => rfl
  | cons c s ih =>
      rw [walk_cons_of_other (h c (List.mem_cons_self ..)), ih fun d hd => h d (List.mem_cons_of_mem c hd)]

theorem walk_nameText (separators : Bool) (depth : ℕ) (name : Option CString) :
    walk jsonKind separators false depth (nameText name) = some (false, depth) := by
  cases name with
  | none => rfl
  | some n => rw [nameText, walk_append (walk_string separators depth n), walk_cons_of_other rfl, walk_nil]

theorem jsonInsstring_none (type : ZbxJsonType) : jsonInsstring none type = bytes "null" := by
  simp only [jsonInsstring, stringOrNull, Option.isSome_none, Bool.false_eq_true, false_and, if_false,
    List.nil_append, List.append_nil]
  decide

theorem walk_jsonInsstring (separators : Bool) (depth : ℕ) {string : Option CString} {type : ZbxJsonType}
    (h : LegalValue string type) :
    walk jsonKind separators false depth (jsonInsstring string type) = some (false, depth) := by
  have hdigit : ∀ c : UInt8, JsonText.isDigit c = true ∨ c = minus → jsonKind c = .other :=
    forall_byte (by decide +kernel)
  cases string with
  | none =>
      rw [jsonInsstring_none]
      exact walk_of_other (by decide)
  | some s =>
      rcases h with rfl | ⟨rfl, hint⟩
      · exact walk_string separators depth s
      · rw [jsonInsstring_int hint]
        exact walk_of_other fun c hc => hdigit c (mem_isInt hint hc)

/-! ## members -/

namespace Members

theorem walk_separator (depth : ℕ) (first : Bool) :
    walk jsonKind false false depth (separator first) = some (false, depth) := by
  cases first <;> rfl

/-- The text of an object or an array. -/
def nodeText (object : Bool) (members : Members) : List UInt8 :=
  openBracket object :: (members.compact true ++ [closeBracket object])

/-- What is passed over with brackets around it. -/
theorem walk_bracketed (separators object : Bool) (depth : ℕ) {s : List UInt8}
    (h : walk jsonKind false false 0 s = some (false, 0)) :
    walk jsonKind separators false depth (openBracket object :: (s ++ [closeBracket object])) =
      some (false, depth) := by
  have hopen : jsonKind (openBracket object) = .opening := by cases object <;> rfl
  have hclose : jsonKind (closeBracket object) = .closing := by cases object <;> rfl
  have hwithin := walk_within h separators depth
  simp only [Nat.zero_add] at hwithin
  rw [walk_cons_of_opening hopen, walk_append hwithin, walk_cons_of_closing hclose, walk_nil]

/-- **`__zbx_json_rbracket` passes over the members of an object or an array.** -/
theorem walk_compact {ms : Members} {object : Bool} (h : ms.Valid object) (first : Bool) :
    walk jsonKind false false 0 (ms.compact first) = some (false, 0) := by
  induction ms generalizing object first with
  | nil => rfl
  | value name string type rest ih =>
      rw [compact, List.append_assoc, List.append_assoc, walk_append (walk_separator 0 first),
        walk_append (walk_nameText false 0 name), walk_append (walk_jsonInsstring false 0 h.2.1)]
      exact ih h.2.2 false
  | node name object' members rest ihm ih =>
      have hnode := walk_bracketed false object' 0 (ihm h.2.1 true)
      have htext : (node name object' members rest).compact first =
          separator first ++ (nameText name ++ (nodeText object' members ++ rest.compact false)) := by
        simp [compact, nodeText]
      rw [htext, walk_append (walk_separator 0 first), walk_append (walk_nameText false 0 name),
        nodeText, walk_append hnode]
      exact ih h.2.2 false

/-- Scanners pass over an object or an array. -/
theorem walk_nodeText {ms : Members} {object : Bool} (h : ms.Valid object) (separators : Bool)
    (depth : ℕ) :
    walk jsonKind separators false depth (nodeText object ms) = some (false, depth) :=
  walk_bracketed separators object depth (walk_compact h true)

end Members

end Zabbix
