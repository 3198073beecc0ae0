import Zabbix.Atoi
import Zabbix.Str

/-!
# Zabbix.Macros.FunctionIds

The functions of a trigger expression (`substitute_functions` of
`libs/zbxserver/expression.c`): `{` *functionid* `}` is replaced by the last value of the
function.

The digits between the braces are copied to a buffer of `ID_LEN` bytes on the stack.  The test
that should end the copy in time subtracts the pointers the wrong way round and never holds.

* `substituteFunctions_iff` — when the copy stays within the buffer and the expression is
  replaced as it should be.
-/

namespace Zabbix

open Ascii Printf JsonText

/-- `ID_LEN` -/
def idLen : ℕ := 21

/-! ## The values -/

/-- A row of `functions`. -/
structure FunctionRow where
  functionid : ℕ
  lastvalue : Option CString

/-- The functions of the database, and how one is called in a message
(`zbx_host_key_function_string`). -/
structure FunctionTable where
  rows : List FunctionRow
  name : ℕ → List UInt8

/-- `DBget_function_result`: the value of a function, or the message.  The statement with an
empty number is refused by the database and yields no row. -/
def dbGetFunctionResult (db : FunctionTable) (functionid : List UInt8) : Except (List UInt8) (List UInt8) :=
  match if functionid = [] then none else db.rows.find? (·.functionid = ofDec functionid) with
  | none => .error (zbxVsnprintf maxStringLen (bytes "invalid functionid [" ++ functionid ++ bytes "]"))
  | some ⟨_, none⟩ =>
      .error (zbxVsnprintf maxStringLen (bytes "lastvalue IS NULL for function [" ++ functionid ++ bytes "][" ++
        db.name (zbxAtoui64 functionid) ++ bytes "]"))
  | some ⟨_, some value⟩ => .ok value.val

/-! ## `substitute_functions` -/

/-- What `substitute_functions` does: the elements of `functionid` that it stores to, in turn,
and the expression or the message that it leaves. -/
structure FunctionScan where
  writes : List ℕ
  result : Except (List UInt8) (List UInt8)

/-- Elements that are stored to before. -/
def FunctionScan.after (writes : List ℕ) (r : FunctionScan) : FunctionScan := ⟨writes ++ r.writes, r.result⟩

/-- Text that is copied to the expression before. -/
def FunctionScan.behind (text : List UInt8) (r : FunctionScan) : FunctionScan := ⟨r.writes, r.result.map (text ++ ·)⟩

/-- The loop of `substitute_functions`: outside of braces, or with the digits that it has
copied to `functionid` so far. -/
def functionsLoop (db : FunctionTable) (exp : List UInt8) (maxerrlen : ℕ) :
    (functionid : Option (List UInt8)) → List UInt8 → FunctionScan
  | none, [] => ⟨[], .ok []⟩
  | none, c :: e =>
      if c = lbrace then functionsLoop db exp maxerrlen (some []) e
      else (functionsLoop db exp maxerrlen none e).behind [c]
  | some _, [] => ⟨[], .error (zbxVsnprintf maxerrlen (bytes "Invalid expression [" ++ exp ++ bytes "]"))⟩
  | some id, c :: e =>
      -- `functionid - f` is the number of digits below 0
      if c ≠ rbrace ∧ -(id.length : ℤ) ≠ idLen ∧ JsonText.isDigit c then
        (functionsLoop db exp maxerrlen (some (id ++ [c])) e).after [id.length]
      else if c ≠ rbrace then
        ⟨[], .error (zbxVsnprintf maxerrlen (bytes "Invalid expression [" ++ exp ++ bytes "]"))⟩
      else
        match dbGetFunctionResult db id with
        | .error err => ⟨[id.length], .error (zbxVsnprintf maxerrlen (bytes "unable to get function value: " ++ err))⟩
        | .ok value => ((functionsLoop db exp maxerrlen none e).behind value).after [id.length]

attribute [grind =] functionsLoop

/-- `substitute_functions` -/
def substituteFunctions (db : FunctionTable) (exp : CString) (maxerrlen : ℕ) : FunctionScan :=
  functionsLoop db exp.val maxerrlen none exp.val

/-! ## The replacement -/

/-- The replacement of an expression: each function by its value, the rest as it is.  The
number of a function fits the buffer together with its NUL. -/
inductive Replaced (db : FunctionTable) : List UInt8 → List UInt8 → Prop
  | nil : Replaced db [] []
  | char {c : UInt8} {e out : List UInt8} (hc : c ≠ lbrace) (h : Replaced db e out) :
      Replaced db (c :: e) (c :: out)
  | function {id value e out : List UInt8} (hid : ∀ c ∈ id, JsonText.isDigit c) (hlen : id.length < idLen)
      (hvalue : dbGetFunctionResult db id = .ok value) (h : Replaced db e out) :
      Replaced db (lbrace :: (id ++ rbrace :: e)) (value ++ out)

/-- What is asked of `substitute_functions`: no store behind the end of the buffer, and the
replacement of the expression, or no expression where there is none. -/
def FunctionScan.Right (db : FunctionTable) (exp : List UInt8) (r : FunctionScan) : Prop :=
  (∀ i ∈ r.writes, i < idLen) ∧ ∀ out, r.result = .ok out ↔ Replaced db exp out

/-- The digits behind each brace that the replacement comes to fit the buffer, with the NUL
where a brace ends them. -/
def IdsFit (db : FunctionTable) (exp : List UInt8) : Prop :=
  ∀ front id rest, exp = front ++ lbrace :: (id ++ rest) → (∃ out, Replaced db front out) →
    (∀ c ∈ id, JsonText.isDigit c) → id.length ≤ idLen ∧ (rest.head? = some rbrace → id.length < idLen)

/-! ## The loop -/

section

variable {db : FunctionTable} {exp : List UInt8} {maxerrlen : ℕ}

/-- The test of the copy does not end it. -/
theorem neg_length_ne_idLen (id : List UInt8) : -(id.length : ℤ) ≠ idLen := by
  rw [idLen]
  omega

/-- The digits are copied one by one. -/
theorem functionsLoop_digits (id digits rest : List UInt8) (h : ∀ c ∈ digits, JsonText.isDigit c) :
    functionsLoop db exp maxerrlen (some id) (digits ++ rest) =
      (functionsLoop db exp maxerrlen (some (id ++ digits)) rest).after
        ((List.range digits.length).map (id.length + ·)) := by
  induction digits generalizing id with
  | nil => simp [FunctionScan.after]
  | cons c digits ih =>
      have hc : JsonText.isDigit c = true := h c List.mem_cons_self
      have hbrace : c ≠ rbrace := by
        rintro rfl
        revert hc
        decide
      rw [List.cons_append, functionsLoop, if_pos ⟨hbrace, neg_length_ne_idLen id, hc⟩,
        ih (id ++ [c]) fun d hd => h d (List.mem_cons_of_mem c hd)]
      simp [FunctionScan.after, List.range_succ_eq_map, Function.comp_def, Nat.add_assoc, Nat.add_comm 1]

/-- No text in front changes nothing. -/
theorem FunctionScan.behind_nil (r : FunctionScan) : r.behind [] = r := by
  obtain ⟨writes, result⟩ := r
  cases result <;> rfl

/-- Two texts in front are one. -/
theorem FunctionScan.behind_behind (s t : List UInt8) (r : FunctionScan) :
    (r.behind t).behind s = r.behind (s ++ t) := by
  obtain ⟨writes, result⟩ := r
  cases result <;> simp [FunctionScan.behind, Except.map]

/-- Two rounds of stores are one. -/
theorem FunctionScan.after_after (a b : List ℕ) (r : FunctionScan) : (r.after b).after a = r.after (a ++ b) := by
  simp [FunctionScan.after]

/-- The replacement of the front of an expression. -/
theorem functionsLoop_replaced {front out : List UInt8} (h : Replaced db front out) :
    ∃ writes, (∀ i ∈ writes, i < idLen) ∧ ∀ e, functionsLoop db exp maxerrlen none (front ++ e) =
      ((functionsLoop db exp maxerrlen none e).behind out).after writes := by
  induction h with
  | nil => exact ⟨[], by simp, fun e => (FunctionScan.behind_nil _).symm⟩
  | @char c e' out hc h ih =>
      obtain ⟨writes, hwrites, hloop⟩ := ih
      refine ⟨writes, hwrites, fun e => ?_⟩
      rw [List.cons_append, functionsLoop, if_neg hc, hloop]
      exact congrArg (FunctionScan.after writes) (FunctionScan.behind_behind [c] out _)
  | @function id value e' out hid hlen hvalue h ih =>
      obtain ⟨writes, hwrites, hloop⟩ := ih
      refine ⟨(List.range id.length).map (0 + ·) ++ id.length :: writes, ?_, fun e => ?_⟩
      · intro i hi
        simp only [List.mem_append, List.mem_map, List.mem_range, List.mem_cons] at hi
        rcases hi with ⟨j, hj, rfl⟩ | rfl | hi
        · omega
        · exact hlen
        · exact hwrites i hi
      · have hclose : functionsLoop db exp maxerrlen (some id) (rbrace :: (e' ++ e)) =
            ((functionsLoop db exp maxerrlen none (e' ++ e)).behind value).after [id.length] := by
          rw [functionsLoop, if_neg (by simp), if_neg (by simp), hvalue]
        rw [List.cons_append, List.append_assoc, List.cons_append, functionsLoop, if_pos rfl,
          functionsLoop_digits [] id _ hid, List.nil_append, hclose, hloop, FunctionScan.after_after]
        have hvalue : (((functionsLoop db exp maxerrlen none e).behind out).after writes).behind value =
            ((functionsLoop db exp maxerrlen none e).behind (value ++ out)).after writes :=
          congrArg (FunctionScan.after writes) (FunctionScan.behind_behind value out _)
        rw [hvalue, FunctionScan.after_after, List.append_assoc]
        rfl

/-- Digits end where something else follows. -/
theorem digits_unique {id id' : List UInt8} {c c' : UInt8} {s s' : List UInt8} (hid : ∀ c ∈ id, JsonText.isDigit c)
    (hid' : ∀ c ∈ id', JsonText.isDigit c) (hc : JsonText.isDigit c = false) (hc' : JsonText.isDigit c' = false)
    (h : id ++ c :: s = id' ++ c' :: s') : id = id' ∧ c = c' ∧ s = s' := by
  have htake : ∀ {id : List UInt8} {c : UInt8} (s : List UInt8), (∀ c ∈ id, JsonText.isDigit c) →
      JsonText.isDigit c = false → (id ++ c :: s).takeWhile (JsonText.isDigit ·) = id := by
    intro id c s hid hc
    rw [List.takeWhile_append_of_pos hid]
    simp [hc]
  have hsame : id = id' := by
    rw [← htake s hid hc, h, htake s' hid' hc']
  subst hsame
  exact ⟨rfl, List.cons.inj (List.append_cancel_left h)⟩

/-- The closing brace is not a digit. -/
theorem isDigit_rbrace : JsonText.isDigit rbrace = false := by decide

/-- A replacement of an expression that begins with a brace begins with a function. -/
theorem replaced_lbrace_iff {e out : List UInt8} : Replaced db (lbrace :: e) out ↔
    ∃ id rest value out', e = id ++ rbrace :: rest ∧ out = value ++ out' ∧ (∀ c ∈ id, JsonText.isDigit c) ∧
      id.length < idLen ∧ dbGetFunctionResult db id = .ok value ∧ Replaced db rest out' := by
  constructor
  · intro h
    cases h with
    | char hc => exact absurd rfl hc
    | function hid hlen hvalue h => exact ⟨_, _, _, _, rfl, rfl, hid, hlen, hvalue, h⟩
  · rintro ⟨id, rest, value, out', rfl, rfl, hid, hlen, hvalue, h⟩
    exact .function hid hlen hvalue h

/-- A replacement of an expression that begins with another character keeps it. -/
theorem replaced_char_iff {c : UInt8} {e out : List UInt8} (hc : c ≠ lbrace) :
    Replaced db (c :: e) out ↔ ∃ out', out = c :: out' ∧ Replaced db e out' := by
  constructor
  · intro h
    cases h with
    | char _ h => exact ⟨_, rfl, h⟩
    | function => exact absurd rfl hc
  · rintro ⟨out', rfl, h⟩
    exact .char hc h

/-- Replacements of two expressions make up one of both. -/
theorem Replaced.append {e out e' out' : List UInt8} (h : Replaced db e out) (h' : Replaced db e' out') :
    Replaced db (e ++ e') (out ++ out') := by
  induction h with
  | nil => exact h'
  | char hc _ ih => exact .char hc ih
  | function hid hlen hvalue _ ih =>
      rw [List.cons_append, List.append_assoc, List.append_assoc]
      exact .function hid hlen hvalue ih

/-- Behind a front that is replaced the digits fit as well. -/
theorem IdsFit.behind {front out e : List UInt8} (hfront : Replaced db front out) (h : IdsFit db (front ++ e)) :
    IdsFit db e := by
  rintro front' id rest rfl ⟨out', hfront'⟩ hid
  exact h (front ++ front') id rest (List.append_assoc ..).symm ⟨_, hfront.append hfront'⟩ hid

/-- The expression with a text in front. -/
theorem FunctionScan.behind_eq_ok {text out : List UInt8} {r : FunctionScan} :
    (r.behind text).result = .ok out ↔ ∃ out', out = text ++ out' ∧ r.result = .ok out' := by
  obtain ⟨writes, result⟩ := r
  cases result with
  | error err => simp [FunctionScan.behind, Except.map]
  | ok e => simp [FunctionScan.behind, Except.map, eq_comm]

/-- A character in front of a right replacement. -/
theorem FunctionScan.Right.behind {c : UInt8} {e : List UInt8} {r : FunctionScan} (hc : c ≠ lbrace)
    (h : r.Right db e) : (r.behind [c]).Right db (c :: e) := by
  refine ⟨h.1, fun out => ?_⟩
  rw [replaced_char_iff hc, FunctionScan.behind_eq_ok]
  exact exists_congr fun out' => and_congr_right fun _ => h.2 out'

/-- The digits behind a brace and the brace behind them. -/
theorem functionsLoop_function {id e value : List UInt8} (hid : ∀ c ∈ id, JsonText.isDigit c)
    (hvalue : dbGetFunctionResult db id = .ok value) :
    functionsLoop db exp maxerrlen none (lbrace :: (id ++ rbrace :: e)) =
      ((functionsLoop db exp maxerrlen none e).behind value).after (List.range (id.length + 1)) := by
  rw [functionsLoop, if_pos rfl, functionsLoop_digits [] id _ hid, List.nil_append, functionsLoop,
    if_neg (by simp), if_neg (by simp), hvalue]
  simp [FunctionScan.after, List.range_succ]

/-- Digits behind a brace without a function of that number. -/
theorem functionsLoop_error {id e err : List UInt8} (hid : ∀ c ∈ id, JsonText.isDigit c)
    (hvalue : dbGetFunctionResult db id = .error err) :
    functionsLoop db exp maxerrlen none (lbrace :: (id ++ rbrace :: e)) =
      ⟨List.range (id.length + 1), .error (zbxVsnprintf maxerrlen (bytes "unable to get function value: " ++ err))⟩ := by
  rw [functionsLoop, if_pos rfl, functionsLoop_digits [] id _ hid, List.nil_append, functionsLoop,
    if_neg (by simp), if_neg (by simp), hvalue]
  simp [FunctionScan.after, List.range_succ]

/-- Digits behind a brace without a brace behind them. -/
theorem functionsLoop_invalid {id rest : List UInt8} (hid : ∀ c ∈ id, JsonText.isDigit c)
    (hdigit : ∀ c, rest.head? = some c → JsonText.isDigit c = false) (hrest : rest.head? ≠ some rbrace) :
    functionsLoop db exp maxerrlen none (lbrace :: (id ++ rest)) =
      ⟨List.range id.length, .error (zbxVsnprintf maxerrlen (bytes "Invalid expression [" ++ exp ++ bytes "]"))⟩ := by
  rw [functionsLoop, if_pos rfl, functionsLoop_digits [] id _ hid, List.nil_append]
  cases rest with
  | nil => simp [functionsLoop, FunctionScan.after]
  | cons c rest =>
      have hc : c ≠ rbrace := fun h => hrest (congrArg some h)
      rw [functionsLoop, if_neg (by simp [hdigit c rfl]), if_pos hc]
      simp [FunctionScan.after]

/-- The replacement of a function in front of an expression. -/
theorem replaced_function_iff {id e out : List UInt8} (hid : ∀ c ∈ id, JsonText.isDigit c)
    (hlen : id.length < idLen) :
    Replaced db (lbrace :: (id ++ rbrace :: e)) out ↔
      ∃ value out', out = value ++ out' ∧ dbGetFunctionResult db id = .ok value ∧ Replaced db e out' := by
  rw [replaced_lbrace_iff]
  constructor
  · rintro ⟨id', rest, value, out', he, rfl, hid', -, hvalue, h⟩
    obtain ⟨rfl, -, rfl⟩ := digits_unique hid hid' isDigit_rbrace isDigit_rbrace he
    exact ⟨value, out', rfl, hvalue, h⟩
  · rintro ⟨value, out', rfl, hvalue, h⟩
    exact ⟨id, e, value, out', rfl, rfl, hid, hlen, hvalue, h⟩

/-- Without a brace behind the digits there is no replacement. -/
theorem not_replaced_invalid {id rest out : List UInt8} (hid : ∀ c ∈ id, JsonText.isDigit c)
    (hdigit : ∀ c, rest.head? = some c → JsonText.isDigit c = false) (hrest : rest.head? ≠ some rbrace) :
    ¬Replaced db (lbrace :: (id ++ rest)) out := by
  rw [replaced_lbrace_iff]
  rintro ⟨id', rest', value, out', he, -, hid', -⟩
  cases rest with
  | nil =>
      have hmem : rbrace ∈ id := by
        rw [List.append_nil] at he
        rw [he]
        simp
      exact absurd (hid rbrace hmem) (by decide)
  | cons c rest =>
      obtain ⟨-, rfl, -⟩ := digits_unique hid hid' (hdigit c rfl) isDigit_rbrace he
      exact hrest rfl

/-- Stores within the buffer. -/
theorem range_lt {n : ℕ} (h : n ≤ idLen) : ∀ i ∈ List.range n, i < idLen := by
  intro i hi
  have := List.mem_range.mp hi
  omega

/-- **The way back**: where the digits fit, the loop does what is asked of it. -/
theorem functionsLoop_right {e : List UInt8} (h : IdsFit db e) :
    (functionsLoop db exp maxerrlen none e).Right db e := by
  induction hn : e.length using Nat.strong_induction_on generalizing e with
  | _ n ih =>
  subst hn
  match e with
  | [] =>
      refine ⟨by simp [functionsLoop], fun out => ?_⟩
      simp only [functionsLoop, Except.ok.injEq]
      exact ⟨fun h => h ▸ .nil, fun h => by cases h; rfl⟩
  | c :: e =>
  by_cases hc : c = lbrace
  · subst hc
    -- the digits behind the brace, and what ends them
    have hid : ∀ c ∈ e.takeWhile (JsonText.isDigit ·), JsonText.isDigit c := fun c hc => List.mem_takeWhile_imp hc
    have hsplit := (List.takeWhile_append_dropWhile (p := (JsonText.isDigit ·)) (l := e)).symm
    have hdigit : ∀ c, (e.dropWhile (JsonText.isDigit ·)).head? = some c → JsonText.isDigit c = false := by
      intro c hc
      have := List.head?_dropWhile_not (JsonText.isDigit ·) e
      rw [hc] at this
      simpa using this
    generalize e.takeWhile (JsonText.isDigit ·) = id at hid hsplit
    generalize e.dropWhile (JsonText.isDigit ·) = rest at hdigit hsplit
    subst hsplit
    obtain ⟨hle, hlt⟩ := h [] id rest rfl ⟨[], .nil⟩ hid
    by_cases hrest : rest.head? = some rbrace
    · obtain ⟨e', rfl⟩ : ∃ e', rest = rbrace :: e' := by
        cases rest with
        | nil => cases hrest
        | cons c e' => exact ⟨e', by rw [Option.some.inj hrest]⟩
      have hlen := hlt hrest
      cases hvalue : dbGetFunctionResult db id with
      | error err =>
          rw [functionsLoop_error hid hvalue]
          refine ⟨range_lt hlen, fun out => ⟨(fun h => nomatch h), fun h => ?_⟩⟩
          obtain ⟨value, -, -, hvalue', -⟩ := (replaced_function_iff hid hlen).mp h
          rw [hvalue] at hvalue'
          cases hvalue'
      | ok value =>
          have hfront : Replaced db (lbrace :: (id ++ [rbrace])) (value ++ []) := .function hid hlen hvalue .nil
          have hfit : IdsFit db e' := IdsFit.behind hfront (by simpa using h)
          obtain ⟨hwrites, hresult⟩ := ih e'.length (by simp; omega) hfit rfl
          rw [functionsLoop_function hid hvalue]
          constructor
          · intro i hi
            rcases List.mem_append.mp hi with hi | hi
            · exact range_lt hlen i hi
            · exact hwrites i hi
          · intro out
            rw [replaced_function_iff hid hlen]
            refine FunctionScan.behind_eq_ok.trans ⟨?_, ?_⟩
            · rintro ⟨out', rfl, hout⟩
              exact ⟨value, out', rfl, hvalue, (hresult out').mp hout⟩
            · rintro ⟨value', out', rfl, hvalue', hout⟩
              obtain rfl := Except.ok.inj (hvalue.symm.trans hvalue')
              exact ⟨out', rfl, (hresult out').mpr hout⟩
    · rw [functionsLoop_invalid hid hdigit hrest]
      refine ⟨range_lt hle, fun out => ⟨(fun h => nomatch h), fun h => ?_⟩⟩
      exact absurd h (not_replaced_invalid hid hdigit hrest)
  · rw [functionsLoop, if_neg hc]
    exact (ih e.length (by simp) (@IdsFit.behind _ [c] [c] _ (.char hc .nil) h) rfl).behind hc

/-- **The way there**: what the loop does right, it does with digits that fit. -/
theorem idsFit_of_right {e : List UInt8} (h : (functionsLoop db exp maxerrlen none e).Right db e) : IdsFit db e := by
  rintro front id rest rfl ⟨out, hfront⟩ hid
  obtain ⟨writes, -, hloop⟩ := @functionsLoop_replaced db exp maxerrlen _ _ hfront
  have hbrace : functionsLoop db exp maxerrlen none (lbrace :: (id ++ rest)) =
      (functionsLoop db exp maxerrlen (some id) rest).after (List.range id.length) := by
    rw [functionsLoop, if_pos rfl, functionsLoop_digits [] id _ hid]
    simp
  have hstores : ∀ i ∈ List.range id.length ++ (functionsLoop db exp maxerrlen (some id) rest).writes, i < idLen := by
    intro i hi
    apply h.1
    rw [hloop, hbrace]
    exact List.mem_append_right _ hi
  constructor
  · by_contra hlong
    exact absurd (hstores idLen (by simp; omega)) (lt_irrefl idLen)
  · intro hrest
    obtain ⟨e', rfl⟩ : ∃ e', rest = rbrace :: e' := by
      cases rest with
      | nil => cases hrest
      | cons c e' => exact ⟨e', by rw [Option.some.inj hrest]⟩
    apply hstores
    apply List.mem_append_right
    rw [functionsLoop, if_neg (by simp), if_neg (by simp)]
    cases dbGetFunctionResult db id <;> simp [FunctionScan.after]

end

/-- **Function numbers**: `substitute_functions` stays within `functionid`, and replaces the
expression or fails as it should, if and only if the digits that it comes to fit the buffer. -/
theorem substituteFunctions_iff (db : FunctionTable) (exp : CString) (maxerrlen : ℕ) :
    (substituteFunctions db exp maxerrlen).Right db exp.val ↔ IdsFit db exp.val :=
  ⟨idsFit_of_right, functionsLoop_right⟩

/-- Twenty-one digits fill the buffer, and the NUL is stored behind it. -/
theorem substituteFunctions_past_end :
    ¬∀ (db : FunctionTable) (exp : CString) (maxerrlen : ℕ),
      (substituteFunctions db exp maxerrlen).Right db exp.val := by
  intro h
  have hstore := (h ⟨[], fun _ => []⟩ ⟨bytes "{000000000000000000015}>10", by decide⟩ 256).1 21
  revert hstore
  decide

end Zabbix
