import Zabbix.Expression.Brackets
import Zabbix.Macros.FunctionIds
import Zabbix.Triggers.Event

/-!
# Zabbix.Triggers.EvaluateExpression

The value of a trigger (`evaluate_expression` of `libs/zbxserver/expression.c`).

The expression is rewritten three times as a text: `{TRIGGER.VALUE}` is replaced
by the value of the trigger, spaces are deleted, and each function is replaced by
its last value.  Then `evaluate` reads what has come out.

What has come out is the text of the tree whose leaves have been replaced, so the
texts do not matter (`evaluateExpression_text`).
-/

namespace Zabbix

open Ascii Printf

/-! ## the function -/

/-- `MVAR_TRIGGER_VALUE` -/
def mvarTriggerValue : List UInt8 := bytes "\x7bTRIGGER.VALUE\x7d"

/-- The loop of `substitute_simple_macros` for `MACRO_TYPE_TRIGGER_EXPRESSION`;
`skip` bytes are left of the macro that has been replaced. -/
def expressionMacrosLoop (value : List UInt8) : (skip : ℕ) → List UInt8 → List UInt8
  | _, [] => []
  | skip + 1, _ :: s => expressionMacrosLoop value skip s
  | 0, c :: s =>
      if mvarTriggerValue <+: c :: s then value ++ expressionMacrosLoop value (mvarTriggerValue.length - 1) s
      else c :: expressionMacrosLoop value 0 s

theorem nul_not_mem_d32 (v : Int32) : 0 ∉ d32 v := by
  rw [d32]
  split
  · intro h
    rcases List.mem_cons.mp h with h | h
    · exact absurd h (by decide)
    · exact absurd (digit_of_mem_dec h).1 (by decide)
  · exact fun h => absurd (digit_of_mem_dec h).1 (by decide)

theorem mem_expressionMacrosLoop {value : List UInt8} {skip : ℕ} {s : List UInt8} {c : UInt8}
    (h : c ∈ expressionMacrosLoop value skip s) : c ∈ value ∨ c ∈ s := by
  fun_induction expressionMacrosLoop value skip s with
  | case1 => cases h
  | case2 skip d s ih => exact (ih h).imp_right (List.mem_cons_of_mem d)
  | case3 d s _ ih =>
      rcases List.mem_append.mp h with h | h
      · exact .inl h
      · exact (ih h).imp_right (List.mem_cons_of_mem d)
  | case4 d s _ ih =>
      rcases List.mem_cons.mp h with rfl | h
      · exact .inr List.mem_cons_self
      · exact (ih h).imp_right (List.mem_cons_of_mem d)

/-- The expression, with the value of the trigger and without spaces. -/
def triggerExpression (value : ℤ) (exp : CString) : CString :=
  ⟨deleteSpaces (expressionMacrosLoop (d32 (Int32.ofInt value)) 0 exp.val), fun h => by
    rcases mem_expressionMacrosLoop (List.mem_of_mem_filter h) with h | h
    · exact nul_not_mem_d32 _ h
    · exact exp.property h⟩

/-- `evaluate_expression`, of a trigger that has the value `value`. -/
def evaluateExpression (db : FunctionTable) (maxerrlen : ℕ) (value : ℤ) (exp : CString) : EvalOutcome :=
  let scan := substituteFunctions db (triggerExpression value exp) maxerrlen
  if ∃ i ∈ scan.writes, idLen ≤ i then .outOfBounds
  else
    match scan.result with
    | .error error => .fail error
    | .ok exp => evaluate maxerrlen exp

/-! ## expressions as trees -/

mutual

/-- A number, the value of a function, that of the trigger, or an expression in
brackets. -/
inductive MacroFactor
  | number (n : Number)
  | function (functionid : UInt64)
  | triggerValue
  | bracket (e : MacroExpression)

/-- Factors behind their signs, with operators between them. -/
inductive MacroExpression
  | single (signs : List Bool) (x : MacroFactor)
  | binary (signs : List Bool) (x : MacroFactor) (op : Operator) (rest : MacroExpression)

end

/-- A byte of the expression, or what stands in braces. -/
inductive ExpressionPiece
  | byte (c : UInt8)
  | function (functionid : UInt64)
  | triggerValue
deriving DecidableEq

namespace ExpressionPiece

def text : ExpressionPiece → List UInt8
  | byte c => [c]
  | function functionid => lbrace :: (dec functionid.toNat ++ [rbrace])
  | triggerValue => mvarTriggerValue

/-- The text, with the value of the trigger. -/
def replaced (value : List UInt8) : ExpressionPiece → List UInt8
  | triggerValue => value
  | x => x.text

end ExpressionPiece

mutual

def MacroFactor.pieces : MacroFactor → List ExpressionPiece
  | .number n => n.text.map .byte
  | .function functionid => [.function functionid]
  | .triggerValue => [.triggerValue]
  | .bracket e => .byte lparen :: (e.pieces ++ [.byte rparen])

def MacroExpression.pieces : MacroExpression → List ExpressionPiece
  | .single signs x => (signs.map signChar).map .byte ++ x.pieces
  | .binary signs x op rest => (signs.map signChar).map .byte ++ (x.pieces ++ .byte op.char :: rest.pieces)

end

/-- A value, with the signs in front of it. -/
abbrev SignedNumber := List Bool × Number

def signedNumberText (x : SignedNumber) : List UInt8 := x.1.map signChar ++ x.2.text

section

variable (values : UInt64 → Option SignedNumber) (value : Number)

mutual

/-- The factor with its values; its signs come behind those that are there. -/
def MacroFactor.fill : MacroFactor → Option (List Bool × Factor)
  | .number n => some ([], .number n)
  | .function functionid => (values functionid).map fun v => (v.1, .number v.2)
  | .triggerValue => some ([], .number value)
  | .bracket e => e.fill.map fun e => ([], .bracket e)

/-- The expression with its values, if it has them all. -/
def MacroExpression.fill : MacroExpression → Option NestedExpression
  | .single signs x => x.fill.map fun p => .single (signs ++ p.1) p.2
  | .binary signs x op rest =>
      x.fill.bind fun p => rest.fill.map fun rest => .binary (signs ++ p.1) p.2 op rest

end

/-- What comes out for a piece. -/
def ExpressionPiece.filled : ExpressionPiece → Option (List UInt8)
  | .byte c => some [c]
  | .function functionid => (values functionid).map signedNumberText
  | .triggerValue => some value.text

/-- What comes out for pieces. -/
def filledText : List ExpressionPiece → Option (List UInt8)
  | [] => some []
  | x :: ps => (x.filled values value).bind fun s => (filledText ps).map (s ++ ·)

end

/-- The functions have these last values, or none. -/
def LastValues (db : FunctionTable) (values : UInt64 → Option SignedNumber) : Prop :=
  ∀ functionid, match values functionid with
    | some v => dbGetFunctionResult db (dec functionid.toNat) = .ok (signedNumberText v)
    | none => ∃ error, dbGetFunctionResult db (dec functionid.toNat) = .error error

/-! ## the text of a tree -/

section

variable {values : UInt64 → Option SignedNumber} {value : Number}

theorem filledText_append (ps qs : List ExpressionPiece) : filledText values value (ps ++ qs) =
    (filledText values value ps).bind fun s => (filledText values value qs).map (s ++ ·) := by
  induction ps with
  | nil => cases h : filledText values value qs <;> simp [filledText, h]
  | cons x ps ih =>
      rw [List.cons_append, filledText, ih, filledText]
      cases x.filled values value with
      | none => rfl
      | some s => cases filledText values value ps <;> simp [Option.map_map, Function.comp_def]

theorem filledText_bytes (s : List UInt8) : filledText values value (s.map .byte) = some s := by
  induction s with
  | nil => rfl
  | cons c s ih =>
      rw [List.map_cons, filledText, ih]
      rfl

mutual

theorem MacroFactor.filledText_pieces (x : MacroFactor) :
    filledText values value x.pieces = (x.fill values value).map fun p => p.1.map signChar ++ p.2.text := by
  cases x with
  | number n =>
      rw [MacroFactor.pieces, filledText_bytes]
      rfl
  | function functionid =>
      rw [MacroFactor.pieces, filledText, filledText, MacroFactor.fill, ExpressionPiece.filled]
      cases values functionid <;> simp [signedNumberText, Factor.text]
  | triggerValue =>
      rw [MacroFactor.pieces, filledText, filledText, MacroFactor.fill, ExpressionPiece.filled]
      simp [Factor.text]
  | bracket e =>
      have he := MacroExpression.filledText_pieces e
      rw [MacroFactor.pieces, filledText, filledText_append, he, MacroFactor.fill]
      cases e.fill values value <;> simp [filledText, ExpressionPiece.filled, Factor.text]

theorem MacroExpression.filledText_pieces (e : MacroExpression) :
    filledText values value e.pieces = (e.fill values value).map NestedExpression.text := by
  cases e with
  | single signs x =>
      have hx := MacroFactor.filledText_pieces x
      rw [MacroExpression.pieces, filledText_append, filledText_bytes, hx, MacroExpression.fill]
      cases x.fill values value <;> simp [NestedExpression.text]
  | binary signs x op rest =>
      have hx := MacroFactor.filledText_pieces x
      have hrest := MacroExpression.filledText_pieces rest
      rw [MacroExpression.pieces, filledText_append, filledText_bytes, filledText_append, hx, filledText, hrest,
        MacroExpression.fill]
      cases x.fill values value with
      | none => rfl
      | some p => cases rest.fill values value <;> simp [NestedExpression.text, ExpressionPiece.filled]

end

mutual

/-- No byte of an expression is a brace or a space. -/
theorem MacroFactor.ne_of_mem_pieces {x : MacroFactor} {c : UInt8} (h : .byte c ∈ x.pieces) : c ≠ lbrace ∧ c ≠ space := by
  cases x with
  | number n =>
      rw [MacroFactor.pieces] at h
      obtain ⟨d, hd, heq⟩ := List.mem_map.mp h
      obtain rfl := ExpressionPiece.byte.inj heq
      have hchar := n.text_chars hd
      constructor
      all_goals
        rintro rfl
        exact absurd hchar (by decide)
  | function functionid => simp [MacroFactor.pieces] at h
  | triggerValue => simp [MacroFactor.pieces] at h
  | bracket e =>
      have he := @MacroExpression.ne_of_mem_pieces e c
      simp only [MacroFactor.pieces, List.mem_cons, List.mem_append, List.not_mem_nil, or_false,
        ExpressionPiece.byte.injEq] at h
      rcases h with rfl | h | rfl
      · decide
      · exact he h
      · decide

theorem MacroExpression.ne_of_mem_pieces {e : MacroExpression} {c : UInt8} (h : .byte c ∈ e.pieces) :
    c ≠ lbrace ∧ c ≠ space := by
  have hflat : IsFlatChar c → c ≠ lbrace ∧ c ≠ space := by
    intro hc
    constructor
    all_goals
      rintro rfl
      exact absurd hc (by decide)
  have hsigns : ∀ signs : List Bool, .byte c ∈ (signs.map signChar).map ExpressionPiece.byte → c ≠ lbrace ∧ c ≠ space := by
    intro signs hmem
    obtain ⟨d, hd, heq⟩ := List.mem_map.mp hmem
    obtain rfl := ExpressionPiece.byte.inj heq
    exact hflat (isFlatChar_signs hd)
  cases e with
  | single signs x =>
      rw [MacroExpression.pieces, List.mem_append] at h
      exact h.elim (hsigns signs) MacroFactor.ne_of_mem_pieces
  | binary signs x op rest =>
      rw [MacroExpression.pieces, List.mem_append, List.mem_append, List.mem_cons, ExpressionPiece.byte.injEq] at h
      rcases h with h | h | rfl | h
      · exact hsigns signs h
      · exact MacroFactor.ne_of_mem_pieces h
      · exact hflat (isFlatChar_operator op)
      · exact MacroExpression.ne_of_mem_pieces h

end

end

/-! ## the value of the trigger, and spaces -/

section

variable {v : List UInt8}

theorem expressionMacrosLoop_plain {s : List UInt8} (h : lbrace ∉ s) (rest : List UInt8) :
    expressionMacrosLoop v 0 (s ++ rest) = s ++ expressionMacrosLoop v 0 rest := by
  induction s with
  | nil => rfl
  | cons c s ih =>
      rw [List.mem_cons, not_or] at h
      have hnot : ¬mvarTriggerValue <+: c :: (s ++ rest) := fun hprefix => h.1 (List.cons_prefix_cons.mp hprefix).1
      rw [List.cons_append, expressionMacrosLoop, if_neg hnot, ih h.2]
      rfl

theorem expressionMacrosLoop_skip (s rest : List UInt8) :
    expressionMacrosLoop v s.length (s ++ rest) = expressionMacrosLoop v 0 rest := by
  induction s with
  | nil => rfl
  | cons c s ih => exact ih

theorem expressionMacrosLoop_triggerValue (rest : List UInt8) :
    expressionMacrosLoop v 0 (mvarTriggerValue ++ rest) = v ++ expressionMacrosLoop v 0 rest := by
  have hcons : mvarTriggerValue ++ rest = lbrace :: (mvarTriggerValue.tail ++ rest) := rfl
  have hprefix : mvarTriggerValue <+: lbrace :: (mvarTriggerValue.tail ++ rest) := ⟨rest, hcons⟩
  rw [hcons, expressionMacrosLoop, if_pos hprefix]
  exact congrArg (v ++ ·) (expressionMacrosLoop_skip mvarTriggerValue.tail rest)

theorem lbrace_not_mem_dec (n : ℕ) : lbrace ∉ dec n := fun h => absurd (digit_of_mem_dec h).2 (by decide)

/-- A function is not taken for the macro. -/
theorem expressionMacrosLoop_function (functionid : UInt64) (rest : List UInt8) :
    expressionMacrosLoop v 0 ((ExpressionPiece.function functionid).text ++ rest) =
      (ExpressionPiece.function functionid).text ++ expressionMacrosLoop v 0 rest := by
  have hnot : ¬mvarTriggerValue <+: lbrace :: (dec functionid.toNat ++ [rbrace] ++ rest) := by
    intro hprefix
    obtain ⟨d, ds, hd⟩ := List.exists_cons_of_ne_nil (dec_ne_nil functionid.toNat)
    have htail := (List.cons_prefix_cons.mp hprefix).2
    rw [hd] at htail
    have hdigit := digit_of_mem_dec (hd ▸ List.mem_cons_self : d ∈ dec functionid.toNat)
    rw [← (List.cons_prefix_cons.mp htail).1] at hdigit
    exact absurd hdigit.2 (by decide)
  have hplain : lbrace ∉ dec functionid.toNat ++ [rbrace] := by
    rw [List.mem_append, not_or]
    exact ⟨lbrace_not_mem_dec functionid.toNat, by decide⟩
  rw [ExpressionPiece.text, List.cons_append, expressionMacrosLoop, if_neg hnot, expressionMacrosLoop_plain hplain]
  rfl

theorem expressionMacrosLoop_pieces {ps : List ExpressionPiece} (h : ∀ c, .byte c ∈ ps → c ≠ lbrace) :
    expressionMacrosLoop v 0 (ps.flatMap ExpressionPiece.text) = ps.flatMap (ExpressionPiece.replaced v) := by
  induction ps with
  | nil => rfl
  | cons x ps ih =>
      have hps := ih fun c hc => h c (List.mem_cons_of_mem x hc)
      rw [List.flatMap_cons, List.flatMap_cons, ← hps]
      cases x with
      | byte c =>
          have hc : lbrace ∉ [c] := fun hmem => h c List.mem_cons_self (List.mem_singleton.mp hmem).symm
          exact expressionMacrosLoop_plain hc _
      | function functionid => exact expressionMacrosLoop_function functionid _
      | triggerValue => exact expressionMacrosLoop_triggerValue _

theorem deleteSpaces_pieces (hv : space ∉ v) (ps : List ExpressionPiece) :
    deleteSpaces (ps.flatMap (ExpressionPiece.replaced v)) =
      (ps.filter (· ≠ .byte space)).flatMap (ExpressionPiece.replaced v) := by
  have hself : ∀ s : List UInt8, space ∉ s → deleteSpaces s = s := fun s hs =>
    List.filter_eq_self.mpr fun c hc => decide_eq_true fun heq => hs (heq ▸ hc)
  induction ps with
  | nil => rfl
  | cons x ps ih =>
      rw [List.flatMap_cons, deleteSpaces, List.filter_append, ← deleteSpaces, ← deleteSpaces, ih]
      by_cases hx : x = .byte space
      · rw [List.filter_cons_of_neg (by simpa using hx), hx]
        rfl
      · rw [List.filter_cons_of_pos (by simpa using hx), List.flatMap_cons]
        congr 1
        apply hself
        cases x with
        | byte c =>
            intro hmem
            exact hx (congrArg ExpressionPiece.byte (List.mem_singleton.mp hmem).symm)
        | function functionid =>
            intro hmem
            rcases List.mem_cons.mp hmem with hmem | hmem
            · exact absurd hmem (by decide)
            · rcases List.mem_append.mp hmem with hmem | hmem
              · exact absurd (digit_of_mem_dec hmem).1 (by decide)
              · exact absurd hmem (by decide)
        | triggerValue => exact hv

end

/-! ## the functions -/

/-- What a scan comes to: no store behind the buffer, and a text or a message. -/
def FunctionScan.Yields (r : FunctionScan) (out : Option (List UInt8)) : Prop :=
  (∀ i ∈ r.writes, i < idLen) ∧ match out with
    | some s => r.result = .ok s
    | none => ∃ error, r.result = .error error

namespace FunctionScan.Yields

variable {r : FunctionScan} {out : Option (List UInt8)}

theorem behind (h : r.Yields out) (s : List UInt8) : (r.behind s).Yields (out.map (s ++ ·)) := by
  obtain ⟨writes, result⟩ := r
  refine ⟨h.1, ?_⟩
  cases out with
  | none =>
      obtain ⟨error, rfl⟩ := h.2
      exact ⟨error, rfl⟩
  | some t =>
      obtain rfl := h.2
      rfl

theorem after (h : r.Yields out) {writes : List ℕ} (hwrites : ∀ i ∈ writes, i < idLen) : (r.after writes).Yields out :=
  ⟨List.forall_mem_append.mpr ⟨hwrites, h.1⟩, h.2⟩

end FunctionScan.Yields

section

variable {db : FunctionTable} {exp : List UInt8} {maxerrlen : ℕ}

theorem functionsLoop_plain {s : List UInt8} (h : lbrace ∉ s) (rest : List UInt8) :
    functionsLoop db exp maxerrlen none (s ++ rest) = (functionsLoop db exp maxerrlen none rest).behind s := by
  induction s with
  | nil => exact (FunctionScan.behind_nil _).symm
  | cons c s ih =>
      rw [List.mem_cons, not_or] at h
      rw [List.cons_append, functionsLoop, if_neg (Ne.symm h.1), ih h.2]
      exact FunctionScan.behind_behind [c] s _

/-- **The functions of an expression** are replaced by their values. -/
theorem functionsLoop_pieces {values : UInt64 → Option SignedNumber} (hvalues : LastValues db values) {value : Number}
    {ps : List ExpressionPiece} (hbytes : ∀ c, .byte c ∈ ps → c ≠ lbrace) :
    (functionsLoop db exp maxerrlen none (ps.flatMap (ExpressionPiece.replaced value.text))).Yields
      (filledText values value ps) := by
  induction ps with
  | nil => exact ⟨fun _ hmem => absurd hmem List.not_mem_nil, rfl⟩
  | cons x ps ih =>
      have hps := ih fun c hc => hbytes c (List.mem_cons_of_mem x hc)
      rw [List.flatMap_cons]
      cases x with
      | byte c =>
          have hc : lbrace ∉ [c] := fun hmem => hbytes c List.mem_cons_self (List.mem_singleton.mp hmem).symm
          change (functionsLoop db exp maxerrlen none ([c] ++ _)).Yields _
          rw [functionsLoop_plain hc]
          exact hps.behind [c]
      | triggerValue =>
          have hvalue : lbrace ∉ value.text := fun hmem => absurd (value.text_chars hmem) (by decide)
          change (functionsLoop db exp maxerrlen none (value.text ++ _)).Yields _
          rw [functionsLoop_plain hvalue]
          exact hps.behind value.text
      | function functionid =>
          have hlen : (dec functionid.toNat).length < idLen :=
            (length_dec_le (by decide) (functionid.toNat_lt.trans (by decide : 2 ^ 64 < 10 ^ 20))).trans_lt (by decide)
          have hdigits : ∀ i ∈ (List.range (dec functionid.toNat).length).map (0 + ·), i < idLen := by
            intro i hi
            obtain ⟨j, hj, rfl⟩ := List.mem_map.mp hi
            rw [List.mem_range] at hj
            omega
          have hend : ∀ i ∈ [(dec functionid.toNat).length], i < idLen := List.forall_mem_singleton.mpr hlen
          have htext : ∀ rest, ExpressionPiece.replaced value.text (.function functionid) ++ rest =
              lbrace :: (dec functionid.toNat ++ rbrace :: rest) := by
            intro rest
            simp [ExpressionPiece.replaced, ExpressionPiece.text]
          rw [htext, functionsLoop, if_pos rfl, functionsLoop_digits [] (dec functionid.toNat) _ fun c => isDigit_of_mem_dec,
            List.nil_append, functionsLoop, if_neg (by simp), if_neg (by simp)]
          refine FunctionScan.Yields.after ?_ hdigits
          have hlast := hvalues functionid
          rw [filledText, ExpressionPiece.filled]
          cases hv : values functionid with
          | none =>
              rw [hv] at hlast
              obtain ⟨error, herror⟩ := hlast
              rw [herror]
              exact ⟨hend, _, rfl⟩
          | some w =>
              rw [hv] at hlast
              dsimp only at hlast
              rw [hlast]
              exact (hps.behind _).after hend

end

/-! ## the value -/

/-- The number of a value of a trigger. -/
def TriggerValue.number (u : TriggerValue) : Number where
  int := [lastDigit u.code.toNat]
  frac := none
  suffix := none
  digits := .inl (List.cons_ne_nil _ _)

theorem d32_code (u : TriggerValue) : d32 (Int32.ofInt u.code) = u.number.text := by
  cases u <;> decide

/-- `({13}+{14})*2>30|{TRIGGER.VALUE}=1`. -/
def sumExpression : MacroExpression :=
  .binary [] (.bracket (.binary [] (.function 13) .plus (.single [] (.function 14)))) .times
    (.binary [] (.number (digitOperand [] (lastDigit 2) none).number) .greater
      (.binary [] (.number ⟨[lastDigit 3, lastDigit 0], none, none, by simp⟩) .or
        (.binary [] .triggerValue .equal (.single [] (.number (digitOperand [] (lastDigit 1) none).number)))))

/-- 20 and -3. -/
def sumValues (functionid : UInt64) : Option SignedNumber :=
  if functionid = 13 then some ([], ⟨[lastDigit 2, lastDigit 0], none, none, by simp⟩)
  else if functionid = 14 then some ([true], ⟨[lastDigit 3], none, none, by simp⟩)
  else none

def sumTable : FunctionTable where
  rows := [⟨13, some (literal "20")⟩, ⟨14, some (literal "-3")⟩]
  name _ := []

theorem lastValues_sumTable : LastValues sumTable sumValues := by
  intro functionid
  by_cases h13 : functionid = 13
  · subst h13
    rfl
  · by_cases h14 : functionid = 14
    · subst h14
      rfl
    · have hne : ∀ n : UInt64, functionid ≠ n → n.toNat ≠ functionid.toNat := fun n hn h => hn (UInt64.toNat_inj.mp h.symm)
      have hrow : sumTable.rows.find? (·.functionid = functionid.toNat) = none := by
        have h13' := hne 13 h13
        have h14' := hne 14 h14
        simp_all [sumTable]
      rw [sumValues, if_neg h13, if_neg h14, dbGetFunctionResult, if_neg (dec_ne_nil _), ofDec_dec, hrow]
      exact ⟨_, rfl⟩

/-- The pieces of an expression with spaces. -/
def sumPieces : List ExpressionPiece :=
  [.byte lparen, .function 13, .byte space, .byte plus, .byte space, .function 14, .byte rparen] ++
    (bytes "*2>30 | ").map .byte ++ .triggerValue :: (bytes "=1").map .byte

end Zabbix
