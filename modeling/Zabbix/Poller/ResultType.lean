import Zabbix.DbEscape
import Zabbix.Items.DbItem
import Zabbix.Lib.Decimal
import Zabbix.Str

/-!
# Zabbix.Poller.ResultType

The results of checks: `set_result_type` of `libs/zbxsysinfo/sysinfo.c`, with `del_zeroes`
(`libs/zbxcommon/str.c`) and `is_double` (`libs/zbxcommon/misc.c`).

A text is trimmed and tested before it is converted.  The tests count bytes where they should
count digits: `is_uint64` takes the empty text for a number, also when `del_zeroes` has left it,
and `is_double` takes a sign without a digit for one.

* `setResultType_iff` — the texts that are accepted only as the number that they denote.
-/

namespace Zabbix

open Ascii Printf

/-- `zbx_item_value_type_t`; the column of an item may hold other numbers. -/
inductive ItemValueType
  | float
  | str
  | log
  | uint64
  | text
  | unknown
deriving DecidableEq, Repr

/-- `zbx_item_value_type_string` -/
def ItemValueType.string : ItemValueType → List UInt8
  | .float => bytes "Numeric (float)"
  | .str => bytes "Character"
  | .log => bytes "Log"
  | .uint64 => bytes "Numeric (integer 64bit)"
  | .text => bytes "Text"
  | .unknown => bytes "unknown"

/-- `AGENT_RESULT`; the fields whose bit of `type` is set. -/
structure AgentResult where
  ui64 : Option UInt64
  dbl : Option Double
  str : Option (List UInt8)
  text : Option (List UInt8)
  msg : Option (List UInt8)
deriving DecidableEq

/-- `init_result` -/
def AgentResult.init : AgentResult := ⟨none, none, none, none, none⟩

/-! ## The tests -/

/-- `del_zeroes` -/
def delZeroes (s : List UInt8) : List UInt8 :=
  if dot ∈ s then
    let s := s.rdropWhile (· = 48)
    if s.getLast? = some dot then s.dropLast else s
  else s

/-- The loop of `is_double`: `len` and whether there is a dot, or `none` for `FAIL`.  `first` as
long as `i` is 0. -/
def isDoubleLoop : (first hasDot : Bool) → (len : ℕ) → List UInt8 → Option (ℕ × Bool)
  | _, hasDot, len, [] => some (len, hasDot)
  | first, hasDot, len, c :: s =>
      if c = minus ∧ first then isDoubleLoop false hasDot (len + 1) s
      else if JsonText.isDigit c then isDoubleLoop false hasDot (len + 1) s
      else if c = dot ∧ ¬hasDot then isDoubleLoop false true (len + 1) s
      else if c = space ∧ s.dropWhile (· = space) = [] then some (len, hasDot)
      else none

/-- `is_double` -/
def isDouble (c : List UInt8) : Bool :=
  let s := c.dropWhile (· = space)
  match isDoubleLoop (s.length = c.length) false 0 s with
  | none => false
  | some (len, hasDot) => !(len = 0 || (len = 1 && hasDot))

/-- `atof`, on the notation that `is_double` lets through; `strtod` is the double for a sign and a
number, which has at least one digit. -/
def atofDouble (strtod : Bool → ℚ → Double) (c : List UInt8) : Double :=
  let s := if c.head? = some minus then c.tail else c
  let int := s.takeWhile (JsonText.isDigit ·)
  let frac :=
    match s.dropWhile (JsonText.isDigit ·) with
    | [] => []
    | d :: t => if d = dot then t.takeWhile (JsonText.isDigit ·) else []
  if int ++ frac = [] then 0
  else strtod (c.head? = some minus) (ofDec (int ++ frac) / 10 ^ frac.length)

/-- `DBchk_uint64` -/
def dbChkUint64 (b : Backend) (value : UInt64) : Bool := !(b = .postgresql && 0x7FFFFFFFFFFFFFFF < value)

/-- `DBchk_double`: the column takes numbers of a magnitude below `1E12`. -/
def dbChkDouble (b : Backend) (value : Double) : Bool :=
  b = .mysql ||
    match value with
    | .finite _ mant exp _ => (mant.val * 2 ^ exp : ℚ) < 10 ^ 12
    | .inf _ => false
    | .nan _ => true

/-! ## `set_result_type` -/

/-- The text of a number without the blanks and the quotes around it. -/
def trimValue (c : List UInt8) : List UInt8 := zbxLtrim (zbxRtrim c [space, dquote]) [space, dquote]

/-- What `set_result_type` leaves where the text does not suit the type. -/
def notSuitable (result : AgentResult) (valueType : ItemValueType) (c : List UInt8) : Bool × AgentResult :=
  (false,
    { result with
      msg := some (bytes "Type of received value [" ++ zbxRemoveChars c [cr, newline] ++
        bytes "] is not suitable for value type [" ++ valueType.string ++ bytes "]") })

/-- `set_result_type`: whether it succeeds, and the result. -/
def setResultType (strtod : Bool → ℚ → Double) (b : Backend) (result : AgentResult) (valueType : ItemValueType)
    (c : List UInt8) : Bool × AgentResult :=
  match valueType with
  | .uint64 =>
      let c := delZeroes (trimValue c)
      match isUint64 c with
      | none => notSuitable result .uint64 c
      | some value =>
          if dbChkUint64 b value then (true, { result with ui64 := some value }) else notSuitable result .uint64 c
  | .float =>
      let c := trimValue c
      if isDouble c then
        let value := atofDouble strtod c
        if dbChkDouble b value then (true, { result with dbl := some value }) else notSuitable result .float c
      else notSuitable result .float c
  | .str => (true, { result with str := some c })
  | .log => (true, { result with str := some c })
  | .text => (true, { result with text := some c })
  | .unknown => notSuitable result .unknown c

/-! ## What passes the tests -/

/-- What is left of a text by `del_zeroes`, where that is digits. -/
theorem delZeroes_digits {t : List UInt8} (h : ∀ c ∈ delZeroes t, JsonText.isDigit c = true) :
    (dot ∉ t ∧ delZeroes t = t) ∨ ∃ k, t = delZeroes t ++ dot :: List.replicate k 48 := by
  have hdigit : JsonText.isDigit dot = false := by decide
  by_cases hdot : dot ∈ t
  · right
    rw [delZeroes, if_pos hdot] at h ⊢
    dsimp only at h ⊢
    have hsplit := List.rdropWhile_append_rtakeWhile (p := fun c : UInt8 => decide (c = 48)) (l := t)
    have hzeros : t.rtakeWhile (fun c => decide (c = 48)) =
        List.replicate (t.rtakeWhile fun c => decide (c = 48)).length 48 :=
      List.eq_replicate_of_mem fun c hc => by simpa using List.mem_rtakeWhile_imp hc
    generalize t.rdropWhile (fun c => decide (c = 48)) = front at h hsplit ⊢
    generalize t.rtakeWhile (fun c => decide (c = 48)) = zeros at hsplit hzeros
    split at h
    · next hlast =>
        rw [if_pos hlast]
        refine ⟨zeros.length, ?_⟩
        rw [← hzeros, ← hsplit]
        conv_lhs => rw [← List.dropLast_append_getLast? dot hlast]
        rw [List.append_assoc, List.singleton_append]
    · -- the dot is no zero, so it would be among the digits
      have hmem : dot ∈ front := by
        rw [← hsplit, List.mem_append] at hdot
        rcases hdot with hdot | hdot
        · exact hdot
        · rw [hzeros] at hdot
          exact absurd (List.eq_of_mem_replicate hdot) (by decide)
      exact absurd (h dot hmem) (by simp [hdigit])
  · left
    exact ⟨hdot, if_neg hdot⟩

/-- Zeros behind the dot go, and the dot with them. -/
theorem delZeroes_zeros (s : List UInt8) (k : ℕ) : delZeroes (s ++ dot :: List.replicate k 48) = s := by
  have hdrop : (s ++ dot :: List.replicate k 48).rdropWhile (fun c => decide (c = 48)) = s ++ [dot] := by
    induction k with
    | zero => exact List.rdropWhile_concat_neg _ _ _ (by decide)
    | succ k ih =>
        rw [List.replicate_succ', ← List.cons_append, ← List.append_assoc,
          List.rdropWhile_concat_pos _ _ _ (by decide), ih]
  rw [delZeroes, if_pos (by simp)]
  dsimp only
  rw [hdrop, if_pos List.getLast?_concat, List.dropLast_concat]

/-- The digit of a byte. -/
theorem toNat_digit {c : UInt8} (hc : 48 ≤ c ∧ c ≤ 57) : (c - 48).toUInt64.toNat = c.toNat - 48 ∧ c.toNat - 48 ≤ 9 := by
  have hlo := UInt8.le_iff_toNat_le.mp hc.1
  have hhi := UInt8.le_iff_toNat_le.mp hc.2
  have hsub : (c - 48).toNat = c.toNat - 48 := UInt8.toNat_sub_of_le _ _ hc.1
  refine ⟨by rw [UInt8.toNat_toUInt64, hsub], ?_⟩
  change c.toNat ≤ 57 at hhi
  omega

/-- `is_uint64` takes digits only, for the number that they stand for. -/
theorem isUint64Loop_eq_some {value v : UInt64} {s : List UInt8} (h : isUint64Loop value s = some v) :
    (∀ c ∈ s, JsonText.isDigit c = true) ∧
      s.foldl (fun n c => 10 * n + (c.toNat - 48)) value.toNat = v.toNat := by
  induction s generalizing value with
  | nil =>
      obtain rfl := Option.some.inj h
      exact ⟨fun _ hc => absurd hc List.not_mem_nil, rfl⟩
  | cons c s ih =>
      rw [isUint64Loop] at h
      split at h
      · next hc =>
          split at h
          · next hle =>
              obtain ⟨hdigits, hvalue⟩ := ih h
              obtain ⟨hsub, hnine⟩ := toNat_digit hc
              have hstep : (value * 10 + (c - 48).toUInt64).toNat = 10 * value.toNat + (c.toNat - 48) := by
                have hle' := UInt64.le_iff_toNat_le.mp hle
                rw [UInt64.toNat_div, UInt64.toNat_sub_of_le _ _ (UInt64.le_iff_toNat_le.mpr (by
                  rw [hsub]
                  exact hnine.trans (by decide))), hsub] at hle'
                change value.toNat ≤ (18446744073709551615 - (c.toNat - 48)) / 10 at hle'
                rw [UInt64.toNat_add, UInt64.toNat_mul, hsub]
                change (value.toNat * 10 % 2 ^ 64 + (c.toNat - 48)) % 2 ^ 64 = _
                omega
              refine ⟨List.forall_mem_cons.mpr ⟨decide_eq_true hc, hdigits⟩, ?_⟩
              rw [List.foldl_cons, ← hstep, hvalue]
          · cases h
      · cases h

theorem isUint64_eq_some {v : UInt64} {s : List UInt8} (h : isUint64 s = some v) :
    (∀ c ∈ s, JsonText.isDigit c = true) ∧ ofDec s = v.toNat :=
  isUint64Loop_eq_some h

/-- A space with only spaces behind it is at the end of the text. -/
theorem getLast?_of_spaces {c : UInt8} {s : List UInt8} (h : c = space ∧ s.dropWhile (· = space) = []) :
    (c :: s).getLast? = some space := by
  obtain ⟨rfl, hs⟩ := h
  rw [List.dropWhile_eq_nil_iff] at hs
  have hall : ∀ c ∈ space :: s, c = space :=
    List.forall_mem_cons.mpr ⟨rfl, fun c hc => by simpa using hs c hc⟩
  rw [List.eq_replicate_of_mem hall, List.length_cons, List.getLast?_replicate]
  rfl

theorem getLast?_tail {c : UInt8} {s : List UInt8} (h : (c :: s).getLast? ≠ some space) :
    s.getLast? ≠ some space := by
  intro hs
  cases s with
  | nil => cases hs
  | cons d s => exact h (by rw [List.getLast?_cons_cons, hs])

/-- Behind the dot there are digits only. -/
theorem isDoubleLoop_frac {len : ℕ} {s : List UInt8} {r : ℕ × Bool} (hlast : s.getLast? ≠ some space)
    (h : isDoubleLoop false true len s = some r) :
    (∀ c ∈ s, JsonText.isDigit c = true) ∧ r = (len + s.length, true) := by
  induction s generalizing len with
  | nil =>
      obtain rfl := Option.some.inj h
      exact ⟨fun _ hc => absurd hc List.not_mem_nil, rfl⟩
  | cons c s ih =>
      rw [isDoubleLoop, if_neg (by simp)] at h
      by_cases hc : JsonText.isDigit c = true
      · rw [if_pos hc] at h
        obtain ⟨hdigits, rfl⟩ := ih (getLast?_tail hlast) h
        exact ⟨List.forall_mem_cons.mpr ⟨hc, hdigits⟩, by rw [List.length_cons, Nat.add_right_comm, Nat.add_assoc]⟩
      · rw [if_neg hc, if_neg (by simp)] at h
        split at h
        · next hend => exact absurd (getLast?_of_spaces hend) hlast
        · cases h

/-- Behind the sign there are digits, and at most one dot. -/
theorem isDoubleLoop_int {len : ℕ} {s : List UInt8} {r : ℕ × Bool} (hlast : s.getLast? ≠ some space)
    (h : isDoubleLoop false false len s = some r) :
    ∃ int frac, s = int ++ Decimal.fracText frac ∧ (∀ c ∈ int ++ frac.getD [], JsonText.isDigit c = true) ∧
      r = (len + s.length, frac.isSome) := by
  induction s generalizing len with
  | nil =>
      obtain rfl := Option.some.inj h
      exact ⟨[], none, rfl, fun _ hc => absurd hc List.not_mem_nil, rfl⟩
  | cons c s ih =>
      rw [isDoubleLoop, if_neg (by simp)] at h
      by_cases hc : JsonText.isDigit c = true
      · rw [if_pos hc] at h
        obtain ⟨int, frac, rfl, hdigits, rfl⟩ := ih (getLast?_tail hlast) h
        refine ⟨c :: int, frac, rfl, ?_, ?_⟩
        · rw [List.cons_append]
          exact List.forall_mem_cons.mpr ⟨hc, hdigits⟩
        · rw [List.length_cons, Nat.add_right_comm, Nat.add_assoc]
      · rw [if_neg hc] at h
        split at h
        · next hdot =>
            obtain ⟨hdigits, rfl⟩ := isDoubleLoop_frac (getLast?_tail hlast) h
            refine ⟨[], some s, by rw [hdot.1]; rfl, hdigits, ?_⟩
            rw [List.length_cons, Nat.add_right_comm, Nat.add_assoc]
            rfl
        · split at h
          · next hend => exact absurd (getLast?_of_spaces hend) hlast
          · cases h

/-- What `is_double` takes, without blanks around it, is a number unless it is a sign. -/
theorem isDouble_spec {t : List UInt8} (hhead : t.head? ≠ some space) (hlast : t.getLast? ≠ some space)
    (h : isDouble t = true) : t = [minus] ∨ t = [minus, dot] ∨ ∃ d : Decimal, d.text = t := by
  have hdrop : t.dropWhile (fun c => decide (c = space)) = t := by
    cases t with
    | nil => rfl
    | cons c s => exact List.dropWhile_cons_of_neg (by simpa using hhead)
  have hshape : ∃ neg int frac, t = sign neg ++ (int ++ Decimal.fracText frac) ∧
      (∀ c ∈ int ++ frac.getD [], JsonText.isDigit c = true) ∧ ¬(t.length = 0) ∧
      ¬(t.length = 1 ∧ frac.isSome = true) := by
    rw [isDouble, hdrop] at h
    cases t with
    | nil => cases h
    | cons c s =>
        by_cases hc : c = minus
        · subst hc
          rw [decide_eq_true rfl, isDoubleLoop, if_pos ⟨rfl, rfl⟩] at h
          split at h
          · cases h
          · next len hasDot hloop =>
              obtain ⟨int, frac, rfl, hdigits, heq⟩ := isDoubleLoop_int (getLast?_tail hlast) hloop
              obtain ⟨rfl, rfl⟩ := Prod.mk.inj heq
              refine ⟨true, int, frac, rfl, hdigits, by simp, ?_⟩
              rintro ⟨hlen, hfrac⟩
              rw [List.length_cons, Nat.add_comm, ← Nat.zero_add 1] at hlen
              rw [hlen, hfrac] at h
              exact absurd h (by decide)
        · have hfirst : isDoubleLoop (decide ((c :: s).length = (c :: s).length)) false 0 (c :: s) =
              isDoubleLoop false false 0 (c :: s) := by
            simp only [isDoubleLoop, hc, false_and, if_false]
          rw [hfirst] at h
          split at h
          · cases h
          · next len hasDot hloop =>
              obtain ⟨int, frac, hs, hdigits, heq⟩ := isDoubleLoop_int hlast hloop
              obtain ⟨rfl, rfl⟩ := Prod.mk.inj heq
              refine ⟨false, int, frac, hs, hdigits, by simp, ?_⟩
              rintro ⟨hlen, hfrac⟩
              rw [hlen, hfrac] at h
              exact absurd h (by decide)
  obtain ⟨neg, int, frac, rfl, hdigits, hlen, hdot⟩ := hshape
  by_cases hne : int ++ frac.getD [] = []
  · obtain ⟨rfl, hfrac⟩ := List.append_eq_nil_iff.mp hne
    cases neg <;> cases frac with
    | none => simp [sign, Decimal.fracText] at hlen ⊢
    | some ds =>
        obtain rfl : ds = [] := hfrac
        simp [sign, Decimal.fracText] at hdot ⊢
  · exact .inr (.inr ⟨⟨neg, int, frac, hdigits, hne⟩, rfl⟩)

/-- `atof` reads the whole of a number. -/
theorem atofDouble_text (strtod : Bool → ℚ → Double) (d : Decimal) :
    atofDouble strtod d.text = strtod d.neg d.magnitude := by
  have hminus := d.minus_not_mem_digits
  obtain ⟨hint, hfrac⟩ := d.span_int
  have hrest : (if d.text.head? = some minus then d.text.tail else d.text) = d.int ++ Decimal.fracText d.frac ∧
      decide (d.text.head? = some minus) = d.neg := by
    rw [Decimal.text]
    cases d.neg with
    | true => simp [sign]
    | false =>
        have hhead : (d.int ++ Decimal.fracText d.frac).head? ≠ some minus :=
          fun h => hminus (List.mem_of_head? h)
        simp only [sign, Bool.false_eq_true, if_false, List.nil_append]
        exact ⟨if_neg hhead, decide_eq_false hhead⟩
  have hdigits : (match Decimal.fracText d.frac with
      | [] => []
      | c :: t => if c = dot then t.takeWhile (JsonText.isDigit ·) else []) = d.frac.getD [] := by
    cases hd : d.frac with
    | none => rfl
    | some ds =>
        have hall : ∀ c ∈ ds, JsonText.isDigit c = true := fun c hc => d.isDigit_of_mem c (by simp [hd, hc])
        simpa [Decimal.fracText] using hall
  rw [atofDouble]
  simp only [hrest.1, hrest.2, hint, hfrac]
  rw [hdigits, if_neg d.digits_ne_nil]
  rfl

/-- Nothing is left to trim. -/
theorem ends_trimValue (c : List UInt8) :
    (trimValue c).head? ≠ some space ∧ (trimValue c).getLast? ≠ some space := by
  constructor
  · intro h
    have := List.head?_dropWhile_not (fun c => [space, dquote].contains c) (zbxRtrim c [space, dquote])
    rw [trimValue, zbxLtrim] at h
    rw [h] at this
    exact absurd this (by decide)
  · intro h
    obtain ⟨front, hfront⟩ := List.dropWhile_suffix (l := zbxRtrim c [space, dquote]) fun c => [space, dquote].contains c
    have hlast : (zbxRtrim c [space, dquote]).getLast? = some space := by
      rw [← hfront]
      rw [trimValue, zbxLtrim] at h
      rw [List.getLast?_append, h, Option.some_or]
    obtain ⟨s, hs⟩ := List.getLast?_eq_some_iff.mp hlast
    have hagain := List.rdropWhile_idempotent (fun c => [space, dquote].contains c) c
    change (zbxRtrim c [space, dquote]).rdropWhile _ = zbxRtrim c [space, dquote] at hagain
    rw [hs, List.rdropWhile_concat_pos _ _ _ (by decide)] at hagain
    have hlen := (List.rdropWhile_prefix (fun c => [space, dquote].contains c) s).length_le
    rw [hagain, List.length_append, List.length_singleton] at hlen
    omega

/-! ## What is accepted -/

/-- An unsigned item is accepted only with a number in the text, and the integer is stored. -/
def UnsignedAsDenoted (r : Bool × AgentResult) (text : List UInt8) : Prop :=
  r.1 = true → ∃ d : Decimal, d.text = text ∧ d.neg = false ∧
    ∃ v, r.2.ui64 = some v ∧ (v.toNat : ℚ) = d.magnitude

/-- A floating item is accepted only with a number in the text, and the double for it is stored. -/
def FloatAsDenoted (strtod : Bool → ℚ → Double) (r : Bool × AgentResult) (text : List UInt8) : Prop :=
  r.1 = true → ∃ d : Decimal, d.text = text ∧ r.2.dbl = some (strtod d.neg d.magnitude)

variable (strtod : Bool → ℚ → Double) (b : Backend) (result : AgentResult)

/-- The empty text, and a dot alone, are taken for zero. -/
theorem setResultType_uint64_of_digitless {c : List UInt8} (h : trimValue c = [] ∨ trimValue c = [dot]) :
    (setResultType strtod b result .uint64 c).1 = true := by
  have hdel : delZeroes (trimValue c) = [] := by rcases h with h | h <;> rw [h] <;> decide
  have hchk : dbChkUint64 b 0 = true := by cases b <;> decide
  simp only [setResultType, hdel, isUint64, isUint64Loop, hchk, if_true]

/-- A sign without a digit is taken for zero. -/
theorem setResultType_float_of_digitless {c : List UInt8} (h : trimValue c = [minus] ∨ trimValue c = [minus, dot]) :
    (setResultType strtod b result .float c).1 = true := by
  have hdouble : isDouble (trimValue c) = true := by rcases h with h | h <;> rw [h] <;> decide
  have hvalue : atofDouble strtod (trimValue c) = 0 := by
    rcases h with h | h <;> rw [h, atofDouble] <;> exact if_pos (by decide)
  have hchk : dbChkDouble b 0 = true := by
    have hzero : ((0 : ℕ) * 2 ^ (0 : ℤ) : ℚ) < 10 ^ 12 := by norm_num
    cases b with
    | mysql => rfl
    | oracle | postgresql | sqlite3 => exact decide_eq_true hzero
  simp only [setResultType, hdouble, hvalue, hchk, if_true]

/-- A number has a digit in its text. -/
theorem text_ne_of_digitless {d : Decimal} {t : List UInt8} (h : ∀ c ∈ t, JsonText.isDigit c = false) :
    d.text ≠ t := by
  rintro rfl
  obtain ⟨c, hc, hdigit⟩ := d.exists_isDigit_mem_text
  exact absurd hdigit (by simp [h c hc])

/-- **Unsigned items** take what denotes a number, and store it, unless there is no digit. -/
theorem unsignedAsDenoted_iff (c : List UInt8) :
    UnsignedAsDenoted (setResultType strtod b result .uint64 c) (trimValue c) ↔
      trimValue c ≠ [] ∧ trimValue c ≠ [dot] := by
  constructor
  · intro h
    by_contra hne
    have hdigitless : trimValue c = [] ∨ trimValue c = [dot] := by tauto
    obtain ⟨d, hd, -⟩ := h (setResultType_uint64_of_digitless strtod b result hdigitless)
    rcases hdigitless with heq | heq
    · exact text_ne_of_digitless (by decide) (hd.trans heq)
    · exact text_ne_of_digitless (by decide) (hd.trans heq)
  · rintro ⟨hempty, hdot⟩ h
    rw [setResultType] at h ⊢
    cases hvalue : isUint64 (delZeroes (trimValue c)) with
    | none => simp [hvalue, notSuitable] at h
    | some v =>
        simp only [hvalue] at h ⊢
        by_cases hchk : dbChkUint64 b v = true
        · obtain ⟨hdigits, hofDec⟩ := isUint64_eq_some hvalue
          rw [if_pos hchk]
          rcases delZeroes_digits hdigits with ⟨-, heq⟩ | ⟨k, heq⟩
          · rw [heq] at hdigits hofDec
            refine ⟨⟨false, trimValue c, none, by simpa using hdigits, by simpa using hempty⟩, ?_, rfl, v, rfl, ?_⟩
            · simp [Decimal.text, Decimal.fracText, sign]
            · rw [Decimal.magnitude_of_zeros (k := 0) rfl, hofDec]
          · have hzero : JsonText.isDigit 48 = true := by decide
            refine ⟨⟨false, delZeroes (trimValue c), some (List.replicate k 48), ?_, ?_⟩, heq.symm, rfl, v, rfl, ?_⟩
            · intro a ha
              rcases List.mem_append.mp ha with ha | ha
              · exact hdigits a ha
              · rw [List.eq_of_mem_replicate ha, hzero]
            · intro hnil
              obtain ⟨hdel, hk⟩ := List.append_eq_nil_iff.mp hnil
              rw [Option.getD_some] at hk
              rw [hdel, hk] at heq
              exact hdot heq
            · rw [Decimal.magnitude_of_zeros (k := k) rfl, hofDec]
        · simp [hchk, notSuitable] at h

/-- **Floating items** take what denotes a number, and store it, unless there is no digit. -/
theorem floatAsDenoted_iff (c : List UInt8) :
    FloatAsDenoted strtod (setResultType strtod b result .float c) (trimValue c) ↔
      trimValue c ≠ [minus] ∧ trimValue c ≠ [minus, dot] := by
  constructor
  · intro h
    by_contra hne
    have hdigitless : trimValue c = [minus] ∨ trimValue c = [minus, dot] := by tauto
    obtain ⟨d, hd, -⟩ := h (setResultType_float_of_digitless strtod b result hdigitless)
    rcases hdigitless with heq | heq
    · exact text_ne_of_digitless (by decide) (hd.trans heq)
    · exact text_ne_of_digitless (by decide) (hd.trans heq)
  · rintro ⟨hminus, hdot⟩ h
    rw [setResultType] at h ⊢
    dsimp only at h ⊢
    obtain ⟨hhead, hlast⟩ := ends_trimValue c
    by_cases hdouble : isDouble (trimValue c) = true
    · rw [if_pos hdouble] at h ⊢
      by_cases hchk : dbChkDouble b (atofDouble strtod (trimValue c)) = true
      · rw [if_pos hchk]
        rcases isDouble_spec hhead hlast hdouble with heq | heq | ⟨d, hd⟩
        · exact absurd heq hminus
        · exact absurd heq hdot
        · exact ⟨d, hd, by rw [← hd, atofDouble_text]⟩
      · simp [hchk, notSuitable] at h
    · simp [hdouble, notSuitable] at h

/-- **What is accepted as a number** denotes one, which is stored, but for the texts that have no
digit: the empty one and a dot in an unsigned item, a sign with or without a dot in a floating
one. -/
theorem setResultType_iff (c : List UInt8) :
    (UnsignedAsDenoted (setResultType strtod b result .uint64 c) (trimValue c) ↔
        trimValue c ≠ [] ∧ trimValue c ≠ [dot]) ∧
      (FloatAsDenoted strtod (setResultType strtod b result .float c) (trimValue c) ↔
        trimValue c ≠ [minus] ∧ trimValue c ≠ [minus, dot]) :=
  ⟨unsignedAsDenoted_iff strtod b result c, floatAsDenoted_iff strtod b result c⟩

/-- The empty text is the number 0 of an unsigned item, and a sign that of a floating one. -/
theorem accepted_digitless :
    ¬UnsignedAsDenoted (setResultType (fun _ _ => 0) .mysql .init .uint64 []) (trimValue []) ∧
      ¬FloatAsDenoted (fun _ _ => 0) (setResultType (fun _ _ => 0) .mysql .init .float (bytes "-"))
        (trimValue (bytes "-")) := by
  constructor
  · intro h
    obtain ⟨d, hd, -⟩ := h rfl
    exact text_ne_of_digitless (by decide) hd
  · intro h
    obtain ⟨d, hd, -⟩ := h rfl
    exact text_ne_of_digitless (by decide) hd

end Zabbix
