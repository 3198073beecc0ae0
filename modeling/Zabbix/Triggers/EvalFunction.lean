import Zabbix.Atoi
import Zabbix.Lib.CInt
import Zabbix.Poller.ResultType

/-!
# Zabbix.Triggers.EvalFunction

The functions of trigger expressions that look at the last values of an item alone:
`evaluate_ABSCHANGE` and the branch `fuzzytime` of `evaluate_function`
(`libs/zbxserver/evalfunc.c`).

A float item goes through `abs`, which takes an `int`, and both ends of the window of `fuzzytime`
are kept in an `int`; for an unsigned item these are converted to 64 bits without a sign.

* `abschangeRight_iff` — the values whose absolute change is printed;
* `fuzzytimeRight_iff` — when `fuzzytime` tells whether the last value lies in the window.
-/

namespace Zabbix

open Ascii Printf

/-! ## The last values -/

/-- `DB_ITEM`, the last values of the item.  A `double` is the number that it holds. -/
structure EvalItem where
  valueType : ItemValueType
  lastvalueNull : Bool
  lastvalueDbl : ℚ
  lastvalueUint64 : UInt64
  lastvalueStr : List UInt8
  prevvalueNull : Bool
  prevvalueDbl : ℚ
  prevvalueUint64 : UInt64
  prevvalueStr : List UInt8

/-- What C leaves open: a `double` that no `int` holds cast to one, and `abs` of the least `int`. -/
structure IntLimits where
  ofDouble : ℚ → Int32
  absMin : Int32

/-- A `double` cast to `int`: what stands behind the point is lost. -/
def IntLimits.cast (limits : IntLimits) (x : ℚ) : Int32 :=
  let n := x.num.tdiv x.den
  if CInt.InRange n then Int32.ofInt n else limits.ofDouble x

/-- `abs` -/
def IntLimits.abs (limits : IntLimits) (n : Int32) : Int32 :=
  if n = Int32.minValue then limits.absMin else if n < 0 then -n else n

theorem natAbs_toInt_lt (n : Int32) : n.toInt.natAbs < 2 ^ 53 := by
  have hlo := n.le_toInt
  have hhi := n.toInt_lt
  omega

theorem exponent_zero : (0 : ℤ) ≤ 971 := by norm_num

/-- An `int` cast to `double`. -/
def doubleOfInt (n : Int32) : Double := .finite (n.toInt < 0) ⟨n.toInt.natAbs, natAbs_toInt_lt n⟩ 0 exponent_zero

/-- `evaluate_ABSCHANGE`: the value, `none` for `FAIL`. -/
def evaluateAbschange (limits : IntLimits) (item : EvalItem) : Option (List UInt8) :=
  if item.lastvalueNull ∨ item.prevvalueNull then none
  else
    match item.valueType with
    | .float =>
        some (delZeroes (zbxVsnprintf maxStringLen
          (lf (doubleOfInt (limits.abs (limits.cast (item.lastvalueDbl - item.prevvalueDbl)))))))
    | .uint64 =>
        if item.prevvalueUint64 ≤ item.lastvalueUint64 then
          some (zbxVsnprintf maxStringLen (ui64 (item.lastvalueUint64 - item.prevvalueUint64)))
        else some (zbxVsnprintf maxStringLen (ui64 (item.prevvalueUint64 - item.lastvalueUint64)))
    | _ =>
        if item.lastvalueStr = item.prevvalueStr then some (zbxVsnprintf maxStringLen (d32 0))
        else some (zbxVsnprintf maxStringLen (d32 1))

/-- The branch `fuzzytime` of `evaluate_function`: the value, `none` for `FAIL`. -/
def evaluateFuzzytime (item : EvalItem) (parameter : List UInt8) (now : Int64) : Option (List UInt8) :=
  let fuzlow := CInt.cast (now.toInt - (atoi parameter).toInt)
  let fuzhig := CInt.cast (now.toInt + (atoi parameter).toInt)
  if item.lastvalueNull then none
  else
    match item.valueType with
    | .float =>
        if fuzlow ≤ item.lastvalueDbl ∧ item.lastvalueDbl ≤ fuzhig then some (bytes "1") else some (bytes "0")
    | .uint64 =>
        if UInt64.ofInt fuzlow ≤ item.lastvalueUint64 ∧ item.lastvalueUint64 ≤ UInt64.ofInt fuzhig then
          some (bytes "1")
        else some (bytes "0")
    | _ => none

namespace EvalItem

variable {item : EvalItem}

/-- The value type is a numeric one. -/
def Numeric (item : EvalItem) : Prop := item.valueType = .float ∨ item.valueType = .uint64

instance : Decidable item.Numeric := inferInstanceAs (Decidable (_ ∨ _))

/-- The last value as a number. -/
def lastvalue (item : EvalItem) : ℚ :=
  if item.valueType = .float then item.lastvalueDbl else item.lastvalueUint64.toNat

/-- The previous value as a number. -/
def prevvalue (item : EvalItem) : ℚ :=
  if item.valueType = .float then item.prevvalueDbl else item.prevvalueUint64.toNat

end EvalItem

/-! ## The notation of the values -/

/-- An integer as `printf` writes it. -/
def decimalOfInt (n : ℤ) : Decimal where
  neg := n < 0
  int := dec n.natAbs
  frac := none
  isDigit_of_mem _ hc := isDigit_of_mem_dec ((List.mem_append.mp hc).resolve_right List.not_mem_nil)
  digits_ne_nil h := dec_ne_nil _ (List.append_eq_nil_iff.mp h).1

theorem text_decimalOfInt (n : ℤ) : (decimalOfInt n).text = sign (n < 0) ++ dec n.natAbs :=
  congrArg (sign (n < 0) ++ ·) (List.append_nil (dec n.natAbs))

theorem value_decimalOfInt (n : ℤ) : (decimalOfInt n).value = n := by
  have hmagnitude : (decimalOfInt n).magnitude = n.natAbs := by
    rw [Decimal.magnitude_of_zeros (k := 0) rfl]
    exact congrArg Nat.cast (ofDec_dec n.natAbs)
  have hneg : (decimalOfInt n).neg = decide (n < 0) := rfl
  rw [Decimal.value, hmagnitude, hneg]
  by_cases h : n < 0
  · rw [if_pos (decide_eq_true h), Nat.cast_natAbs, abs_of_neg h, Int.cast_neg, neg_neg]
  · rw [if_neg (ne_true_of_eq_false (decide_eq_false h)), Nat.cast_natAbs, abs_of_nonneg (Int.not_lt.mp h)]

theorem denotes_int (n : ℤ) : Decimal.Denotes (sign (n < 0) ++ dec n.natAbs) n :=
  ⟨decimalOfInt n, text_decimalOfInt n, value_decimalOfInt n⟩

theorem denotes_ui64 (n : UInt64) : Decimal.Denotes (ui64 n) n.toNat := by
  have h := denotes_int n.toNat
  rwa [decide_eq_false (by omega), Int.natAbs_natCast, Int.cast_natCast] at h

/-- Nothing is left behind the point of an `int`. -/
theorem delZeroes_lf_doubleOfInt (n : Int32) :
    delZeroes (lf (doubleOfInt n)) = sign (n.toInt < 0) ++ dec n.toInt.natAbs := by
  have hmillionths : millionths n.toInt.natAbs 0 = n.toInt.natAbs * 10 ^ 6 := by
    rw [millionths, if_pos le_rfl, Int.toNat_zero, pow_zero, mul_one]
  have hdecimals : decimals 0 = List.replicate 6 48 := by decide
  rw [doubleOfInt, lf]
  dsimp only
  rw [hmillionths, Nat.mul_div_cancel _ (by norm_num), Nat.mul_mod_left, hdecimals, delZeroes_zeros]

/-! ## `abschange` -/

namespace IntLimits

variable (limits : IntLimits)

theorem cast_intCast {n : ℤ} (h : CInt.InRange n) : (limits.cast n).toInt = n := by
  rw [cast, Rat.num_intCast, Rat.den_intCast, Nat.cast_one, Int.tdiv_one, if_pos h]
  exact Int32.toInt_ofInt_of_le h.1 h.2

theorem toInt_abs {n : Int32} (h : n ≠ Int32.minValue) : (limits.abs n).toInt = |n.toInt| := by
  have hmin : n.toInt ≠ -2 ^ 31 := fun hn => h (Int32.toInt_inj.mp hn)
  have hlo := n.le_toInt
  have hhi := n.toInt_lt
  rw [abs, if_neg h]
  split
  · next hneg =>
      have hneg := Int32.lt_iff_toInt_lt.mp hneg
      rw [Int32.toInt_neg, Int.bmod_eq_of_le (by norm_num; omega) (by norm_num; omega), abs_of_neg hneg]
  · next hneg =>
      rw [abs_of_nonneg]
      exact Int.not_lt.mp fun hlt => hneg (Int32.lt_iff_toInt_lt.mpr hlt)

end IntLimits

/-- The value of a float item. -/
theorem evaluateAbschange_float (limits : IntLimits) {item : EvalItem} (htype : item.valueType = .float)
    (hlast : item.lastvalueNull = false) (hprev : item.prevvalueNull = false) :
    ∃ value, evaluateAbschange limits item = some value ∧
      Decimal.Denotes value (limits.abs (limits.cast (item.lastvalue - item.prevvalue))).toInt := by
  rw [EvalItem.lastvalue, if_pos htype, EvalItem.prevvalue, if_pos htype]
  refine ⟨_, ?_, denotes_int _⟩
  rw [evaluateAbschange, if_neg (by simp [hlast, hprev]), htype]
  dsimp only
  rw [zbxVsnprintf_of_lt ((length_lf_le _).trans_lt (by decide)), delZeroes_lf_doubleOfInt]

/-- The value of an unsigned item. -/
theorem evaluateAbschange_uint64 (limits : IntLimits) {item : EvalItem} (htype : item.valueType = .uint64)
    (hlast : item.lastvalueNull = false) (hprev : item.prevvalueNull = false) :
    ∃ value, evaluateAbschange limits item = some value ∧
      Decimal.Denotes value |item.lastvalue - item.prevvalue| := by
  have hfloat : item.valueType ≠ .float := by simp [htype]
  have hlt : ∀ n : UInt64, (ui64 n).length < maxStringLen := fun n => (length_ui64_le n).trans_lt (by decide)
  rw [EvalItem.lastvalue, if_neg hfloat, EvalItem.prevvalue, if_neg hfloat, evaluateAbschange,
    if_neg (by simp [hlast, hprev]), htype]
  dsimp only
  by_cases hle : item.prevvalueUint64 ≤ item.lastvalueUint64
  · have hle' := UInt64.le_iff_toNat_le.mp hle
    have hsub := denotes_ui64 (item.lastvalueUint64 - item.prevvalueUint64)
    rw [UInt64.toNat_sub_of_le _ _ hle, Nat.cast_sub hle'] at hsub
    rw [if_pos hle, zbxVsnprintf_of_lt (hlt _), abs_of_nonneg (sub_nonneg.mpr (Nat.cast_le.mpr hle'))]
    exact ⟨_, rfl, hsub⟩
  · have hle := UInt64.le_of_lt (UInt64.not_le.mp hle)
    have hle' := UInt64.le_iff_toNat_le.mp hle
    have hsub := denotes_ui64 (item.prevvalueUint64 - item.lastvalueUint64)
    rw [UInt64.toNat_sub_of_le _ _ hle, Nat.cast_sub hle'] at hsub
    rw [if_neg ‹_›, zbxVsnprintf_of_lt (hlt _), abs_sub_comm,
      abs_of_nonneg (sub_nonneg.mpr (Nat.cast_le.mpr hle'))]
    exact ⟨_, rfl, hsub⟩

/-- The absolute value of the cast is the absolute value where that is an integer below `2 ^ 31`. -/
theorem IntLimits.abs_cast_eq_iff (limits : IntLimits) (x : ℚ) :
    ((limits.abs (limits.cast x)).toInt : ℚ) = |x| ↔ ∃ n : ℤ, x = n ∧ |n| < 2 ^ 31 := by
  constructor
  · intro h
    have hhi := (limits.abs (limits.cast x)).toInt_lt
    generalize (limits.abs (limits.cast x)).toInt = r at h hhi
    have hr : 0 ≤ r := by exact_mod_cast h ▸ abs_nonneg x
    rcases abs_choice x with hx | hx
    · exact ⟨r, (h.trans hx).symm, by rwa [abs_of_nonneg hr]⟩
    · refine ⟨-r, by rw [Int.cast_neg, h, hx, neg_neg], by rwa [abs_neg, abs_of_nonneg hr]⟩
  · rintro ⟨n, rfl, hn⟩
    obtain ⟨hlo, hhi⟩ := abs_lt.mp hn
    have hcast := limits.cast_intCast ⟨hlo.le, hhi⟩
    have hmin : limits.cast n ≠ Int32.minValue := by
      intro h
      rw [h, Int32.toInt_minValue] at hcast
      omega
    rw [limits.toInt_abs hmin, hcast, Int.cast_abs]

/-- The item has a last and a previous value, which are numbers. -/
def EvalItem.Numbers (item : EvalItem) : Prop :=
  item.Numeric ∧ item.lastvalueNull = false ∧ item.prevvalueNull = false

/-- The value is the absolute difference of the last two. -/
def AbschangeRight (limits : IntLimits) (item : EvalItem) : Prop :=
  ∃ value, evaluateAbschange limits item = some value ∧ Decimal.Denotes value |item.lastvalue - item.prevvalue|

/-- The absolute change is right of every unsigned item, and of a float item whose last values are
an integer apart, of less than `2 ^ 31`. -/
theorem abschangeRight_iff (limits : IntLimits) (item : EvalItem) (h : item.Numbers) :
    AbschangeRight limits item ↔
      (item.valueType = .float → ∃ n : ℤ, item.lastvalue - item.prevvalue = n ∧ |n| < 2 ^ 31) := by
  obtain ⟨htype | htype, hlast, hprev⟩ := h
  · obtain ⟨value, hvalue, hdenotes⟩ := evaluateAbschange_float limits htype hlast hprev
    -- the value is an integer, whatever the difference is
    have hright : AbschangeRight limits item ↔
        Decimal.Denotes value |item.lastvalue - item.prevvalue| := by
      rw [AbschangeRight, hvalue]
      exact ⟨fun ⟨_, hv, hd⟩ => Option.some.inj hv ▸ hd, fun hd => ⟨value, rfl, hd⟩⟩
    rw [hright, ← limits.abs_cast_eq_iff]
    constructor
    · exact fun hd _ => hdenotes.unique hd
    · exact fun hd => hd htype ▸ hdenotes
  · exact iff_of_true (evaluateAbschange_uint64 limits htype hlast hprev) fun h => by simp [htype] at h

/-- The change from 7 to 4 is right. -/
theorem abschangeRight_three :
    AbschangeRight ⟨fun _ => Int32.minValue, Int32.minValue⟩ ⟨.float, false, 4, 0, [], false, 7, 0, []⟩ :=
  (abschangeRight_iff ⟨fun _ => Int32.minValue, Int32.minValue⟩ ⟨.float, false, 4, 0, [], false, 7, 0, []⟩
    ⟨.inl rfl, rfl, rfl⟩).mpr fun _ => ⟨-3, by norm_num [EvalItem.lastvalue, EvalItem.prevvalue], by decide⟩

/-- A float item that went from 1 to 1.5. -/
def halfStep : EvalItem := ⟨.float, false, 3 / 2, 0, [], false, 1, 0, []⟩

/-- The change of a half is no integer. -/
theorem not_abschangeRight_half :
    halfStep.Numbers ∧ ¬AbschangeRight ⟨fun _ => Int32.minValue, Int32.minValue⟩ halfStep := by
  refine ⟨⟨.inl rfl, rfl, rfl⟩, ?_⟩
  rintro ⟨value, hvalue, hdenotes⟩
  have hzero : evaluateAbschange ⟨fun _ => Int32.minValue, Int32.minValue⟩ halfStep = some (bytes "0") := by
    decide +kernel
  obtain rfl := Option.some.inj (hvalue.symm.trans hzero)
  have h := hdenotes.unique (denotes_int 0)
  norm_num [halfStep, EvalItem.lastvalue, EvalItem.prevvalue] at h

/-! ## `fuzzytime` -/

namespace EvalItem

variable (item : EvalItem) (lo hi : ℤ)

/-- The last value is between two numbers. -/
def Within : Prop := lo ≤ item.lastvalue ∧ item.lastvalue ≤ hi

instance : Decidable (item.Within lo hi) := inferInstanceAs (Decidable (_ ∧ _))

/-- What the last value is compared with for an end of the window: the end in an `int`, and for an
unsigned item that in 64 bits without a sign. -/
def fuzzyEnd (n : ℤ) : ℤ := if item.valueType = .float then CInt.cast n else CInt.cast n % 2 ^ 64

/-- The ends of the window are compared as they are. -/
def FuzzyFits : Prop :=
  if item.valueType = .float then CInt.InRange lo ∧ CInt.InRange hi else 0 ≤ lo ∧ hi < 2 ^ 31

instance : Decidable (item.FuzzyFits lo hi) :=
  inferInstanceAs (Decidable (if item.valueType = .float then _ ∧ _ else _ ∧ _))

/-- The ends are compared the other way round: as without a sign, the upper one is beyond all times. -/
def FuzzyUpsideDown : Prop := item.valueType = .uint64 ∧ 0 ≤ CInt.cast lo ∧ CInt.cast hi < 0

instance : Decidable (item.FuzzyUpsideDown lo hi) := inferInstanceAs (Decidable (_ ∧ _))

variable {item lo hi}

theorem within_iff_of_uint64 (htype : item.valueType ≠ .float) :
    item.Within lo hi ↔ lo ≤ item.lastvalueUint64.toNat ∧ (item.lastvalueUint64.toNat : ℤ) ≤ hi := by
  rw [Within, lastvalue, if_neg htype]
  constructor <;> exact fun ⟨h1, h2⟩ => ⟨by exact_mod_cast h1, by exact_mod_cast h2⟩

/-- What fits is compared as it is. -/
theorem fuzzyEnd_of_fits (h : item.FuzzyFits lo hi) (hle : lo ≤ hi) :
    item.fuzzyEnd lo = lo ∧ item.fuzzyEnd hi = hi := by
  rw [FuzzyFits] at h
  by_cases htype : item.valueType = .float
  · rw [if_pos htype] at h
    rw [fuzzyEnd, if_pos htype, fuzzyEnd, if_pos htype]
    exact ⟨CInt.cast_of_inRange h.1, CInt.cast_of_inRange h.2⟩
  · rw [if_neg htype] at h
    rw [fuzzyEnd, if_neg htype, fuzzyEnd, if_neg htype, CInt.cast_of_inRange ⟨by omega, by omega⟩,
      CInt.cast_of_inRange ⟨by omega, by omega⟩]
    omega

/-- When a last value in the window is in the compared one. -/
theorem within_fuzzyEnd_iff (hnum : item.Numeric) (hlen : hi - lo < 2 ^ 32) (hlo : -2 ^ 64 < lo)
    (hhi : hi < 2 ^ 64 - 2 ^ 32) (h : item.Within lo hi) :
    item.Within (item.fuzzyEnd lo) (item.fuzzyEnd hi) ↔ item.FuzzyFits lo hi ∨ item.FuzzyUpsideDown lo hi := by
  have hle : lo ≤ hi := by exact_mod_cast h.1.trans h.2
  rcases hnum with htype | htype
  · have hup : ¬item.FuzzyUpsideDown lo hi := by
      rintro ⟨hup, -⟩
      simp [htype] at hup
    rw [or_iff_left hup]
    constructor
    · intro hcut
      rw [fuzzyEnd, if_pos htype, fuzzyEnd, if_pos htype] at hcut
      rw [FuzzyFits, if_pos htype]
      exact CInt.inRange_of_cast_meets hlen h hcut
    · intro hfits
      obtain ⟨h1, h2⟩ := fuzzyEnd_of_fits hfits hle
      rwa [h1, h2]
  · have hfloat : item.valueType ≠ .float := by simp [htype]
    have hu := item.lastvalueUint64.toNat_lt
    obtain ⟨j, hj, hlo1, hlo2⟩ := CInt.exists_cast lo
    obtain ⟨k, hk, hhi1, hhi2⟩ := CInt.exists_cast hi
    rw [within_iff_of_uint64 hfloat] at h ⊢
    rw [fuzzyEnd, if_neg hfloat, fuzzyEnd, if_neg hfloat, FuzzyFits, if_neg hfloat, FuzzyUpsideDown,
      and_iff_right htype]
    omega

/-- The last value is at most `p` off where it is in the window. -/
theorem abs_sub_le_iff_within (now p : ℤ) : |item.lastvalue - now| ≤ p ↔ item.Within (now - p) (now + p) := by
  rw [abs_sub_le_iff, Within]
  push_cast
  constructor <;> rintro ⟨h1, h2⟩ <;> constructor <;> linarith

end EvalItem

/-- Of two different values the same one is chosen where the conditions agree. -/
theorem ite_eq_ite_iff {α : Type} {p q : Prop} [Decidable p] [Decidable q] {a b : α} (h : a ≠ b) :
    ((if p then a else b) = if q then a else b) ↔ (p ↔ q) := by
  by_cases hp : p <;> by_cases hq : q <;> simp [hp, hq, h, h.symm]

/-- What the last value of a numeric item is compared with. -/
theorem evaluateFuzzytime_eq {item : EvalItem} (hnum : item.Numeric) (hlast : item.lastvalueNull = false)
    (parameter : List UInt8) (now : Int64) :
    evaluateFuzzytime item parameter now =
      if item.Within (item.fuzzyEnd (now.toInt - (atoi parameter).toInt))
        (item.fuzzyEnd (now.toInt + (atoi parameter).toInt)) then some (bytes "1") else some (bytes "0") := by
  have hofInt : ∀ n : ℤ, ((UInt64.ofInt n).toNat : ℤ) = n % 2 ^ 64 := by
    intro n
    rw [UInt64.ofInt, UInt64.toNat_ofNat']
    omega
  rw [evaluateFuzzytime, if_neg (by simp [hlast])]
  rcases hnum with htype | htype
  · rw [htype]
    refine if_congr ?_ rfl rfl
    rw [EvalItem.Within, EvalItem.lastvalue, if_pos htype, EvalItem.fuzzyEnd, if_pos htype, EvalItem.fuzzyEnd,
      if_pos htype]
  · have hfloat : item.valueType ≠ .float := by simp [htype]
    rw [htype]
    refine if_congr ?_ rfl rfl
    rw [EvalItem.within_iff_of_uint64 hfloat, EvalItem.fuzzyEnd, if_neg hfloat, EvalItem.fuzzyEnd, if_neg hfloat,
      UInt64.le_iff_toNat_le, UInt64.le_iff_toNat_le, ← hofInt, ← hofInt, Nat.cast_le, Nat.cast_le]

/-- The value is 1 where the last value is at most the parameter off the time, and 0 elsewhere. -/
def FuzzytimeRight (item : EvalItem) (parameter : List UInt8) (now : Int64) : Prop :=
  evaluateFuzzytime item parameter now =
    if |item.lastvalue - now.toInt| ≤ (atoi parameter).toInt then some (bytes "1") else some (bytes "0")

instance (item : EvalItem) (parameter : List UInt8) (now : Int64) : Decidable (FuzzytimeRight item parameter now) :=
  inferInstanceAs (Decidable (_ = _))

/-- `fuzzytime` is right where its window is compared as it is, of last values that are neither in the window
nor in the compared one, and of those in the window where the compared one is upside down. -/
theorem fuzzytimeRight_iff (item : EvalItem) (parameter : List UInt8) (now : Int64) (hnum : item.Numeric)
    (hlast : item.lastvalueNull = false) (hparam : 0 ≤ (atoi parameter).toInt) :
    let lo := now.toInt - (atoi parameter).toInt
    let hi := now.toInt + (atoi parameter).toInt
    FuzzytimeRight item parameter now ↔
      item.FuzzyFits lo hi ∨
        (¬item.Within lo hi ∧ ¬item.Within (item.fuzzyEnd lo) (item.fuzzyEnd hi)) ∨
        (item.Within lo hi ∧ item.FuzzyUpsideDown lo hi) := by
  intro lo hi
  have hp := (atoi parameter).toInt_lt
  have hnow := now.toInt_lt
  have hnow' := now.le_toInt
  have hright : FuzzytimeRight item parameter now ↔
      (item.Within (item.fuzzyEnd lo) (item.fuzzyEnd hi) ↔ item.Within lo hi) := by
    rw [FuzzytimeRight, evaluateFuzzytime_eq hnum hlast, ite_eq_ite_iff (by decide), EvalItem.abs_sub_le_iff_within]
  rw [hright]
  by_cases h : item.Within lo hi
  · have hcut := EvalItem.within_fuzzyEnd_iff hnum (by omega) (by omega) (by omega) h
    simp only [h, iff_true, not_true, false_and, false_or, true_and, hcut]
  · have hfits : item.FuzzyFits lo hi → ¬item.Within (item.fuzzyEnd lo) (item.fuzzyEnd hi) := by
      intro hfits
      obtain ⟨h1, h2⟩ := EvalItem.fuzzyEnd_of_fits hfits (by omega)
      rwa [h1, h2]
    simp only [h, iff_false, not_false_eq_true, true_and, false_and, or_false]
    exact ⟨.inr, fun h => h.elim hfits id⟩

/-- An unsigned item that shows the time. -/
def showsNow : EvalItem := ⟨.uint64, false, 0, 1250000000, [], true, 0, 0, []⟩

theorem fuzzytimeRight_short : FuzzytimeRight showsNow (bytes "30") 1250000000 :=
  (fuzzytimeRight_iff showsNow (bytes "30") 1250000000 (.inr rfl) rfl (by decide)).mpr (.inl (by decide +kernel))

/-- The time less the parameter is negative, which is compared as beyond all times. -/
theorem not_fuzzytimeRight_long :
    showsNow.Numeric ∧ showsNow.lastvalueNull = false ∧ 0 ≤ (atoi (bytes "2000000000")).toInt ∧
      ¬FuzzytimeRight showsNow (bytes "2000000000") 1250000000 :=
  ⟨.inr rfl, rfl, by decide, by decide +kernel⟩

end Zabbix
