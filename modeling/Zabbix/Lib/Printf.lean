import Zabbix.Lib.Ascii
import Mathlib.Data.Nat.Digits.Defs
import Mathlib.Tactic

/-!
# Printf

The conversions `%llu`, `%d` and `%lf` of `printf`, as byte lists, with bounds
on the length of what they print.

A `double` is a binary64 number: sign, mantissa and exponent for the finite
ones.  `%lf` prints six decimals, rounding half to even, so a finite number
takes at most 320 bytes: a sign, at most 312 digits before the point, the
point and the decimals.
-/

namespace Printf

/-! ## integers -/

/-- The decimal digits of a number. -/
def dec (n : Nat) : List UInt8 := (Nat.toDigits 10 n).map fun c => c.toUInt8

/-- `%llu` -/
def ui64 (n : UInt64) : List UInt8 := dec n.toNat

/-- `%d` -/
def d32 (n : Int32) : List UInt8 :=
  if n.toInt < 0 then Ascii.minus :: dec n.toInt.natAbs else dec n.toInt.natAbs

/-- Only digits are printed. -/
theorem digit_of_mem_dec {n : Nat} {c : UInt8} (h : c ∈ dec n) : 48 ≤ c.toNat ∧ c.toNat ≤ 57 := by
  rw [dec, List.mem_map] at h
  obtain ⟨d, hd, rfl⟩ := h
  have hdigit := Nat.isDigit_of_mem_toDigits (by decide) (by decide) hd
  rw [Char.isDigit, Bool.and_eq_true, decide_eq_true_eq, decide_eq_true_eq] at hdigit
  have hlo : 48 ≤ d.val.toNat := hdigit.1
  have hhi : d.val.toNat ≤ 57 := hdigit.2
  have he : d.toUInt8.toNat = d.val.toNat % 256 := UInt32.toNat_toUInt8 d.val
  omega

/-- The number that digits stand for. -/
def ofDec (s : List UInt8) : ℕ := s.foldl (fun n c => 10 * n + (c.toNat - 48)) 0

/-- What is printed reads back. -/
theorem ofDec_dec (n : ℕ) : ofDec (dec n) = n := by
  have hfold : ∀ (cs : List Char) (m : ℕ), (∀ c ∈ cs, c.isDigit = true) →
      (cs.map fun c => c.toUInt8).foldl (fun n c => 10 * n + (c.toNat - 48)) m = Nat.ofDigitChars 10 cs m := by
    intro cs
    induction cs with
    | nil => exact fun m _ => rfl
    | cons c cs ih =>
        intro m hdigits
        have hdigit := hdigits c (List.mem_cons_self ..)
        rw [Char.isDigit, Bool.and_eq_true, decide_eq_true_eq, decide_eq_true_eq] at hdigit
        have hhi : c.val.toNat ≤ 57 := hdigit.2
        have hbyte : c.toUInt8.toNat = c.toNat := by
          have he : c.toUInt8.toNat = c.val.toNat % 256 := UInt32.toNat_toUInt8 c.val
          rw [he]
          exact Nat.mod_eq_of_lt (by omega)
        rw [List.map_cons, List.foldl_cons, hbyte, ih _ fun d hd => hdigits d (List.mem_cons_of_mem c hd),
          Nat.ofDigitChars_cons]
        rfl
  rw [ofDec, dec, hfold _ 0 fun c hc => Nat.isDigit_of_mem_toDigits (by decide) (by decide) hc]
  exact Nat.ofDigitChars_ten_toDigits

theorem dec_injective : Function.Injective dec := fun a b h => by rw [← ofDec_dec a, h, ofDec_dec]

/-- Neither quotes nor backslashes. -/
def Bare (s : List UInt8) : Prop := ∀ c ∈ s, c ≠ Ascii.squote ∧ c ≠ Ascii.backslash

instance (s : List UInt8) : Decidable (Bare s) := List.decidableBAll _ s

theorem Bare.squote {s : List UInt8} (h : Bare s) : Ascii.squote ∉ s := fun hm => (h _ hm).1 rfl

theorem Bare.append {s t : List UInt8} (hs : Bare s) (ht : Bare t) : Bare (s ++ t) := by
  intro c hc
  rcases List.mem_append.mp hc with h | h
  · exact hs c h
  · exact ht c h

theorem bare_dec (n : Nat) : Bare (dec n) := by
  intro c hc
  have hd := digit_of_mem_dec hc
  have hq : Ascii.squote.toNat = 39 := rfl
  have hb : Ascii.backslash.toNat = 92 := rfl
  constructor
  · rintro rfl
    omega
  · rintro rfl
    omega

theorem bare_ui64 (n : UInt64) : Bare (ui64 n) := bare_dec _

theorem bare_d32 (n : Int32) : Bare (d32 n) := by
  have hm : Bare [Ascii.minus] := by decide
  unfold d32
  split
  · exact hm.append (bare_dec _)
  · exact bare_dec _

theorem length_dec_le {n k : Nat} (hk : 0 < k) (h : n < 10 ^ k) : (dec n).length ≤ k := by
  rw [dec, List.length_map]
  exact Nat.toDigits_length 10 n k hk h

theorem length_ui64_le (n : UInt64) : (ui64 n).length ≤ 20 :=
  length_dec_le (by decide) (lt_trans n.toNat_lt (by decide))

theorem length_d32_le (n : Int32) : (d32 n).length ≤ 11 := by
  have hlo := n.le_toInt
  have hhi := n.toInt_lt
  have hd : (dec n.toInt.natAbs).length ≤ 10 := length_dec_le (by decide) (by omega)
  unfold d32
  split
  · rw [List.length_cons]
    omega
  · omega

/-! ## doubles -/

/-- A binary64 number; the finite ones are `± mant * 2 ^ exp`. -/
inductive Double
  | finite (neg : Bool) (mant : Fin (2 ^ 53)) (exp : Int) (h : exp ≤ 971)
  | inf (neg : Bool)
  | nan (neg : Bool)
deriving DecidableEq

instance : Zero Double := ⟨.finite false ⟨0, by decide⟩ 0 (by decide)⟩

/-- `a / b` rounded to the nearest integer, half to even. -/
def roundHalfEven (a b : Nat) : Nat :=
  if b < 2 * (a % b) ∨ (b = 2 * (a % b) ∧ a / b % 2 = 1) then a / b + 1 else a / b

/-- The millionths of `mant * 2 ^ exp`, rounded as `%lf` rounds. -/
def millionths (mant : Nat) (exp : Int) : Nat :=
  if 0 ≤ exp then mant * 2 ^ exp.toNat * 10 ^ 6
  else roundHalfEven (mant * 10 ^ 6) (2 ^ (-exp).toNat)

/-- The six decimals after the point. -/
def decimals (n : Nat) : List UInt8 :=
  List.replicate (6 - (dec n).length) 48 ++ dec n

def sign (neg : Bool) : List UInt8 := if neg then [Ascii.minus] else []

/-- `%lf` -/
def lf : Double → List UInt8
  | .finite neg mant exp _ =>
      sign neg ++ dec (millionths mant exp / 10 ^ 6) ++ Ascii.dot ::
        decimals (millionths mant exp % 10 ^ 6)
  | .inf neg => sign neg ++ bytes "inf"
  | .nan neg => sign neg ++ bytes "nan"

theorem length_sign_le (neg : Bool) : (sign neg).length ≤ 1 := by
  cases neg <;> decide

theorem length_decimals {n : Nat} (h : n < 10 ^ 6) : (decimals n).length = 6 := by
  have := length_dec_le (by decide) h
  simp only [decimals, List.length_append, List.length_replicate]
  omega

theorem roundHalfEven_le (a b : Nat) : roundHalfEven a b ≤ a / b + 1 := by
  unfold roundHalfEven
  split <;> omega

/-- The integer part of a finite double has at most 312 digits. -/
theorem millionths_div_lt (mant : Fin (2 ^ 53)) {exp : Int} (h : exp ≤ 971) :
    millionths mant exp / 10 ^ 6 < 10 ^ 312 := by
  have hm := mant.isLt
  unfold millionths
  split
  · have hexp : 2 ^ exp.toNat ≤ 2 ^ 971 := Nat.pow_le_pow_right (by decide) (by omega)
    rw [Nat.mul_div_cancel _ (by decide)]
    calc mant.val * 2 ^ exp.toNat ≤ 2 ^ 53 * 2 ^ 971 := Nat.mul_le_mul hm.le hexp
      _ = (2 ^ 128) ^ 8 := (pow_add 2 53 971).symm.trans (pow_mul 2 128 8)
      _ < (10 ^ 39) ^ 8 := Nat.pow_lt_pow_left (by decide) (by decide)
      _ = 10 ^ 312 := by rw [← pow_mul]
  · have hr := roundHalfEven_le (mant.val * 10 ^ 6) (2 ^ (-exp).toNat)
    have hd := Nat.div_le_self (mant.val * 10 ^ 6) (2 ^ (-exp).toNat)
    apply Nat.div_lt_of_lt_mul
    calc roundHalfEven (mant.val * 10 ^ 6) (2 ^ (-exp).toNat) ≤ 2 ^ 53 * 10 ^ 6 + 1 := by omega
      _ < 10 ^ (6 + 20) := by decide
      _ ≤ 10 ^ (6 + 312) := Nat.pow_le_pow_right (by decide) (by decide)
      _ = 10 ^ 6 * 10 ^ 312 := by rw [pow_add]

theorem bare_lf (x : Double) : Bare (lf x) := by
  have hsign : ∀ neg, Bare (sign neg) := by decide
  have hzero : ∀ n, Bare (List.replicate n 48) := by
    intro n c hc
    rw [List.eq_of_mem_replicate hc]
    decide
  have hdot : Bare [Ascii.dot] := by decide
  cases x with
  | finite neg mant exp h =>
      exact ((hsign neg).append (bare_dec _)).append (hdot.append ((hzero _).append (bare_dec _)))
  | inf neg => exact (hsign neg).append (by decide)
  | nan neg => exact (hsign neg).append (by decide)

theorem length_lf_le (x : Double) : (lf x).length ≤ 320 := by
  cases x with
  | finite neg mant exp h =>
      have hs := length_sign_le neg
      have hi := length_dec_le (by decide) (millionths_div_lt mant h)
      have hd := length_decimals (Nat.mod_lt (millionths mant exp) (by decide : 0 < 10 ^ 6))
      simp only [lf, List.length_append, List.length_cons]
      omega
  | inf neg =>
      have hs := length_sign_le neg
      have hb : (bytes "inf").length = 3 := by decide
      rw [lf, List.length_append]
      omega
  | nan neg =>
      have hs := length_sign_le neg
      have hb : (bytes "nan").length = 3 := by decide
      rw [lf, List.length_append]
      omega

end Printf
