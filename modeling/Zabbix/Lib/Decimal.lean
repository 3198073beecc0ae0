import Zabbix.Lib.JsonText
import Zabbix.Lib.Printf

/-!
# Decimal

Decimal numbers: a sign, digits, and digits behind a point where there is one.
At least one digit stands somewhere.  The text of a number determines it
(`text_injective`).
-/

open Ascii JsonText Printf

structure Decimal where
  neg : Bool
  int : List UInt8
  frac : Option (List UInt8)
  isDigit_of_mem : ∀ c ∈ int ++ frac.getD [], isDigit c = true
  digits_ne_nil : int ++ frac.getD [] ≠ []

namespace Decimal

/-- The point and what stands behind it. -/
def fracText : Option (List UInt8) → List UInt8
  | none => []
  | some ds => dot :: ds

def text (d : Decimal) : List UInt8 := sign d.neg ++ (d.int ++ fracText d.frac)

/-- The number without its sign. -/
def magnitude (d : Decimal) : ℚ := ofDec (d.int ++ d.frac.getD []) / 10 ^ (d.frac.getD []).length

def value (d : Decimal) : ℚ := if d.neg then -d.magnitude else d.magnitude

/-- The text is a decimal notation of the number. -/
def Denotes (text : List UInt8) (q : ℚ) : Prop := ∃ d : Decimal, d.text = text ∧ d.value = q

theorem ofDec_append (s t : List UInt8) : ofDec (s ++ t) = t.foldl (fun n c => 10 * n + (c.toNat - 48)) (ofDec s) :=
  List.foldl_append

theorem ofDec_append_zeros (s : List UInt8) (k : ℕ) : ofDec (s ++ List.replicate k 48) = ofDec s * 10 ^ k := by
  induction k with
  | zero => simp
  | succ k ih =>
      rw [List.replicate_succ', ← List.append_assoc, ofDec_append, ih]
      simp only [List.foldl_cons, List.foldl_nil]
      rw [pow_succ]
      change 10 * (ofDec s * 10 ^ k) + 0 = _
      ring

/-- Zeros behind the point change nothing. -/
theorem magnitude_of_zeros {d : Decimal} {k : ℕ} (h : d.frac.getD [] = List.replicate k 48) :
    d.magnitude = ofDec d.int := by
  rw [magnitude, h, ofDec_append_zeros, List.length_replicate, Nat.cast_mul, Nat.cast_pow, Nat.cast_ofNat,
    mul_div_cancel_right₀]
  exact pow_ne_zero k (by norm_num)

/-- Digits that follow leave the number in front of them between two powers of ten. -/
theorem foldl_digits_bounds {t : List UInt8} (ht : ∀ c ∈ t, isDigit c = true) (n : ℕ) :
    n * 10 ^ t.length ≤ t.foldl (fun n c => 10 * n + (c.toNat - 48)) n ∧
      t.foldl (fun n c => 10 * n + (c.toNat - 48)) n < (n + 1) * 10 ^ t.length := by
  induction t generalizing n with
  | nil => simp
  | cons c t ih =>
      obtain ⟨hle, hlt⟩ := ih (fun x hx => ht x (List.mem_cons_of_mem _ hx)) (10 * n + (c.toNat - 48))
      have hc : c.toNat - 48 ≤ 9 := by
        have hdigit := of_decide_eq_true (ht c List.mem_cons_self)
        have := UInt8.le_iff_toNat_le.mp hdigit.2
        simp only [UInt8.reduceToNat] at this
        omega
      rw [List.foldl_cons, List.length_cons, pow_succ]
      have hpos : 0 < 10 ^ t.length := by positivity
      constructor <;> nlinarith

/-- The digits in front of the point are the whole part. -/
theorem magnitude_bounds (d : Decimal) : (ofDec d.int : ℚ) ≤ d.magnitude ∧ d.magnitude < ofDec d.int + 1 := by
  have hfrac : ∀ c ∈ d.frac.getD [], isDigit c = true := fun c hc =>
    d.isDigit_of_mem c (List.mem_append_right _ hc)
  obtain ⟨hle, hlt⟩ := foldl_digits_bounds hfrac (ofDec d.int)
  rw [← ofDec_append] at hle hlt
  have hpos : (0 : ℚ) < 10 ^ (d.frac.getD []).length := by positivity
  constructor
  · rw [magnitude, le_div_iff₀ hpos]
    exact_mod_cast hle
  · rw [magnitude, div_lt_iff₀ hpos]
    exact_mod_cast hlt

theorem isDigit_of_mem_int (d : Decimal) {c : UInt8} (h : c ∈ d.int) : isDigit c = true :=
  d.isDigit_of_mem c (List.mem_append_left _ h)

/-- The digits in front of the point are those up to the first byte that is none. -/
theorem span_int (d : Decimal) :
    (d.int ++ fracText d.frac).takeWhile (isDigit ·) = d.int ∧
      (d.int ++ fracText d.frac).dropWhile (isDigit ·) = fracText d.frac := by
  have hint := fun c (hc : c ∈ d.int) => d.isDigit_of_mem_int hc
  have hdot : isDigit dot = false := by decide
  rw [List.takeWhile_append_of_pos hint, List.dropWhile_append_of_pos hint]
  cases d.frac with
  | none => simp [fracText]
  | some ds => simp [fracText, hdot]

/-- The sign stands in front of something that is none. -/
theorem minus_not_mem_digits (d : Decimal) : minus ∉ d.int ++ fracText d.frac := by
  have hminus : isDigit minus = false := by decide
  intro h
  rcases List.mem_append.mp h with h | h
  · exact absurd (d.isDigit_of_mem_int h) (by simp [hminus])
  · cases hfrac : d.frac with
    | none => simp [hfrac, fracText] at h
    | some ds =>
        rw [hfrac, fracText, List.mem_cons] at h
        rcases h with h | h
        · exact absurd h (by decide)
        · have hdigit := d.isDigit_of_mem minus (by simp [hfrac, h])
          exact absurd hdigit (by simp [hminus])

/-- The text determines the number. -/
theorem text_injective : Function.Injective text := by
  intro d e h
  have hneg : d.neg = e.neg ∧ d.int ++ fracText d.frac = e.int ++ fracText e.frac := by
    rw [text, text] at h
    cases hd : d.neg <;> cases he : e.neg <;> simp only [hd, he, sign, if_true, if_false, List.nil_append,
      Bool.false_eq_true, List.cons_append] at h
    · exact ⟨rfl, h⟩
    · exact absurd (h ▸ List.mem_cons_self) d.minus_not_mem_digits
    · exact absurd (h.symm ▸ List.mem_cons_self) e.minus_not_mem_digits
    · exact ⟨rfl, (List.cons.inj h).2⟩
  obtain ⟨hint, hfrac⟩ := d.span_int
  obtain ⟨eint, efrac⟩ := e.span_int
  rw [hneg.2] at hint hfrac
  have hfrac' : fracText d.frac = fracText e.frac := hfrac.symm.trans efrac
  have hopt : d.frac = e.frac := by
    cases hd : d.frac <;> cases he : e.frac <;> simp_all [fracText]
  cases d
  cases e
  simp_all

/-- A text denotes one number. -/
theorem Denotes.unique {s : List UInt8} {q r : ℚ} (hq : Denotes s q) (hr : Denotes s r) : q = r := by
  obtain ⟨d, hd, rfl⟩ := hq
  obtain ⟨e, he, rfl⟩ := hr
  rw [text_injective (hd.trans he.symm)]

/-- There is a digit behind the sign. -/
theorem exists_isDigit_mem_text (d : Decimal) : ∃ c ∈ d.text, isDigit c = true := by
  obtain ⟨c, s, hc⟩ := List.exists_cons_of_ne_nil d.digits_ne_nil
  have hmem : c ∈ d.int ++ d.frac.getD [] := hc ▸ List.mem_cons_self
  refine ⟨c, ?_, d.isDigit_of_mem c hmem⟩
  rcases List.mem_append.mp hmem with h | h
  · simp [text, h]
  · cases hfrac : d.frac with
    | none => simp [hfrac] at h
    | some ds =>
        rw [hfrac, Option.getD_some] at h
        simp [text, fracText, hfrac, h]

/-- What stands behind the sign begins with a digit or with the point. -/
theorem exists_cons_digits (d : Decimal) :
    ∃ c s, d.int ++ fracText d.frac = c :: s ∧ (isDigit c = true ∨ c = dot) := by
  cases hint : d.int with
  | cons c s => exact ⟨c, s ++ fracText d.frac, rfl, .inl (d.isDigit_of_mem_int (hint ▸ List.mem_cons_self))⟩
  | nil =>
      cases hfrac : d.frac with
      | none => exact absurd (by simp [hint, hfrac]) d.digits_ne_nil
      | some ds => exact ⟨dot, ds, rfl, .inr rfl⟩

end Decimal
