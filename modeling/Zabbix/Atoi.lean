import Zabbix.Lib.JsonText
import Zabbix.Lib.Printf
import Mathlib.Data.List.TakeWhile

/-!
# Zabbix.Atoi

How numbers are read: `atoll`, which stops at the ends of `long long`, `atoi`,
`zbx_atoui64`, which is `atoll` (`include/common.h`), and `ZBX_STR2UINT64`, which
is `sscanf` (`include/zbxtypes.h`).
-/

namespace Zabbix

open Ascii Printf

/-- `isspace` -/
def isSpace (c : UInt8) : Bool := c = space ∨ (9 ≤ c ∧ c ≤ 13)

/-- `atoll` -/
def atoll (s : List UInt8) : ℤ :=
  let digits := fun s : List UInt8 => ofDec (s.takeWhile fun c => JsonText.isDigit c)
  match s.dropWhile fun c => isSpace c with
  | [] => 0
  | c :: s =>
      if c = minus then -(min (digits s) (2 ^ 63) : ℕ)
      else if c = plus then (min (digits s) (2 ^ 63 - 1) : ℕ)
      else (min (digits (c :: s)) (2 ^ 63 - 1) : ℕ)

/-- `zbx_atoui64` -/
def zbxAtoui64 (s : List UInt8) : ℕ := (atoll s % 2 ^ 64).toNat

/-- `atoi`: the `int` that a `long` is cut to. -/
def atoi (s : List UInt8) : Int32 := Int32.ofInt (atoll s)

/-- The digits that `sscanf` converts; there is one at least. -/
def scanDigits (s : List UInt8) : Option ℕ :=
  match s.takeWhile fun c => JsonText.isDigit c with
  | [] => none
  | c :: digits => some (min (ofDec (c :: digits)) (2 ^ 64 - 1))

/-- `ZBX_STR2UINT64`; with `none` the variable is left as it is. -/
def zbxStr2uint64 (s : List UInt8) : Option UInt64 :=
  match s.dropWhile fun c => isSpace c with
  | [] => none
  | c :: s =>
      if c = minus then (scanDigits s).map fun n => -UInt64.ofNat n
      else if c = plus then (scanDigits s).map UInt64.ofNat
      else (scanDigits (c :: s)).map UInt64.ofNat

theorem dec_ne_nil (n : ℕ) : dec n ≠ [] := by
  intro h
  have hn := ofDec_dec n
  rw [h] at hn
  obtain rfl : n = 0 := hn.symm
  exact absurd h (by decide)

theorem isDigit_of_mem_dec {n : ℕ} {c : UInt8} (h : c ∈ dec n) : JsonText.isDigit c = true := by
  obtain ⟨hlo, hhi⟩ := digit_of_mem_dec h
  exact decide_eq_true ⟨UInt8.le_iff_toNat_le.mpr hlo, UInt8.le_iff_toNat_le.mpr hhi⟩

/-- Printed digits are read up to the greatest `long long`. -/
theorem atoll_dec (n : ℕ) : atoll (dec n) = (min n (2 ^ 63 - 1) : ℕ) := by
  have hdigits : (dec n).takeWhile (fun c => JsonText.isDigit c) = dec n :=
    List.takeWhile_eq_self_iff.mpr fun c hc => isDigit_of_mem_dec hc
  have hofDec := ofDec_dec n
  cases hdec : dec n with
  | nil =>
      rw [hdec] at hofDec
      rw [← hofDec]
      rfl
  | cons c s =>
      have hc := digit_of_mem_dec (hdec ▸ List.mem_cons_self .. : c ∈ dec n)
      have hbyte : ∀ c : UInt8, 48 ≤ c.toNat ∧ c.toNat ≤ 57 → ¬isSpace c = true ∧ c ≠ minus ∧ c ≠ plus :=
        forall_byte (by decide +kernel)
      obtain ⟨hspace, hminus, hplus⟩ := hbyte c hc
      rw [atoll, List.dropWhile_cons_of_neg hspace]
      dsimp only
      rw [if_neg hminus, if_neg hplus, ← hdec, hdigits, hofDec]

theorem zbxAtoui64_dec_min (n : ℕ) : zbxAtoui64 (dec n) = min n (2 ^ 63 - 1) := by
  rw [zbxAtoui64, atoll_dec, Int.emod_eq_of_lt (by omega) (by omega), Int.toNat_natCast]

/-- A number below 2^63 is read as it was printed. -/
theorem zbxAtoui64_dec {n : ℕ} (h : n < 2 ^ 63) : zbxAtoui64 (dec n) = n := by
  rw [zbxAtoui64_dec_min]
  omega

/-- A number that a `long` holds is read as it was printed. -/
theorem atoi_dec {n : ℕ} (h : n < 2 ^ 31) : (atoi (dec n)).toInt.toNat = n := by
  have hmin : min n (2 ^ 63 - 1) = n := by omega
  rw [atoi, atoll_dec, hmin, Int32.toInt_ofInt_of_le (by omega) (by omega), Int.toNat_natCast]

/-- A number of 64 bits is read as it was printed. -/
theorem zbxStr2uint64_ui64 (n : UInt64) : zbxStr2uint64 (ui64 n) = some n := by
  have hlt := n.toNat_lt
  have hofDec := ofDec_dec n.toNat
  have hdigits : (dec n.toNat).takeWhile (fun c => JsonText.isDigit c) = dec n.toNat :=
    List.takeWhile_eq_self_iff.mpr fun c hc => isDigit_of_mem_dec hc
  rw [ui64]
  cases hdec : dec n.toNat with
  | nil => exact absurd hdec (dec_ne_nil _)
  | cons c s =>
      have hc := digit_of_mem_dec (hdec ▸ List.mem_cons_self .. : c ∈ dec n.toNat)
      have hbyte : ∀ c : UInt8, 48 ≤ c.toNat ∧ c.toNat ≤ 57 → ¬isSpace c = true ∧ c ≠ minus ∧ c ≠ plus :=
        forall_byte (by decide +kernel)
      obtain ⟨hspace, hminus, hplus⟩ := hbyte c hc
      have hmin : min n.toNat (2 ^ 64 - 1) = n.toNat := by omega
      rw [hdec] at hdigits hofDec
      rw [zbxStr2uint64, List.dropWhile_cons_of_neg hspace]
      dsimp only
      rw [if_neg hminus, if_neg hplus, scanDigits, hdigits, Option.map_some, hofDec, hmin, UInt64.ofNat_toNat]

end Zabbix
