import Mathlib.Data.List.TakeWhile
import Mathlib.Tactic

/-!
# Transport

A byte stream that is read in pieces, and numbers as bytes in it.

How many bytes a read gives is up to the transport: at least one as long as the
stream is not at its end, and no more than were asked for.
-/

/-! ## reading in pieces -/

/-- A stream, and what the next reads will give: `none` for an error, `some k`
for up to `k + 1` bytes; later reads give all that is there. -/
structure Transport where
  stream : List UInt8
  reads : List (Option ℕ)
deriving DecidableEq

namespace Transport

/-- The number of bytes of a read of `n` bytes, as far as the transport goes. -/
def readSize (reads : List ℕ) (n : ℕ) : ℕ :=
  match reads with
  | [] => n
  | k :: _ => min n (k + 1)

/-- `read`, of up to `n` bytes; `none` for an error. -/
def read (t : Transport) (n : ℕ) : Option (List UInt8) × Transport :=
  match t.reads with
  | [] => (some (t.stream.take n), { t with stream := t.stream.drop n })
  | none :: reads => (none, { t with reads := reads })
  | some k :: reads =>
      (some (t.stream.take (min n (k + 1))), { stream := t.stream.drop (min n (k + 1)), reads := reads })

/-- A transport without errors. -/
def clean (stream : List UInt8) (reads : List ℕ) : Transport := { stream := stream, reads := reads.map some }

/-- A read without an error. -/
theorem read_clean (stream : List UInt8) (reads : List ℕ) (n : ℕ) :
    (clean stream reads).read n =
      (some (stream.take (readSize reads n)), clean (stream.drop (readSize reads n)) reads.tail) := by
  cases reads <;> rfl

theorem readSize_le (reads : List ℕ) (n : ℕ) : readSize reads n ≤ n := by
  cases reads with
  | nil => exact Nat.le_refl _
  | cons k reads => exact Nat.min_le_left ..

theorem readSize_pos (reads : List ℕ) {n : ℕ} (h : 0 < n) : 0 < readSize reads n := by
  cases reads with
  | nil => exact h
  | cons k reads =>
      rw [readSize]
      omega

/-- **A read takes the front of the stream**, no more than it is asked for. -/
theorem read_spec {t t' : Transport} {n : ℕ} {chunk : List UInt8} (h : t.read n = (some chunk, t')) :
    chunk ++ t'.stream = t.stream ∧ chunk.length ≤ n := by
  rw [read] at h
  split at h
  · obtain ⟨hchunk, rfl⟩ := Prod.mk.inj h
    obtain rfl := Option.some.inj hchunk
    exact ⟨List.take_append_drop .., List.length_take_le ..⟩
  · cases (Prod.mk.inj h).1
  · obtain ⟨hchunk, rfl⟩ := Prod.mk.inj h
    obtain rfl := Option.some.inj hchunk
    refine ⟨List.take_append_drop .., (List.length_take_le ..).trans (Nat.min_le_left ..)⟩

end Transport

/-! ## numbers in little endian -/

namespace LittleEndian

/-- The `width` low bytes of a number. -/
def encode : (width n : ℕ) → List UInt8
  | 0, _ => []
  | width + 1, n => UInt8.ofNat n :: encode width (n / 256)

/-- The number that bytes stand for. -/
def decode (bs : List UInt8) : ℕ := bs.foldr (fun b n => b.toNat + 256 * n) 0

@[simp] theorem length_encode (width n : ℕ) : (encode width n).length = width := by
  induction width generalizing n with
  | zero => rfl
  | succ width ih => rw [encode, List.length_cons, ih]

/-- Bytes that are wide enough give the number back. -/
theorem decode_encode {width n : ℕ} (h : n < 256 ^ width) : decode (encode width n) = n := by
  induction width generalizing n with
  | zero =>
      rw [Nat.pow_zero] at h
      rw [encode, decode, List.foldr_nil]
      omega
  | succ width ih =>
      have hdiv : n / 256 < 256 ^ width := by
        rw [Nat.pow_succ] at h
        exact (Nat.div_lt_iff_lt_mul (by decide)).mpr h
      have hrest : List.foldr (fun b n => b.toNat + 256 * n) 0 (encode width (n / 256)) = n / 256 := ih hdiv
      rw [encode, decode, List.foldr_cons, hrest, UInt8.toNat_ofNat']
      omega

/-- A byte of a number. -/
theorem getElem?_encode {width n i : ℕ} (h : i < width) :
    (encode width n)[i]? = some (UInt8.ofNat (n / 256 ^ i)) := by
  induction width generalizing n i with
  | zero => omega
  | succ width ih =>
      cases i with
      | zero => simp [encode]
      | succ i =>
          rw [encode, List.getElem?_cons_succ, ih (by omega), Nat.div_div_eq_div_mul, Nat.pow_succ, Nat.mul_comm]

end LittleEndian
