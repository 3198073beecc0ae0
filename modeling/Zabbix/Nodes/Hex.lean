import Zabbix.Nodes.Field

/-!
# Zabbix.Nodes.Hex

The hexadecimal digits in memory (`libs/zbxcommon/str.c`).  `zbx_binary2hex`
grows its buffer from the length of the source; `zbx_hex2binary` writes over the
digits that it reads, two digits to a byte, and looks for the NUL once for both.

With an even number of digits the decoder stops at the NUL, and leaves what
`zbxHex2binary` computes (`io_hex2binaryLoop`).  With an odd number it takes the
NUL for a digit and reads on behind it (`mem_reads_of_odd`).
-/

namespace Zabbix

open Ascii

/-! ## encoding -/

/-- `zbx_binary2hex`: the buffer at `*output` after the call and the length
returned, where `room` is what a larger buffer has behind the old one; `none`
when the length overflows its `int`. -/
def zbxBinary2hexAlloc (input output : List UInt8) (room : ℕ → UInt8) : Option (List UInt8 × ℕ) :=
  let len := input.length * 2 + 1
  if 2 ^ 31 ≤ len then none
  else some (bufferPut (output ++ (List.range (len - output.length)).map room) (zbxBinary2hex input), len - 1)

/-! ## decoding in place -/

/-- What `zbx_hex2binary` has read and written, at which offsets, the storage that
it leaves and the length returned; there is none when it has left the storage. -/
structure HexDecoding where
  reads : List ℕ
  writes : List ℕ
  io : List UInt8
  length : Option ℕ
deriving DecidableEq, Repr

/-- The loop of `zbx_hex2binary`, with `i` and `o` as offsets in the storage. -/
def hex2binaryLoop (io : List UInt8) (i o : ℕ) : HexDecoding :=
  match _hi : io[i]? with
  | none => ⟨[i], [], io, none⟩
  | some c =>
      if c = nul then ⟨[i], [o], io.set o nul, some o⟩
      else
        match io[i + 1]? with
        | none => ⟨[i, i + 1], [], io, none⟩
        | some d =>
            let rest := hex2binaryLoop (io.set o ((zbxHex2num c <<< 4) + zbxHex2num d)) (i + 2) (o + 1)
            { rest with reads := i :: (i + 1) :: rest.reads, writes := o :: rest.writes }
termination_by io.length - i
decreasing_by
  obtain ⟨hlt, -⟩ := List.getElem?_eq_some_iff.mp _hi
  rw [List.length_set]
  omega

/-- `zbx_hex2binary` -/
def zbxHex2binaryInPlace (io : List UInt8) : HexDecoding := hex2binaryLoop io 0 0

/-- The decoder undoes the encoder: what it leaves at the start of the buffer, and
the length that it returns, are those of the source. -/
def Undoes (input output : List UInt8) (room : ℕ → UInt8) : Prop :=
  ∃ buffer len, zbxBinary2hexAlloc input output room = some (buffer, len) ∧
    (zbxHex2binaryInPlace buffer).length = some input.length ∧
    (zbxHex2binaryInPlace buffer).io.take input.length = input

/-- The decoder stays in its input: it reads nothing behind the terminating NUL and
writes nothing behind it. -/
def StaysInInput (s : CString) (behind : List UInt8) : Prop :=
  let r := zbxHex2binaryInPlace (s.val ++ nul :: behind)
  (∀ i ∈ r.reads, i ≤ s.val.length) ∧ ∀ o ∈ r.writes, o ≤ s.val.length

/-! ## one step -/

theorem hex2binaryLoop_nul {io : List UInt8} {i : ℕ} (h : io[i]? = some nul) (o : ℕ) :
    hex2binaryLoop io i o = ⟨[i], [o], io.set o nul, some o⟩ := by
  rw [hex2binaryLoop]
  split
  · next hi => rw [h] at hi; cases hi
  · next c hi =>
      obtain rfl : nul = c := Option.some.inj (h.symm.trans hi)
      exact if_pos rfl

theorem hex2binaryLoop_pair {io : List UInt8} {i : ℕ} {c d : UInt8} (hi : io[i]? = some c)
    (hi' : io[i + 1]? = some d) (hc : c ≠ nul) (o : ℕ) :
    hex2binaryLoop io i o =
      let rest := hex2binaryLoop (io.set o ((zbxHex2num c <<< 4) + zbxHex2num d)) (i + 2) (o + 1)
      { rest with reads := i :: (i + 1) :: rest.reads, writes := o :: rest.writes } := by
  rw [hex2binaryLoop]
  split
  · next h => rw [h] at hi; cases hi
  · next c' h =>
      obtain rfl : c = c' := Option.some.inj (hi.symm.trans h)
      rw [if_neg hc, hi']

/-- The first digit is read. -/
theorem mem_reads_hex2binaryLoop (io : List UInt8) (i o : ℕ) : i ∈ (hex2binaryLoop io i o).reads := by
  rw [hex2binaryLoop]
  split
  · simp
  · split
    · simp
    · split <;> simp

/-! ## what is left in the storage -/

theorem drop_eq_cons {io t : List UInt8} {i : ℕ} {c : UInt8} (h : io.drop i = c :: t) :
    io[i]? = some c ∧ io.drop (i + 1) = t := by
  constructor
  · rw [← List.head?_drop, h]
    rfl
  · rw [← List.drop_drop, h]
    rfl

/-- A byte is written in front of the digits that are still to be read. -/
theorem set_behind {io : List UInt8} {i o : ℕ} (ho : o ≤ i) (hi : i < io.length) (b : UInt8) :
    (io.set o b).take (o + 1) = io.take o ++ [b] ∧ (io.set o b).drop (i + 2) = io.drop (i + 2) := by
  constructor
  · rw [List.take_succ_eq_append_getElem (by rw [List.length_set]; omega), List.take_set_of_le le_rfl]
    simp
  · exact List.drop_set_of_lt (by omega)

/-- **The bytes written** are those of the digits. -/
theorem io_hex2binaryLoop (io : List UInt8) {i o n : ℕ} (ho : o ≤ i)
    (hn : (hex2binaryLoop io i o).length = some n) :
    (hex2binaryLoop io i o).io.take n = io.take o ++ zbxHex2binary (io.drop i) := by
  match hdrop : io.drop i with
  | [] =>
      have hi : io[i]? = none := by rw [← List.head?_drop, hdrop]; rfl
      rw [hex2binaryLoop] at hn
      split at hn
      · cases hn
      · next c hc =>
          rw [hi] at hc
          cases hc
  | c :: t =>
      obtain ⟨hc, htail⟩ := drop_eq_cons hdrop
      by_cases hnul : c = nul
      · subst hnul
        rw [hex2binaryLoop_nul hc] at hn ⊢
        cases hn
        change _ = _ ++ zbxHex2binary (0 :: t)
        rw [zbxHex2binary_nul, List.append_nil]
        exact List.take_set_of_le le_rfl
      · cases t with
        | nil =>
            have hd : io[i + 1]? = none := by rw [← List.head?_drop, htail]; rfl
            rw [hex2binaryLoop] at hn
            split at hn
            · cases hn
            · next c' hc' =>
                obtain rfl : c = c' := Option.some.inj (hc.symm.trans hc')
                rw [if_neg hnul, hd] at hn
                cases hn
        | cons d t =>
            obtain ⟨hd, htail'⟩ := drop_eq_cons htail
            rw [hex2binaryLoop_pair hc hd hnul] at hn ⊢
            obtain ⟨htake, hrest⟩ := set_behind ho (List.getElem?_eq_some_iff.mp hc).1
              ((zbxHex2num c <<< 4) + zbxHex2num d)
            rw [io_hex2binaryLoop _ (by omega) hn, htake, hrest, htail', zbxHex2binary]
            change _ = _ ++ (if c = nul then _ else _)
            rw [if_neg hnul, List.append_assoc]
            rfl
termination_by io.length - i
decreasing_by
  obtain ⟨hlt, -⟩ := List.getElem?_eq_some_iff.mp hc
  rw [List.length_set]
  omega

/-! ## how far the digits are read -/

/-- With an even number of digits in front of it the NUL ends the loop. -/
theorem hex2binaryLoop_even {t behind : List UInt8} (ht : nul ∉ t) (heven : t.length % 2 = 0) {io : List UInt8}
    {i o : ℕ} (hio : io.drop i = t ++ nul :: behind) (ho : o ≤ i) :
    (∀ j ∈ (hex2binaryLoop io i o).reads, j ≤ i + t.length) ∧
      (∀ j ∈ (hex2binaryLoop io i o).writes, j ≤ i + t.length) ∧
      (hex2binaryLoop io i o).length = some (o + t.length / 2) := by
  match t with
  | [] =>
      rw [hex2binaryLoop_nul (drop_eq_cons hio).1]
      simpa using ho
  | [_] => simp at heven
  | c :: d :: t =>
      obtain ⟨hc, hio⟩ := drop_eq_cons hio
      obtain ⟨hd, hio⟩ := drop_eq_cons hio
      simp only [List.mem_cons, not_or] at ht
      obtain ⟨hcne, -, ht⟩ := ht
      obtain ⟨-, hrest⟩ := set_behind ho (List.getElem?_eq_some_iff.mp hc).1
        ((zbxHex2num c <<< 4) + zbxHex2num d)
      simp only [List.length_cons] at heven ⊢
      obtain ⟨hreads, hwrites, hlen⟩ := hex2binaryLoop_even ht (by omega) (hrest.trans hio)
        (show o + 1 ≤ i + 2 by omega)
      rw [hex2binaryLoop_pair hc hd (Ne.symm hcne)]
      refine ⟨?_, ?_, hlen.trans (congrArg some (by omega))⟩
      · rintro j (_ | ⟨_, _ | ⟨_, hj⟩⟩)
        · omega
        · omega
        · have := hreads j hj
          omega
      · rintro j (_ | ⟨_, hj⟩)
        · omega
        · have := hwrites j hj
          omega

/-- With an odd number it is taken for a digit. -/
theorem mem_reads_of_odd {t behind : List UInt8} (ht : nul ∉ t) (hodd : t.length % 2 = 1) {io : List UInt8}
    {i o : ℕ} (hio : io.drop i = t ++ nul :: behind) (ho : o ≤ i) :
    i + t.length + 1 ∈ (hex2binaryLoop io i o).reads := by
  match t with
  | [] => simp at hodd
  | [c] =>
      obtain ⟨hc, hio⟩ := drop_eq_cons hio
      rw [List.mem_singleton] at ht
      rw [hex2binaryLoop_pair hc (drop_eq_cons hio).1 (Ne.symm ht)]
      exact .tail _ (.tail _ (mem_reads_hex2binaryLoop ..))
  | c :: d :: t =>
      obtain ⟨hc, hio⟩ := drop_eq_cons hio
      obtain ⟨hd, hio⟩ := drop_eq_cons hio
      simp only [List.mem_cons, not_or] at ht
      obtain ⟨hcne, -, ht⟩ := ht
      obtain ⟨-, hrest⟩ := set_behind ho (List.getElem?_eq_some_iff.mp hc).1
        ((zbxHex2num c <<< 4) + zbxHex2num d)
      simp only [List.length_cons] at hodd ⊢
      have hmem := mem_reads_of_odd ht (by omega) (hrest.trans hio) (show o + 1 ≤ i + 2 by omega)
      rw [hex2binaryLoop_pair hc hd (Ne.symm hcne)]
      refine .tail _ (.tail _ ?_)
      rwa [show i + (t.length + 1 + 1) + 1 = i + 2 + t.length + 1 by omega]

/-! ## the round trip, and the end of the input -/

theorem zbxNum2hex_ne_nul (c : UInt8) : zbxNum2hex (c &&& 0xf) ≠ nul := by
  have hdigits : ∀ n : Fin 16, zbxNum2hex (UInt8.ofNat n.val) ≠ nul := by decide
  have hlt : (c &&& 0xf).toNat < 16 := by
    rw [UInt8.toNat_and]
    exact Nat.lt_of_le_of_lt Nat.and_le_right (by decide)
  have hc := hdigits ⟨(c &&& 0xf).toNat, hlt⟩
  rwa [UInt8.ofNat_toNat] at hc

theorem nul_not_mem_zbxBinary2hex (s : List UInt8) : nul ∉ zbxBinary2hex s := by
  induction s with
  | nil => exact List.not_mem_nil
  | cons c s ih =>
      rw [zbxBinary2hex_cons, List.mem_cons, List.mem_cons, not_or, not_or]
      exact ⟨(zbxNum2hex_ne_nul _).symm, (zbxNum2hex_ne_nul _).symm, ih⟩

/-- What the decoder makes of digits in front of a NUL. -/
theorem zbxHex2binaryInPlace_binary2hex (input behind : List UInt8) :
    let r := zbxHex2binaryInPlace (zbxBinary2hex input ++ nul :: behind)
    r.length = some input.length ∧ r.io.take input.length = input := by
  intro r
  have hlen := length_zbxBinary2hex input
  have hr := (hex2binaryLoop_even (nul_not_mem_zbxBinary2hex input) (by omega)
    (List.drop_zero (l := zbxBinary2hex input ++ nul :: behind)) (Nat.le_refl 0)).2.2
  rw [hlen, Nat.zero_add, Nat.mul_div_cancel_left _ (by decide)] at hr
  refine ⟨hr, ?_⟩
  have hio := io_hex2binaryLoop (zbxBinary2hex input ++ nul :: behind) (Nat.le_refl 0) hr
  rw [List.take_zero, List.nil_append, List.drop_zero] at hio
  exact hio.trans (zbxHex2binary_binary2hex input behind)

theorem undoes_iff (input output : List UInt8) (room : ℕ → UInt8) :
    Undoes input output room ↔ input.length < 2 ^ 30 := by
  rw [Undoes, zbxBinary2hexAlloc]
  split
  · refine ⟨?_, fun h => absurd h (by omega)⟩
    rintro ⟨_, _, h, -⟩
    cases h
  · refine ⟨fun _ => by omega, fun _ => ⟨_, _, rfl, ?_⟩⟩
    exact zbxHex2binaryInPlace_binary2hex ..

theorem staysInInput_iff (s : CString) (behind : List UInt8) :
    StaysInInput s behind ↔ s.val.length % 2 = 0 := by
  have hio := List.drop_zero (l := s.val ++ nul :: behind)
  constructor
  · rintro ⟨hreads, -⟩
    by_contra hodd
    have hmem := mem_reads_of_odd s.property (by omega) hio (Nat.le_refl 0)
    have := hreads _ hmem
    omega
  · intro heven
    obtain ⟨hreads, hwrites, -⟩ := hex2binaryLoop_even s.property heven hio (Nat.le_refl 0)
    simp only [Nat.zero_add] at hreads hwrites
    exact ⟨hreads, hwrites⟩

/-- **Hexadecimal digits** are decoded to the bytes that they have been made from
when their number fits an `int`, and the decoder stays in its input exactly when
the number of characters is even. -/
theorem hex2binary_iff (input output : List UInt8) (room : ℕ → UInt8) (s : CString) (behind : List UInt8) :
    (Undoes input output room ↔ input.length < 2 ^ 30) ∧ (StaysInInput s behind ↔ s.val.length % 2 = 0) :=
  ⟨undoes_iff input output room, staysInInput_iff s behind⟩

/-- Of three digits and their NUL the decoder goes on to what is behind it. -/
theorem not_hex2binary :
    ¬((∀ input output room, Undoes input output room) ∧ ∀ s behind, StaysInInput s behind) := by
  rintro ⟨-, h⟩
  have hodd := (staysInInput_iff (literal "616") (bytes "62")).mp (h _ _)
  exact absurd hodd (by decide)

end Zabbix
