import Zabbix.Str

/-!
# Zabbix.Crypto.Base64

`libs/zbxcrypto/base64.c`.  The encoder regroups three bytes into four
characters until the buffer of `ZBX_MAX_B64_LEN` bytes is full; the decoder
first drops the characters that are none of base64, then takes the rest four
by four, and stops when `maxsize` bytes are out.

The regrouping is undone group by group (`decodeGroup_encodeGroup`), and the
text by induction on the groups (`decodeLoop_encodeAll`).
-/

namespace Zabbix

open Ascii

/-- `ZBX_MAX_B64_LEN` -/
def zbxMaxB64Len : ℕ := 16 * 1024

/-- `MAX_B64_SIZE` -/
def maxB64Size : ℕ := 64 * 1024

def base64Set : List UInt8 := bytes "ABCDEFGHIJKLMNOPQRSTUVWXYZabcdefghijklmnopqrstuvwxyz0123456789+/"

/-- `is_base64`: a digit, a small or capital letter, or one of `/`, `+` and
the padding. -/
def isBase64 (c : UInt8) : Bool :=
  48 ≤ c && c ≤ 57 || 97 ≤ c && c ≤ 122 || 65 ≤ c && c ≤ 90 || c == slash || c == plus || c == equals

def charBase64Encode (uc : UInt8) : UInt8 := base64Set.getD uc.toNat nul

/-- `char_base64_decode`; what is none of the other characters counts as `/`. -/
def charBase64Decode (c : UInt8) : UInt8 :=
  if 65 ≤ c ∧ c ≤ 90 then c - 65
  else if 97 ≤ c ∧ c ≤ 122 then c - 97 + 26
  else if 48 ≤ c ∧ c ≤ 57 then c - 48 + 52
  else if c = plus then 62
  else 63

/-! ## encoding -/

/-- The four characters of `from1` and of the bytes that follow it, if they do. -/
def encodeGroup (from1 : UInt8) (from2 from3 : Option UInt8) : List UInt8 :=
  let to1 := (from1 >>> 2) &&& 0x3f
  let to2 := ((from1 &&& 0x3) <<< 4) ||| (from2.getD 0 >>> 4)
  let to3 := ((from2.getD 0 &&& 0xf) <<< 2) ||| (from3.getD 0 >>> 6)
  let to4 := from3.getD 0 &&& 0x3f
  [charBase64Encode to1, charBase64Encode to2,
    if from2.isSome then charBase64Encode to3 else equals,
    if from3.isSome then charBase64Encode to4 else equals]

/-- The loop of `str_base64_encode`, with `offset` characters written: it stops
where another group and the terminator would not fit. -/
def encodeLoop : List UInt8 → ℕ → List UInt8
  | [], _ => []
  | [from1], offset => if zbxMaxB64Len - 5 < offset then [] else encodeGroup from1 none none
  | [from1, from2], offset => if zbxMaxB64Len - 5 < offset then [] else encodeGroup from1 (some from2) none
  | from1 :: from2 :: from3 :: str, offset =>
      if zbxMaxB64Len - 5 < offset then []
      else encodeGroup from1 (some from2) (some from3) ++ encodeLoop str (offset + 4)

/-- `str_base64_encode`: the string at `p_b64str` after the call, where `old`
has been before.  Of no bytes nothing is written, not even the terminator. -/
def strBase64Encode (str : List UInt8) (old : CString) : List UInt8 :=
  if str = [] then old.val else encodeLoop str 0

/-! ## decoding -/

/-- What is written to `p_str` and `p_out_size`. -/
structure Decoded where
  str : List UInt8
  outSize : ℕ
  deriving DecidableEq

/-- `*p_str++ = b; if (++(*p_out_size) == maxsize) break;`, where the error is
the `break`. -/
def Decoded.put (maxsize : ℕ) (b : UInt8) (d : Decoded) : Except Decoded Decoded :=
  let d := ⟨d.str ++ [b], d.outSize + 1⟩
  if d.outSize = maxsize then .error d else .ok d

def decodeGroup (maxsize : ℕ) (from1 from2 from3 from4 : UInt8) (d : Decoded) : Except Decoded Decoded := do
  let to1 := charBase64Decode from1
  let to2 := charBase64Decode from2
  let to3 := charBase64Decode from3
  let to4 := charBase64Decode from4
  let d ← d.put maxsize ((to1 <<< 2) ||| (to2 >>> 4))
  let d ← if from3 ≠ equals then d.put maxsize (((to2 &&& 0xf) <<< 4) ||| (to3 >>> 2)) else pure d
  if from4 ≠ equals then d.put maxsize (((to3 &&& 0x3) <<< 6) ||| to4) else pure d

/-- A `break` leaves the loop with what has been decoded. -/
def unlessFull (r : Except Decoded Decoded) (loop : Decoded → Decoded) : Decoded :=
  match r with
  | .error d => d
  | .ok d => loop d

/-- The loop over `str_clean`; missing characters of the last group are `A`. -/
def decodeLoop (maxsize : ℕ) : List UInt8 → Decoded → Decoded
  | [], d => d
  | [from1], d => unlessFull (decodeGroup maxsize from1 65 65 65 d) id
  | [from1, from2], d => unlessFull (decodeGroup maxsize from1 from2 65 65 d) id
  | [from1, from2, from3], d => unlessFull (decodeGroup maxsize from1 from2 from3 65 d) id
  | from1 :: from2 :: from3 :: from4 :: clean, d =>
      unlessFull (decodeGroup maxsize from1 from2 from3 from4 d) (decodeLoop maxsize clean)

/-- `str_base64_decode`; `none` when the assertion on `maxsize` fails, and when
the text has more characters of base64 than `str_clean` has room for. -/
def strBase64Decode (b64str : List UInt8) (maxsize : ℕ) : Option Decoded :=
  if 0 < maxsize ∧ (b64str.filter isBase64).length < maxB64Size then
    some (decodeLoop maxsize (b64str.filter isBase64) ⟨[], 0⟩)
  else none

/-- `text` is `b64str` with characters inserted that are none of base64. -/
inductive Inserted : List UInt8 → List UInt8 → Prop
  | nil : Inserted [] []
  | keep (c : UInt8) {b64str text : List UInt8} : Inserted b64str text → Inserted (c :: b64str) (c :: text)
  | insert {c : UInt8} {b64str text : List UInt8} (hc : isBase64 c = false) (hnul : c ≠ nul) :
      Inserted b64str text → Inserted b64str (c :: text)

/-! ## a group -/

theorem charBase64Encode_spec {uc : UInt8} (h : uc.toNat < 64) :
    isBase64 (charBase64Encode uc) = true ∧ charBase64Encode uc ≠ equals ∧
      charBase64Decode (charBase64Encode uc) = uc := by
  have hall : ∀ n : Fin 64, isBase64 (charBase64Encode (UInt8.ofNat n.val)) = true ∧
      charBase64Encode (UInt8.ofNat n.val) ≠ equals ∧
      charBase64Decode (charBase64Encode (UInt8.ofNat n.val)) = UInt8.ofNat n.val := by
    decide +kernel
  have huc := hall ⟨uc.toNat, h⟩
  rwa [UInt8.ofNat_toNat] at huc

/-- A value of six bits. -/
theorem toNat_and_lt (a : UInt8) : (a &&& 0x3f).toNat < 64 := by
  rw [UInt8.toNat_and]
  exact Nat.lt_of_le_of_lt Nat.and_le_right (by decide)

section Bits

variable (a b c : UInt8)

theorem eq_of_getLsbD {a b : UInt8} (h : ∀ i < 8, a.toBitVec.getLsbD i = b.toBitVec.getLsbD i) : a = b :=
  UInt8.toBitVec_inj.mp (BitVec.eq_of_getLsbD_eq h)

theorem to2_lt : (((a &&& 0x3) <<< 4) ||| (b >>> 4)).toNat < 64 := by
  have hmask : ((a &&& 0x3) <<< 4) ||| (b >>> 4) = (((a &&& 0x3) <<< 4) ||| (b >>> 4)) &&& 0x3f := by
    refine eq_of_getLsbD fun i hi => ?_
    interval_cases i <;> simp
  rw [hmask]
  exact toNat_and_lt _

theorem to3_lt : (((a &&& 0xf) <<< 2) ||| (b >>> 6)).toNat < 64 := by
  have hmask : ((a &&& 0xf) <<< 2) ||| (b >>> 6) = (((a &&& 0xf) <<< 2) ||| (b >>> 6)) &&& 0x3f := by
    refine eq_of_getLsbD fun i hi => ?_
    interval_cases i <;> simp
  rw [hmask]
  exact toNat_and_lt _

/-- The first byte is in the first character and the high bits of the second. -/
theorem regroup_first :
    (((a >>> 2) &&& 0x3f) <<< 2) ||| ((((a &&& 0x3) <<< 4) ||| (b >>> 4)) >>> 4) = a := by
  refine eq_of_getLsbD fun i hi => ?_
  interval_cases i <;> simp

theorem regroup_second :
    (((((a &&& 0x3) <<< 4) ||| (b >>> 4)) &&& 0xf) <<< 4) ||| ((((b &&& 0xf) <<< 2) ||| (c >>> 6)) >>> 2) = b := by
  refine eq_of_getLsbD fun i hi => ?_
  interval_cases i <;> simp

theorem regroup_third : (((((b &&& 0xf) <<< 2) ||| (c >>> 6)) &&& 0x3) <<< 6) ||| (c &&& 0x3f) = c := by
  refine eq_of_getLsbD fun i hi => ?_
  interval_cases i <;> simp

end Bits

/-- The bytes of a group are put one after the other. -/
def putAll (maxsize : ℕ) (l : List UInt8) (d : Decoded) : Except Decoded Decoded :=
  l.foldlM (fun d b => d.put maxsize b) d

/-- The characters that are no padding decide which bytes are put. -/
theorem decodeGroup_eq {c1 c2 c3 c4 a b c : UInt8} (maxsize : ℕ) (d : Decoded)
    (ha : (charBase64Decode c1 <<< 2) ||| (charBase64Decode c2 >>> 4) = a)
    (hb : c3 ≠ equals → ((charBase64Decode c2 &&& 0xf) <<< 4) ||| (charBase64Decode c3 >>> 2) = b)
    (hc : c4 ≠ equals → ((charBase64Decode c3 &&& 0x3) <<< 6) ||| charBase64Decode c4 = c) :
    decodeGroup maxsize c1 c2 c3 c4 d =
      putAll maxsize (a :: ((if c3 ≠ equals then [b] else []) ++ if c4 ≠ equals then [c] else [])) d := by
  rw [decodeGroup, ha, putAll]
  by_cases h3 : c3 = equals <;> by_cases h4 : c4 = equals
  · simp [h3, h4]
  · simp [h3, h4, ← hc h4]
  · simp [h3, h4, hb h3]
  · simp [h3, h4, hb h3, hc h4]

/-- A group is decoded to the bytes that it was made of. -/
theorem decodeGroup_encodeGroup (maxsize : ℕ) (from1 : UInt8) (from2 from3 : Option UInt8) (d : Decoded) :
    ∃ c1 c2 c3 c4, encodeGroup from1 from2 from3 = [c1, c2, c3, c4] ∧
      ((from3.isSome → from2.isSome) → decodeGroup maxsize c1 c2 c3 c4 d =
        putAll maxsize (from1 :: (from2.toList ++ from3.toList)) d) := by
  refine ⟨_, _, _, _, rfl, fun h => ?_⟩
  obtain ⟨-, -, hto1⟩ := charBase64Encode_spec (toNat_and_lt (from1 >>> 2))
  obtain ⟨-, -, hto2⟩ := charBase64Encode_spec (to2_lt from1 (from2.getD 0))
  obtain ⟨-, hne3, hto3⟩ := charBase64Encode_spec (to3_lt (from2.getD 0) (from3.getD 0))
  obtain ⟨-, hne4, hto4⟩ := charBase64Encode_spec (toNat_and_lt (from3.getD 0))
  rw [decodeGroup_eq (a := from1) (b := from2.getD 0) (c := from3.getD 0)]
  · cases from2 <;> cases from3 <;> simp_all
  · rw [hto1, hto2, regroup_first]
  · intro hc3
    split at hc3
    · rw [if_pos ‹_›, hto2, hto3, regroup_second]
    · exact absurd rfl hc3
  · intro hc4
    split at hc4
    · rw [if_pos (h ‹_›), if_pos ‹_›, hto3, hto4, regroup_third]
    · exact absurd rfl hc4

/-- The bytes of `l` are behind what has been decoded. -/
def Decoded.append (d : Decoded) (l : List UInt8) : Decoded := ⟨d.str ++ l, d.outSize + l.length⟩

@[simp] theorem Decoded.append_nil (d : Decoded) : d.append [] = d := by
  simp [append]

theorem Decoded.append_append (d : Decoded) (l l' : List UInt8) : (d.append l).append l' = d.append (l ++ l') := by
  simp [append, Nat.add_assoc]

/-- Bytes that `maxsize` has room for are all put; where the last of them fills
it, the loop is left, which must make no difference. -/
theorem unlessFull_putAll {maxsize : ℕ} {l : List UInt8} {d : Decoded} {loop : Decoded → Decoded}
    (h : d.outSize + l.length ≤ maxsize)
    (hfull : d.outSize + l.length = maxsize → loop (d.append l) = d.append l) :
    unlessFull (putAll maxsize l d) loop = loop (d.append l) := by
  induction l generalizing d with
  | nil => rw [Decoded.append_nil]; rfl
  | cons b l ih =>
      have happend : d.append (b :: l) = (d.append [b]).append l := (d.append_append [b] l).symm
      rw [List.length_cons] at h hfull
      rw [happend] at hfull ⊢
      change unlessFull ((if d.outSize + 1 = maxsize then .error (d.append [b]) else .ok (d.append [b])) >>=
        putAll maxsize l) loop = _
      by_cases hlast : d.outSize + 1 = maxsize
      · obtain rfl : l = [] := List.length_eq_zero_iff.mp (by omega)
        rw [if_pos hlast, hfull hlast, Decoded.append_nil]
        rfl
      · rw [if_neg hlast]
        refine ih ?_ fun hlen => hfull ?_
        · change d.outSize + 1 + l.length ≤ maxsize
          omega
        · change d.outSize + 1 + l.length = maxsize at hlen
          omega

/-! ## the text -/

/-- The groups of a string, however many they are. -/
def encodeAll : List UInt8 → List UInt8
  | [] => []
  | [from1] => encodeGroup from1 none none
  | [from1, from2] => encodeGroup from1 (some from2) none
  | from1 :: from2 :: from3 :: str => encodeGroup from1 (some from2) (some from3) ++ encodeAll str

/-- How many groups there is room for. -/
def maxGroups : ℕ := 4095

/-- The encoder encodes the groups that there is room for. -/
theorem encodeLoop_eq_encodeAll (str : List UInt8) (k : ℕ) :
    encodeLoop str (4 * k) = encodeAll (str.take (3 * (maxGroups - k))) := by
  have hroom : zbxMaxB64Len - 5 < 4 * k ↔ maxGroups - k = 0 := by
    simp only [zbxMaxB64Len, maxGroups]
    omega
  by_cases hk : maxGroups - k = 0
  · rw [hk, Nat.mul_zero, List.take_zero]
    match str with
    | [] => rfl
    | [_] => exact if_pos (hroom.mpr hk)
    | [_, _] => exact if_pos (hroom.mpr hk)
    | _ :: _ :: _ :: _ => exact if_pos (hroom.mpr hk)
  · have hnot := mt hroom.mp hk
    obtain ⟨j, hj⟩ := Nat.exists_eq_succ_of_ne_zero hk
    rw [hj, show 3 * j.succ = 3 * j + 3 by omega]
    match str with
    | [] => rfl
    | [_] => exact if_neg hnot
    | [_, _] => exact if_neg hnot
    | _ :: _ :: _ :: str =>
        have ih := encodeLoop_eq_encodeAll str (k + 1)
        rw [show maxGroups - (k + 1) = j by omega] at ih
        exact (if_neg hnot).trans (congrArg _ ih)

/-- The decoder on a group in front of characters that it decodes to `str`. -/
theorem decodeLoop_group {maxsize : ℕ} {from1 : UInt8} {from2 from3 : Option UInt8} {str clean : List UInt8}
    (h : from3.isSome → from2.isSome) {d : Decoded}
    (hsize : d.outSize + (from1 :: (from2.toList ++ from3.toList) ++ str).length ≤ maxsize)
    (ih : ∀ d : Decoded, d.outSize + str.length ≤ maxsize → decodeLoop maxsize clean d = d.append str) :
    decodeLoop maxsize (encodeGroup from1 from2 from3 ++ clean) d =
      d.append (from1 :: (from2.toList ++ from3.toList) ++ str) := by
  obtain ⟨c1, c2, c3, c4, hgroup, hdecode⟩ := decodeGroup_encodeGroup maxsize from1 from2 from3 d
  rw [List.length_append] at hsize
  have htail : ∀ d' : Decoded, d'.outSize = d.outSize + (from1 :: (from2.toList ++ from3.toList)).length →
      decodeLoop maxsize clean d' = d'.append str :=
    fun d' hd' => ih d' (by omega)
  rw [hgroup, ← d.append_append, ← htail _ rfl]
  change unlessFull (decodeGroup maxsize c1 c2 c3 c4 d) (decodeLoop maxsize clean) = _
  rw [hdecode h]
  refine unlessFull_putAll (by omega) fun hfull => ?_
  obtain rfl : str = [] := List.length_eq_zero_iff.mp (by omega)
  rw [htail _ rfl, Decoded.append_nil]

theorem decodeLoop_encodeAll {maxsize : ℕ} (str : List UInt8) (d : Decoded) (h : d.outSize + str.length ≤ maxsize) :
    decodeLoop maxsize (encodeAll str) d = d.append str := by
  fun_induction encodeAll str generalizing d with
  | case1 => exact d.append_nil.symm
  | case2 from1 => exact @decodeLoop_group maxsize from1 none none [] [] nofun d h fun d _ => d.append_nil.symm
  | case3 from1 from2 =>
      exact @decodeLoop_group maxsize from1 (some from2) none [] [] (fun _ => rfl) d h fun d _ => d.append_nil.symm
  | case4 from1 from2 from3 str ih => exact decodeLoop_group (fun _ => rfl) h ih

theorem isBase64_of_mem_encodeAll {str : List UInt8} : ∀ c ∈ encodeAll str, isBase64 c = true := by
  have hgroup : ∀ (from1 : UInt8) (from2 from3 : Option UInt8), ∀ c ∈ encodeGroup from1 from2 from3,
      isBase64 c = true := by
    intro from1 from2 from3
    have h1 := (charBase64Encode_spec (toNat_and_lt (from1 >>> 2))).1
    have h2 := (charBase64Encode_spec (to2_lt from1 (from2.getD 0))).1
    have h3 := (charBase64Encode_spec (to3_lt (from2.getD 0) (from3.getD 0))).1
    have h4 := (charBase64Encode_spec (toNat_and_lt (from3.getD 0))).1
    have hpad : isBase64 equals = true := by decide
    simp only [encodeGroup, List.forall_mem_cons]
    refine ⟨h1, h2, ?_, ?_, List.forall_mem_nil _⟩
    · split
      · exact h3
      · exact hpad
    · split
      · exact h4
      · exact hpad
  fun_induction encodeAll str with
  | case1 => exact List.forall_mem_nil _
  | case2 from1 => exact hgroup _ _ _
  | case3 from1 from2 => exact hgroup _ _ _
  | case4 from1 from2 from3 str ih => exact List.forall_mem_append.mpr ⟨hgroup _ _ _, ih⟩

theorem length_encodeGroup (from1 : UInt8) (from2 from3 : Option UInt8) :
    (encodeGroup from1 from2 from3).length = 4 := rfl

theorem length_encodeAll (str : List UInt8) : (encodeAll str).length = 4 * ((str.length + 2) / 3) := by
  fun_induction encodeAll str with
  | case1 => rfl
  | case2 from1 => rw [length_encodeGroup, List.length_singleton]
  | case3 from1 from2 => rw [length_encodeGroup, List.length_cons, List.length_singleton]
  | case4 from1 from2 from3 str ih =>
      rw [List.length_append, ih]
      change 4 + _ = 4 * ((str.length + 3 + 2) / 3)
      omega

/-- The cleaning pass takes out what has been inserted. -/
theorem Inserted.filter_eq {b64str text : List UInt8} (h : Inserted b64str text) :
    text.filter isBase64 = b64str.filter isBase64 := by
  induction h with
  | nil => rfl
  | keep c _ ih => rw [List.filter_cons, List.filter_cons, ih]
  | insert hc _ _ ih => rw [List.filter_cons, if_neg (Bool.eq_false_iff.mp hc), ih]

/-! ## the round trip -/

/-- Of a string that is not empty the decoder returns as many bytes as there has
been room to encode. -/
theorem decode_encode_of_ne_nil {str text : List UInt8} {old : CString} {maxsize : ℕ} (hne : str ≠ [])
    (htext : Inserted (strBase64Encode str old) text) (hmax : str.length ≤ maxsize) :
    strBase64Decode text maxsize =
      some ⟨str.take (3 * maxGroups), (str.take (3 * maxGroups)).length⟩ := by
  have hencode : strBase64Encode str old = encodeAll (str.take (3 * maxGroups)) := by
    rw [strBase64Encode, if_neg hne]
    exact encodeLoop_eq_encodeAll str 0
  have hclean : text.filter isBase64 = encodeAll (str.take (3 * maxGroups)) := by
    rw [htext.filter_eq, hencode]
    exact List.filter_eq_self.mpr isBase64_of_mem_encodeAll
  have hpos := List.length_pos_of_ne_nil hne
  have hlen : (str.take (3 * maxGroups)).length ≤ 3 * maxGroups := List.length_take_le ..
  have hle : (str.take (3 * maxGroups)).length ≤ str.length := List.length_take_le' ..
  have hroom : (encodeAll (str.take (3 * maxGroups))).length < maxB64Size := by
    rw [length_encodeAll]
    simp only [maxGroups, maxB64Size] at hlen ⊢
    omega
  rw [strBase64Decode, hclean, if_pos ⟨hpos.trans_le hmax, hroom⟩,
    decodeLoop_encodeAll _ _ (by change 0 + _ ≤ _; omega)]
  exact congrArg some (by rw [Decoded.append, List.nil_append, Nat.zero_add])

/-- A loop that does not take back what it is given leaves more than `n` bytes
when there is one to put. -/
theorem lt_outSize_unlessFull {maxsize n : ℕ} {l : List UInt8} {d : Decoded} {loop : Decoded → Decoded}
    (hloop : ∀ d' : Decoded, n < d'.outSize → n < (loop d').outSize)
    (h : n < d.outSize ∨ l ≠ [] ∧ n ≤ d.outSize) : n < (unlessFull (putAll maxsize l d) loop).outSize := by
  induction l generalizing d with
  | nil => exact hloop d (h.resolve_right fun h => h.1 rfl)
  | cons b l ih =>
      have hlt : n < (d.append [b]).outSize := by
        change n < d.outSize + 1
        omega
      change n < (unlessFull ((if d.outSize + 1 = maxsize then .error (d.append [b]) else .ok (d.append [b])) >>=
        putAll maxsize l) loop).outSize
      split
      · exact hlt
      · exact ih (.inl hlt)

theorem lt_outSize_decodeLoop (maxsize : ℕ) {n : ℕ} (clean : List UInt8) {d : Decoded}
    (h : n < d.outSize ∨ clean ≠ [] ∧ n ≤ d.outSize) : n < (decodeLoop maxsize clean d).outSize := by
  have hle : n ≤ d.outSize := h.elim le_of_lt And.right
  have hgroup : ∀ (c1 c2 c3 c4 : UInt8) {loop : Decoded → Decoded},
      (∀ d' : Decoded, n < d'.outSize → n < (loop d').outSize) →
      n < (unlessFull (decodeGroup maxsize c1 c2 c3 c4 d) loop).outSize := by
    intro c1 c2 c3 c4 loop hloop
    rw [decodeGroup_eq maxsize d rfl (fun _ => rfl) fun _ => rfl]
    exact lt_outSize_unlessFull hloop (.inr ⟨List.cons_ne_nil _ _, hle⟩)
  match clean with
  | [] => exact h.resolve_right fun h => h.1 rfl
  | [_] => exact hgroup _ _ _ _ fun _ => id
  | [_, _] => exact hgroup _ _ _ _ fun _ => id
  | [_, _, _] => exact hgroup _ _ _ _ fun _ => id
  | _ :: _ :: _ :: _ :: clean =>
      exact hgroup _ _ _ _ fun _ hd' => lt_outSize_decodeLoop maxsize clean (.inl hd')

/-- What has been decoded, while there is room. -/
def Decoded.Fits (maxsize : ℕ) (d : Decoded) : Prop := d.str.length = d.outSize ∧ d.outSize ≤ maxsize

/-- Bytes are put as long as there is room. -/
theorem fits_unlessFull {maxsize : ℕ} {l : List UInt8} {d : Decoded} {loop : Decoded → Decoded}
    (hloop : ∀ d' : Decoded, d'.Fits maxsize → d'.outSize < maxsize → (loop d').Fits maxsize)
    (h : d.Fits maxsize) (hlt : d.outSize < maxsize) : (unlessFull (putAll maxsize l d) loop).Fits maxsize := by
  induction l generalizing d with
  | nil => exact hloop d h hlt
  | cons b l ih =>
      have happend : (d.append [b]).Fits maxsize := by
        refine ⟨?_, hlt⟩
        change (d.str ++ [b]).length = d.outSize + 1
        rw [List.length_append, h.1, List.length_singleton]
      change (unlessFull ((if d.outSize + 1 = maxsize then .error (d.append [b]) else .ok (d.append [b])) >>=
        putAll maxsize l) loop).Fits maxsize
      split
      · exact happend
      · refine ih happend ?_
        change d.outSize + 1 < maxsize
        omega

/-- **No more than `maxsize` bytes** are decoded. -/
theorem fits_decodeLoop {maxsize : ℕ} (clean : List UInt8) {d : Decoded} (h : d.Fits maxsize)
    (hlt : d.outSize < maxsize) : (decodeLoop maxsize clean d).Fits maxsize := by
  have hgroup : ∀ (c1 c2 c3 c4 : UInt8) {loop : Decoded → Decoded},
      (∀ d' : Decoded, d'.Fits maxsize → d'.outSize < maxsize → (loop d').Fits maxsize) →
      (unlessFull (decodeGroup maxsize c1 c2 c3 c4 d) loop).Fits maxsize := by
    intro c1 c2 c3 c4 loop hloop
    rw [decodeGroup_eq maxsize d rfl (fun _ => rfl) fun _ => rfl]
    exact fits_unlessFull hloop h hlt
  match clean with
  | [] => exact h
  | [_] => exact hgroup _ _ _ _ fun _ hd' _ => hd'
  | [_, _] => exact hgroup _ _ _ _ fun _ hd' _ => hd'
  | [_, _, _] => exact hgroup _ _ _ _ fun _ hd' _ => hd'
  | _ :: _ :: _ :: _ :: clean => exact hgroup _ _ _ _ fun _ => fits_decodeLoop clean

/-- The decoder returns nothing exactly for a text that has no character of
base64. -/
theorem decode_eq_nil_iff (text : List UInt8) (maxsize : ℕ) :
    strBase64Decode text maxsize = some ⟨[], 0⟩ ↔ 0 < maxsize ∧ text.filter isBase64 = [] := by
  rw [strBase64Decode]
  constructor
  · intro h
    split at h
    case isTrue hroom =>
      refine ⟨hroom.1, ?_⟩
      by_contra hne
      have hlt := @lt_outSize_decodeLoop maxsize 0 (text.filter isBase64) ⟨[], 0⟩ (.inr ⟨hne, le_rfl⟩)
      rw [Option.some.inj h] at hlt
      exact absurd hlt (lt_irrefl 0)
    case isFalse => cases h
  · rintro ⟨hpos, hnil⟩
    rw [hnil, if_pos ⟨hpos, by decide⟩]
    rfl

/-- What is encoded is decoded again exactly when there is something to encode
and its text leaves room for the terminator, or else nothing of base64 has
been in the buffer before. -/
theorem decode_encode_iff {str text : List UInt8} {old : CString} {maxsize : ℕ}
    (hfits : (encodeAll str).length ≤ zbxMaxB64Len)
    (htext : Inserted (strBase64Encode str old) text) (hmax : str.length ≤ maxsize) :
    strBase64Decode text maxsize = some ⟨str, str.length⟩ ↔
      if str = [] then 0 < maxsize ∧ ∀ c ∈ old.val, isBase64 c = false
      else (encodeAll str).length < zbxMaxB64Len := by
  split
  case isTrue hnil =>
    subst hnil
    rw [List.length_nil, decode_eq_nil_iff, htext.filter_eq, List.filter_eq_nil_iff]
    exact and_congr_right fun _ => forall₂_congr fun c _ => Bool.eq_false_iff.symm
  case isFalse hne =>
    rw [decode_encode_of_ne_nil hne htext hmax, length_encodeAll]
    rw [length_encodeAll] at hfits
    simp only [zbxMaxB64Len, maxGroups] at hfits ⊢
    constructor
    · intro heq
      have hlen := congrArg List.length (congrArg Decoded.str (Option.some.inj heq))
      change (str.take (3 * 4095)).length = str.length at hlen
      rw [List.length_take] at hlen
      omega
    · intro hlt
      rw [List.take_of_length_le (by omega)]

/-- A byte goes through, with a line break in its text. -/
theorem decode_encode_line_break :
    strBase64Decode (bytes "QQ" ++ newline :: bytes "==") 1 = some ⟨bytes "A", 1⟩ :=
  (@decode_encode_iff (bytes "A") (bytes "QQ" ++ newline :: bytes "==") CString.empty 1 (by decide)
    (.keep 81 (.keep 81 (.insert (by decide) (by decide) (.keep 61 (.keep 61 .nil))))) (by decide)).mpr (by decide)

/-- The empty string comes back as what the buffer has held before. -/
theorem not_decode_encode_nil :
    ¬∀ (str : List UInt8) (old : CString) (text : List UInt8) (maxsize : ℕ),
      (encodeAll str).length ≤ zbxMaxB64Len → Inserted (strBase64Encode str old) text → str.length ≤ maxsize →
        strBase64Decode text maxsize = some ⟨str, str.length⟩ := by
  intro h
  have hnil := h [] ⟨bytes "QQ==", by decide⟩ (bytes "QQ==") 1 (by decide)
    (.keep 81 (.keep 81 (.keep 61 (.keep 61 .nil)))) (by decide)
  exact absurd hnil (by decide)

end Zabbix
