import Zabbix.Json.Scanner

/-!
# Zabbix.Json.Decode

What the decoder reads of an encoded string.

Every byte is read back, except for the control characters that have no letter:
for these the encoder writes the digits of the byte in the last two places of
`\u00XY`, and the decoder reads the two in the middle and leaves the last in
the text.
-/

namespace Zabbix

open Ascii

/-- A byte that is not written with its digits. -/
def jsonClean (c : UInt8) : Bool := (escapeLetter c).isSome ∨ 32 ≤ c

/-- What is read for a byte that is written with its digits. -/
def misread (c : UInt8) : UInt8 :=
  (zbxHex2num 48 <<< 4) + zbxHex2num (zbxNum2hex ((c >>> 4) &&& 0xf))

theorem decodestringLoop_clean {c : UInt8} (hc : jsonClean c = true) {room : ℕ} (hroom : room ≠ 0)
    (t : Ptr) :
    decodestringLoop room (jsonEscape c ++ t) = put c (decodestringLoop (room - 1) t) := by
  have hletter : ∀ c : UInt8, ∀ letter, escapeLetter c = some letter → unescapeLetter letter = some c := by
    have hall : ∀ c : UInt8, (escapeLetter c).all (fun letter => unescapeLetter letter = some c) = true :=
      forall_byte (by decide +kernel)
    intro c letter he
    simpa [he] using hall c
  have hplain : ∀ c : UInt8, escapeLetter c = none → c ≠ dquote ∧ c ≠ backslash :=
    forall_byte (by decide +kernel)
  rw [jsonEscape]
  cases he : escapeLetter c with
  | some letter =>
      have hquote : backslash ≠ dquote := by decide
      rw [List.cons_append, List.singleton_append, decodestringLoop.eq_def]
      simp [hroom, hletter c letter he, hquote]
  | none =>
      have hle : 32 ≤ c := by simpa [jsonClean, he] using hc
      rw [if_neg (UInt8.not_lt.mpr hle), List.singleton_append, decodestringLoop.eq_def]
      simp [hroom, hplain c he]

theorem decodestringLoop_dirty {c : UInt8} (hc : jsonClean c = false) {room : ℕ} (hroom : room ≠ 0)
    (t : Ptr) :
    decodestringLoop room (jsonEscape c ++ t) =
      put (misread c) (decodestringLoop (room - 1) (zbxNum2hex (c &&& 0xf) :: t)) := by
  have hletter : escapeLetter c = none ∧ ¬32 ≤ c := by simpa [jsonClean] using hc
  have hquote : backslash ≠ dquote := by decide
  have hnone : unescapeLetter 117 = none := by decide
  rw [jsonEscape, hletter.1]
  dsimp only
  rw [if_pos (UInt8.not_le.mp hletter.2)]
  simp only [List.cons_append, List.nil_append]
  rw [decodestringLoop.eq_def]
  simp [hroom, hquote, hnone, misread]

theorem misread_ne {c : UInt8} (hc : jsonClean c = false) (h0 : c ≠ 0) : misread c ≠ c := by
  have hall : ∀ c : UInt8, jsonClean c = false → c ≠ 0 → misread c ≠ c :=
    forall_byte (by decide +kernel)
  exact hall c hc h0

/-- **A clean string is read back.** -/
theorem decodestringLoop_flatMap {s : List UInt8} (hs : ∀ c ∈ s, jsonClean c = true) {room : ℕ}
    (hroom : s.length ≤ room) (t : Ptr) :
    decodestringLoop room (s.flatMap jsonEscape ++ dquote :: t) = .found (s, t) := by
  induction s generalizing room with
  | nil =>
      rw [List.flatMap_nil, List.nil_append, decodestringLoop.eq_def]
      simp
  | cons c s ih =>
      rw [List.length_cons] at hroom
      rw [List.flatMap_cons, List.append_assoc,
        decodestringLoop_clean (hs c (List.mem_cons_self ..)) (by omega),
        ih (fun d hd => hs d (List.mem_cons_of_mem c hd)) (by omega), put_found]

@[simp] theorem cstr_cons (c : UInt8) (s : List UInt8) :
    cstr (c :: s) = if c = 0 then [] else c :: cstr s := by
  rw [cstr, List.takeWhile_cons]
  by_cases hc : c = 0 <;> simp [hc, cstr]

theorem length_cstr_le (s : List UInt8) : (cstr s).length ≤ s.length :=
  (List.takeWhile_prefix _).length_le

/-- **A string that is not clean is read as another one.** -/
theorem decodestringLoop_flatMap_ne {s : List UInt8} (h0 : (0 : UInt8) ∉ s)
    (hs : ∃ c ∈ s, jsonClean c = false) {room : ℕ} (hroom : s.length ≤ room) {t q : Ptr} {r : List UInt8}
    (h : decodestringLoop room (s.flatMap jsonEscape ++ t) = .found (r, q)) : cstr r ≠ s := by
  induction s generalizing room r with
  | nil =>
      obtain ⟨c, hc, -⟩ := hs
      cases hc
  | cons c s ih =>
      rw [List.length_cons] at hroom
      rw [List.mem_cons, not_or] at h0
      rw [List.flatMap_cons, List.append_assoc] at h
      cases hc : jsonClean c with
      | true =>
          rw [decodestringLoop_clean hc (by omega)] at h
          obtain ⟨r, hr, rfl⟩ := put_eq_found h
          have hrest : ∃ d ∈ s, jsonClean d = false := by
            obtain ⟨d, hd, hdirty⟩ := hs
            rcases List.mem_cons.mp hd with rfl | hd
            · rw [hc] at hdirty
              cases hdirty
            · exact ⟨d, hd, hdirty⟩
          have hne := ih h0.2 hrest (by omega) hr
          rw [cstr_cons]
          split
          · simp
          · intro heq
            exact hne (List.cons.inj heq).2
      | false =>
          rw [decodestringLoop_dirty hc (by omega)] at h
          obtain ⟨r, -, rfl⟩ := put_eq_found h
          rw [cstr_cons]
          split
          · simp
          · intro heq
            exact misread_ne hc (Ne.symm h0.1) (List.cons.inj heq).1

/-! ## too little room -/

/-- What the decoder makes of an encoded string. -/
def decoded (s : List UInt8) : List UInt8 :=
  s.flatMap fun c => if jsonClean c then [c] else [misread c, zbxNum2hex (c &&& 0xf)]

theorem decoded_of_clean {s : List UInt8} (h : ∀ c ∈ s, jsonClean c = true) : decoded s = s := by
  induction s with
  | nil => rfl
  | cons c s ih =>
      rw [List.forall_mem_cons] at h
      change (if jsonClean c then [c] else _) ++ decoded s = _
      rw [if_pos h.1, ih h.2]
      rfl

/-- Without room, the loop goes on to a quote. -/
theorem decodestringLoop_zero (s t : List UInt8) :
    ∃ q, decodestringLoop 0 (s ++ dquote :: t) = .found ([], q) := by
  induction s with
  | nil =>
      rw [List.nil_append, decodestringLoop.eq_def]
      simp
  | cons c s ih =>
      rw [List.cons_append, decodestringLoop.eq_def]
      dsimp only
      split
      · exact ⟨_, rfl⟩
      · rwa [if_pos rfl]

/-- **Of an encoded string, as much is decoded as there is room for.** -/
theorem decodestringLoop_take (s : List UInt8) (room : ℕ) (t : Ptr) :
    ∃ q, decodestringLoop room (s.flatMap jsonEscape ++ dquote :: t) = .found ((decoded s).take room, q) := by
  induction s generalizing room with
  | nil =>
      rw [List.flatMap_nil, List.nil_append, decodestringLoop.eq_def]
      simp [decoded]
  | cons c s ih =>
      cases room with
      | zero => exact decodestringLoop_zero _ t
      | succ room =>
          rw [List.flatMap_cons, List.append_assoc]
          change ∃ q, _ = Scan.found (((if jsonClean c then [c] else _) ++ decoded s).take (room + 1), q)
          cases hc : jsonClean c with
          | true =>
              obtain ⟨q, hq⟩ := ih room
              rw [decodestringLoop_clean hc (by omega), Nat.add_sub_cancel, hq]
              exact ⟨q, rfl⟩
          | false =>
              have hplain : ∀ c : UInt8, jsonClean c = false →
                  zbxNum2hex (c &&& 0xf) ≠ dquote ∧ zbxNum2hex (c &&& 0xf) ≠ backslash :=
                forall_byte (by decide +kernel)
              rw [decodestringLoop_dirty hc (by omega), Nat.add_sub_cancel]
              cases room with
              | zero =>
                  obtain ⟨q, hq⟩ := decodestringLoop_zero (zbxNum2hex (c &&& 0xf) :: s.flatMap jsonEscape) t
                  rw [List.cons_append] at hq
                  rw [hq]
                  exact ⟨q, rfl⟩
              | succ room =>
                  obtain ⟨q, hq⟩ := ih room
                  rw [decodestringLoop.eq_def]
                  dsimp only
                  rw [if_neg (hplain c hc).1, if_neg (by omega), if_neg (hplain c hc).2, Nat.add_sub_cancel, hq]
                  exact ⟨q, rfl⟩

/-- What is read in place of a byte is none that is printed, and no line break. -/
theorem misread_lt {c : UInt8} (hc : jsonClean c = false) : misread c < 2 := by
  have hall : ∀ c : UInt8, jsonClean c = false → misread c < 2 := forall_byte (by decide +kernel)
  exact hall c hc

/-- No more is written than there is room for. -/
theorem length_decodestringLoop_le {room : ℕ} {p q : Ptr} {r : List UInt8}
    (h : decodestringLoop room p = .found (r, q)) : r.length ≤ room := by
  induction room, p using decodestringLoop_induction generalizing r <;> grind [put_eq_found]

theorem le_roomOf {s : List UInt8} {len : ℕ} (h : s.length < len) : s.length ≤ roomOf len := by
  rw [roomOf, if_neg (by omega)]
  omega

/-- An encoded string. -/
theorem jsonInsstring_some (s : CString) :
    jsonInsstring (some s) .string = dquote :: (s.val.flatMap jsonEscape ++ [dquote]) := rfl

theorem zbxJsonDecodestring_jsonInsstring (s : CString) (t : Ptr) (len : ℕ) :
    zbxJsonDecodestring (jsonInsstring (some s) .string ++ t) len =
      decodestringLoop (roomOf len) (s.val.flatMap jsonEscape ++ dquote :: t) := by
  rw [jsonInsstring_some, List.cons_append, List.append_assoc]
  rfl

theorem zbxJsonType_jsonInsstring (s : CString) (t : Ptr) :
    zbxJsonType (jsonInsstring (some s) .string ++ t) = .string := rfl

end Zabbix
