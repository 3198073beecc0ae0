import Zabbix.Json.RoundTrip

/-!
# Zabbix.Json.Each

Loops over the members of an object or an array, and the integers in them.
-/

namespace Zabbix

open Ascii Nesting

/-! ## loops -/

/-- `while (NULL != (p = next(p)))` with a body that may leave the loop with an
error. -/
def jsonEach {σ β : Type} (next : Option Ptr → Scan β) (at' : β → Ptr) (bound : Option Ptr → ℕ)
    (hnext : ∀ p b, next p = .found b → bound (some (at' b)) < bound p) (body : σ → β → Option σ) (s : σ)
    (p : Option Ptr) : Option σ :=
  match _h : next p with
  | .found b =>
      match body s b with
      | some s => jsonEach next at' bound hnext body s (some (at' b))
      | none => none
  | .null => some s
  | .overrun => none
termination_by bound p
decreasing_by exact hnext p b _h

/-- **A loop over what is enumerated** is a fold. -/
theorem jsonEach_enumerates {σ β : Type} {next : Option Ptr → Scan β} {at' : β → Ptr} {bound : Option Ptr → ℕ}
    (hnext : ∀ p b, next p = .found b → bound (some (at' b)) < bound p) (body : σ → β → Option σ) (s : σ)
    {p : Option Ptr} {bs : List β} (h : Enumerates next at' p bs) :
    jsonEach next at' bound hnext body s p = bs.foldlM body s := by
  induction bs generalizing s p with
  | nil =>
      have hnull : next p = .null := h
      rw [jsonEach]
      split
      · next heq => cases hnull.symm.trans heq
      · rfl
      · next heq => cases hnull.symm.trans heq
  | cons b bs ih =>
      obtain ⟨hfound, hrest⟩ := h
      rw [jsonEach, List.foldlM_cons]
      split
      · next heq =>
          obtain rfl := Scan.found.inj (hfound.symm.trans heq)
          change _ = (body s b).bind fun s => bs.foldlM body s
          cases body s b with
          | none => rfl
          | some s' => exact ih s' hrest
      · next heq => cases hfound.symm.trans heq
      · next heq => cases hfound.symm.trans heq

/-- The members of an object or an array. -/
def jsonEachMember {σ : Type} (jp : ZbxJsonParse) (body : σ → Ptr → Option σ) (s : σ) : Option σ :=
  jsonEach (zbxJsonNext jp) id (remaining jp) (fun _ _ h => length_zbxJsonNext h) body s none

/-- The pairs of an object. -/
def jsonEachPair {σ : Type} (jp : ZbxJsonParse) (len : ℕ) (body : σ → List UInt8 × Ptr → Option σ) (s : σ) :
    Option σ :=
  jsonEach (zbxJsonPairNext jp · len) Prod.snd (remaining jp) (fun _ _ h => length_zbxJsonPairNext h) body s none

theorem length_zbxJsonNextValue {jp : ZbxJsonParse} {p : Option Ptr} {len : ℕ} {r : List UInt8 × Ptr}
    (h : zbxJsonNextValue jp p len = .found r) : r.2.length < remaining jp p := by
  obtain ⟨q, hq, h⟩ := Scan.bind_eq_found h
  obtain ⟨r', -, rfl⟩ := Scan.map_eq_found h
  exact length_zbxJsonNext hq

/-- The values from a pointer on, up to the first that cannot be read. -/
def jsonEachValue {σ : Type} (jp : ZbxJsonParse) (len : ℕ) (body : σ → List UInt8 × Ptr → Option σ) (s : σ)
    (p : Option Ptr) : Option σ :=
  jsonEach (zbxJsonNextValue jp · len) Prod.snd (remaining jp) (fun _ _ h => length_zbxJsonNextValue h) body s p

section

variable {σ : Type} {jp : ZbxJsonParse} {len : ℕ}

theorem jsonEachMember_enumerates {ps : List Ptr} (h : Enumerates (zbxJsonNext jp) id none ps)
    (body : σ → Ptr → Option σ) (s : σ) : jsonEachMember jp body s = ps.foldlM body s :=
  jsonEach_enumerates _ body s h

theorem jsonEachPair_enumerates {bs : List (List UInt8 × Ptr)}
    (h : Enumerates (zbxJsonPairNext jp · len) Prod.snd none bs) (body : σ → List UInt8 × Ptr → Option σ) (s : σ) :
    jsonEachPair jp len body s = bs.foldlM body s :=
  jsonEach_enumerates _ body s h

theorem jsonEachValue_enumerates {p : Option Ptr} {bs : List (List UInt8 × Ptr)}
    (h : Enumerates (zbxJsonNextValue jp · len) Prod.snd p bs) (body : σ → List UInt8 × Ptr → Option σ) (s : σ) :
    jsonEachValue jp len body s p = bs.foldlM body s :=
  jsonEach_enumerates _ body s h

end

theorem length_decodeintLoop {room : ℕ} {p q : Ptr} {s : List UInt8}
    (h : decodeintLoop room p = .found (s, q)) : q.length ≤ p.length := by
  fun_induction decodeintLoop room p generalizing s <;> grind [put_eq_found]

theorem length_zbxJsonDecodevalue {p q : Ptr} {len : ℕ} {s : List UInt8}
    (h : zbxJsonDecodevalue p len = .found (s, q)) : q.length ≤ p.length := by
  rw [zbxJsonDecodevalue] at h
  split at h
  · cases p with
    | nil => cases h
    | cons c p =>
        rw [zbxJsonDecodestring] at h
        split at h
        · have hlt := length_decodestringLoop h
          rw [List.length_cons]
          omega
        · cases h
  · exact length_decodeintLoop h
  all_goals cases h

/-! ## integers -/

/-- An integer is read back, from in front of what is none. -/
theorem decodeintLoop_isInt {s : List UInt8} (hs : ∀ c ∈ s, 48 ≤ c ∧ c ≤ 57 ∨ c = minus) {room : ℕ}
    (hroom : s.length ≤ room) {c : UInt8} (hc : (c < 48 ∨ 57 < c) ∧ c ≠ minus) (t : Ptr) :
    decodeintLoop room (s ++ c :: t) = .found (s, c :: t) := by
  induction s generalizing room with
  | nil => rw [List.nil_append, decodeintLoop, if_pos hc]
  | cons d s ih =>
      rw [List.length_cons] at hroom
      have hd := hs d (List.mem_cons_self ..)
      have hnot : ¬((d < 48 ∨ 57 < d) ∧ d ≠ minus) := by
        rintro ⟨hout, hminus⟩
        rcases hd with ⟨hlo, hhi⟩ | hd
        · rcases hout with h | h
          · exact absurd hlo (UInt8.not_le.mpr h)
          · exact absurd hhi (UInt8.not_le.mpr h)
        · exact hminus hd
      rw [List.cons_append, decodeintLoop, if_neg hnot, if_neg (by omega),
        ih (fun e he => hs e (List.mem_cons_of_mem d he)) (by omega), put_found]

end Zabbix
