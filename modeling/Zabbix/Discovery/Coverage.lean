import Mathlib.Data.List.GetD
import Zabbix.Discovery.Ranges

/-!
# Zabbix.Discovery.Coverage

Which ports and addresses a well-formed list denotes, and whether `process_check`
and `process_rule` come to all of them.

* `PortRange.ports`, `AddressRange.Denotes` — what a text of a list denotes;
* `readPorts_range`, `readAddresses_denotes` — what is read of one text;
* `coverage_iff` — the lists for which exactly what they denote is probed and
  visited.
-/

namespace Zabbix

open Ascii CInt Buffer Printf JsonText

/-! ## numbers -/

/-- A text of decimal digits. -/
def Digits (s : List UInt8) : Prop := s ≠ [] ∧ ∀ c ∈ s, JsonText.isDigit c = true

instance (s : List UInt8) : Decidable (Digits s) := inferInstanceAs (Decidable (_ ∧ _))

/-- No digit stands at the beginning. -/
def NoDigit (rest : List UInt8) : Prop := ∀ c ∈ rest.head?, JsonText.isDigit c = false

theorem noDigit_nil : NoDigit [] := fun _ h => nomatch h

theorem Digits.span {s rest : List UInt8} (hs : Digits s) (hrest : NoDigit rest) :
    ((s ++ rest).takeWhile fun c => JsonText.isDigit c) = s ∧ ((s ++ rest).dropWhile fun c => JsonText.isDigit c) = rest := by
  have hnone : (rest.takeWhile fun c => JsonText.isDigit c) = [] ∧ (rest.dropWhile fun c => JsonText.isDigit c) = rest := by
    cases rest with
    | nil => exact ⟨rfl, rfl⟩
    | cons c rest =>
        have hc := hrest c rfl
        exact ⟨List.takeWhile_cons_of_neg (by simp [hc]), List.dropWhile_cons_of_neg (by simp [hc])⟩
  rw [List.takeWhile_append_of_pos hs.2, List.dropWhile_append_of_pos hs.2, hnone.1, hnone.2, List.append_nil]
  exact ⟨rfl, rfl⟩

theorem digit_plain {c : UInt8} (h : JsonText.isDigit c = true) : ¬isSpace c = true ∧ c ≠ minus ∧ c ≠ plus :=
  forall_byte (p := fun c => JsonText.isDigit c = true → ¬isSpace c = true ∧ c ≠ minus ∧ c ≠ plus) (by decide +kernel) c h

theorem atoi_digits {s rest : List UInt8} (hs : Digits s) (hrest : NoDigit rest) (hlt : ofDec s < 2 ^ 31) :
    (atoi (s ++ rest)).toInt = ofDec s := by
  have hspan := (hs.span hrest).1
  obtain ⟨c, s', rfl⟩ := List.exists_cons_of_ne_nil hs.1
  obtain ⟨hspace, hminus, hplus⟩ := digit_plain (hs.2 c List.mem_cons_self)
  rw [List.cons_append] at hspan ⊢
  have hmin : min (ofDec (c :: s')) (2 ^ 63 - 1) = ofDec (c :: s') := by omega
  rw [atoi, atoll, List.dropWhile_cons_of_neg hspace]
  dsimp only
  rw [if_neg hminus, if_neg hplus, hspan, hmin, Int32.toInt_ofInt_of_le (by omega) (by omega)]

theorem scanD_digits {s rest : List UInt8} (hs : Digits s) (hrest : NoDigit rest) (hlt : ofDec s < 2 ^ 31) :
    scanD (s ++ rest) = some ((ofDec s : ℤ), rest) := by
  have hvalue := atoi_digits hs hrest hlt
  obtain ⟨htake, hdrop⟩ := hs.span hrest
  obtain ⟨c, s', rfl⟩ := List.exists_cons_of_ne_nil hs.1
  obtain ⟨hspace, hminus, hplus⟩ := digit_plain (hs.2 c List.mem_cons_self)
  rw [List.cons_append] at hvalue htake hdrop ⊢
  rw [scanD, List.dropWhile_cons_of_neg hspace]
  dsimp only
  rw [if_neg (not_or.mpr ⟨hminus, hplus⟩), htake, hdrop, hvalue]

/-! ## ports -/

/-- A port as it is written. -/
def PortText (s : List UInt8) : Prop := Digits s ∧ ofDec s ≤ 65535

instance (s : List UInt8) : Decidable (PortText s) := inferInstanceAs (Decidable (_ ∧ _))

/-- A text of `check->ports`: a port, or a range up to a last one. -/
structure PortRange where
  first : List UInt8
  last : Option (List UInt8)

namespace PortRange

variable (e : PortRange)

def text : List UInt8 := e.first ++ (e.last.map (minus :: ·)).getD []

structure WellFormed : Prop where
  first : PortText e.first
  last : ∀ s, e.last = some s → PortText s

/-- The ports of a text, in ascending order. -/
def ports : List ℤ := fromTo (ofDec e.first) (ofDec (e.last.getD e.first))

end PortRange

/-- A list of ports as it is written. -/
def portsText (elems : List PortRange) : List UInt8 := List.intercalate [comma] (elems.map PortRange.text)

theorem readText_of_dash {α : Type} (behind : ℕ) (read : List UInt8 → Option (List UInt8) → List α) {front : List UInt8}
    (hfront : minus ∉ front) (last : Option (List UInt8)) :
    readText behind read (front ++ (last.map (minus :: ·)).getD []) =
      read front (last.map fun dash => if behind = 0 then [] else dash) := by
  have hall : ∀ a ∈ front, decide (a ≠ minus) = true := fun a ha => decide_eq_true (ne_of_mem_of_not_mem ha hfront)
  cases last with
  | none =>
      rw [Option.map_none, Option.getD_none, List.append_nil, readText, behindDash, List.takeWhile_eq_self_iff.mpr hall,
        List.dropWhile_eq_nil_iff.mpr hall]
  | some dash =>
      rw [Option.map_some, Option.getD_some, readText, behindDash, List.takeWhile_append_of_pos hall,
        List.dropWhile_append_of_pos hall, List.takeWhile_cons_of_neg (by simp), List.dropWhile_cons_of_neg (by simp),
        List.append_nil]

theorem Digits.minus_not_mem {s : List UInt8} (hs : Digits s) : minus ∉ s := fun h => (digit_plain (hs.2 _ h)).2.1 rfl

/-- What is read of a text: of a range, the ports down from its first one to zero. -/
theorem readPorts_range {e : PortRange} (he : e.WellFormed) :
    readText 0 readPorts e.text = fromTo (ofDec e.first) (if e.last.isSome then 0 else ofDec e.first) := by
  obtain ⟨hdigits, hle⟩ := he.first
  have hfirst : (atoi e.first).toInt = ofDec e.first := by
    have h := atoi_digits hdigits noDigit_nil (by omega)
    rwa [List.append_nil] at h
  rw [PortRange.text, readText_of_dash 0 readPorts hdigits.minus_not_mem]
  cases e.last with
  | none =>
      rw [Option.map_none, readPorts, hfirst]
      rfl
  | some s =>
      rw [Option.map_some, readPorts, hfirst]
      rfl

theorem comma_not_mem_ports {e : PortRange} (he : e.WellFormed) : comma ∉ e.text := by
  have hdigits {s : List UInt8} (hs : PortText s) : comma ∉ s := fun h => absurd (hs.1.2 _ h) (by decide)
  rw [PortRange.text]
  cases hlast : e.last with
  | none => simpa using hdigits he.first
  | some s =>
      rw [Option.map_some, Option.getD_some, List.mem_append, List.mem_cons, not_or, not_or]
      exact ⟨hdigits he.first, by decide, hdigits (he.last s hlast)⟩

/-- **The ports that are probed**, and the list as it was. -/
theorem processCheckPorts_eq {m : List UInt8} {ports : ℕ} {elems : List PortRange} (hne : elems ≠ [])
    (helems : ∀ e ∈ elems, e.WellFormed) (htext : strAt m ports = portsText elems) :
    processCheckPorts m ports =
      (m, elems.flatMap fun e => fromTo (ofDec e.first) (if e.last.isSome then 0 else ofDec e.first)) := by
  have hsplit : (portsText elems).splitOn comma = elems.map PortRange.text := by
    refine List.splitOn_intercalate _ (fun t ht => ?_) (by simpa using hne)
    obtain ⟨e, he, rfl⟩ := List.mem_map.mp ht
    exact comma_not_mem_ports (helems e he)
  rw [processCheckPorts, eachRange_eq (Nat.zero_le 1), htext, hsplit, List.flatMap_map]
  exact congrArg _ (List.flatMap_congr fun e he => readPorts_range (helems e he))

theorem length_fromTo (first last : ℤ) : (fromTo first last).length = (last + 1 - first).toNat := by
  rw [fromTo, List.length_map, List.length_range]

theorem fromTo_eq_iff {first last last' : ℤ} :
    fromTo first last = fromTo first last' ↔ (last + 1 - first).toNat = (last' + 1 - first).toNat := by
  constructor
  · intro h
    rw [← length_fromTo, h, length_fromTo]
  · intro h
    rw [fromTo, fromTo, h]

/-- Lists that are not longer than others are the same where they are put together the same. -/
theorem flatMap_eq_flatMap_iff {α β : Type} {f g : α → List β} {l : List α}
    (hle : ∀ e ∈ l, (f e).length ≤ (g e).length) : l.flatMap f = l.flatMap g ↔ ∀ e ∈ l, f e = g e := by
  refine ⟨fun h => ?_, fun h => List.flatMap_congr h⟩
  induction l with
  | nil => exact List.forall_mem_nil _
  | cons e l ih =>
      obtain ⟨he, hl⟩ := List.forall_mem_cons.mp hle
      rw [List.flatMap_cons, List.flatMap_cons] at h
      have hsum : (l.flatMap f).length ≤ (l.flatMap g).length := by
        rw [List.length_flatMap, List.length_flatMap]
        exact List.sum_le_sum hl
      have hlen := congrArg List.length h
      rw [List.length_append, List.length_append] at hlen
      obtain ⟨hfirst, hrest⟩ := List.append_inj h (by omega)
      exact List.forall_mem_cons.mpr ⟨hfirst, ih hl hrest⟩

/-- Only a range whose ports are those down to zero is probed as it denotes. -/
def PortRange.Probed (e : PortRange) : Prop :=
  ∀ s, e.last = some s → ofDec s < ofDec e.first ∨ (ofDec e.first = 0 ∧ ofDec s = 0)

theorem ports_probed_iff {m : List UInt8} {ports : ℕ} {elems : List PortRange} (hne : elems ≠ [])
    (helems : ∀ e ∈ elems, e.WellFormed) (htext : strAt m ports = portsText elems) :
    processCheckPorts m ports = (m, elems.flatMap PortRange.ports) ↔ ∀ e ∈ elems, e.Probed := by
  rw [processCheckPorts_eq hne helems htext, Prod.mk.injEq, eq_self, true_and, flatMap_eq_flatMap_iff]
  · refine forall₂_congr fun e _ => ?_
    rw [PortRange.ports, PortRange.Probed, fromTo_eq_iff]
    cases e.last with
    | none => simp
    | some s =>
        simp only [Option.isSome_some, if_true, Option.getD_some, Option.some.injEq, forall_eq']
        omega
  · intro e _
    rw [PortRange.ports, length_fromTo, length_fromTo]
    cases e.last with
    | none => exact le_rfl
    | some s =>
        simp only [Option.isSome_some, if_true, Option.getD_some]
        omega

/-! ## addresses -/

/-- A part of an address of version 4. -/
def OctetText (s : List UInt8) : Prop := Digits s ∧ s.length ≤ 3 ∧ ofDec s ≤ 255

instance (s : List UInt8) : Decidable (OctetText s) := inferInstanceAs (Decidable (_ ∧ _))

inductive Address
  | v4 (a b c d : ℕ)
  | v6 (groups : List ℕ)

/-- The texts of an address. -/
inductive AddressText : List UInt8 → Address → Prop
  | v4 {a b c d : List UInt8} (ha : OctetText a) (hb : OctetText b) (hc : OctetText c) (hd : OctetText d) :
      AddressText (a ++ dot :: (b ++ dot :: (c ++ dot :: d))) (.v4 (ofDec a) (ofDec b) (ofDec c) (ofDec d))
  | v6 {ip : List UInt8} {groups : List ℕ} (h : Ipv6Text ip groups) : AddressText ip (.v6 groups)

/-- A text of `rule->iprange`: an address, or a range up to a last part. -/
structure AddressRange where
  ip : List UInt8
  last : Option (List UInt8)

def AddressRange.text (e : AddressRange) : List UInt8 := e.ip ++ (e.last.map (minus :: ·)).getD []

/-- The addresses of a text: those with the last parts from the one that is written
up to the last one.  Addresses of version 6 are for those who have it. -/
inductive AddressRange.Denotes (haveIpv6 : Bool) : AddressRange → List Address → Prop
  | v4 {ip : List UInt8} {a b c d : ℕ} {last : Option (List UInt8)} (hip : AddressText ip (.v4 a b c d))
      (hlast : ∀ s, last = some s → OctetText s ∧ d ≤ ofDec s) :
      Denotes haveIpv6 ⟨ip, last⟩
        ((List.range' d ((last.map ofDec).getD d + 1 - d)).map (Address.v4 a b c))
  | v6 {ip : List UInt8} {groups : List ℕ} {last : Option (List UInt8)} (h : haveIpv6 = true) (hip : Ipv6Text ip groups)
      (hlast : ∀ s, last = some s → Ipv6Group s ∧ groups.getD 7 0 ≤ hexValue s) :
      Denotes haveIpv6 ⟨ip, last⟩
        ((List.range' (groups.getD 7 0) ((last.map hexValue).getD (groups.getD 7 0) + 1 - groups.getD 7 0)).map
          fun i => .v6 (groups.take 7 ++ [i]))

/-- A list of addresses as it is written. -/
def rangesText (elems : List AddressRange) : List UInt8 := List.intercalate [comma] (elems.map AddressRange.text)

theorem fromTo_natCast (first last : ℕ) :
    fromTo first last = (List.range' first (last + 1 - first)).map fun (i : ℕ) => (i : ℤ) := by
  have hlen : ((last : ℤ) + 1 - first).toNat = last + 1 - first := by omega
  rw [fromTo, hlen, List.range'_eq_map_range, List.map_map]
  exact List.map_congr_left fun k _ => (Nat.cast_add first k).symm

/-! ## version 4 -/

theorem noDigit_dot (rest : List UInt8) : NoDigit (dot :: rest) := by
  rintro c hc
  obtain rfl := Option.some.inj hc
  decide

theorem OctetText.lt {s : List UInt8} (hs : OctetText s) : ofDec s < 2 ^ 31 := by
  have := hs.2.2
  omega

theorem scanIp_octets {a b c d : List UInt8} (ha : OctetText a) (hb : OctetText b) (hc : OctetText c) (hd : OctetText d) :
    scanIp (a ++ dot :: (b ++ dot :: (c ++ dot :: d))) =
      some ((ofDec a : ℤ), (ofDec b : ℤ), (ofDec c : ℤ), (ofDec d : ℤ)) := by
  have hlast := scanD_digits hd.1 noDigit_nil hd.lt
  rw [List.append_nil] at hlast
  rw [scanIp, scanD_digits ha.1 (noDigit_dot _) ha.lt]
  change ((scanD (b ++ dot :: (c ++ dot :: d))).bind _) = _
  rw [scanD_digits hb.1 (noDigit_dot _) hb.lt]
  change ((scanD (c ++ dot :: d)).bind _) = _
  rw [scanD_digits hc.1 (noDigit_dot _) hc.lt]
  change ((scanD d).bind _) = _
  rw [hlast]
  rfl

theorem printD_natCast {n : ℕ} (h : n ≤ 255) : printD n = dec n := by
  rw [printD, d32, Int32.toInt_ofInt_of_le (by omega) (by omega), if_neg (by omega), Int.natAbs_natCast]

theorem octetText_dec {n : ℕ} (h : n ≤ 255) : OctetText (dec n) := by
  refine ⟨⟨dec_ne_nil n, fun c hc => isDigit_of_mem_dec hc⟩, length_dec_le (by decide) (by omega), ?_⟩
  rw [ofDec_dec]
  exact h

/-- A separator is in no part of an address of version 4. -/
theorem not_mem_v4 {ip : List UInt8} {a b c d : ℕ} (hip : AddressText ip (.v4 a b c d)) {sep : UInt8}
    (hsep : JsonText.isDigit sep = false) (hdot : sep ≠ dot) : sep ∉ ip := by
  cases hip with
  | v4 ha hb hc hd =>
      have hnot {s : List UInt8} (hs : OctetText s) : sep ∉ s := fun h =>
        Bool.false_ne_true (hsep.symm.trans (hs.1.2 sep h))
      simp [hnot ha, hnot hb, hnot hc, hnot hd, hdot]

theorem expandIpv6_of_colon_not_mem {ip : List UInt8} (h : colon ∉ ip) (strLen : ℕ) : expandIpv6 ip strLen = none := by
  rw [expandIpv6, expandIpv6Groups, List.count_eq_zero_of_not_mem h, if_pos (.inl (by decide))]

theorem length_octets {a b c d : List UInt8} (ha : OctetText a) (hb : OctetText b) (hc : OctetText c) (hd : OctetText d) :
    (a ++ dot :: (b ++ dot :: (c ++ dot :: d))).length < maxStringLen := by
  have := ha.2.1
  have := hb.2.1
  have := hc.2.1
  have := hd.2.1
  simp only [List.length_append, List.length_cons, maxStringLen]
  omega

/-- **Version 4**: the addresses of a text are visited. -/
theorem readAddresses_v4 (haveIpv6 : Bool) {ip : List UInt8} {a b c d : ℕ} {last : Option (List UInt8)}
    (hip : AddressText ip (.v4 a b c d)) (hlast : ∀ s, last = some s → OctetText s ∧ d ≤ ofDec s) :
    List.Forall₂ AddressText (readText 1 (readAddresses haveIpv6) (AddressRange.text ⟨ip, last⟩))
      ((List.range' d ((last.map ofDec).getD d + 1 - d)).map (Address.v4 a b c)) := by
  have hminus : minus ∉ ip := not_mem_v4 hip (by decide) (by decide)
  have hcolon : colon ∉ ip := not_mem_v4 hip (by decide) (by decide)
  have hnone : (if haveIpv6 then expandIpv6 ip maxStringLen else none) = none := by
    split
    · exact expandIpv6_of_colon_not_mem hcolon _
    · rfl
  rw [AddressRange.text, readText_of_dash 1 _ hminus, readAddresses, hnone]
  dsimp only
  cases hip with
  | v4 ha hb hc hd =>
      rename_i ta tb tc td
      have hbound : (last.map ofDec).getD (ofDec td) ≤ 255 := by
        cases last with
        | none => exact hd.2.2
        | some s => exact (hlast s rfl).1.2.2
      have hscan : readLast scanD (ofDec td) (last.map fun dash => if 1 = 0 then [] else dash) =
          ((last.map ofDec).getD (ofDec td) : ℕ) := by
        cases last with
        | none => rfl
        | some s =>
            obtain ⟨hs, -⟩ := hlast s rfl
            have hread := scanD_digits hs.1 noDigit_nil hs.lt
            rw [List.append_nil] at hread
            rw [Option.map_some, if_neg (by decide), readLast, hread]
            rfl
      rw [readIpv4, scanIp_octets ha hb hc hd]
      dsimp only
      rw [hscan, if_neg (by omega), fromTo_natCast, List.map_map, List.forall₂_map_left_iff, List.forall₂_map_right_iff,
        List.forall₂_same]
      intro i hi
      obtain ⟨hle, hlt⟩ := List.mem_range'_1.mp hi
      have hi255 : i ≤ 255 := by omega
      have hdeca := octetText_dec ha.2.2
      have hdecb := octetText_dec hb.2.2
      have hdecc := octetText_dec hc.2.2
      have hdeci := octetText_dec hi255
      rw [Function.comp_apply, printD_natCast ha.2.2, printD_natCast hb.2.2, printD_natCast hc.2.2, printD_natCast hi255,
        zbxVsnprintf_of_lt (length_octets hdeca hdecb hdecc hdeci)]
      have htext := AddressText.v4 hdeca hdecb hdecc hdeci
      rwa [ofDec_dec, ofDec_dec, ofDec_dec, ofDec_dec] at htext

/-! ## hexadecimal numbers -/

theorem hexDigit_digitChar : ∀ d < 16, isHexDigit (Nat.digitChar d).toUInt8 = true ∧
    hexDigitValue (Nat.digitChar d).toUInt8 = d := by decide

theorem hexValue_concat (s : List UInt8) (c : UInt8) : hexValue (s ++ [c]) = 16 * hexValue s + hexDigitValue c := by
  rw [hexValue, List.foldl_append]
  rfl

/-- What is printed with `%x` reads back. -/
theorem hexValue_hexText (n : ℕ) : hexValue (hexText n) = n ∧ ∀ c ∈ hexText n, isHexDigit c = true := by
  induction n using Nat.strong_induction_on with
  | _ n ih =>
      rw [hexText, Nat.toDigits_eq_if (by decide)]
      split
      · next hlt =>
        obtain ⟨hdigit, hvalue⟩ := hexDigit_digitChar n hlt
        refine ⟨?_, fun c hc => ?_⟩
        · rw [List.map_singleton]
          exact (Nat.zero_add _).trans hvalue
        · rwa [List.map_singleton, List.mem_singleton.mp hc] at *
      · next hge =>
        obtain ⟨hrest, hdigits⟩ := ih (n / 16) (by omega)
        obtain ⟨hdigit, hvalue⟩ := hexDigit_digitChar (n % 16) (Nat.mod_lt n (by decide))
        have hmap : ((Nat.toDigits 16 (n / 16) ++ [(n % 16).digitChar]).map fun c => c.toUInt8) =
            hexText (n / 16) ++ [(n % 16).digitChar.toUInt8] := by
          rw [List.map_append, List.map_singleton]
          rfl
        rw [hmap, hexValue_concat, hrest, hvalue]
        refine ⟨Nat.div_add_mod n 16, fun c hc => ?_⟩
        rcases List.mem_append.mp hc with hc | hc
        · exact hdigits c hc
        · rw [List.mem_singleton.mp hc]
          exact hdigit

theorem ipv6Group_hexText {n : ℕ} (h : n < 16 ^ 4) : Ipv6Group (hexText n) := by
  refine ⟨⟨(hexValue_hexText n).2, ?_⟩, ?_⟩
  · rw [hexText, List.length_map]
    exact (Nat.length_toDigits_le_iff (by decide) (by decide)).mpr h
  · rw [hexText, ne_eq, List.map_eq_nil_iff]
    exact Nat.toDigits_ne_nil

theorem hexValue_zeros (k : ℕ) (s : List UInt8) : hexValue (List.replicate k 48 ++ s) = hexValue s := by
  induction k with
  | zero => rfl
  | succ k ih =>
      rw [List.replicate_succ, List.cons_append, ← ih]
      rfl

/-- A group in full. -/
theorem hex04_group {n : ℕ} (h : n < 16 ^ 4) : Ipv6Group (hex04 n) ∧ hexValue (hex04 n) = n := by
  have hlen := length_hex04 h
  refine ⟨⟨⟨fun c hc => ?_, hlen.le⟩, List.ne_nil_of_length_pos (by omega)⟩, (hexValue_zeros _ _).trans (hexValue_hexText n).1⟩
  rcases List.mem_append.mp hc with hc | hc
  · rw [List.eq_of_mem_replicate hc]
    decide
  · exact (hexValue_hexText n).2 c hc

/-- No digit and no `x` stands at the beginning. -/
def NoHexDigit (rest : List UInt8) : Prop := ∀ c ∈ rest.head?, isHexDigit c = false ∧ c ≠ 120 ∧ c ≠ 88

theorem noHexDigit_nil : NoHexDigit [] := fun _ h => nomatch h

theorem hexDigit_plain {c : UInt8} (h : isHexDigit c = true) :
    ¬isSpace c = true ∧ c ≠ minus ∧ c ≠ plus ∧ c ≠ 120 ∧ c ≠ 88 :=
  forall_byte (p := fun c => isHexDigit c = true → ¬isSpace c = true ∧ c ≠ minus ∧ c ≠ plus ∧ c ≠ 120 ∧ c ≠ 88)
    (by decide +kernel) c h

theorem scanX_group {g rest : List UInt8} (hg : Ipv6Group g) (hrest : NoHexDigit rest) :
    scanX (g ++ rest) = some ((hexValue g : ℤ), rest) := by
  have hlt := hexValue_lt hg.1
  obtain ⟨c, g', rfl⟩ := List.exists_cons_of_ne_nil hg.2
  obtain ⟨hspace, hminus, hplus, -, -⟩ := hexDigit_plain (hg.1.1 c List.mem_cons_self)
  have hspan : ((c :: g' ++ rest).takeWhile fun c => isHexDigit c) = c :: g' ∧
      ((c :: g' ++ rest).dropWhile fun c => isHexDigit c) = rest := by
    have hnone : (rest.takeWhile fun c => isHexDigit c) = [] ∧ (rest.dropWhile fun c => isHexDigit c) = rest := by
      cases rest with
      | nil => exact ⟨rfl, rfl⟩
      | cons d rest =>
          have hd := (hrest d rfl).1
          exact ⟨List.takeWhile_cons_of_neg (by simp [hd]), List.dropWhile_cons_of_neg (by simp [hd])⟩
    rw [List.takeWhile_append_of_pos hg.1.1, List.dropWhile_append_of_pos hg.1.1, hnone.1, hnone.2, List.append_nil]
    exact ⟨rfl, rfl⟩
  -- the second byte is a digit or the beginning of what follows, and so no `x`
  have hx : ¬((c :: g' ++ rest).take 2 = bytes "0x" ∨ (c :: g' ++ rest).take 2 = bytes "0X") := by
    have hsecond : ∀ d ∈ (g' ++ rest).head?, d ≠ 120 ∧ d ≠ 88 := by
      intro d hd
      cases g' with
      | nil => exact (hrest d hd).2
      | cons e g' =>
          obtain rfl := Option.some.inj hd
          exact (hexDigit_plain (hg.1.1 e (by simp))).2.2.2
    rw [List.cons_append]
    cases htail : g' ++ rest with
    | nil =>
        rintro (h | h)
        · exact absurd (List.cons.inj h).2.symm (List.cons_ne_nil _ _)
        · exact absurd (List.cons.inj h).2.symm (List.cons_ne_nil _ _)
    | cons d tail =>
        obtain ⟨hlow, hup⟩ := hsecond d (by rw [htail]; rfl)
        rintro (h | h)
        · exact hlow (List.cons.inj (List.cons.inj h).2).1
        · exact hup (List.cons.inj (List.cons.inj h).2).1
  have hmin : min (hexValue (c :: g')) (2 ^ 64 - 1) = hexValue (c :: g') := by omega
  have hcast : cast ((hexValue (c :: g') : ℕ) : ℤ) = hexValue (c :: g') := cast_of_inRange ⟨by omega, by omega⟩
  have hhead : ¬(c :: (g' ++ rest)).head? = some minus := fun h => hminus (Option.some.inj h)
  rw [List.cons_append] at hspan hx ⊢
  rw [scanX, List.dropWhile_cons_of_neg hspace]
  simp only [if_neg (not_or.mpr ⟨hminus, hplus⟩), if_neg hx, hspan.1, hspan.2, if_neg hhead, hmin, hcast]

theorem noHexDigit_colon (rest : List UInt8) : NoHexDigit (colon :: rest) := by
  rintro c hc
  obtain rfl := Option.some.inj hc
  decide

/-- The groups of a text are read one after the other. -/
theorem scanGroups_intercalate {gs : List (List UInt8)} (hgs : ∀ g ∈ gs, Ipv6Group g) {n : ℕ} (hlen : gs.length = n + 1) :
    scanGroups n (List.intercalate [colon] gs) = some (gs.map fun g => (hexValue g : ℤ)) := by
  induction gs generalizing n with
  | nil => cases hlen
  | cons g gs ih =>
      obtain ⟨hg, hrest⟩ := List.forall_mem_cons.mp hgs
      cases n with
      | zero =>
          obtain rfl := List.eq_nil_of_length_eq_zero (Nat.succ.inj hlen)
          have hscan := scanX_group hg noHexDigit_nil
          rw [List.append_nil] at hscan
          rw [List.intercalate_singleton, scanGroups, hscan]
          rfl
      | succ n =>
          have hne : gs ≠ [] := List.ne_nil_of_length_pos (by rw [Nat.succ.inj hlen]; omega)
          rw [List.intercalate_cons_of_ne_nil hne, List.append_assoc, List.singleton_append, scanGroups,
            scanX_group hg (noHexDigit_colon _)]
          change ((scanGroups n (List.intercalate [colon] gs)).bind _) = _
          rw [ih hrest (Nat.succ.inj hlen)]
          rfl

/-! ## version 6 -/

theorem mem_intercalate {c d : UInt8} {texts : List (List UInt8)} (h : c ∈ List.intercalate [d] texts) :
    c = d ∨ ∃ t ∈ texts, c ∈ t := by
  induction texts with
  | nil => exact absurd h List.not_mem_nil
  | cons t texts ih =>
      by_cases hne : texts = []
      · subst hne
        rw [List.intercalate_singleton] at h
        exact .inr ⟨t, List.mem_cons_self, h⟩
      · rw [List.intercalate_cons_of_ne_nil hne, List.append_assoc, List.mem_append, List.singleton_append,
          List.mem_cons] at h
        rcases h with h | h | h
        · exact .inr ⟨t, List.mem_cons_self, h⟩
        · exact .inl h
        · rcases ih h with h | ⟨t', ht', h⟩
          · exact .inl h
          · exact .inr ⟨t', List.mem_cons_of_mem _ ht', h⟩

theorem mem_groups {gs : List (List UInt8)} (hgs : ∀ g ∈ gs, Ipv6Group g) {c : UInt8}
    (h : c ∈ List.intercalate [colon] gs) : c = colon ∨ isHexDigit c = true := by
  rcases mem_intercalate h with h | ⟨g, hg, h⟩
  · exact .inl h
  · exact .inr ((hgs g hg).1.1 c h)

theorem Ipv6Text.bytes {ip : List UInt8} {groups : List ℕ} (hip : Ipv6Text ip groups) {c : UInt8} (h : c ∈ ip) :
    c = colon ∨ isHexDigit c = true := by
  cases hip with
  | full gs hgs _ => exact mem_groups hgs h
  | compressed l r hl hr _ =>
      rcases List.mem_append.mp h with h | h
      · exact mem_groups hl h
      · rcases List.mem_cons.mp h with h | h
        · exact .inl h
        · rcases List.mem_cons.mp h with h | h
          · exact .inl h
          · exact mem_groups hr h

theorem length_groups {gs : List (List UInt8)} (hgs : ∀ g ∈ gs, Ipv6Group g) :
    (List.intercalate [colon] gs).length ≤ 5 * gs.length := by
  induction gs with
  | nil => exact Nat.zero_le _
  | cons g gs ih =>
      obtain ⟨hg, hrest⟩ := List.forall_mem_cons.mp hgs
      have hlen := hg.1.2
      have hle := ih hrest
      by_cases hne : gs = []
      · subst hne
        rw [List.intercalate_singleton, List.length_singleton]
        omega
      · rw [List.intercalate_cons_of_ne_nil hne, List.length_append, List.length_append, List.length_singleton,
          List.length_cons]
        omega

theorem Ipv6Text.length_le {ip : List UInt8} {groups : List ℕ} (hip : Ipv6Text ip groups) : ip.length ≤ 40 := by
  cases hip with
  | full gs hgs h8 =>
      have := length_groups hgs
      omega
  | compressed l r hl hr h7 =>
      have := length_groups hl
      have := length_groups hr
      rw [List.length_append, List.length_cons, List.length_cons]
      omega

theorem intercalate_concat {gs : List (List UInt8)} (hne : gs ≠ []) (g : List UInt8) :
    List.intercalate [colon] (gs ++ [g]) = List.intercalate [colon] gs ++ colon :: g := by
  rw [intercalate_append colon hne (List.cons_ne_nil _ _), List.intercalate_singleton]

/-- **The last group** of an address is what stands behind the last colon, where
another one may stand. -/
theorem Ipv6Text.last_group {ip : List UInt8} {groups : List ℕ} (hip : Ipv6Text ip groups) (hseven : ¬GapBySeven ip) :
    ∃ pre g, ip = pre ++ colon :: g ∧ colon ∉ g ∧
      ∀ h, Ipv6Group h → Ipv6Text (pre ++ colon :: h) (groups.take 7 ++ [hexValue h]) := by
  cases hip with
  | full gs hgs h8 =>
      obtain ⟨front, g, rfl⟩ : ∃ front g, gs = front ++ [g] :=
        ⟨gs.dropLast, gs.getLast (List.ne_nil_of_length_pos (by omega)), (List.dropLast_append_getLast _).symm⟩
      rw [List.length_append, List.length_singleton] at h8
      have hne : front ≠ [] := List.ne_nil_of_length_pos (by omega)
      obtain ⟨hfront, hg⟩ := List.forall_mem_append.mp hgs
      refine ⟨_, g, intercalate_concat hne g, (hg g (by simp)).1.colon_not_mem, fun h hh => ?_⟩
      have htext := Ipv6Text.full (front ++ [h])
        (List.forall_mem_append.mpr ⟨hfront, fun t ht => List.mem_singleton.mp ht ▸ hh⟩)
        (by rw [List.length_append, List.length_singleton]; exact h8)
      rw [intercalate_concat hne] at htext
      have hvalues : ((front ++ [g]).map hexValue).take 7 ++ [hexValue h] = (front ++ [h]).map hexValue := by
        rw [List.map_append, List.take_left' (by rw [List.length_map]; omega), List.map_append]
        rfl
      rwa [hvalues]
  | compressed l r hl hr h7 =>
      by_cases hnil : r = []
      · subst hnil
        have hl7 : l.length ≠ 7 := fun h => hseven ⟨l, h, hl, .inl (by simp)⟩
        rw [List.length_nil, Nat.add_zero] at h7
        refine ⟨List.intercalate [colon] l ++ [colon], [], by simp, List.not_mem_nil, fun h hh => ?_⟩
        have htext := Ipv6Text.compressed l [h] hl (fun t ht => List.mem_singleton.mp ht ▸ hh)
          (by rw [List.length_singleton]; omega)
        rw [List.intercalate_singleton] at htext
        rw [List.append_assoc, List.singleton_append]
        have hvalues : (l.map hexValue ++ List.replicate (8 - (l.length + ([] : List (List UInt8)).length)) 0 ++
            ([] : List (List UInt8)).map hexValue).take 7 ++ [hexValue h] =
            l.map hexValue ++ List.replicate (8 - (l.length + [h].length)) 0 ++ [h].map hexValue := by
          rw [List.map_nil, List.append_nil, List.take_append, List.take_of_length_le (by rw [List.length_map]; omega),
            List.take_replicate, List.length_map, List.length_nil, List.length_singleton,
            show min (7 - l.length) (8 - (l.length + 0)) = 8 - (l.length + 1) by omega]
          rfl
        rwa [hvalues]
      · obtain ⟨front, g, rfl⟩ : ∃ front g, r = front ++ [g] :=
          ⟨r.dropLast, r.getLast hnil, (List.dropLast_append_getLast _).symm⟩
        obtain ⟨hfront, hg⟩ := List.forall_mem_append.mp hr
        rw [List.length_append, List.length_singleton] at h7
        obtain ⟨pre, hpre⟩ : ∃ pre, ∀ t,
            List.intercalate [colon] l ++ colon :: colon :: List.intercalate [colon] (front ++ [t]) = pre ++ colon :: t := by
          by_cases hne : front = []
          · exact ⟨List.intercalate [colon] l ++ [colon], fun t => by simp [hne]⟩
          · exact ⟨List.intercalate [colon] l ++ colon :: colon :: List.intercalate [colon] front,
              fun t => by rw [intercalate_concat hne]; simp⟩
        refine ⟨pre, g, hpre g, (hg g (by simp)).1.colon_not_mem, fun h hh => ?_⟩
        have htext := Ipv6Text.compressed l (front ++ [h]) hl
          (List.forall_mem_append.mpr ⟨hfront, fun t ht => List.mem_singleton.mp ht ▸ hh⟩)
          (by rw [List.length_append, List.length_singleton]; exact h7)
        rw [hpre] at htext
        have hvalues : (l.map hexValue ++ List.replicate (8 - (l.length + (front ++ [g]).length)) 0 ++
            (front ++ [g]).map hexValue).take 7 ++ [hexValue h] =
            l.map hexValue ++ List.replicate (8 - (l.length + (front ++ [h]).length)) 0 ++ (front ++ [h]).map hexValue := by
          rw [List.map_append, List.map_append, ← List.append_assoc, List.take_left', ← List.append_assoc,
            List.length_append, List.length_append]
          · rfl
          · simp only [List.length_append, List.length_map, List.length_replicate, List.length_singleton]
            omega
        rwa [hvalues]

theorem upToColon_eq {pre g : List UInt8} (hg : colon ∉ g) (hlen : (pre ++ colon :: g).length < maxStringLen) :
    upToColon (pre ++ colon :: g) = pre ++ [colon] := by
  have hall : ∀ c ∈ g.reverse, decide (c ≠ colon) = true := fun c hc =>
    decide_eq_true (ne_of_mem_of_not_mem (List.mem_reverse.mp hc) hg)
  have hdrop : ((pre ++ colon :: g).reverse.dropWhile (· ≠ colon)).reverse = pre ++ [colon] := by
    rw [List.reverse_append, List.reverse_cons, List.append_assoc, List.dropWhile_append_of_pos hall,
      List.singleton_append, List.dropWhile_cons_of_neg (by simp), List.reverse_cons, List.reverse_reverse]
  rw [upToColon, zbxVsnprintf_of_lt hlen, hdrop]
  split
  · next h => exact absurd h (List.append_ne_nil_of_right_ne_nil _ (List.cons_ne_nil _ _))
  · rfl

theorem Ipv6Text.expanded {ip : List UInt8} {groups : List ℕ} (hip : Ipv6Text ip groups) (hseven : ¬GapBySeven ip) :
    expandIpv6 ip maxStringLen = some (addressText groups) := by
  rw [expandIpv6, expandIpv6Groups_of_text hip (hip.length_texts hseven)]
  exact congrArg some (zbxVsnprintf_of_lt (lt_of_eq_of_lt hip.length_addressText (by decide)))

theorem scanGroups_addressText {ip : List UInt8} {groups : List ℕ} (hip : Ipv6Text ip groups) :
    scanGroups 7 (addressText groups) = some (groups.map fun (n : ℕ) => (n : ℤ)) := by
  have hgroups : ∀ g ∈ groups.map hex04, Ipv6Group g := by
    intro g hg
    obtain ⟨n, hn, rfl⟩ := List.mem_map.mp hg
    exact (hex04_group (hip.lt_of_mem hn)).1
  rw [addressText, scanGroups_intercalate hgroups (by rw [List.length_map, hip.length_addr]), List.map_map]
  refine congrArg some (List.map_congr_left fun n hn => ?_)
  rw [Function.comp_apply, (hex04_group (hip.lt_of_mem hn)).2]

theorem Ipv6Text.minus_not_mem {ip : List UInt8} {groups : List ℕ} (hip : Ipv6Text ip groups) : minus ∉ ip := by
  intro h
  rcases hip.bytes h with h | h
  · exact absurd h (by decide)
  · exact absurd h (by decide)

/-- **Version 6**: the addresses of a text are visited. -/
theorem readAddresses_v6 {ip : List UInt8} {groups : List ℕ} {last : Option (List UInt8)} (hip : Ipv6Text ip groups)
    (hlast : ∀ s, last = some s → Ipv6Group s ∧ groups.getD 7 0 ≤ hexValue s) (hseven : ¬GapBySeven ip) :
    List.Forall₂ AddressText (readText 1 (readAddresses true) (AddressRange.text ⟨ip, last⟩))
      ((List.range' (groups.getD 7 0) ((last.map hexValue).getD (groups.getD 7 0) + 1 - groups.getD 7 0)).map
        fun i => .v6 (groups.take 7 ++ [i])) := by
  have hlen := hip.length_addr
  have hfirst : groups.getD 7 0 < 16 ^ 4 := by
    rw [List.getD_eq_getElem _ _ (by omega)]
    exact hip.lt_of_mem (List.getElem_mem _)
  have hbound : (last.map hexValue).getD (groups.getD 7 0) < 16 ^ 4 := by
    cases last with
    | none => exact hfirst
    | some s => exact hexValue_lt (hlast s rfl).1.1
  have hscan : readLast scanX (groups.getD 7 0 : ℕ) (last.map fun dash => if 1 = 0 then [] else dash) =
      ((last.map hexValue).getD (groups.getD 7 0) : ℕ) := by
    cases last with
    | none => rfl
    | some s =>
        have hread := scanX_group (hlast s rfl).1 noHexDigit_nil
        rw [List.append_nil] at hread
        rw [Option.map_some, if_neg (by decide), readLast, hread]
        rfl
  have hj : (groups.map fun (n : ℕ) => (n : ℤ)).getD 7 0 = (groups.getD 7 0 : ℕ) :=
    List.getD_map groups 0 fun (n : ℕ) => (n : ℤ)
  obtain ⟨pre, g, htext, hg, hother⟩ := hip.last_group hseven
  rw [AddressRange.text, readText_of_dash 1 _ hip.minus_not_mem, readAddresses, if_pos rfl, hip.expanded hseven]
  dsimp only
  rw [readIpv6, scanGroups_addressText hip]
  dsimp only
  rw [hj, hscan, if_neg (by omega), fromTo_natCast, List.map_map, List.forall₂_map_left_iff, List.forall₂_map_right_iff,
    List.forall₂_same]
  intro i hi
  obtain ⟨hle, hlt⟩ := List.mem_range'_1.mp hi
  have hi4 : i < 16 ^ 4 := by omega
  have hgroup := ipv6Group_hexText hi4
  have hshort := hip.length_le
  have hpre : upToColon ip = pre ++ [colon] := by
    rw [htext] at hshort ⊢
    exact upToColon_eq hg (hshort.trans_lt (by decide))
  have hvisited := hother (hexText i) hgroup
  rw [(hexValue_hexText i).1] at hvisited
  have hlength := hvisited.length_le
  rw [Function.comp_apply, Int.toNat_natCast, hpre, List.append_assoc, List.singleton_append,
    zbxVsnprintf_of_lt (hlength.trans_lt (by decide))]
  exact .v6 hvisited

theorem scanD_dot {s rest : List UInt8} {n : ℤ} (h : dot ∉ s) (hscan : scanD s = some (n, rest)) :
    scanChar dot rest = none := by
  have hrest : dot ∉ rest := fun hmem => h ((suffix_of_scanD hscan).mem hmem)
  cases rest with
  | nil => rfl
  | cons c rest => exact if_neg fun (hc : c = dot) => hrest (hc ▸ List.mem_cons_self)

theorem scanIp_of_dot_not_mem {s : List UInt8} (h : dot ∉ s) : scanIp s = none := by
  rw [scanIp]
  cases hscan : scanD s with
  | none => rfl
  | some r =>
      change ((scanChar dot r.2).bind _) = _
      rw [scanD_dot h (n := r.1) hscan]
      rfl

/-- An address with a `::` beside seven groups is not visited. -/
theorem readAddresses_gapBySeven {ip : List UInt8} {groups : List ℕ} (hip : Ipv6Text ip groups) (hseven : GapBySeven ip)
    (last : Option (List UInt8)) : readText 1 (readAddresses true) (AddressRange.text ⟨ip, last⟩) = [] := by
  have hnone : expandIpv6 ip maxStringLen = none := by
    rw [← Option.not_isSome_iff_eq_none, expandIpv6_isSome]
    intro hexp
    have h8 := hexp.2.1
    rw [hseven.length] at h8
    omega
  have hdot : dot ∉ ip := fun h => (hip.bytes h).elim (fun h => absurd h (by decide)) fun h => absurd h (by decide)
  rw [AddressRange.text, readText_of_dash 1 _ hip.minus_not_mem, readAddresses, if_pos rfl, hnone]
  dsimp only
  rw [readIpv4, scanIp_of_dot_not_mem hdot]

/-! ## lists -/

/-- What is read of one text: its addresses, or none where there is a `::` beside
seven groups. -/
theorem readAddresses_denotes {haveIpv6 : Bool} {e : AddressRange} {addresses : List Address}
    (he : e.Denotes haveIpv6 addresses) :
    (¬GapBySeven e.ip → List.Forall₂ AddressText (readText 1 (readAddresses haveIpv6) e.text) addresses) ∧
      (GapBySeven e.ip → readText 1 (readAddresses haveIpv6) e.text = []) ∧ addresses ≠ [] ∧ comma ∉ e.text := by
  have hcomma {ip : List UInt8} {last : Option (List UInt8)} (hip : comma ∉ ip) (hlast : ∀ s, last = some s → comma ∉ s) :
      comma ∉ AddressRange.text ⟨ip, last⟩ := by
    rw [AddressRange.text]
    cases last with
    | none => simpa using hip
    | some s =>
        rw [Option.map_some, Option.getD_some, List.mem_append, List.mem_cons, not_or, not_or]
        exact ⟨hip, by decide, hlast s rfl⟩
  cases he with
  | v4 hip hlast =>
      rename_i ip a b c d last
      have hcolon : colon ∉ ip := not_mem_v4 hip (by decide) (by decide)
      have hseven : ¬GapBySeven ip := by
        rintro ⟨gs, -, -, rfl | rfl⟩
        · exact hcolon (List.mem_append_right _ List.mem_cons_self)
        · exact hcolon List.mem_cons_self
      have hle : d ≤ (last.map ofDec).getD d := by
        cases last with
        | none => exact le_rfl
        | some s => exact (hlast s rfl).2
      refine ⟨fun _ => readAddresses_v4 haveIpv6 hip hlast, fun h => absurd h hseven, ?_, ?_⟩
      · exact List.ne_nil_of_length_pos (by rw [List.length_map, List.length_range']; omega)
      · refine hcomma (not_mem_v4 hip (by decide) (by decide)) fun s hs hmem => ?_
        exact absurd ((hlast s hs).1.1.2 _ hmem) (by decide)
  | v6 hhave hip hlast =>
      rename_i ip groups last
      subst hhave
      have hle : groups.getD 7 0 ≤ (last.map hexValue).getD (groups.getD 7 0) := by
        cases last with
        | none => exact le_rfl
        | some s => exact (hlast s rfl).2
      refine ⟨readAddresses_v6 hip hlast, fun h => readAddresses_gapBySeven hip h last, ?_, ?_⟩
      · exact List.ne_nil_of_length_pos (by rw [List.length_map, List.length_range']; omega)
      · refine hcomma (fun hmem => ?_) fun s hs hmem => ?_
        · exact (hip.bytes hmem).elim (fun h => absurd h (by decide)) fun h => absurd h (by decide)
        · exact absurd ((hlast s hs).1.1.1 _ hmem) (by decide)

/-- **The addresses that are visited**, and the list as it was; the texts stand with
the addresses that they denote. -/
theorem processRuleAddresses_eq {haveIpv6 : Bool} {m : List UInt8} {iprange : ℕ}
    {elems : List (AddressRange × List Address)} (hne : elems ≠ []) (helems : ∀ e ∈ elems, e.1.Denotes haveIpv6 e.2)
    (htext : strAt m iprange = rangesText (elems.map Prod.fst)) :
    processRuleAddresses haveIpv6 m iprange =
      (m, elems.flatMap fun e => readText 1 (readAddresses haveIpv6) e.1.text) := by
  have hsplit : (rangesText (elems.map Prod.fst)).splitOn comma = elems.map fun e => e.1.text := by
    rw [rangesText, List.map_map]
    refine List.splitOn_intercalate _ (fun t ht => ?_) (by simpa using hne)
    obtain ⟨e, he, rfl⟩ := List.mem_map.mp ht
    exact (readAddresses_denotes (helems e he)).2.2.2
  rw [processRuleAddresses, eachRange_eq le_rfl, htext, hsplit, List.flatMap_map]

/-- The list is left as it was, and exactly its addresses are visited, one after
the other. -/
def AddressesVisited (haveIpv6 : Bool) (m : List UInt8) (iprange : ℕ) (addresses : List Address) : Prop :=
  (processRuleAddresses haveIpv6 m iprange).1 = m ∧
    List.Forall₂ AddressText (processRuleAddresses haveIpv6 m iprange).2 addresses

theorem addresses_visited_iff {haveIpv6 : Bool} {m : List UInt8} {iprange : ℕ}
    {elems : List (AddressRange × List Address)} (hne : elems ≠ []) (helems : ∀ e ∈ elems, e.1.Denotes haveIpv6 e.2)
    (htext : strAt m iprange = rangesText (elems.map Prod.fst)) :
    AddressesVisited haveIpv6 m iprange (elems.flatMap Prod.snd) ↔ ∀ e ∈ elems, ¬GapBySeven e.1.ip := by
  rw [AddressesVisited, processRuleAddresses_eq hne helems htext]
  constructor
  · rintro ⟨-, hvisited⟩ e he hseven
    have hlen := hvisited.length_eq
    rw [List.length_flatMap, List.length_flatMap] at hlen
    refine absurd hlen (List.sum_lt_sum _ _ (fun e' he' => ?_) ⟨e, he, ?_⟩).ne
    · obtain ⟨hread, hgap, -, -⟩ := readAddresses_denotes (helems e' he')
      by_cases hseven' : GapBySeven e'.1.ip
      · rw [hgap hseven']
        exact Nat.zero_le _
      · exact (hread hseven').length_eq.le
    · obtain ⟨-, hgap, hsome, -⟩ := readAddresses_denotes (helems e he)
      rw [hgap hseven]
      exact List.length_pos_iff.mpr hsome
  · intro hall
    refine ⟨rfl, ?_⟩
    have heach : ∀ elems : List (AddressRange × List Address), (∀ e ∈ elems, e.1.Denotes haveIpv6 e.2) →
        (∀ e ∈ elems, ¬GapBySeven e.1.ip) →
        List.Forall₂ AddressText (elems.flatMap fun e => readText 1 (readAddresses haveIpv6) e.1.text)
          (elems.flatMap Prod.snd) := by
      intro elems helems hall
      induction elems with
      | nil => exact .nil
      | cons e elems ih =>
          obtain ⟨he, helems⟩ := List.forall_mem_cons.mp helems
          obtain ⟨hseven, hall⟩ := List.forall_mem_cons.mp hall
          exact List.rel_append ((readAddresses_denotes he).1 hseven) (ih helems hall)
    exact heach elems helems hall

/-- **Coverage**: exactly the ports that a well-formed list denotes are probed, and
the list is left as it was, when it has no range but those of the port 0 alone and
those without a port; exactly the addresses of a well-formed list are visited when
none of them is written with a `::` beside seven groups. -/
theorem coverage_iff (haveIpv6 : Bool) (m : List UInt8) (ports iprange : ℕ) :
    (∀ elems : List PortRange, elems ≠ [] → (∀ e ∈ elems, e.WellFormed) → strAt m ports = portsText elems →
      (processCheckPorts m ports = (m, elems.flatMap PortRange.ports) ↔ ∀ e ∈ elems, e.Probed)) ∧
    ∀ elems : List (AddressRange × List Address), elems ≠ [] → (∀ e ∈ elems, e.1.Denotes haveIpv6 e.2) →
      strAt m iprange = rangesText (elems.map Prod.fst) →
      (AddressesVisited haveIpv6 m iprange (elems.flatMap Prod.snd) ↔ ∀ e ∈ elems, ¬GapBySeven e.1.ip) :=
  ⟨fun _ => ports_probed_iff, fun _ => addresses_visited_iff⟩

/-- No port of `20-22` is probed. -/
theorem not_covered_ports :
    ¬∀ (m : List UInt8) (ports : ℕ) (elems : List PortRange), elems ≠ [] → (∀ e ∈ elems, e.WellFormed) →
      strAt m ports = portsText elems → processCheckPorts m ports = (m, elems.flatMap PortRange.ports) := by
  intro h
  have hrange : ∀ e ∈ [(⟨bytes "20", some (bytes "22")⟩ : PortRange)], e.WellFormed := by
    intro e he
    rw [List.mem_singleton.mp he]
    refine ⟨by decide, fun s hs => ?_⟩
    rw [← Option.some.inj hs]
    decide
  have heq := h (bytes "20-22" ++ [0]) 0 [⟨bytes "20", some (bytes "22")⟩] (by decide) hrange (by decide)
  have hprobed := (ports_probed_iff (by decide) hrange (by decide)).mp heq _ (List.mem_singleton_self _) _ rfl
  exact absurd hprobed (by decide)

end Zabbix
