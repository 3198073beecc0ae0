import Zabbix.Agent.Log
import Zabbix.Atoi
import Zabbix.Lib.Mem
import Zabbix.Str

/-!
# Zabbix.Sender.InputLine

A line of the input file of `zabbix_sender` (`main` of `zabbix_sender/zabbix_sender.c`).

The line stands in an array.  The spaces behind its first fields are overwritten with NUL,
and what is read of the fields afterwards are the strings that begin at them.

* `inputLine_stamped` — with `-T`, the fields are those of the line;
* `inputLine_plain` — without, the key is empty.
-/

namespace Zabbix

open Ascii

/-- What is put into a request for a line. -/
structure SenderEntry where
  host : CString
  key : CString
  value : CString
  clock : Option ℕ
deriving DecidableEq

/-- What `zbx_rtrim(str, "\r\n")` leaves. -/
def rtrimLine (s : List UInt8) : List UInt8 := zbxRtrim s [cr, newline]

/-- The number that `zbx_json_adduint64` gets from `atoi`. -/
def atoiUint64 (s : List UInt8) : ℕ := ((atoi s).toInt % 2 ^ 64).toNat

/-! ## the array -/

/-- The string at an offset. -/
def stringAt (m : Mem) (p : ℕ) : CString := ⟨m.strAt maxBufLen p, m.not_mem_strAt maxBufLen p⟩

/-- `strchr`, as the offset of what is found. -/
def strchrAt (m : Mem) (p : ℕ) (c : UInt8) : Option ℕ :=
  (strchr c (stringAt m p).val).map fun s => p + s.1.length

/-- `zbx_rtrim(str, "\r\n")` at an offset. -/
def rtrimAt (m : Mem) (p : ℕ) : Mem :=
  let s := (stringAt m p).val
  m.write (p + (rtrimLine s).length) (List.replicate (s.length - (rtrimLine s).length) 0)

/-- What `fgets` stores. -/
def storeLine (inLine : Mem) (line : List UInt8) : Mem := inLine.write 0 (line ++ [0])

/-- What the loop makes of the line in the array: the array behind it, and the entry. -/
def inputLine (withTimestamps : Bool) (inLine : Mem) : Mem × Option SenderEntry :=
  match strchrAt inLine 0 space with
  | none => (inLine, none)
  | some p =>
      let inLine := inLine.write p [0]
      let key := p + 1
      match if withTimestamps then strchrAt inLine key space else some key with
      | none => (inLine, none)
      | some p =>
          let inLine := inLine.write p [0]
          let clock := p + 1
          match strchrAt inLine clock space with
          | none => (inLine, none)
          | some p =>
              let inLine := inLine.write p [0]
              let keyValue := p + 1
              let inLine := rtrimAt inLine keyValue
              (inLine, some
                { host := stringAt inLine 0
                  key := stringAt inLine key
                  value := stringAt inLine keyValue
                  clock := if withTimestamps then some (atoiUint64 (stringAt inLine clock).val) else none })

/-! ## what a line says -/

/-- The C string that bytes are. -/
def toCString (s : List UInt8) : CString :=
  ⟨s.takeWhile (· ≠ 0), fun h => by simpa using List.mem_takeWhile_imp h⟩

/-- The entry that a line stands for: host and key, a timestamp when there are timestamps,
and a value, between single spaces. -/
def lineEntry (withTimestamps : Bool) (line : List UInt8) : Option SenderEntry :=
  match strchr space line with
  | none => none
  | some (host, rest) =>
      match strchr space rest with
      | none => none
      | some (key, rest) =>
          if 0 ∈ line ∨ host = [] ∨ key = [] then none
          else if withTimestamps then
            match strchr space rest with
            | none => none
            | some (stamp, value) =>
                if stamp ≠ [] ∧ ∀ c ∈ stamp, JsonText.isDigit c then some
                  { host := toCString host
                    key := toCString key
                    value := toCString (rtrimLine value)
                    clock := some (Printf.ofDec stamp) }
                else none
          else some
            { host := toCString host
              key := toCString key
              value := toCString (rtrimLine rest)
              clock := none }

/-! ## the strings in the array -/

/-- A string that stands in the array: what `strchr` needs. -/
structure InArray (m : Mem) (p : ℕ) (s : List UInt8) : Prop where
  holds : Mem.Holds m p s
  noNul : (0 : UInt8) ∉ s
  fits : s.length < maxBufLen

theorem InArray.stringAt {m : Mem} {p : ℕ} {s : List UInt8} (h : InArray m p s) : (stringAt m p).val = s :=
  Mem.strAt_of_holds h.holds h.noNul h.fits

theorem InArray.strchrAt {m : Mem} {p : ℕ} {s : List UInt8} (h : InArray m p s) (c : UInt8) :
    strchrAt m p c = (strchr c s).map fun t => p + t.1.length := by
  rw [Zabbix.strchrAt, h.stringAt]

/-- The two strings on either side of what is overwritten. -/
theorem InArray.plant {m : Mem} {p : ℕ} {s a b : List UInt8} {c : UInt8} (h : InArray m p s)
    (hs : strchr c s = some (a, b)) :
    InArray (m.write (p + a.length) [0]) p a ∧ InArray (m.write (p + a.length) [0]) (p + a.length + 1) b := by
  have heq : s = a ++ c :: b := strchr_eq_some hs
  subst heq
  obtain ⟨ha, hb⟩ := h.holds.plant
  have hfits := h.fits
  have h0 := h.noNul
  rw [List.mem_append, List.mem_cons, not_or, not_or] at h0
  rw [List.length_append, List.length_cons] at hfits
  exact ⟨⟨ha, h0.1, by omega⟩, ⟨hb, h0.2.2, by omega⟩⟩

/-- The end of a string. -/
theorem InArray.suffix {m : Mem} {p : ℕ} {a b : List UInt8} (h : InArray m p (a ++ b)) :
    InArray m (p + a.length) b := by
  have hfits := h.fits
  rw [List.length_append] at hfits
  exact ⟨h.holds.suffix, fun h0 => h.noNul (List.mem_append_right a h0), by omega⟩

/-- A write behind a string leaves it. -/
theorem InArray.write {m : Mem} {p q : ℕ} {s : List UInt8} (h : InArray m p s) (t : List UInt8)
    (hq : p + s.length + 1 ≤ q) : InArray (m.write q t) p s :=
  ⟨h.holds.write t hq, h.noNul, h.fits⟩

theorem rtrimLine_initial (s : List UInt8) : rtrimLine s <+: s := List.rdropWhile_prefix _ _

/-- The end of a string is overwritten. -/
theorem InArray.rtrimAt {m : Mem} {p : ℕ} {s : List UInt8} (h : InArray m p s) :
    InArray (rtrimAt m p) p (rtrimLine s) := by
  obtain ⟨t, ht⟩ := rtrimLine_initial s
  have hlen := congrArg List.length ht
  rw [List.length_append] at hlen
  have hfits := h.fits
  rw [Zabbix.rtrimAt, h.stringAt]
  refine ⟨?_, fun h0 => h.noNul ((rtrimLine_initial s).subset h0), by omega⟩
  have hread : m.read p ((rtrimLine s).length + (t.length + 1)) = rtrimLine s ++ (t ++ [0]) := by
    have hholds := h.holds
    rw [Mem.Holds, ← ht, List.length_append, Nat.add_assoc, List.append_assoc] at hholds
    exact hholds
  rw [Mem.read_add] at hread
  obtain ⟨hkept, hrest⟩ := List.append_inj hread (by simp)
  have hcount : s.length - (rtrimLine s).length = t.length := by omega
  rw [Mem.Holds, Mem.read_add, Mem.read_write_of_le _ _ (le_refl _), hkept, hcount]
  refine congrArg (rtrimLine s ++ ·) ?_
  cases t with
  | nil =>
      rw [List.length_nil, List.replicate_zero, Mem.write_nil]
      exact hrest
  | cons _ t =>
      rw [List.length_cons, List.replicate_succ, Mem.read_succ, Mem.read_zero]
      have hw := Mem.write_add m (p + (rtrimLine s).length) (s := (0 : UInt8) :: List.replicate t.length 0)
        (i := 0) (by simp)
      exact congrArg (fun d => [d]) hw

theorem toCString_of_not_mem {s : List UInt8} (h : (0 : UInt8) ∉ s) : (toCString s).val = s :=
  List.takeWhile_eq_self_iff.mpr fun _ hc => decide_eq_true (ne_of_mem_of_not_mem hc h)

theorem InArray.stringAt_eq {m : Mem} {p : ℕ} {s : List UInt8} (h : InArray m p s) :
    Zabbix.stringAt m p = toCString s :=
  Subtype.ext (h.stringAt.trans (toCString_of_not_mem h.noNul).symm)

/-! ## with timestamps -/

/-- The entry of a string with a timestamp. -/
def stampedEntry (s : List UInt8) : Option SenderEntry :=
  match strchr space s with
  | none => none
  | some (host, rest) =>
      match strchr space rest with
      | none => none
      | some (key, rest) =>
          match strchr space rest with
          | none => none
          | some (stamp, value) => some
              { host := toCString host
                key := toCString key
                value := toCString (rtrimLine value)
                clock := some (atoiUint64 stamp) }

/-- **With `-T`** the fields are those of the line. -/
theorem inputLine_stamped {m : Mem} {s : List UInt8} (h : InArray m 0 s) :
    (inputLine true m).2 = stampedEntry s := by
  rw [inputLine, h.strchrAt, stampedEntry]
  cases hhost : strchr space s with
  | none => rfl
  | some p =>
      obtain ⟨host, rest⟩ := p
      obtain ⟨hhostAt, hrestAt⟩ := h.plant hhost
      simp only [Option.map_some, Nat.zero_add, if_true] at hhostAt hrestAt ⊢
      rw [hrestAt.strchrAt]
      cases hkey : strchr space rest with
      | none => rfl
      | some p =>
          obtain ⟨key, rest'⟩ := p
          have hhostAt := hhostAt.write [0] (q := host.length + 1 + key.length) (by omega)
          obtain ⟨hkeyAt, hrestAt⟩ := hrestAt.plant hkey
          simp only [Option.map_some]
          rw [hrestAt.strchrAt]
          cases hstamp : strchr space rest' with
          | none => rfl
          | some p =>
              obtain ⟨stamp, value⟩ := p
              have hhostAt := hhostAt.write [0] (q := host.length + 1 + key.length + 1 + stamp.length) (by omega)
              have hkeyAt := hkeyAt.write [0] (q := host.length + 1 + key.length + 1 + stamp.length) (by omega)
              obtain ⟨hstampAt, hvalueAt⟩ := hrestAt.plant hstamp
              have hvalueTrimmed := hvalueAt.rtrimAt
              rw [rtrimAt, hvalueAt.stringAt] at hvalueTrimmed
              simp only [Option.map_some, rtrimAt, hvalueAt.stringAt]
              rw [(hhostAt.write _ (by omega)).stringAt_eq, (hkeyAt.write _ (by omega)).stringAt_eq,
                (hstampAt.write _ (by omega)).stringAt, hvalueTrimmed.stringAt_eq]

/-! ## without timestamps -/

/-- There is a space behind the first space and the byte that follows it. -/
def Spaced (m : Mem) : Prop :=
  ∃ s, strchr space (stringAt m 0).val = some s ∧ space ∈ (stringAt m (s.1.length + 2)).val

theorem write_of_ne (m : Mem) {p k : ℕ} (c : UInt8) (h : k ≠ p) : m.write p [c] k = m k := by
  rcases lt_or_gt_of_ne h with hlt | hgt
  · exact Mem.write_of_lt m _ hlt
  · exact Mem.write_of_le m (by rw [List.length_singleton]; omega)

theorem exists_strchr_iff {c : UInt8} {s : List UInt8} : (∃ t, strchr c s = some t) ↔ c ∈ s := by
  rw [← Option.ne_none_iff_exists', ne_eq, strchr_eq_none_iff, not_not]

/-- The byte behind the first space is overwritten before it is looked for the next one. -/
theorem stringAt_planted (m : Mem) {p q : ℕ} (hq : p + 2 ≤ q) :
    stringAt ((m.write p [0]).write (p + 1) [0]) q = stringAt m q := by
  refine Subtype.ext (Mem.strAt_congr fun k hk => ?_)
  rw [write_of_ne _ _ (by omega), write_of_ne _ _ (by omega)]

theorem inputLine_plain (m : Mem) : (∃ e, (inputLine false m).2 = some e) ↔ Spaced m := by
  rw [inputLine, Spaced, strchrAt]
  cases hhost : strchr space (stringAt m 0).val with
  | none => simp
  | some s =>
      simp only [Option.map_some, Nat.zero_add, Bool.false_eq_true, if_false, Option.some.injEq, exists_eq_left']
      rw [strchrAt, stringAt_planted m (le_refl _), ← exists_strchr_iff]
      cases hvalue : strchr space (stringAt m (s.1.length + 2)).val with
      | none => simp
      | some t => simp

theorem stringAt_of_nul {m : Mem} {p : ℕ} (h : m p = 0) : (stringAt m p).val = [] := by
  have hstr : ∀ fuel, m.strAt fuel p = [] := by
    intro fuel
    cases fuel with
    | zero => rfl
    | succ fuel => rw [Mem.strAt, if_pos h]
  exact hstr maxBufLen

/-- **Without `-T`** the key is empty: its first byte is the one that is overwritten. -/
theorem key_inputLine_plain {m : Mem} {e : SenderEntry} (h : (inputLine false m).2 = some e) : e.key.val = [] := by
  rw [inputLine, strchrAt] at h
  cases hhost : strchr space (stringAt m 0).val with
  | none =>
      rw [hhost] at h
      cases h
  | some s =>
      rw [hhost] at h
      simp only [Option.map_some, Nat.zero_add, Bool.false_eq_true, if_false] at h
      rw [strchrAt] at h
      cases hvalue : strchr space (stringAt ((m.write s.1.length [0]).write (s.1.length + 1) [0]) (s.1.length + 2)).val with
      | none =>
          rw [hvalue] at h
          cases h
      | some t =>
          rw [hvalue] at h
          simp only [Option.map_some, Option.some.injEq] at h
          subst h
          refine stringAt_of_nul ?_
          rw [rtrimAt, Mem.write_of_lt _ _ (by omega), Mem.write_of_lt _ _ (by omega)]
          have hw := Mem.write_add (m.write s.1.length [0]) (s.1.length + 1) (s := [(0 : UInt8)]) (i := 0) (by simp)
          exact hw

/-! ## what is taken and what the line says -/

theorem append_nul_eq (line : List UInt8) : ∃ rest, line ++ [0] = cstr line ++ 0 :: rest := by
  induction line with
  | nil => exact ⟨[], rfl⟩
  | cons c line ih =>
      by_cases hc : c = 0
      · subst hc
        exact ⟨line ++ [0], rfl⟩
      · obtain ⟨rest, hrest⟩ := ih
        refine ⟨rest, ?_⟩
        have htake : cstr (c :: line) = c :: cstr line := List.takeWhile_cons_of_pos (by simpa using hc)
        rw [List.cons_append, hrest, htake]
        rfl

/-- A line that fits stands in the array, up to a NUL. -/
theorem inArray_storeLine (m : Mem) {line : List UInt8} (hlen : line.length < maxBufLen) :
    InArray (storeLine m line) 0 (cstr line) := by
  obtain ⟨rest, hrest⟩ := append_nul_eq line
  have hcstr : (cstr line).length ≤ line.length := (List.takeWhile_prefix _).length_le
  have hread := Mem.read_write_self m 0 (line ++ [0])
  have hlength : (line ++ [0]).length = (cstr line).length + 1 + rest.length := by
    rw [hrest, List.length_append, List.length_cons]
    omega
  rw [hlength, Mem.read_add, hrest, List.append_cons (cstr line)] at hread
  refine ⟨?_, not_mem_cstr line, by omega⟩
  rw [Mem.Holds, storeLine, hrest, List.append_cons (cstr line)]
  exact (List.append_inj hread (by simp)).1

/-- An entry is taken of every string with three spaces. -/
theorem stampedEntry_eq_none {s : List UInt8} : stampedEntry s = none ↔ s.count space < 3 := by
  rw [stampedEntry]
  cases hhost : strchr space s with
  | none => simp [List.count_eq_zero.mpr (strchr_eq_none_iff.mp hhost)]
  | some p =>
      have hcount := count_of_strchr hhost
      cases hkey : strchr space p.2 with
      | none =>
          have hzero := List.count_eq_zero.mpr (strchr_eq_none_iff.mp hkey)
          simp only [hkey, true_iff]
          omega
      | some q =>
          have hcount' := count_of_strchr hkey
          cases hstamp : strchr space q.2 with
          | none =>
              have hzero := List.count_eq_zero.mpr (strchr_eq_none_iff.mp hstamp)
              simp only [hkey, hstamp, true_iff]
              omega
          | some r =>
              have hcount'' := count_of_strchr hstamp
              simp only [hkey, hstamp, reduceCtorEq, false_iff]
              omega

/-- **The clock of an entry** is the timestamp when an `int` holds it, and for one number more. -/
theorem atoiUint64_eq_iff {s : List UInt8} (hne : s ≠ []) (hdigits : ∀ c ∈ s, JsonText.isDigit c) :
    atoiUint64 s = Printf.ofDec s ↔ Printf.ofDec s < 2 ^ 31 ∨ Printf.ofDec s = 2 ^ 64 - 1 := by
  have hatoll : atoll s = (min (Printf.ofDec s) (2 ^ 63 - 1) : ℕ) := by
    obtain ⟨c, s, rfl⟩ := List.exists_cons_of_ne_nil hne
    have htake : (c :: s).takeWhile (fun c => JsonText.isDigit c) = c :: s := List.takeWhile_eq_self_iff.mpr hdigits
    have hbyte : ∀ c : UInt8, JsonText.isDigit c → ¬isSpace c = true ∧ c ≠ minus ∧ c ≠ plus :=
      forall_byte (by decide +kernel)
    obtain ⟨hspace, hminus, hplus⟩ := hbyte c (hdigits c List.mem_cons_self)
    rw [atoll, List.dropWhile_cons_of_neg hspace]
    dsimp only
    rw [if_neg hminus, if_neg hplus, htake]
  rw [atoiUint64, atoi, hatoll, Int32.toInt_ofInt]
  generalize Printf.ofDec s = n
  simp only [Int32.size, Int.bmod_def]
  omega

/-- With timestamps, a line is taken for what it says when it stands for an entry whose clock
an `int` holds (one number more is read right), or has no three spaces. -/
def StampedOk (line : List UInt8) : Prop :=
  match lineEntry true line with
  | none => (cstr line).count space < 3
  | some e => ∀ n ∈ e.clock, n < 2 ^ 31 ∨ n = 2 ^ 64 - 1

instance (line : List UInt8) : Decidable (StampedOk line) :=
  match h : lineEntry true line with
  | none => decidable_of_iff ((cstr line).count space < 3) (by rw [StampedOk, h])
  | some e =>
      decidable_of_iff (e.clock.all fun n => n < 2 ^ 31 ∨ n = 2 ^ 64 - 1) (by
        rw [StampedOk, h]
        dsimp only
        cases e.clock with
        | none => simp
        | some n => simp only [Option.all_some, decide_eq_true_eq, Option.mem_some_iff, forall_eq'])

/-- A line that stands for an entry is one with three spaces. -/
theorem stampedEntry_of_lineEntry {line : List UInt8} {e : SenderEntry} (h : lineEntry true line = some e) :
    ∃ stamp, stamp ≠ [] ∧ (∀ c ∈ stamp, JsonText.isDigit c) ∧ e.clock = some (Printf.ofDec stamp) ∧
      stampedEntry (cstr line) = some { e with clock := some (atoiUint64 stamp) } := by
  rw [lineEntry] at h
  split at h
  · cases h
  next host rest hhost =>
    split at h
    · cases h
    next key rest' hkey =>
      split at h
      · cases h
      next hplain =>
        rw [if_pos rfl] at h
        split at h
        · cases h
        next stamp value hstamp =>
          split at h
          next hdigits =>
            cases h
            refine ⟨stamp, hdigits.1, hdigits.2, rfl, ?_⟩
            rw [cstr_of_not_mem fun h0 => hplain (.inl h0), stampedEntry, hhost]
            dsimp only
            rw [hkey]
            dsimp only
            rw [hstamp]
          · cases h

theorem stampedEntry_eq_iff {line : List UInt8} :
    stampedEntry (cstr line) = lineEntry true line ↔ StampedOk line := by
  rw [StampedOk]
  cases he : lineEntry true line with
  | none => exact stampedEntry_eq_none
  | some e =>
      obtain ⟨stamp, hne, hdigits, hclock, htaken⟩ := stampedEntry_of_lineEntry he
      obtain ⟨host, key, value, clock⟩ := e
      dsimp only at hclock htaken ⊢
      subst hclock
      rw [htaken]
      simp only [Option.some.injEq, SenderEntry.mk.injEq, true_and, Option.mem_def]
      rw [forall_eq', atoiUint64_eq_iff hne hdigits]

/-- A line that stands for an entry without timestamp has a key, and is taken. -/
theorem spaced_of_lineEntry (m : Mem) {line : List UInt8} {e : SenderEntry} (hlen : line.length < maxBufLen)
    (h : lineEntry false line = some e) : Spaced (storeLine m line) ∧ e.key.val ≠ [] := by
  rw [lineEntry] at h
  split at h
  · cases h
  next host rest hhost =>
    split at h
    · cases h
    next key rest' hkey =>
      split at h
      · cases h
      next hplain =>
        rw [not_or, not_or] at hplain
        obtain ⟨hnul, -, hkeyNe⟩ := hplain
        simp only [Bool.false_eq_true, if_false, Option.some.injEq] at h
        subst h
        have hline := strchr_eq_some hhost
        have hrest := strchr_eq_some hkey
        dsimp only at hline hrest
        have hinArray := inArray_storeLine m hlen
        rw [cstr_of_not_mem hnul] at hinArray
        obtain ⟨c, key, rfl⟩ := List.exists_cons_of_ne_nil hkeyNe
        have hkeyNul : (0 : UInt8) ∉ c :: key := fun h0 => hnul (by rw [hline, hrest]; simp_all)
        refine ⟨⟨(host, rest), by rw [hinArray.stringAt, hhost], ?_⟩, ?_⟩
        · have hassoc : line = (host ++ [space, c]) ++ (key ++ space :: rest') := by
            rw [hline, hrest]
            simp
          have hpos : 0 + (host ++ [space, c]).length = host.length + 2 := by simp
          have hsuffix : InArray (storeLine m line) 0 ((host ++ [space, c]) ++ (key ++ space :: rest')) := by
            rw [← hassoc]
            exact hinArray
          have hend := hsuffix.suffix
          rw [hpos] at hend
          dsimp only
          rw [hend.stringAt]
          simp
        · rw [toCString_of_not_mem hkeyNul]
          exact List.cons_ne_nil c key

end Zabbix
