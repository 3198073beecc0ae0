import Zabbix.Lists.InPlace
import Zabbix.Lists.Ipv6

/-!
# Zabbix.Lists.Addresses

Lists of addresses that are searched where they stand: `ip_in_list` and `ip_in_list_ipv6` of
`libs/zbxcommon/misc.c`.

A text may be a range, so that there is a NUL over its dash too.

* `ipInListAt_eq` — the answer, and the buffer as it was;
* `lists_restored` — the same of all functions that search a list where it stands.
-/

namespace Zabbix

open Ascii CInt Buffer

/-! ## Lists of addresses -/

/-- A NUL over a character that was found, or the character over the NUL. -/
def plant (m : List UInt8) (found : Option ℕ) (c : UInt8) : List UInt8 :=
  match found with
  | none => m
  | some p => m.set p c

theorem length_plant (m : List UInt8) (found : Option ℕ) (c : UInt8) : (plant m found c).length = m.length := by
  cases found with
  | none => rfl
  | some p => exact List.length_set

/-- The loop of `ip_in_list` and of `ip_in_list_ipv6`: the buffer, `comma`, `dash` and `ret`.
`hit` is what is done with the text in front of the dash and the one behind it. -/
def rangeLoop (hit : List UInt8 → Option (List UInt8) → Bool) (m : List UInt8) (start : ℕ) :
    List UInt8 × Option ℕ × Option ℕ × Bool :=
  if _h : byteAt m start = 0 then (m, none, none, false)
  else
    match _he : find m start comma with
    | none =>
        let dash := find m start minus
        let m := plant m dash 0
        if hit (strAt m start) (dash.map fun d => strAt m (d + 1)) then (m, none, dash, true)
        else (plant m dash minus, none, none, false)
    | some e =>
        let cut := m.set e 0
        let dash := find cut start minus
        let m := plant cut dash 0
        if hit (strAt m start) (dash.map fun d => strAt m (d + 1)) then (m, some e, dash, true)
        else rangeLoop hit ((plant m dash minus).set e comma) (e + 1)
termination_by m.length - start
decreasing_by
  have := lt_length_of_byteAt _h
  have := (find_spec _he).1
  simp only [List.length_set, length_plant]
  omega

/-- The loop and what is put back behind `out`. -/
def rangeList (hit : List UInt8 → Option (List UInt8) → Bool) (m : List UInt8) (list : ℕ) : List UInt8 × Bool :=
  let r := rangeLoop hit m list
  (plant (plant r.1 r.2.2.1 minus) r.2.1 comma, r.2.2.2)

/-- `%x`: the `int` and what follows it. -/
def scanX (s : List UInt8) : Option (ℤ × List UInt8) :=
  let s := s.dropWhile fun c => isSpace c
  let body :=
    match s with
    | [] => []
    | c :: rest => if c = minus ∨ c = plus then rest else s
  let body := if body.take 2 = bytes "0x" ∨ body.take 2 = bytes "0X" then body.drop 2 else body
  match body.takeWhile fun c => JsonText.isHexDigit c with
  | [] => none
  | c :: digits =>
      let n := min (hexValue (c :: digits)) (2 ^ 64 - 1)
      some (cast (if s.head? = some minus then -(n : ℤ) else n), body.dropWhile fun c => JsonText.isHexDigit c)

/-- `n + 1` times `%x`, with colons between them. -/
def scanGroups : ℕ → List UInt8 → Option (List ℤ)
  | 0, s => do
      let (i, _) ← scanX s
      return [i]
  | n + 1, s => do
      let (i, s) ← scanX s
      let s ← scanChar colon s
      let rest ← scanGroups n s
      return i :: rest

/-- The eight groups of a text. -/
def scanIpv6 (ip : List UInt8) : Option (List ℤ) := do
  let buffer ← expandIpv6 ip maxStringLen
  scanGroups 7 buffer

/-- One text in `ip_in_list_ipv6`. -/
def ipv6Hit (i : List ℤ) (start : List UInt8) (dash : Option (List UInt8)) : Bool :=
  let inRange := fun j j8 => decide (i.take 7 = j.take 7 ∧ j.getD 7 0 ≤ i.getD 7 0 ∧ i.getD 7 0 ≤ j8)
  match dash with
  | none =>
      match scanIpv6 start with
      | none => false
      | some j => inRange j (j.getD 7 0)
  | some dash =>
      match scanX dash with
      | none => false
      | some (j8, _) =>
          match scanIpv6 start with
          | none => false
          | some j => inRange j j8

/-- `ip_in_list_ipv6` -/
def ipInListIpv6At (m : List UInt8) (list : ℕ) (ip : List UInt8) : List UInt8 × Bool :=
  match scanIpv6 ip with
  | none => (m, false)
  | some i => rangeList (ipv6Hit i) m list

/-- One text in `ip_in_list`. -/
def ipHit (i : ℤ × ℤ × ℤ × ℤ) (start : List UInt8) (dash : Option (List UInt8)) : Bool :=
  let inRange := fun (j : ℤ × ℤ × ℤ × ℤ) j4 =>
    decide (i.1 = j.1 ∧ i.2.1 = j.2.1 ∧ i.2.2.1 = j.2.2.1 ∧ j.2.2.2 ≤ i.2.2.2 ∧ i.2.2.2 ≤ j4)
  match dash with
  | none =>
      match scanIp start with
      | none => false
      | some j => inRange j j.2.2.2
  | some dash =>
      match scanD dash with
      | none => false
      | some (j4, _) =>
          match scanIp start with
          | none => false
          | some j => inRange j j4

/-- `ip_in_list`, with or without `HAVE_IPV6`. -/
def ipInListAt (haveIpv6 : Bool) (m : List UInt8) (list : ℕ) (ip : List UInt8) : List UInt8 × Bool :=
  match scanIp ip with
  | none => if haveIpv6 then ipInListIpv6At m list ip else (m, false)
  | some i => rangeList (ipHit i) m list

/-- What stands behind the dash of a text. -/
def behindDash (text : List UInt8) : Option (List UInt8) :=
  match text.dropWhile (· ≠ minus) with
  | [] => none
  | _ :: dash => some dash

/-- A text of the list has the address. -/
def inRanges (hit : List UInt8 → Option (List UInt8) → Bool) (list : List UInt8) : Bool :=
  (listTexts comma list).any fun text => hit (text.takeWhile (· ≠ minus)) (behindDash text)

/-- The texts in front of a dash and behind it, while it is cut off, and the buffer when it is put
back. -/
theorem plant_dash (m : List UInt8) (start : ℕ) :
    strAt (plant m (find m start minus) 0) start = (strAt m start).takeWhile (· ≠ minus) ∧
      (find m start minus).map (fun d => strAt (plant m (find m start minus) 0) (d + 1)) = behindDash (strAt m start) ∧
      plant (plant m (find m start minus) 0) (find m start minus) minus = m := by
  cases hfind : find m start minus with
  | none =>
      have hmem := find_eq_none hfind
      have hall : ∀ a ∈ strAt m start, decide (a ≠ minus) = true := by
        intro a ha
        exact decide_eq_true (ne_of_mem_of_not_mem ha hmem)
      refine ⟨(List.takeWhile_eq_self_iff.mpr hall).symm, ?_, rfl⟩
      rw [behindDash, List.dropWhile_eq_nil_iff.mpr hall]
      rfl
  | some d =>
      obtain ⟨front, behind, htext, hfront, rfl⟩ := strAt_of_find (by decide) hfind
      have hall : ∀ a ∈ front, decide (a ≠ minus) = true := by
        intro a ha
        exact decide_eq_true (ne_of_mem_of_not_mem ha hfront)
      have hcut : strAt (m.set (start + front.length) 0) (start + front.length + 1) = behind := by
        rw [strAt_set_of_lt (Nat.lt_succ_self _), strAt_behind htext]
      refine ⟨?_, ?_, set_put_back (find_spec hfind).2 0⟩
      · rw [plant, strAt_set htext, htext, List.takeWhile_append_of_pos hall, List.takeWhile_cons_of_neg (by simp),
          List.append_nil]
      · rw [Option.map_some, plant, hcut, behindDash, htext, List.dropWhile_append_of_pos hall,
          List.dropWhile_cons_of_neg (by simp)]

theorem rangeLoop_eq (hit : List UInt8 → Option (List UInt8) → Bool) (m : List UInt8) (start : ℕ) :
    plant (plant (rangeLoop hit m start).1 (rangeLoop hit m start).2.2.1 minus) (rangeLoop hit m start).2.1 comma = m ∧
      (rangeLoop hit m start).2.2.2 = inRanges hit (strAt m start) := by
  induction hn : m.length - start using Nat.strong_induction_on generalizing start with
  | _ n ih =>
      rw [rangeLoop]
      by_cases hend : byteAt m start = 0
      · rw [dif_pos hend, strAt_eq_nil_iff.mpr hend]
        exact ⟨rfl, rfl⟩
      · rw [dif_neg hend]
        split
        · rename_i hfind
          obtain ⟨hfront, hbehind, hback⟩ := plant_dash m start
          dsimp only
          rw [inRanges, listTexts_of_not_mem (find_eq_none hfind) (mt strAt_eq_nil_iff.mp hend), List.any_cons,
            List.any_nil, Bool.or_false, hfront, hbehind, hback]
          split
          · rename_i hhit
            exact ⟨hback, hhit.symm⟩
          · rename_i hhit
            exact ⟨rfl, (Bool.not_eq_true _ ▸ hhit).symm⟩
        · rename_i e hfind
          obtain ⟨hle, hbyte⟩ := find_spec hfind
          obtain ⟨front, behind, htext, hnotin, rfl⟩ := strAt_of_find (by decide) hfind
          have hlt := lt_length_of_byteAt hend
          have hcomma := set_put_back hbyte 0
          obtain ⟨hfront, hbehind, hback⟩ := plant_dash (m.set (start + front.length) 0) start
          rw [strAt_set htext] at hfront hbehind
          dsimp only
          rw [hfront, hbehind, hback, hcomma, htext, inRanges, listTexts_append_cons hnotin, List.any_cons]
          split
          · rename_i hhit
            rw [hhit, Bool.true_or]
            exact ⟨(congrArg (fun m => plant m _ comma) hback).trans hcomma, rfl⟩
          · rename_i hhit
            rw [Bool.not_eq_true] at hhit
            rw [hhit, Bool.false_or, ← strAt_behind htext, ← inRanges]
            exact ih (m.length - (start + front.length + 1)) (by omega) (start + front.length + 1) rfl

theorem rangeList_eq (hit : List UInt8 → Option (List UInt8) → Bool) (m : List UInt8) (list : ℕ) :
    rangeList hit m list = (m, inRanges hit (strAt m list)) := by
  obtain ⟨hm, hret⟩ := rangeLoop_eq hit m list
  rw [rangeList, hm, hret]

/-- `ip_in_list_ipv6`, for a list that is not cut. -/
def ipInListIpv6 (list ip : List UInt8) : Bool :=
  match scanIpv6 ip with
  | none => false
  | some i => inRanges (ipv6Hit i) list

theorem ipInListIpv6At_eq (m : List UInt8) (list : ℕ) (ip : List UInt8) :
    ipInListIpv6At m list ip = (m, ipInListIpv6 (strAt m list) ip) := by
  rw [ipInListIpv6At, ipInListIpv6]
  cases scanIpv6 ip with
  | none => rfl
  | some i => exact rangeList_eq (ipv6Hit i) m list

theorem ipInListAt_eq (haveIpv6 : Bool) (m : List UInt8) (list : ℕ) (ip : List UInt8) :
    ipInListAt haveIpv6 m list ip = (m, ipInList (fun list ip => haveIpv6 && ipInListIpv6 list ip) (strAt m list) ip) := by
  rw [ipInListAt, ipInList]
  cases scanIp ip with
  | none =>
      cases haveIpv6 with
      | true => exact ipInListIpv6At_eq m list ip
      | false => rfl
  | some i =>
      obtain ⟨i0, i1, i2, i3⟩ := i
      dsimp only
      rw [rangeList_eq, inRanges]
      congr 2
      funext text
      rw [scanIpRange, behindDash]
      cases hdash : text.dropWhile (· ≠ minus) with
      | nil =>
          have htext : text.takeWhile (· ≠ minus) = text :=
            List.takeWhile_eq_self_iff.mpr (List.dropWhile_eq_nil_iff.mp hdash)
          rw [htext, ipHit]
          rcases scanIp text with _ | ⟨j0, j1, j2, j3⟩ <;> rfl
      | cons c dash =>
          rw [ipHit]
          dsimp only
          rcases scanD dash with _ | ⟨j4, rest⟩
          · rfl
          · rcases scanIp (text.takeWhile (· ≠ minus)) with _ | ⟨j0, j1, j2, j3⟩ <;> rfl

/-- **The lists are restored**: on every way out the buffer is what it was. -/
theorem lists_restored (m : List UInt8) (list : ℕ) :
    (∀ haveIpv6 ip, (ipInListAt haveIpv6 m list ip).1 = m) ∧
      (∀ ip, (ipInListIpv6At m list ip).1 = m) ∧
      (∀ value, (intInListAt m list value).1 = m) ∧
      (∀ value tmp, (uint64InListAt m list value tmp).1 = m) ∧
      (∀ value delimiter, (strInListAt m list value delimiter).1 = m) ∧
      (∀ cal wrap now, (checkTimePeriodAt cal wrap m list now).1 = m) ∧
      (∀ cal wrap delayVal now, (getFlexibleIntervalAt cal wrap m (some list) delayVal now).1 = m) ∧
      ∀ cal wrap now, (getNextFlexibleIntervalAt cal wrap m (some list) now).1 = m := by
  refine ⟨?_, ?_, ?_, ?_, ?_, ?_, ?_, ?_⟩
  · intro haveIpv6 ip
    rw [ipInListAt_eq]
  · intro ip
    rw [ipInListIpv6At_eq]
  · intro value
    rw [intInListAt_eq]
  · intro value tmp
    rw [uint64InListAt, cutList_eq (by decide) rfl]
  · intro value delimiter
    exact strInListLoop_mem value delimiter m list false
  · intro cal wrap now
    rw [checkTimePeriodAt, cutList_eq (by decide) rfl]
  · intro cal wrap delayVal now
    rw [getFlexibleIntervalAt]
    split
    · rfl
    · rw [cutList_eq (by decide) rfl]
  · intro cal wrap now
    rw [getNextFlexibleIntervalAt]
    dsimp only
    split
    · rfl
    · rw [cutList_eq (by decide) rfl]

end Zabbix
