import Zabbix.Lists.Addresses

/-!
# Zabbix.Discovery.Ranges

The ports of a check and the addresses of a rule: the lists of `process_check` and
`process_rule` of `zabbix_server/discoverer/discoverer.c`.

Both cut a text off at its comma and at its dash, read the numbers while the NULs
are there, and put the separators back.  Behind the dash `process_rule` reads what
follows it; `process_check` reads from the dash itself, where the NUL is.

* `eachRange_eq` — what is read of each text, and the list as it was;
* `processCheckPorts_eq` — the ports; the addresses follow in `Zabbix.Discovery.Coverage`.
-/

namespace Zabbix

open Ascii CInt Buffer Printf

/-! ## the loop over a list -/

/-- `for (curr_range = list; curr_range; curr_range = next_range)`: each text is cut
off, read, and put back.  What is read of a range begins at `behind` bytes from its
dash. -/
def eachRange {α : Type} (behind : ℕ) (read : List UInt8 → Option (List UInt8) → List α) (m : List UInt8) (currRange : ℕ) :
    List UInt8 × List α :=
  match _h : find m currRange comma with
  | none =>
      let dash := find m currRange minus
      let cut := plant m dash 0
      (plant cut dash minus, read (strAt cut currRange) (dash.map fun d => strAt cut (d + behind)))
  | some nextRange =>
      let m := m.set nextRange 0
      let dash := find m currRange minus
      let cut := plant m dash 0
      let r := eachRange behind read ((plant cut dash minus).set nextRange comma) (nextRange + 1)
      (r.1, read (strAt cut currRange) (dash.map fun d => strAt cut (d + behind)) ++ r.2)
termination_by m.length - currRange
decreasing_by
  obtain ⟨hle, hbyte⟩ := find_spec _h
  have := lt_length_of_byteAt (hbyte ▸ (by decide : comma ≠ 0))
  simp only [List.length_set, length_plant]
  omega

/-- `for (i = first; i <= last; i++)` -/
def fromTo (first last : ℤ) : List ℤ := (List.range (last + 1 - first).toNat).map fun (k : ℕ) => first + k

/-! ## ports -/

/-- A text of `check->ports`: `first` and `last`, which is read at `last_port`. -/
def readPorts (currRange : List UInt8) (lastPort : Option (List UInt8)) : List ℤ :=
  let first := (atoi currRange).toInt
  match lastPort with
  | some lastPort => fromTo first (atoi lastPort).toInt
  | none => fromTo first first

/-- The list in `process_check`, and the ports that are probed. -/
def processCheckPorts (m : List UInt8) (ports : ℕ) : List UInt8 × List ℤ := eachRange 0 readPorts m ports

/-! ## addresses -/

/-- `%x` -/
def hexText (n : ℕ) : List UInt8 := (Nat.toDigits 16 n).map fun c => c.toUInt8

/-- `%d` -/
def printD (n : ℤ) : List UInt8 := d32 (Int32.ofInt n)

/-- The text up to the last colon. -/
def upToColon (text : List UInt8) : List UInt8 :=
  let text := zbxVsnprintf maxStringLen text
  match (text.reverse.dropWhile (· ≠ colon)).reverse with
  | [] => text
  | start => start

/-- `last`: what is read behind the dash, or -1; without a dash `first`. -/
def readLast (scan : List UInt8 → Option (ℤ × List UInt8)) (first : ℤ) : Option (List UInt8) → ℤ
  | some dash => ((scan dash).map Prod.fst).getD (-1)
  | none => first

/-- A text of `rule->iprange` that `expand_ipv6` takes, with the expanded text. -/
def readIpv6 (currRange ip : List UInt8) (dash : Option (List UInt8)) : List (List UInt8) :=
  match scanGroups 7 ip with
  | none => []
  | some j =>
      let first := j.getD 7 0
      let last := readLast scanX first dash
      if first < 0 ∨ last < 0 then []
      else (fromTo first last).map fun i => zbxVsnprintf maxStringLen (upToColon currRange ++ hexText i.toNat)

/-- A text of `rule->iprange`: `sscanf` with `%d.%d.%d.%d`. -/
def readIpv4 (currRange : List UInt8) (dash : Option (List UInt8)) : List (List UInt8) :=
  match scanIp currRange with
  | none => []
  | some (j0, j1, j2, j3) =>
      let last := readLast scanD j3 dash
      if j3 < 0 ∨ last < 0 then []
      else
        (fromTo j3 last).map fun i =>
          zbxVsnprintf maxStringLen
            (printD j0 ++ dot :: (printD j1 ++ dot :: (printD j2 ++ dot :: printD i)))

/-- A text of `rule->iprange`. -/
def readAddresses (haveIpv6 : Bool) (currRange : List UInt8) (dash : Option (List UInt8)) : List (List UInt8) :=
  match (if haveIpv6 then expandIpv6 currRange maxStringLen else none) with
  | some ip => readIpv6 currRange ip dash
  | none => readIpv4 currRange dash

/-- The list in `process_rule`, and the addresses that are visited. -/
def processRuleAddresses (haveIpv6 : Bool) (m : List UInt8) (iprange : ℕ) : List UInt8 × List (List UInt8) :=
  eachRange 1 (readAddresses haveIpv6) m iprange

/-! ## what is read -/

/-- What is read of a text. -/
def readText {α : Type} (behind : ℕ) (read : List UInt8 → Option (List UInt8) → List α) (text : List UInt8) : List α :=
  read (text.takeWhile (· ≠ minus)) ((behindDash text).map fun dash => if behind = 0 then [] else dash)

/-- What is read between the NULs, and the buffer behind it. -/
theorem read_planted {α : Type} {behind : ℕ} (hbehind : behind ≤ 1) (read : List UInt8 → Option (List UInt8) → List α)
    (m : List UInt8) (curr : ℕ) :
    let dash := find m curr minus
    let cut := plant m dash 0
    read (strAt cut curr) (dash.map fun d => strAt cut (d + behind)) = readText behind read (strAt m curr) ∧
      plant cut dash minus = m := by
  obtain ⟨hfront, hdash, hback⟩ := plant_dash m curr
  refine ⟨?_, hback⟩
  rw [readText, hfront, ← hdash, Option.map_map]
  congr 1
  cases hfind : find m curr minus with
  | none => rfl
  | some d =>
      rw [Option.map_some, Option.map_some, Function.comp_apply]
      congr 1
      by_cases hzero : behind = 0
      · have hd : d < m.length := lt_length_of_byteAt ((find_spec hfind).2 ▸ (by decide : minus ≠ 0))
        rw [if_pos hzero, hzero, Nat.add_zero, strAt_eq_nil_iff, plant, byteAt, List.getElem?_set_self hd]
        rfl
      · rw [if_neg hzero, show behind = 1 by omega]

/-- **The loop** reads every text between the commas, and leaves the list as it was. -/
theorem eachRange_eq {α : Type} {behind : ℕ} (hbehind : behind ≤ 1) (read : List UInt8 → Option (List UInt8) → List α)
    (m : List UInt8) (curr : ℕ) :
    eachRange behind read m curr = (m, ((strAt m curr).splitOn comma).flatMap (readText behind read)) := by
  induction hn : m.length - curr using Nat.strong_induction_on generalizing curr with
  | _ n ih =>
      rw [eachRange]
      split
      · next hfind =>
        obtain ⟨hread, hback⟩ := read_planted hbehind read m curr
        dsimp only
        rw [hread, hback, List.splitOn_eq_singleton (find_eq_none hfind), List.flatMap_singleton]
      · next e hfind =>
        obtain ⟨hle, hbyte⟩ := find_spec hfind
        obtain ⟨front, behind', htext, hfront, rfl⟩ := strAt_of_find (by decide) hfind
        have hlt := lt_length_of_byteAt (hbyte ▸ (by decide : comma ≠ 0))
        obtain ⟨hread, hback⟩ := read_planted hbehind read (m.set (curr + front.length) 0) curr
        have hrest := ih (m.length - (curr + front.length + 1)) (by omega) (curr + front.length + 1) rfl
        dsimp only
        rw [hread, hback, set_put_back hbyte 0, hrest, strAt_set htext, strAt_behind htext, htext,
          List.splitOn_append_cons_self, List.splitOn_eq_singleton hfront]
        rfl

end Zabbix
