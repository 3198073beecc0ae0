import Zabbix.Lib.JsonText
import Zabbix.Str

/-!
# Zabbix.Lists.Ipv6

IPv6 addresses as text: `expand_ipv6` and `is_ip6` of `libs/zbxcommon/misc.c`.

`expand_ipv6` writes the groups of an address one after the other, and moves on by the number of
missing ones at the first `::`.  `is_ip6` counts digits and colons on its own.

Both are followed over the texts between the colons (`expandLoop_eq`, `isIp6Loop_iff`), and
`ipv6Right_iff` says for which texts they do what an address asks for.
-/

namespace Zabbix

open Ascii JsonText

/-! ## `expand_ipv6` -/

/-- `sscanf` of a digit with `%x`. -/
def hexDigitValue (c : UInt8) : ℕ :=
  if JsonText.isDigit c then c.toNat - 48 else if 97 ≤ c then c.toNat - 87 else c.toNat - 55

/-- `sscanf` with `%x`, of hexadecimal digits. -/
def hexValue (s : List UInt8) : ℕ := s.foldl (fun n c => 16 * n + hexDigitValue c) 0

/-- `%04x` -/
def hex04 (n : ℕ) : List UInt8 :=
  let digits := (Nat.toDigits 16 n).map fun c => c.toUInt8
  List.replicate (4 - digits.length) 48 ++ digits

/-- The groups, the place of the next one, whether there was a `::`, and the digits of `buf`. -/
structure Ipv6Scan where
  groups : List ℕ
  pos : ℕ
  dc : Bool
  buf : List UInt8
deriving DecidableEq, Repr

inductive Ipv6Outcome
  | fail
  /-- A group is stored behind the eight of `i`. -/
  | overrun
  | done (groups : List ℕ)
deriving DecidableEq, Repr

/-- A group is stored where there are digits; `none` behind the end of `i`. -/
def Ipv6Scan.flush (x : Ipv6Scan) : Option Ipv6Scan :=
  if x.buf = [] then some x
  else if x.pos < 8 then
    some { x with groups := x.groups.set x.pos (hexValue x.buf), pos := x.pos + 1, buf := [] }
  else none

/-- The loop of `expand_ipv6` over a text with `c` colons; `first` as long as `j` is 0. -/
def expandLoop (c : ℕ) : (first : Bool) → Ipv6Scan → List UInt8 → Ipv6Outcome
  | _, x, [] => .done x.groups
  | first, x, a :: s =>
      if isHexDigit a then
        if 3 < x.buf.length then .fail
        else
          let x := { x with buf := x.buf ++ [a] }
          if s = [] then
            match x.flush with
            | none => .overrun
            | some x => expandLoop c false x s
          else expandLoop c false x s
      else if a ≠ colon then .fail
      else
        match x.flush with
        | none => .overrun
        | some x =>
            if s.head? = some colon then
              if x.dc then .fail
              else expandLoop c false { x with dc := true, pos := 8 - c + x.pos + if first then 1 else 0 } s
            else expandLoop c false x s

/-- A colon stands alone at the beginning or the end. -/
def strayColon (ip : List UInt8) : Bool :=
  (ip.head? = some colon && ip.tail.head? ≠ some colon) ||
    (ip.getLast? = some colon && ip.dropLast.getLast? ≠ some colon)

/-- What `expand_ipv6` does with the text. -/
def expandIpv6Groups (ip : List UInt8) : Ipv6Outcome :=
  let c := ip.count colon
  if c < 2 ∨ 7 < c then .fail
  else if strayColon ip then .fail
  else expandLoop c true ⟨List.replicate 8 0, 0, false, []⟩ ip

/-- `expand_ipv6`: the text that it puts into a buffer of `str_len` bytes, or `none` for `FAIL`. -/
def expandIpv6 (ip : List UInt8) (strLen : ℕ) : Option (List UInt8) :=
  match expandIpv6Groups ip with
  | .done groups => some (zbxVsnprintf strLen (List.intercalate [colon] (groups.map hex04)))
  | _ => none

/-! ## `is_ip6` -/

/-- What the loop of `is_ip6` leaves: `nums`, `is_nums` and `colons`. -/
def isIp6Loop : (nums : ℕ) → (isNums : Bool) → (colons dcolons : ℕ) → List UInt8 → ℕ × Bool × ℕ
  | nums, isNums, colons, _, [] => (nums, isNums, colons)
  | nums, isNums, colons, dcolons, a :: s =>
      if isHexDigit a then isIp6Loop (nums + 1) true colons dcolons s
      else if a = colon then
        let dcolons := if nums = 0 ∧ 0 < colons then dcolons + 1 else dcolons
        if 4 < nums ∨ 1 < dcolons then (nums, isNums, colons)
        else isIp6Loop 0 isNums (colons + 1) dcolons s
      else (nums, false, colons)

/-- `is_ip6` -/
def isIp6 (ip : List UInt8) : Bool :=
  let (nums, isNums, colons) := isIp6Loop 0 false 0 0 ip
  2 ≤ colons && colons ≤ 7 && nums ≤ 4 && isNums

/-! ## The texts between the colons -/

/-- At most four hexadecimal digits. -/
def GroupText (g : List UInt8) : Prop := (∀ a ∈ g, isHexDigit a = true) ∧ g.length ≤ 4

instance (g : List UInt8) : Decidable (GroupText g) := inferInstanceAs (Decidable (_ ∧ _))

/-- What a text between colons stores. -/
def groupValues (g : List UInt8) : List ℕ := if g = [] then [] else [hexValue g]

/-- Eight groups that begin with those that are known. -/
def padGroups (groups : List ℕ) : List ℕ := (groups ++ List.replicate 8 0).take 8

/-- The state behind so many groups. -/
def Ipv6Scan.after (groups : List ℕ) (dc : Bool) : Ipv6Scan := ⟨padGroups groups, groups.length, dc, []⟩

/-- `expand_ipv6` over the texts between the colons, behind the groups that are known. -/
def runTexts (c : ℕ) : (first : Bool) → (groups : List ℕ) → (dc : Bool) → List (List UInt8) → Ipv6Outcome
  | _, groups, _, [] => .done (padGroups groups)
  | _, groups, _, [g] =>
      if ¬GroupText g then .fail
      else if g ≠ [] ∧ 8 ≤ groups.length then .overrun
      else .done (padGroups (groups ++ groupValues g))
  | first, groups, dc, g :: g' :: gs =>
      if ¬GroupText g then .fail
      else if g ≠ [] ∧ 8 ≤ groups.length then .overrun
      else if g' = [] ∧ gs ≠ [] then
        if dc then .fail
        else
          runTexts c false
            (groups ++ groupValues g ++ List.replicate (8 - c + if first = true ∧ g = [] then 1 else 0) 0) true (g' :: gs)
      else runTexts c false (groups ++ groupValues g) dc (g' :: gs)

theorem getElem?_padGroups (groups : List ℕ) (i : ℕ) :
    (padGroups groups)[i]? = if i < 8 then some (groups[i]?.getD 0) else none := by
  by_cases hi : i < 8
  · rw [padGroups, List.getElem?_take_of_lt hi, if_pos hi]
    by_cases hlt : i < groups.length
    · rw [List.getElem?_append_left hlt, List.getElem?_eq_getElem hlt, Option.getD_some]
    · rw [List.getElem?_append_right (by omega), List.getElem?_replicate_of_lt (by omega),
        List.getElem?_eq_none (by omega), Option.getD_none]
  · rw [if_neg hi, List.getElem?_eq_none (by simp [padGroups]; omega)]

theorem padGroups_append_zeros (groups : List ℕ) (k : ℕ) :
    padGroups (groups ++ List.replicate k 0) = padGroups groups := by
  apply List.ext_getElem?
  intro i
  rw [getElem?_padGroups, getElem?_padGroups]
  by_cases hlt : i < groups.length
  · rw [List.getElem?_append_left hlt]
  · rw [List.getElem?_append_right (by omega), List.getElem?_replicate, List.getElem?_eq_none (by omega)]
    by_cases hk : i - groups.length < k <;> simp [hk]

/-- The next group is stored behind the groups that are known. -/
theorem set_padGroups {groups : List ℕ} (h : groups.length < 8) (v : ℕ) :
    (padGroups groups).set groups.length v = padGroups (groups ++ [v]) := by
  apply List.ext_getElem?
  intro i
  rw [List.getElem?_set, getElem?_padGroups, getElem?_padGroups]
  by_cases heq : groups.length = i
  · subst heq
    simp [padGroups, h]
  · rw [if_neg heq]
    by_cases hlt : i < groups.length
    · rw [List.getElem?_append_left hlt]
    · rw [List.getElem?_eq_none (by omega), List.getElem?_eq_none (by simp; omega)]

theorem flush_after (groups : List ℕ) (dc : Bool) (g : List UInt8) :
    ({ Ipv6Scan.after groups dc with buf := g }).flush =
      if g ≠ [] ∧ 8 ≤ groups.length then none else some (.after (groups ++ groupValues g) dc) := by
  by_cases hg : g = []
  · subst hg
    simp [Ipv6Scan.flush, groupValues, Ipv6Scan.after]
  · by_cases hlen : groups.length < 8
    · rw [if_neg (by omega), Ipv6Scan.flush, if_neg hg]
      simp only [Ipv6Scan.after, if_pos hlen, set_padGroups hlen, groupValues, if_neg hg, List.length_append,
        List.length_singleton]
    · rw [if_pos ⟨hg, by omega⟩, Ipv6Scan.flush, if_neg hg]
      exact if_neg hlen

/-- The missing groups are zeros that are known. -/
theorem skip_after (groups : List ℕ) (k : ℕ) :
    ({ Ipv6Scan.after groups true with pos := groups.length + k } : Ipv6Scan) =
      .after (groups ++ List.replicate k 0) true := by
  simp only [Ipv6Scan.after, padGroups_append_zeros, List.length_append, List.length_replicate]

theorem groupText_cons_tail {b : List UInt8} {a : UInt8} {g : List UInt8} (h : GroupText (b ++ a :: g)) :
    GroupText b ∧ isHexDigit a = true ∧ b.length ≤ 3 := by
  have hlen := h.2
  rw [List.length_append, List.length_cons] at hlen
  exact ⟨⟨fun c hc => h.1 c (List.mem_append_left _ hc), by omega⟩, h.1 a (by simp), by omega⟩

/-- Digits in front of a colon are collected. -/
theorem expandLoop_text_colon (c : ℕ) (first : Bool) (x : Ipv6Scan) {g : List UInt8} (hg : colon ∉ g) (s : List UInt8)
    (hbuf : GroupText x.buf) :
    expandLoop c first x (g ++ colon :: s) =
      if GroupText (x.buf ++ g) then expandLoop c (first && g.isEmpty) { x with buf := x.buf ++ g } (colon :: s)
      else .fail := by
  induction g generalizing first x with
  | nil => simp [hbuf]
  | cons a g ih =>
      rw [List.mem_cons, not_or] at hg
      rw [List.cons_append, expandLoop]
      by_cases ha : isHexDigit a = true
      · rw [if_pos ha]
        by_cases hlen : 3 < x.buf.length
        · rw [if_pos hlen, if_neg fun h => absurd (groupText_cons_tail h).2.2 (by omega)]
        · have hbuf' : GroupText (x.buf ++ [a]) := by
            refine ⟨fun d hd => ?_, by simp; omega⟩
            rcases List.mem_append.mp hd with hd | hd
            · exact hbuf.1 d hd
            · rw [List.mem_singleton.mp hd, ha]
          rw [if_neg hlen]
          dsimp only
          rw [if_neg (by simp), ih false { x with buf := x.buf ++ [a] } hg.2 hbuf']
          simp [List.append_assoc]
      · rw [if_neg ha, if_pos (Ne.symm hg.1), if_neg fun h => ha (groupText_cons_tail h).2.1]

/-- Digits at the end of the text are collected, and stored. -/
theorem expandLoop_text (c : ℕ) (first : Bool) (x : Ipv6Scan) {g : List UInt8} (hg : colon ∉ g) (hne : g ≠ [])
    (hbuf : GroupText x.buf) :
    expandLoop c first x g =
      if GroupText (x.buf ++ g) then
        match ({ x with buf := x.buf ++ g }).flush with
        | none => .overrun
        | some x => .done x.groups
      else .fail := by
  induction g generalizing first x with
  | nil => exact absurd rfl hne
  | cons a g ih =>
      rw [List.mem_cons, not_or] at hg
      rw [expandLoop]
      by_cases ha : isHexDigit a = true
      · rw [if_pos ha]
        by_cases hlen : 3 < x.buf.length
        · rw [if_pos hlen, if_neg fun h => absurd (groupText_cons_tail h).2.2 (by omega)]
        · have hbuf' : GroupText (x.buf ++ [a]) := by
            refine ⟨fun d hd => ?_, by simp; omega⟩
            rcases List.mem_append.mp hd with hd | hd
            · exact hbuf.1 d hd
            · rw [List.mem_singleton.mp hd, ha]
          rw [if_neg hlen]
          dsimp only
          by_cases hnil : g = []
          · subst hnil
            rw [if_pos rfl, if_pos hbuf']
            rfl
          · rw [if_neg hnil, ih false { x with buf := x.buf ++ [a] } hg.2 hnil hbuf']
            simp [List.append_assoc]
      · rw [if_neg ha, if_pos (Ne.symm hg.1), if_neg fun h => ha (groupText_cons_tail h).2.1]

/-- A colon comes first where the first text is empty, and not the only one. -/
theorem head?_eq_colon_iff {t g : List UInt8} {gs : List (List UInt8)} (h : t.splitOn colon = g :: gs) :
    t.head? = some colon ↔ g = [] ∧ gs ≠ [] := by
  cases t with
  | nil =>
      rw [List.splitOn_nil, List.cons.injEq] at h
      simp [← h.2]
  | cons a t =>
      by_cases ha : a = colon
      · subst ha
        have hsplit := List.splitOn_append_cons_self (a := colon) [] t
        rw [List.nil_append, List.splitOn_nil, h, List.singleton_append, List.cons.injEq] at hsplit
        simp [hsplit.1, hsplit.2, List.splitOn_ne_nil]
      · rw [List.splitOn_cons_eq_if_modifyHead, if_neg (by simpa using ha)] at h
        have hg : g ≠ [] := by
          cases hsplit : t.splitOn colon with
          | nil => exact absurd hsplit (List.splitOn_ne_nil _ _)
          | cons g' gs' =>
              rw [hsplit, List.modifyHead_cons, List.cons.injEq] at h
              rw [← h.1]
              exact List.cons_ne_nil _ _
        simp [ha, hg]

/-- **The loop** is a run over the texts between the colons. -/
theorem expandLoop_eq (c : ℕ) (first : Bool) (groups : List ℕ) (dc : Bool) (s : List UInt8) :
    expandLoop c first (.after groups dc) s = runTexts c first groups dc (s.splitOn colon) := by
  induction hn : s.length using Nat.strong_induction_on generalizing first groups dc s with
  | _ n ih =>
      have hnil : GroupText ([] : List UInt8) := ⟨fun _ h => absurd h List.not_mem_nil, Nat.zero_le 4⟩
      have hbuf (g : List UInt8) : (Ipv6Scan.after groups dc).buf ++ g = g := rfl
      cases hsplit : strchr colon s with
      | none =>
          have hmem := strchr_eq_none_iff.mp hsplit
          rw [List.splitOn_eq_singleton hmem, runTexts]
          by_cases hs : s = []
          · subst hs
            simp [expandLoop, Ipv6Scan.after, hnil, groupValues]
          · rw [expandLoop_text c first _ hmem hs hnil, hbuf]
            by_cases hg : GroupText s
            · rw [if_pos hg, if_neg (not_not_intro hg), flush_after]
              by_cases hlen : s ≠ [] ∧ 8 ≤ groups.length
              · rw [if_pos hlen, if_pos hlen]
              · rw [if_neg hlen, if_neg hlen]
                rfl
            · rw [if_neg hg, if_pos hg]
      | some p =>
          obtain ⟨g, t⟩ := p
          have hg := not_mem_of_strchr hsplit
          obtain rfl := strchr_eq_some hsplit
          rw [List.splitOn_append_cons_self, List.splitOn_eq_singleton hg, List.singleton_append,
            expandLoop_text_colon c first _ hg t hnil, hbuf]
          have ih' (first groups dc) := ih t.length (by simp at hn; omega) first groups dc t rfl
          cases htexts : t.splitOn colon with
          | nil => exact absurd htexts (List.splitOn_ne_nil _ _)
          | cons g' gs =>
              rw [htexts] at ih'
              have hhead := head?_eq_colon_iff htexts
              have hcolon : isHexDigit colon = false := by decide
              rw [runTexts]
              by_cases hgroup : GroupText g
              · rw [if_pos hgroup, if_neg (not_not_intro hgroup), expandLoop, if_neg (by simp [hcolon]),
                  if_neg (not_not_intro rfl), flush_after]
                by_cases hlen : g ≠ [] ∧ 8 ≤ groups.length
                · rw [if_pos hlen, if_pos hlen]
                · rw [if_neg hlen, if_neg hlen]
                  dsimp only
                  by_cases hgap : g' = [] ∧ gs ≠ []
                  · rw [if_pos (hhead.mpr hgap), if_pos hgap]
                    cases dc with
                    | true => rfl
                    | false =>
                        have hplace : (8 - c + (groups ++ groupValues g).length + if (first && g.isEmpty) = true then 1 else 0) =
                            (groups ++ groupValues g).length + (8 - c + if first = true ∧ g = [] then 1 else 0) := by
                          simp only [Bool.and_eq_true, List.isEmpty_iff]
                          omega
                        rw [← ih', ← skip_after, ← hplace]
                        rfl
                  · rw [if_neg (mt hhead.mp hgap), if_neg hgap, ih']
              · rw [if_neg hgroup, if_pos hgroup]

/-! ## What is expanded -/

/-- The number of `::`, which are empty texts with others on both sides. -/
def gaps (texts : List (List UInt8)) : ℕ := texts.tail.dropLast.count []

/-- What a run stores behind the groups that are known. -/
def written (c : ℕ) : (first : Bool) → List (List UInt8) → List ℕ
  | _, [] => []
  | _, [g] => groupValues g
  | first, g :: g' :: gs =>
      if g' = [] ∧ gs ≠ [] then
        groupValues g ++ List.replicate (8 - c + if first = true ∧ g = [] then 1 else 0) 0 ++ written c false (g' :: gs)
      else groupValues g ++ written c false (g' :: gs)

theorem length_groupValues (g : List UInt8) : (groupValues g).length = if g = [] then 0 else 1 := by
  rw [groupValues]
  split <;> rfl

theorem gaps_cons_cons (g g' : List UInt8) (gs : List (List UInt8)) :
    gaps (g :: g' :: gs) = (if g' = [] ∧ gs ≠ [] then 1 else 0) + gaps (g' :: gs) := by
  cases gs with
  | nil => simp [gaps]
  | cons g'' gs =>
      simp only [gaps, List.tail_cons, List.dropLast_cons_cons, List.count_cons, ne_eq, reduceCtorEq, not_false_eq_true,
        and_true, beq_iff_eq]
      rw [Nat.add_comm]

/-- **A run** does not leave the array, and succeeds with groups of at most four digits and one
`::`. -/
theorem runTexts_eq {c : ℕ} (hc : c ≤ 7) (first : Bool) (groups : List ℕ) (dc : Bool) (texts : List (List UInt8))
    (hbefore : dc = false → groups.length + texts.length ≤ c + 1)
    (hbehind : dc = true → groups.length + texts.countP (· ≠ []) ≤ 8) :
    runTexts c first groups dc texts =
      if (∀ g ∈ texts, GroupText g) ∧ gaps texts + dc.toNat ≤ 1 then
        .done (padGroups (groups ++ written c first texts))
      else .fail := by
  induction texts generalizing first groups dc with
  | nil =>
      have hdc : dc.toNat ≤ 1 := Bool.toNat_le dc
      rw [runTexts, if_pos ⟨fun _ h => absurd h List.not_mem_nil, by simpa [gaps] using hdc⟩, written,
        List.append_nil]
  | cons g texts ih =>
      have hroom : ¬(g ≠ [] ∧ 8 ≤ groups.length) := by
        rintro ⟨hg, hlen⟩
        cases dc with
        | false =>
            have := hbefore rfl
            rw [List.length_cons] at this
            omega
        | true =>
            have := hbehind rfl
            rw [List.countP_cons_of_pos (by simpa using hg)] at this
            omega
      have hvalues := length_groupValues g
      cases texts with
      | nil =>
          have hdc : dc.toNat ≤ 1 := Bool.toNat_le dc
          rw [runTexts, if_neg hroom]
          by_cases hg : GroupText g
          · rw [if_neg (not_not_intro hg), if_pos ⟨by simpa using hg, by simpa [gaps] using hdc⟩, written]
          · rw [if_pos hg, if_neg fun h => hg (h.1 g List.mem_cons_self)]
      | cons g' gs =>
          rw [runTexts, if_neg hroom, written, gaps_cons_cons]
          by_cases hg : GroupText g
          · have hall : (∀ a ∈ g :: g' :: gs, GroupText a) ↔ ∀ a ∈ g' :: gs, GroupText a := by
              rw [List.forall_mem_cons]
              exact and_iff_right hg
            rw [if_neg (not_not_intro hg)]
            simp only [hall]
            by_cases hgap : g' = [] ∧ gs ≠ []
            · rw [if_pos hgap, if_pos hgap, if_pos hgap]
              cases dc with
              | true =>
                  rw [if_pos rfl, if_neg]
                  rintro ⟨-, h⟩
                  rw [Bool.toNat_true] at h
                  omega
              | false =>
                  rw [if_neg (by decide), ih]
                  · rw [Bool.toNat_true, Bool.toNat_false, Nat.add_comm, Nat.add_zero, List.append_assoc groups,
                      List.append_assoc groups]
                  · exact fun h => absurd h (by decide)
                  · intro _
                    have hlen := hbefore rfl
                    have hcount : gs.countP (fun g => decide (g ≠ [])) ≤ gs.length := List.countP_le_length
                    have hplaces : (groupValues g).length + (if first = true ∧ g = [] then 1 else 0) ≤ 1 := by
                      rw [hvalues]
                      by_cases hnil : g = []
                      · rw [if_pos hnil]
                        split <;> omega
                      · rw [if_neg hnil, if_neg fun h => hnil h.2]
                    rw [List.countP_cons_of_neg (by simp [hgap.1])]
                    simp only [List.length_append, List.length_replicate, List.length_cons] at hlen ⊢
                    omega
            · rw [if_neg hgap, if_neg hgap, if_neg hgap, Nat.zero_add, ih, List.append_assoc]
              · intro h
                have hlen := hbefore h
                simp only [List.length_append, List.length_cons, hvalues] at hlen ⊢
                split_ifs <;> omega
              · intro h
                have hlen := hbehind h
                rw [List.length_append, hvalues]
                by_cases hnil : g = []
                · rw [List.countP_cons_of_neg (by simpa using hnil)] at hlen
                  rw [if_pos hnil]
                  omega
                · rw [List.countP_cons_of_pos (by simpa using hnil)] at hlen
                  rw [if_neg hnil]
                  omega
          · rw [if_pos hg, if_neg fun h => hg (h.1 g List.mem_cons_self)]

/-! ## The ends of the text -/

theorem length_splitOn_colon (s : List UInt8) : (s.splitOn colon).length = s.count colon + 1 := by
  induction s with
  | nil => rfl
  | cons a s ih =>
      rw [List.splitOn_cons_eq_if_modifyHead]
      by_cases ha : a = colon
      · subst ha
        rw [if_pos (beq_self_eq_true _), List.length_cons, ih, List.count_cons_self]
      · rw [if_neg (by simpa using ha), List.length_modifyHead, ih, List.count_cons_of_ne ha]

theorem splitOn_colon_cons (t : List UInt8) : (colon :: t).splitOn colon = [] :: t.splitOn colon := by
  rw [List.splitOn_cons_eq_if_modifyHead, if_pos (beq_self_eq_true _)]

theorem splitOn_concat_colon (t : List UInt8) : (t ++ [colon]).splitOn colon = t.splitOn colon ++ [[]] := by
  rw [List.splitOn_append_cons_self, List.splitOn_nil]

theorem intercalate_append (c : UInt8) {xs ys : List (List UInt8)} (hx : xs ≠ []) (hy : ys ≠ []) :
    List.intercalate [c] (xs ++ ys) = List.intercalate [c] xs ++ c :: List.intercalate [c] ys := by
  induction xs with
  | nil => exact absurd rfl hx
  | cons g xs ih =>
      cases xs with
      | nil =>
          rw [List.singleton_append, List.intercalate_cons_of_ne_nil hy, List.intercalate_singleton, List.append_assoc]
          rfl
      | cons g' xs =>
          rw [List.cons_append, List.intercalate_cons_of_ne_nil (by simp), ih (by simp), List.intercalate_cons_cons]
          simp only [List.append_assoc]

theorem head?_eq_colon {s : List UInt8} (h : 2 ≤ (s.splitOn colon).length) :
    s.head? = some colon ↔ (s.splitOn colon).head? = some [] := by
  cases hsplit : s.splitOn colon with
  | nil => exact absurd hsplit (List.splitOn_ne_nil _ _)
  | cons g gs =>
      rw [hsplit, List.length_cons] at h
      have hne : gs ≠ [] := List.ne_nil_of_length_pos (by omega)
      rw [head?_eq_colon_iff hsplit, and_iff_left hne, List.head?_cons, Option.some.injEq]

theorem getLast?_eq_colon {s : List UInt8} (h : 2 ≤ (s.splitOn colon).length) :
    s.getLast? = some colon ↔ (s.splitOn colon).getLast? = some [] := by
  constructor
  · intro hlast
    obtain ⟨t, rfl⟩ := List.getLast?_eq_some_iff.mp hlast
    rw [splitOn_concat_colon, List.getLast?_concat]
  · intro hlast
    obtain ⟨texts, htexts⟩ := List.getLast?_eq_some_iff.mp hlast
    have hne : texts ≠ [] := by
      rintro rfl
      rw [htexts] at h
      simp at h
    have hs : List.intercalate [colon] (s.splitOn colon) = s := List.intercalate_splitOn colon
    rw [← hs, htexts, intercalate_append colon hne (by simp), List.intercalate_singleton,
      List.getLast?_concat]

/-- An empty text at the beginning or the end, with none beside it. -/
def LoneEnd (texts : List (List UInt8)) : Prop :=
  (texts.head? = some [] ∧ texts.tail.head? ≠ some []) ∨ (texts.getLast? = some [] ∧ texts.dropLast.getLast? ≠ some [])

instance (texts : List (List UInt8)) : Decidable (LoneEnd texts) := inferInstanceAs (Decidable (_ ∨ _))

theorem strayColon_iff {s : List UInt8} (h : 3 ≤ (s.splitOn colon).length) :
    strayColon s = true ↔ LoneEnd (s.splitOn colon) := by
  simp only [strayColon, Bool.or_eq_true, decide_eq_true_eq, LoneEnd, Bool.and_eq_true]
  apply or_congr
  · rw [head?_eq_colon (by omega)]
    refine and_congr_right fun hhead => not_congr ?_
    rw [← head?_eq_colon (by omega)] at hhead
    obtain ⟨t, rfl⟩ := List.head?_eq_some_iff.mp hhead
    rw [splitOn_colon_cons, List.length_cons] at h
    rw [List.tail_cons, splitOn_colon_cons, List.tail_cons, head?_eq_colon (by omega)]
  · rw [getLast?_eq_colon (by omega)]
    refine and_congr_right fun hlast => not_congr ?_
    rw [← getLast?_eq_colon (by omega)] at hlast
    obtain ⟨t, rfl⟩ := List.getLast?_eq_some_iff.mp hlast
    rw [splitOn_concat_colon, List.length_append, List.length_singleton] at h
    rw [List.dropLast_concat, splitOn_concat_colon, List.dropLast_concat, getLast?_eq_colon (by omega)]

/-- The texts that `expand_ipv6` can do with. -/
def Expandable (texts : List (List UInt8)) : Prop :=
  3 ≤ texts.length ∧ texts.length ≤ 8 ∧ ¬LoneEnd texts ∧ (∀ g ∈ texts, GroupText g) ∧ gaps texts ≤ 1

instance (texts : List (List UInt8)) : Decidable (Expandable texts) := inferInstanceAs (Decidable (_ ∧ _))

/-- **Expansion** never stores behind the array. -/
theorem expandIpv6Groups_eq (ip : List UInt8) :
    expandIpv6Groups ip =
      if Expandable (ip.splitOn colon) then .done (padGroups (written (ip.count colon) true (ip.splitOn colon)))
      else .fail := by
  have hlen := length_splitOn_colon ip
  have hstart : expandLoop (ip.count colon) true ⟨List.replicate 8 0, 0, false, []⟩ ip =
      runTexts (ip.count colon) true [] false (ip.splitOn colon) := expandLoop_eq _ true [] false ip
  rw [expandIpv6Groups]
  by_cases hc : ip.count colon < 2 ∨ 7 < ip.count colon
  · rw [if_pos hc, if_neg]
    rintro ⟨h3, h8, -⟩
    omega
  · rw [if_neg hc]
    by_cases hlone : LoneEnd (ip.splitOn colon)
    · rw [if_pos ((strayColon_iff (by omega)).mpr hlone), if_neg fun h => h.2.2.1 hlone]
    · rw [if_neg (mt (strayColon_iff (by omega)).mp hlone), hstart,
        runTexts_eq (by omega) true [] false _ (fun _ => by simp [hlen]) (fun h => absurd h (by decide)),
        List.nil_append]
      refine if_congr ?_ rfl rfl
      rw [Bool.toNat_false, Nat.add_zero]
      exact ⟨fun h => ⟨by omega, by omega, hlone, h⟩, fun h => h.2.2.2⟩

/-! ## Addresses -/

/-- One to four hexadecimal digits. -/
def Ipv6Group (g : List UInt8) : Prop := GroupText g ∧ g ≠ []

instance (g : List UInt8) : Decidable (Ipv6Group g) := inferInstanceAs (Decidable (_ ∧ _))

/-- The texts of an address: eight groups, or fewer with one `::`. -/
inductive Ipv6Text : List UInt8 → List ℕ → Prop
  | full (gs : List (List UInt8)) (hgs : ∀ g ∈ gs, Ipv6Group g) (hlen : gs.length = 8) :
      Ipv6Text (List.intercalate [colon] gs) (gs.map hexValue)
  | compressed (l r : List (List UInt8)) (hl : ∀ g ∈ l, Ipv6Group g) (hr : ∀ g ∈ r, Ipv6Group g)
      (hlen : l.length + r.length ≤ 7) :
      Ipv6Text (List.intercalate [colon] l ++ colon :: colon :: List.intercalate [colon] r)
        (l.map hexValue ++ List.replicate (8 - (l.length + r.length)) 0 ++ r.map hexValue)

/-- The texts on one side of a `::`. -/
def ends (l : List (List UInt8)) : List (List UInt8) := if l = [] then [[]] else l

theorem ends_of_ne_nil {l : List (List UInt8)} (h : l ≠ []) : ends l = l := if_neg h

theorem ends_ne_nil (l : List (List UInt8)) : ends l ≠ [] := by
  rw [ends]
  split
  · simp
  · assumption

theorem length_ends (l : List (List UInt8)) : (ends l).length = if l = [] then 1 else l.length := by
  rw [ends]
  split <;> rfl

theorem intercalate_ends (l : List (List UInt8)) : List.intercalate [colon] (ends l) = List.intercalate [colon] l := by
  rw [ends]
  split
  · rename_i h
    simp [h]
  · rfl

theorem groupText_ends {l : List (List UInt8)} (hl : ∀ g ∈ l, Ipv6Group g) {g : List UInt8} (hg : g ∈ ends l) : GroupText g := by
  rw [ends] at hg
  split at hg
  · rw [List.mem_singleton.mp hg]
    decide
  · exact (hl g hg).1

theorem GroupText.colon_not_mem {g : List UInt8} (hg : GroupText g) : colon ∉ g :=
  fun h => absurd (hg.1 colon h) (by decide)

/-- The texts of an address with a `::`. -/
theorem splitOn_compressed {l r : List (List UInt8)} (hl : ∀ g ∈ l, Ipv6Group g) (hr : ∀ g ∈ r, Ipv6Group g) :
    (List.intercalate [colon] l ++ colon :: colon :: List.intercalate [colon] r).splitOn colon = ends l ++ [] :: ends r := by
  rw [← intercalate_ends l, ← intercalate_ends r, List.splitOn_append_cons_self, splitOn_colon_cons,
    List.splitOn_intercalate _ (fun g hg => (groupText_ends hl hg).colon_not_mem) (ends_ne_nil l),
    List.splitOn_intercalate _ (fun g hg => (groupText_ends hr hg).colon_not_mem) (ends_ne_nil r)]

theorem written_groups {gs : List (List UInt8)} (hgs : ∀ g ∈ gs, Ipv6Group g) (c : ℕ) (first : Bool) :
    written c first gs = gs.map hexValue := by
  induction gs generalizing first with
  | nil => rfl
  | cons g gs ih =>
      rw [List.forall_mem_cons] at hgs
      have hvalue : groupValues g = [hexValue g] := if_neg hgs.1.2
      cases gs with
      | nil => rw [written, hvalue, List.map_singleton]
      | cons g' gs =>
          rw [written, if_neg fun h => (hgs.2 g' List.mem_cons_self).2 h.1, ih hgs.2, hvalue]
          rfl

theorem written_ends {r : List (List UInt8)} (hr : ∀ g ∈ r, Ipv6Group g) (c : ℕ) :
    written c false ([] :: ends r) = r.map hexValue := by
  cases r with
  | nil => rfl
  | cons g r =>
      rw [ends, if_neg (List.cons_ne_nil g r), written, if_neg fun h => (hr g List.mem_cons_self).2 h.1, written_groups hr]
      rfl

/-- What is written of an address with a `::` in the middle. -/
theorem written_compressed {l r : List (List UInt8)} (hl : ∀ g ∈ l, Ipv6Group g) (hr : ∀ g ∈ r, Ipv6Group g) (c : ℕ) :
    written c true (ends l ++ [] :: ends r) =
      l.map hexValue ++ List.replicate (8 - c + if l = [] then 1 else 0) 0 ++ r.map hexValue := by
  have hgap : ([] : List UInt8) = [] ∧ ends r ≠ [] := ⟨rfl, ends_ne_nil r⟩
  have hrest {l : List (List UInt8)} (hl : ∀ g ∈ l, Ipv6Group g) (hne : l ≠ []) (first : Bool) :
      written c first (l ++ [] :: ends r) = l.map hexValue ++ List.replicate (8 - c) 0 ++ r.map hexValue := by
    induction l generalizing first with
    | nil => exact absurd rfl hne
    | cons g l ih =>
        rw [List.forall_mem_cons] at hl
        have hvalue : groupValues g = [hexValue g] := if_neg hl.1.2
        cases l with
        | nil =>
            rw [List.singleton_append, written, if_pos hgap, if_neg fun h => hl.1.2 h.2, hvalue, written_ends hr]
            rfl
        | cons g' l =>
            rw [List.cons_append, List.cons_append, written, if_neg fun h => (hl.2 g' List.mem_cons_self).2 h.1, hvalue,
              ← List.cons_append, ih hl.2 (List.cons_ne_nil g' l)]
            rfl
  cases l with
  | nil =>
      rw [ends, if_pos rfl, List.singleton_append, written, if_pos hgap, if_pos ⟨rfl, rfl⟩, if_pos rfl, written_ends hr]
      rfl
  | cons g l => rw [ends, if_neg (List.cons_ne_nil g l), hrest hl (List.cons_ne_nil g l), if_neg (List.cons_ne_nil g l)]; rfl

theorem padGroups_eq {groups : List ℕ} (h : groups.length ≤ 8) :
    padGroups groups = groups ++ List.replicate (8 - groups.length) 0 := by
  rw [padGroups, List.take_append, List.take_of_length_le h, List.take_replicate, Nat.min_eq_left (by omega)]

theorem gaps_groups {gs : List (List UInt8)} (hgs : ∀ g ∈ gs, Ipv6Group g) : gaps gs = 0 :=
  List.count_eq_zero.mpr fun h => (hgs [] (List.mem_of_mem_tail (List.mem_of_mem_dropLast h))).2 rfl

theorem tail_ends {l : List (List UInt8)} (hl : ∀ g ∈ l, Ipv6Group g) : [] ∉ (ends l).tail := by
  rw [ends]
  split
  · simp
  · exact fun h => (hl [] (List.mem_of_mem_tail h)).2 rfl

theorem dropLast_ends {l : List (List UInt8)} (hl : ∀ g ∈ l, Ipv6Group g) : [] ∉ (ends l).dropLast := by
  rw [ends]
  split
  · simp
  · exact fun h => (hl [] (List.mem_of_mem_dropLast h)).2 rfl

theorem gaps_compressed {l r : List (List UInt8)} (hl : ∀ g ∈ l, Ipv6Group g) (hr : ∀ g ∈ r, Ipv6Group g) :
    gaps (ends l ++ [] :: ends r) = 1 := by
  rw [gaps, List.tail_append_of_ne_nil (ends_ne_nil l), List.dropLast_append_of_ne_nil (by simp),
    List.dropLast_cons_of_ne_nil (ends_ne_nil r), List.count_append, List.count_cons_self,
    List.count_eq_zero.mpr (tail_ends hl), List.count_eq_zero.mpr (dropLast_ends hr)]

theorem loneEnd_groups {gs : List (List UInt8)} (hgs : ∀ g ∈ gs, Ipv6Group g) : ¬LoneEnd gs := by
  rintro (⟨h, -⟩ | ⟨h, -⟩)
  · exact (hgs [] (List.mem_of_mem_head? h)).2 rfl
  · exact (hgs [] (List.mem_of_mem_getLast? h)).2 rfl

theorem loneEnd_compressed {l r : List (List UInt8)} (hl : ∀ g ∈ l, Ipv6Group g) (hr : ∀ g ∈ r, Ipv6Group g) :
    ¬LoneEnd (ends l ++ [] :: ends r) := by
  rintro (⟨h, hnext⟩ | ⟨h, hnext⟩)
  · cases l with
    | nil => exact hnext rfl
    | cons g l =>
        rw [ends, if_neg (List.cons_ne_nil g l), List.cons_append, List.head?_cons, Option.some.injEq] at h
        exact (hl g List.mem_cons_self).2 h
  · rw [List.getLast?_append_of_ne_nil _ (by simp), List.getLast?_cons_of_ne_nil (ends_ne_nil r)] at h
    by_cases hnil : r = []
    · subst hnil
      have hlast : (ends l ++ [[], []]).dropLast.getLast? = some [] := by
        rw [List.dropLast_append_of_ne_nil (by simp), List.dropLast_cons_cons, List.dropLast_singleton, List.getLast?_concat]
      exact hnext hlast
    · rw [ends, if_neg hnil] at h
      exact (hr [] (List.mem_of_mem_getLast? h)).2 rfl

/-- An address of at most eight texts is expanded. -/
theorem expandIpv6Groups_of_text {ip : List UInt8} {addr : List ℕ} (h : Ipv6Text ip addr)
    (hlen : (ip.splitOn colon).length ≤ 8) : expandIpv6Groups ip = .done addr := by
  have hcount := length_splitOn_colon ip
  rw [expandIpv6Groups_eq]
  cases h with
  | full gs hgs h8 =>
      have hsplit : (List.intercalate [colon] gs).splitOn colon = gs :=
        List.splitOn_intercalate _ (fun g hg => (hgs g hg).1.colon_not_mem) (List.ne_nil_of_length_pos (by omega))
      rw [hsplit, if_pos ⟨by omega, by omega, loneEnd_groups hgs, fun g hg => (hgs g hg).1, by simp [gaps_groups hgs]⟩,
        written_groups hgs, padGroups_eq (by simp [h8]), List.length_map, h8, Nat.sub_self, List.replicate_zero,
        List.append_nil]
  | compressed l r hl hr h7 =>
      have hgroups : ∀ g ∈ ends l ++ [] :: ends r, GroupText g := by
        intro g hg
        rcases List.mem_append.mp hg with hg | hg
        · exact groupText_ends hl hg
        · rcases List.mem_cons.mp hg with rfl | hg
          · decide
          · exact groupText_ends hr hg
      have hl1 := List.length_pos_iff.mpr (ends_ne_nil l)
      have hr1 := List.length_pos_iff.mpr (ends_ne_nil r)
      rw [splitOn_compressed hl hr] at hlen hcount ⊢
      have hsum : (ends l ++ [] :: ends r).length = (ends l).length + (ends r).length + 1 := by simp; omega
      rw [if_pos ⟨by omega, hlen, loneEnd_compressed hl hr, hgroups, by rw [gaps_compressed hl hr]⟩,
        written_compressed hl hr]
      generalize List.count colon _ = c at hcount ⊢
      rw [hsum, length_ends, length_ends] at hcount
      by_cases hrnil : r = []
      · -- one zero less is written where no group is behind the `::`
        subst hrnil
        rw [List.map_nil, List.append_nil, padGroups_append_zeros, padGroups_eq (by rw [List.length_map]; omega),
          List.length_map, List.append_nil]
        rfl
      · rw [if_neg hrnil] at hcount
        have hrpos := List.length_pos_iff.mpr hrnil
        have hzeros : (8 - c + if l = [] then 1 else 0) = 8 - (l.length + r.length) := by
          by_cases hnil : l = []
          · rw [if_pos hnil] at hcount ⊢
            rw [hnil, List.length_nil]
            omega
          · rw [if_neg hnil] at hcount ⊢
            omega
        rw [hzeros, padGroups_eq (by simp; omega)]
        simp
        omega

/-- The groups of one side of a `::`, whose text at the end is empty only if it is the only one. -/
theorem exists_eq_ends {side : List (List UInt8)} (hside : side ≠ []) (hgroups : ∀ g ∈ side, GroupText g)
    (hempty : [] ∈ side → side = [[]]) : ∃ l, (∀ g ∈ l, Ipv6Group g) ∧ side = ends l := by
  by_cases h : [] ∈ side
  · exact ⟨[], fun _ hg => absurd hg List.not_mem_nil, hempty h⟩
  · exact ⟨side, fun g hg => ⟨hgroups g hg, fun hnil => h (hnil ▸ hg)⟩, (ends_of_ne_nil hside).symm⟩

theorem exists_compressed_of_gap {texts : List (List UInt8)} (hgroups : ∀ g ∈ texts, GroupText g) (hgap : gaps texts = 1)
    (hlone : ¬LoneEnd texts) :
    ∃ l r, (∀ g ∈ l, Ipv6Group g) ∧ (∀ g ∈ r, Ipv6Group g) ∧ texts = ends l ++ [] :: ends r := by
  cases texts with
  | nil => exact absurd hgap (by decide)
  | cons g rest =>
      rcases List.eq_nil_or_concat' rest with rfl | ⟨mid, z, rfl⟩
      · exact absurd hgap (by simp [gaps])
      · rw [gaps, List.tail_cons, List.dropLast_concat] at hgap
        obtain ⟨a, b, rfl⟩ := List.append_of_mem (List.count_pos_iff.mp (by omega : 0 < mid.count []))
        rw [List.count_append, List.count_cons_self] at hgap
        have ha : [] ∉ a := List.count_eq_zero.mp (by omega)
        have hb : [] ∉ b := List.count_eq_zero.mp (by omega)
        have hfront : [] ∈ g :: a → g :: a = [[]] := by
          intro h
          rw [List.mem_cons, or_iff_left ha] at h
          subst h
          cases a with
          | nil => rfl
          | cons g' a =>
              refine absurd (Or.inl ⟨rfl, fun hnext => ha ?_⟩) hlone
              rw [Option.some.inj hnext]
              exact List.mem_cons_self
        have hback : [] ∈ b ++ [z] → b ++ [z] = [[]] := by
          intro h
          rw [List.mem_append, or_iff_right hb, List.mem_singleton] at h
          subst h
          rcases List.eq_nil_or_concat' b with rfl | ⟨b, g', rfl⟩
          · rfl
          · have hlast : g :: (a ++ [] :: (b ++ [g'])) = (g :: (a ++ [] :: b)) ++ [g'] := by simp
            refine absurd (Or.inr ⟨by rw [← List.cons_append, List.getLast?_concat], fun hnext => hb ?_⟩) hlone
            rw [← List.cons_append, List.dropLast_concat, hlast, List.getLast?_concat] at hnext
            rw [Option.some.inj hnext]
            simp
        obtain ⟨l, hl, hfront⟩ := exists_eq_ends (List.cons_ne_nil g a)
          (fun g hg => hgroups g (by simp at hg ⊢; tauto)) hfront
        obtain ⟨r, hr, hback⟩ := exists_eq_ends (by simp : b ++ [z] ≠ [])
          (fun g hg => hgroups g (by simp at hg ⊢; tauto)) hback
        refine ⟨l, r, hl, hr, ?_⟩
        rw [← hfront, ← hback]
        simp

/-- Three to seven groups without a `::`. -/
def FewGroups (texts : List (List UInt8)) : Prop := 3 ≤ texts.length ∧ texts.length ≤ 7 ∧ ∀ g ∈ texts, Ipv6Group g

instance (texts : List (List UInt8)) : Decidable (FewGroups texts) := inferInstanceAs (Decidable (_ ∧ _))

theorem ipv6Group_of_gaps {texts : List (List UInt8)} (h2 : 3 ≤ texts.length) (hgroups : ∀ g ∈ texts, GroupText g)
    (hgap : gaps texts = 0) (hlone : ¬LoneEnd texts) : ∀ g ∈ texts, Ipv6Group g := by
  suffices hnil : [] ∉ texts from fun g hg => ⟨hgroups g hg, fun h => hnil (h ▸ hg)⟩
  cases texts with
  | nil => exact absurd h2 (by simp)
  | cons g rest =>
      rcases List.eq_nil_or_concat' rest with rfl | ⟨mid, z, rfl⟩
      · simp at h2
      · rw [gaps, List.tail_cons, List.dropLast_concat, List.count_eq_zero] at hgap
        have hmid : mid ≠ [] := by
          rintro rfl
          simp at h2
        rintro h
        rw [List.mem_cons, List.mem_append, List.mem_singleton] at h
        rcases h with rfl | h | rfl
        · refine hlone (Or.inl ⟨rfl, fun hnext => hgap ?_⟩)
          rw [List.tail_cons, List.head?_append_of_ne_nil _ hmid] at hnext
          exact List.mem_of_mem_head? hnext
        · exact hgap h
        · refine hlone (Or.inr ⟨by rw [← List.cons_append, List.getLast?_concat], fun hnext => hgap ?_⟩)
          rw [← List.cons_append, List.dropLast_concat, List.getLast?_cons_of_ne_nil hmid] at hnext
          exact List.mem_of_mem_getLast? hnext

/-- What can be expanded is an address, or has too few groups. -/
theorem text_of_expandable {ip : List UInt8} (h : Expandable (ip.splitOn colon)) (hfew : ¬FewGroups (ip.splitOn colon)) :
    ∃ addr, Ipv6Text ip addr := by
  obtain ⟨h3, h8, hlone, hgroups, hgap⟩ := h
  have hip : List.intercalate [colon] (ip.splitOn colon) = ip := List.intercalate_splitOn colon
  generalize ip.splitOn colon = texts at h3 h8 hlone hgroups hgap hfew hip
  rcases Nat.le_one_iff_eq_zero_or_eq_one.mp hgap with hgap | hgap
  · have hall := ipv6Group_of_gaps h3 hgroups hgap hlone
    rw [← hip]
    exact ⟨_, .full texts hall (by_contra fun h => hfew ⟨h3, by omega, hall⟩)⟩
  · obtain ⟨l, r, hl, hr, rfl⟩ := exists_compressed_of_gap hgroups hgap hlone
    have hip' : ip = List.intercalate [colon] l ++ colon :: colon :: List.intercalate [colon] r := by
      rw [← hip, intercalate_append colon (ends_ne_nil l) (by simp), List.intercalate_cons_of_ne_nil (ends_ne_nil r),
        intercalate_ends, intercalate_ends]
      rfl
    have hlen : l.length + r.length ≤ 7 := by
      rw [List.length_append, List.length_cons, length_ends, length_ends] at h8
      split at h8 <;> split at h8 <;> simp_all <;> omega
    rw [hip']
    exact ⟨_, .compressed l r hl hr hlen⟩

/-! ## What `is_ip6` accepts -/

/-- What `is_ip6` asks for in the end. -/
def Ip6Result (r : ℕ × Bool × ℕ) : Prop := 2 ≤ r.2.2 ∧ r.2.2 ≤ 7 ∧ r.1 ≤ 4 ∧ r.2.1 = true

/-- `is_ip6` over the texts between the colons; `num` once there was a digit. -/
def Ip6Texts (num : Prop) (colons dcolons : ℕ) : List (List UInt8) → Prop
  | [] => False
  | [g] => GroupText g ∧ 2 ≤ colons ∧ colons ≤ 7 ∧ (num ∨ g ≠ [])
  | g :: g' :: gs =>
      GroupText g ∧
        if 1 < dcolons + (if g = [] ∧ 0 < colons then 1 else 0) then 2 ≤ colons ∧ colons ≤ 7 ∧ (num ∨ g ≠ [])
        else Ip6Texts (num ∨ g ≠ []) (colons + 1) (dcolons + if g = [] ∧ 0 < colons then 1 else 0) (g' :: gs)

theorem isIp6_iff (ip : List UInt8) : isIp6 ip = true ↔ Ip6Result (isIp6Loop 0 false 0 0 ip) := by
  simp [isIp6, Ip6Result, and_assoc]

/-- Digits are counted. -/
theorem isIp6Loop_digits {g : List UInt8} (hg : ∀ a ∈ g, isHexDigit a = true) (nums : ℕ) (isNums : Bool)
    (colons dcolons : ℕ) (s : List UInt8) :
    isIp6Loop nums isNums colons dcolons (g ++ s) =
      isIp6Loop (nums + g.length) (isNums || decide (g ≠ [])) colons dcolons s := by
  induction g generalizing nums isNums with
  | nil => simp
  | cons a g ih =>
      rw [List.forall_mem_cons] at hg
      rw [List.cons_append, isIp6Loop, if_pos hg.1, ih hg.2]
      simp [Nat.add_comm, Nat.add_left_comm]

/-- Another character ends the loop without success. -/
theorem not_result_of_not_digits {g : List UInt8} (hcolon : colon ∉ g) (hg : ¬∀ a ∈ g, isHexDigit a = true) (nums : ℕ)
    (isNums : Bool) (colons dcolons : ℕ) (s : List UInt8) :
    ¬Ip6Result (isIp6Loop nums isNums colons dcolons (g ++ s)) := by
  induction g generalizing nums isNums with
  | nil => exact absurd (fun _ h => absurd h List.not_mem_nil) hg
  | cons a g ih =>
      rw [List.mem_cons, not_or] at hcolon
      rw [List.cons_append, isIp6Loop]
      by_cases ha : isHexDigit a = true
      · rw [if_pos ha]
        exact ih hcolon.2 (fun h => hg (List.forall_mem_cons.mpr ⟨ha, h⟩)) _ _
      · rw [if_neg ha, if_neg (Ne.symm hcolon.1)]
        exact fun h => Bool.false_ne_true h.2.2.2

/-- **The recogniser** is a run over the texts between the colons. -/
theorem isIp6Loop_iff (isNums : Bool) (colons dcolons : ℕ) (s : List UInt8) :
    Ip6Result (isIp6Loop 0 isNums colons dcolons s) ↔ Ip6Texts (isNums = true) colons dcolons (s.splitOn colon) := by
  induction hn : s.length using Nat.strong_induction_on generalizing isNums colons dcolons s with
  | _ n ih =>
      cases hsplit : strchr colon s with
      | none =>
          have hmem := strchr_eq_none_iff.mp hsplit
          rw [List.splitOn_eq_singleton hmem, Ip6Texts]
          by_cases hdigits : ∀ a ∈ s, isHexDigit a = true
          · have hrun := isIp6Loop_digits hdigits 0 isNums colons dcolons []
            rw [List.append_nil] at hrun
            rw [hrun, isIp6Loop, Ip6Result, Nat.zero_add, Bool.or_eq_true, decide_eq_true_eq, GroupText]
            tauto
          · have hrun := not_result_of_not_digits hmem hdigits 0 isNums colons dcolons []
            rw [List.append_nil] at hrun
            exact iff_of_false hrun fun h => hdigits h.1.1
      | some p =>
          obtain ⟨g, t⟩ := p
          have hg := not_mem_of_strchr hsplit
          obtain rfl := strchr_eq_some hsplit
          have hlen : t.length < n := by
            rw [← hn]
            simp
            omega
          rw [List.splitOn_append_cons_self, List.splitOn_eq_singleton hg, List.singleton_append]
          by_cases hdigits : ∀ a ∈ g, isHexDigit a = true
          · cases htexts : t.splitOn colon with
            | nil => exact absurd htexts (List.splitOn_ne_nil _ _)
            | cons g' gs =>
                have hdc : (if g.length = 0 ∧ 0 < colons then dcolons + 1 else dcolons) =
                    dcolons + if g = [] ∧ 0 < colons then 1 else 0 := by
                  simp only [List.length_eq_zero_iff]
                  split <;> rfl
                rw [isIp6Loop_digits hdigits, isIp6Loop, if_neg (by decide), if_pos rfl, Nat.zero_add, Ip6Texts, hdc]
                dsimp only
                generalize dcolons + (if g = [] ∧ 0 < colons then 1 else 0) = d
                by_cases hlong : 4 < g.length
                · rw [if_pos (Or.inl hlong)]
                  exact iff_of_false (fun h => absurd h.2.2.1 (by simpa using hlong)) fun h => absurd h.1.2 (by omega)
                · have hgroup : GroupText g := ⟨hdigits, by omega⟩
                  rw [and_iff_right hgroup]
                  by_cases hd : 1 < d
                  · rw [if_pos (Or.inr hd), if_pos hd, Ip6Result, Bool.or_eq_true, decide_eq_true_eq]
                    exact and_congr_right fun _ => and_congr_right fun _ => and_iff_right hgroup.2
                  · rw [if_neg (by omega), if_neg hd, ih t.length hlen _ _ _ t rfl, htexts, Bool.or_eq_true,
                      decide_eq_true_eq]
          · refine iff_of_false (not_result_of_not_digits hg hdigits _ _ _ _ _) fun h => hdigits ?_
            cases htexts : t.splitOn colon with
            | nil => exact absurd htexts (List.splitOn_ne_nil _ _)
            | cons g' gs =>
                rw [htexts, Ip6Texts] at h
                exact h.1.1

/-- Groups or empty texts to the end, one of them a group, and no second `::`. -/
def Ip6Whole (num : Prop) (colons dcolons : ℕ) (texts : List (List UInt8)) : Prop :=
  texts ≠ [] ∧ (∀ g ∈ texts, GroupText g) ∧ 3 ≤ colons + texts.length ∧ colons + texts.length ≤ 8 ∧
    dcolons + texts.dropLast.count [] ≤ 1 ∧ (num ∨ ∃ g ∈ texts, g ≠ [])

/-- The loop ends at the second `::`, and does not see what is behind it. -/
def Ip6Early (num : Prop) (colons dcolons : ℕ) (texts : List (List UInt8)) : Prop :=
  ∃ front rest, texts = front ++ [] :: rest ∧ rest ≠ [] ∧ (∀ g ∈ front, GroupText g) ∧ dcolons + front.count [] = 1 ∧
    2 ≤ colons + front.length ∧ colons + front.length ≤ 7 ∧ (num ∨ ∃ g ∈ front, g ≠ [])

theorem ip6Whole_cons {num : Prop} {colons dcolons : ℕ} {g : List UInt8} {texts : List (List UInt8)} (hne : texts ≠ []) :
    Ip6Whole num colons dcolons (g :: texts) ↔
      GroupText g ∧ Ip6Whole (num ∨ g ≠ []) (colons + 1) (dcolons + if g = [] then 1 else 0) texts := by
  have hcount : dcolons + (g :: texts).dropLast.count [] = dcolons + (if g = [] then 1 else 0) + texts.dropLast.count [] := by
    rw [List.dropLast_cons_of_ne_nil hne, List.count_cons]
    simp only [beq_iff_eq]
    omega
  have hlen : colons + (g :: texts).length = colons + 1 + texts.length := by
    rw [List.length_cons]
    omega
  rw [Ip6Whole, Ip6Whole, hcount, hlen, List.forall_mem_cons, List.exists_mem_cons_iff]
  constructor
  · rintro ⟨-, ⟨hg, hgs⟩, h3, h8, hd, hnum⟩
    exact ⟨hg, hne, hgs, h3, h8, hd, by rwa [or_assoc]⟩
  · rintro ⟨hg, -, hgs, h3, h8, hd, hnum⟩
    exact ⟨List.cons_ne_nil g texts, ⟨hg, hgs⟩, h3, h8, hd, by rwa [or_assoc] at hnum⟩

theorem ip6Early_cons {num : Prop} {colons dcolons : ℕ} {g : List UInt8} {texts : List (List UInt8)} (hne : texts ≠ []) :
    Ip6Early num colons dcolons (g :: texts) ↔
      (g = [] ∧ dcolons = 1 ∧ 2 ≤ colons ∧ colons ≤ 7 ∧ num) ∨
        GroupText g ∧ Ip6Early (num ∨ g ≠ []) (colons + 1) (dcolons + if g = [] then 1 else 0) texts := by
  constructor
  · rintro ⟨front, rest, heq, hrest, hfront, hd, h2, h7, hnum⟩
    cases front with
    | nil =>
        rw [List.nil_append, List.cons.injEq] at heq
        refine Or.inl ⟨heq.1, by simpa using hd, by simpa using h2, by simpa using h7, ?_⟩
        simpa using hnum
    | cons g' front =>
        rw [List.cons_append, List.cons.injEq] at heq
        obtain ⟨rfl, rfl⟩ := heq
        rw [List.forall_mem_cons] at hfront
        rw [List.exists_mem_cons_iff, ← or_assoc] at hnum
        rw [List.count_cons] at hd
        simp only [beq_iff_eq] at hd
        rw [List.length_cons] at h2 h7
        exact Or.inr ⟨hfront.1, front, rest, rfl, hrest, hfront.2, by omega, by omega, by omega, hnum⟩
  · rintro (⟨rfl, rfl, h2, h7, hnum⟩ | ⟨hg, front, rest, rfl, hrest, hfront, hd, h2, h7, hnum⟩)
    · exact ⟨[], texts, rfl, hne, fun _ h => absurd h List.not_mem_nil, rfl, h2, h7, Or.inl hnum⟩
    · refine ⟨g :: front, rest, rfl, hrest, List.forall_mem_cons.mpr ⟨hg, hfront⟩, ?_, ?_, ?_, ?_⟩
      · rw [List.count_cons]
        simp only [beq_iff_eq]
        omega
      · rw [List.length_cons]
        omega
      · rw [List.length_cons]
        omega
      · rw [List.exists_mem_cons_iff, ← or_assoc]
        exact hnum

theorem not_ip6Early_of_two {num : Prop} {colons dcolons : ℕ} {texts : List (List UInt8)} (h : 1 < dcolons) :
    ¬Ip6Early num colons dcolons texts := by
  rintro ⟨front, rest, -, -, -, hd, -⟩
  omega

/-- Behind the first text the loop has these two ways to succeed. -/
theorem ip6Texts_iff {num : Prop} {colons dcolons : ℕ} (hcolons : 0 < colons) (hd : dcolons ≤ 1) (texts : List (List UInt8)) :
    Ip6Texts num colons dcolons texts ↔ Ip6Whole num colons dcolons texts ∨ Ip6Early num colons dcolons texts := by
  induction texts generalizing num colons dcolons with
  | nil =>
      refine iff_of_false id ?_
      rintro (⟨hne, -⟩ | ⟨front, rest, heq, -⟩)
      · exact hne rfl
      · exact absurd heq (by simp)
  | cons g texts ih =>
      cases texts with
      | nil =>
          have hearly : ¬Ip6Early num colons dcolons [g] := by
            rintro ⟨front, rest, heq, hrest, -⟩
            have hlen := congrArg List.length heq
            have := List.length_pos_iff.mpr hrest
            simp at hlen
            omega
          rw [or_iff_left hearly, Ip6Texts, Ip6Whole]
          simp [hd]
          omega
      | cons g' gs =>
          have hplace : (if g = [] ∧ 0 < colons then 1 else 0) = if g = [] then 1 else 0 := by
            simp only [and_iff_left hcolons]
          rw [Ip6Texts, hplace, ip6Whole_cons (List.cons_ne_nil g' gs), ip6Early_cons (List.cons_ne_nil g' gs)]
          by_cases htwo : 1 < dcolons + if g = [] then 1 else 0
          · have hg : g = [] := by
              by_contra hg
              rw [if_neg hg] at htwo
              omega
            subst hg
            rw [if_pos rfl] at htwo ⊢
            have hone : dcolons = 1 := by omega
            rw [if_pos htwo, and_iff_right (by decide : GroupText [])]
            constructor
            · rintro ⟨h2, h7, hnum⟩
              exact Or.inr (Or.inl ⟨rfl, hone, h2, h7, by simpa using hnum⟩)
            · rintro (⟨-, -, -, -, -, h, -⟩ | ⟨-, -, h2, h7, hnum⟩ | ⟨-, h⟩)
              · omega
              · exact ⟨h2, h7, Or.inl hnum⟩
              · exact absurd h (not_ip6Early_of_two htwo)
          · rw [if_neg htwo, ih (Nat.succ_pos colons) (by omega)]
            have hfirst : ¬(g = [] ∧ dcolons = 1 ∧ 2 ≤ colons ∧ colons ≤ 7 ∧ num) := by
              rintro ⟨rfl, rfl, -⟩
              exact htwo (by simp)
            rw [or_iff_right hfirst, ← and_or_left]

/-- A second empty text between others, behind one to seven texts that are well formed. -/
def SecondGap (texts : List (List UInt8)) : Prop :=
  ∃ g front rest, texts = g :: (front ++ [] :: rest) ∧ rest ≠ [] ∧ (∀ x ∈ g :: front, GroupText x) ∧
    front.count [] = 1 ∧ front.length ≤ 6 ∧ ∃ x ∈ g :: front, x ≠ []

/-- At most one `::`, and a digit. -/
def OneGap (texts : List (List UInt8)) : Prop :=
  (∀ g ∈ texts, GroupText g) ∧ 3 ≤ texts.length ∧ texts.length ≤ 8 ∧ gaps texts ≤ 1 ∧ ∃ g ∈ texts, g ≠ []

instance (texts : List (List UInt8)) : Decidable (OneGap texts) := inferInstanceAs (Decidable (_ ∧ _))

/-- **`is_ip6`** does not look at the ends, nor behind a second `::`. -/
theorem isIp6_texts (ip : List UInt8) :
    isIp6 ip = true ↔ OneGap (ip.splitOn colon) ∨ SecondGap (ip.splitOn colon) := by
  rw [isIp6_iff, isIp6Loop_iff]
  generalize ip.splitOn colon = texts
  cases texts with
  | nil =>
      refine iff_of_false id ?_
      rintro (⟨-, h3, -⟩ | ⟨g, front, rest, heq, -⟩)
      · simp at h3
      · exact absurd heq (by simp)
  | cons g texts =>
      cases texts with
      | nil =>
          refine iff_of_false (fun h => absurd h.2.1 (by decide)) ?_
          rintro (⟨-, h3, -⟩ | ⟨g, front, rest, heq, -⟩)
          · simp at h3
          · simp at heq
      | cons g' gs =>
          have hplace : (if g = [] ∧ 0 < 0 then 1 else 0) = 0 := if_neg fun h => absurd h.2 (Nat.lt_irrefl 0)
          rw [Ip6Texts, hplace, if_neg (by decide), ip6Texts_iff (Nat.succ_pos 0) (Nat.zero_le 1), and_or_left]
          generalize htexts : g' :: gs = texts
          have hne : texts ≠ [] := htexts ▸ List.cons_ne_nil g' gs
          apply or_congr
          · rw [OneGap, gaps, List.tail_cons, List.forall_mem_cons, List.exists_mem_cons_iff, List.length_cons, Ip6Whole]
            constructor
            · rintro ⟨hg, -, hgs, h3, h8, hd, hnum⟩
              exact ⟨⟨hg, hgs⟩, by omega, by omega, by omega, by simpa using hnum⟩
            · rintro ⟨⟨hg, hgs⟩, h3, h8, hd, hnum⟩
              exact ⟨hg, hne, hgs, by omega, by omega, by omega, by simpa using hnum⟩
          · constructor
            · rintro ⟨hg, front, rest, rfl, hrest, hfront, hd, h2, h7, hnum⟩
              refine ⟨g, front, rest, rfl, hrest, List.forall_mem_cons.mpr ⟨hg, hfront⟩, by omega, by omega, ?_⟩
              rw [List.exists_mem_cons_iff]
              simpa using hnum
            · rintro ⟨g, front, rest, heq, hrest, hfront, hd, h7, hnum⟩
              rw [List.cons.injEq] at heq
              obtain ⟨rfl, rfl⟩ := heq
              rw [List.forall_mem_cons] at hfront
              rw [List.exists_mem_cons_iff] at hnum
              have hlen : 0 < front.length := List.length_pos_iff.mpr fun h => absurd (h ▸ hd) (by simp)
              exact ⟨hfront.1, front, rest, rfl, hrest, hfront.2, by omega, by omega, by omega, by simpa using hnum⟩

/-! ## The texts and the addresses -/

theorem hexDigitValue_lt {a : UInt8} (h : isHexDigit a = true) : hexDigitValue a < 16 := by
  exact forall_byte (p := fun a => isHexDigit a = true → hexDigitValue a < 16) (by decide +kernel) a h

theorem hexValue_lt {g : List UInt8} (hg : GroupText g) : hexValue g < 16 ^ 4 := by
  suffices h : ∀ (g : List UInt8) (n k : ℕ), (∀ a ∈ g, isHexDigit a = true) → n < 16 ^ k →
      g.foldl (fun n c => 16 * n + hexDigitValue c) n < 16 ^ (k + g.length) by
    refine Nat.lt_of_lt_of_le (h g 0 0 hg.1 Nat.one_pos) (Nat.pow_le_pow_right (by decide) ?_)
    rw [Nat.zero_add]
    exact hg.2
  intro g
  induction g with
  | nil => exact fun n k _ h => h
  | cons a g ih =>
      intro n k hg hn
      rw [List.forall_mem_cons] at hg
      have hdigit := hexDigitValue_lt hg.1
      rw [List.foldl_cons, List.length_cons, ← Nat.add_assoc, Nat.add_right_comm]
      refine ih _ (k + 1) hg.2 ?_
      rw [Nat.pow_succ]
      omega

theorem length_hex04 {n : ℕ} (h : n < 16 ^ 4) : (hex04 n).length = 4 := by
  have hle := (Nat.length_toDigits_le_iff (by decide : 1 < 16) (by decide : 0 < 4)).mpr h
  rw [hex04]
  simp only [List.length_append, List.length_replicate, List.length_map]
  omega

/-- The text of an address in full. -/
def addressText (addr : List ℕ) : List UInt8 := List.intercalate [colon] (addr.map hex04)

theorem length_intercalate_of_forall {texts : List (List UInt8)} {k : ℕ} (hne : texts ≠ []) (h : ∀ g ∈ texts, g.length = k) :
    (List.intercalate [colon] texts).length + 1 = texts.length * (k + 1) := by
  induction texts with
  | nil => exact absurd rfl hne
  | cons g texts ih =>
      rw [List.forall_mem_cons] at h
      by_cases hnil : texts = []
      · subst hnil
        rw [List.intercalate_singleton, h.1]
        simp
      · rw [List.intercalate_cons_of_ne_nil hnil, List.length_append, List.length_append, List.length_singleton, h.1,
          List.length_cons, Nat.succ_mul, ← ih hnil h.2]
        omega

theorem Ipv6Text.length_addr {ip : List UInt8} {addr : List ℕ} (h : Ipv6Text ip addr) : addr.length = 8 := by
  cases h with
  | full gs hgs h8 => rw [List.length_map, h8]
  | compressed l r hl hr h7 =>
      simp only [List.length_append, List.length_map, List.length_replicate]
      omega

theorem Ipv6Text.lt_of_mem {ip : List UInt8} {addr : List ℕ} (h : Ipv6Text ip addr) {n : ℕ} (hn : n ∈ addr) : n < 16 ^ 4 := by
  have hvalue {gs : List (List UInt8)} (hgs : ∀ g ∈ gs, Ipv6Group g) (h : n ∈ gs.map hexValue) : n < 16 ^ 4 := by
    obtain ⟨g, hg, rfl⟩ := List.mem_map.mp h
    exact hexValue_lt (hgs g hg).1
  cases h with
  | full gs hgs h8 => exact hvalue hgs hn
  | compressed l r hl hr h7 =>
      rcases List.mem_append.mp hn with hn | hn
      · rcases List.mem_append.mp hn with hn | hn
        · exact hvalue hl hn
        · rw [List.eq_of_mem_replicate hn]
          decide
      · exact hvalue hr hn

theorem Ipv6Text.length_addressText {ip : List UInt8} {addr : List ℕ} (h : Ipv6Text ip addr) : (addressText addr).length = 39 := by
  have hne : addr.map hex04 ≠ [] := List.ne_nil_of_length_pos (by rw [List.length_map, h.length_addr]; decide)
  have hlen := length_intercalate_of_forall (k := 4) hne (by
    intro g hg
    obtain ⟨n, hn, rfl⟩ := List.mem_map.mp hg
    exact length_hex04 (h.lt_of_mem hn))
  rw [List.length_map, h.length_addr] at hlen
  rw [addressText]
  omega

/-- The texts of an address: eight of them without a `::`, or one `::`. -/
theorem Ipv6Text.texts {ip : List UInt8} {addr : List ℕ} (h : Ipv6Text ip addr) :
    (ip.splitOn colon).length = 8 ∨ gaps (ip.splitOn colon) = 1 := by
  cases h with
  | full gs hgs h8 =>
      rw [List.splitOn_intercalate _ (fun g hg => (hgs g hg).1.colon_not_mem) (List.ne_nil_of_length_pos (by omega))]
      exact Or.inl h8
  | compressed l r hl hr h7 =>
      rw [splitOn_compressed hl hr]
      exact Or.inr (gaps_compressed hl hr)

theorem FewGroups.not_text {ip : List UInt8} (h : FewGroups (ip.splitOn colon)) (addr : List ℕ) : ¬Ipv6Text ip addr := by
  intro htext
  obtain ⟨h3, h7, hgs⟩ := h
  rcases htext.texts with h8 | hgap
  · omega
  · rw [gaps_groups hgs] at hgap
    omega

/-- The longest text before or behind a `::` that stands for one group. -/
def GapBySeven (ip : List UInt8) : Prop :=
  ∃ gs : List (List UInt8), gs.length = 7 ∧ (∀ g ∈ gs, Ipv6Group g) ∧
    (ip = List.intercalate [colon] gs ++ [colon, colon] ∨ ip = [colon, colon] ++ List.intercalate [colon] gs)

theorem GapBySeven.text {ip : List UInt8} (h : GapBySeven ip) : ∃ addr, Ipv6Text ip addr := by
  obtain ⟨gs, h7, hgs, rfl | rfl⟩ := h
  · exact ⟨_, .compressed gs [] hgs (fun _ h => absurd h List.not_mem_nil) (by simp [h7])⟩
  · exact ⟨_, .compressed [] gs (fun _ h => absurd h List.not_mem_nil) hgs (by simp [h7])⟩

theorem GapBySeven.length {ip : List UInt8} (h : GapBySeven ip) : (ip.splitOn colon).length = 9 := by
  have hnil : ∀ g ∈ ([] : List (List UInt8)), Ipv6Group g := fun _ h => absurd h List.not_mem_nil
  obtain ⟨gs, h7, hgs, rfl | rfl⟩ := h
  · have hsplit := splitOn_compressed hgs hnil
    rw [List.intercalate_nil] at hsplit
    rw [hsplit, ends_of_ne_nil (List.ne_nil_of_length_pos (by omega)), List.length_append, h7]
    rfl
  · have hsplit := splitOn_compressed hnil hgs
    rw [List.intercalate_nil] at hsplit
    rw [List.cons_append, List.singleton_append, ← List.nil_append (colon :: _), hsplit,
      ends_of_ne_nil (l := gs) (List.ne_nil_of_length_pos (by omega)), List.length_append, List.length_cons, h7]
    rfl

/-- An address has at most eight texts, but for those with a `::` beside seven groups. -/
theorem Ipv6Text.length_texts {ip : List UInt8} {addr : List ℕ} (h : Ipv6Text ip addr) (hseven : ¬GapBySeven ip) :
    (ip.splitOn colon).length ≤ 8 := by
  cases h with
  | full gs hgs h8 =>
      rw [List.splitOn_intercalate _ (fun g hg => (hgs g hg).1.colon_not_mem) (List.ne_nil_of_length_pos (by omega))]
      exact h8.le
  | compressed l r hl hr h7 =>
      rw [splitOn_compressed hl hr, List.length_append, List.length_cons, length_ends, length_ends]
      by_cases hlnil : l = []
      · subst hlnil
        by_cases hrnil : r = []
        · rw [if_pos rfl, if_pos hrnil]
          decide
        · have hr7 : r.length ≠ 7 := fun h => hseven ⟨r, h, hr, Or.inr (by simp)⟩
          rw [List.length_nil] at h7
          rw [if_pos rfl, if_neg hrnil]
          omega
      · by_cases hrnil : r = []
        · subst hrnil
          have hl7 : l.length ≠ 7 := fun h => hseven ⟨l, h, hl, Or.inl (by simp)⟩
          rw [List.length_nil] at h7
          rw [if_neg hlnil, if_pos rfl]
          omega
        · rw [if_neg hlnil, if_neg hrnil]
          omega

/-- `::` is the only text without a digit that is expanded. -/
theorem exists_digit_of_expandable {ip : List UInt8} (h : Expandable (ip.splitOn colon)) (hgap : ip ≠ [colon, colon]) :
    ∃ g ∈ ip.splitOn colon, g ≠ [] := by
  by_contra hall
  have hnil : ∀ g ∈ ip.splitOn colon, g = [] := fun g hg => by_contra fun hne => hall ⟨g, hg, hne⟩
  have hrep := List.eq_replicate_of_mem hnil
  obtain ⟨h3, -, -, -, hone⟩ := h
  have hthree : (ip.splitOn colon).length = 3 := by
    rw [hrep, gaps, List.tail_replicate, List.dropLast_replicate, List.count_replicate_self] at hone
    omega
  have hip : List.intercalate [colon] (ip.splitOn colon) = ip := List.intercalate_splitOn colon
  apply hgap
  rw [← hip, hrep, hthree]
  rfl

theorem expandIpv6_isSome (ip : List UInt8) (strLen : ℕ) :
    (expandIpv6 ip strLen).isSome = true ↔ Expandable (ip.splitOn colon) := by
  rw [expandIpv6, expandIpv6Groups_eq]
  split_ifs with h <;> simp [h]

theorem SecondGap.two_le_gaps {texts : List (List UInt8)} (h : SecondGap texts) : 2 ≤ gaps texts := by
  obtain ⟨g, front, rest, rfl, hrest, -, hone, -⟩ := h
  rw [gaps, List.tail_cons, List.dropLast_append_of_ne_nil (by simp), List.dropLast_cons_of_ne_nil hrest,
    List.count_append, List.count_cons_self, hone]
  omega

/-- **The texts of IPv6 addresses**: no group is stored outside of `i`, the addresses are expanded
and nothing else, and `is_ip6` knows what can be expanded. -/
structure Ipv6Right (ip : List UInt8) : Prop where
  inside : expandIpv6Groups ip ≠ .overrun
  expanded (strLen : ℕ) (h : 40 ≤ strLen) (text : List UInt8) :
    expandIpv6 ip strLen = some text ↔ ∃ addr, Ipv6Text ip addr ∧ text = addressText addr
  recognised (strLen : ℕ) : isIp6 ip = (expandIpv6 ip strLen).isSome

/-- The texts that are taken wrongly: too few groups without a `::`, a `::` that stands for one
group at an end, `::` alone, and for `is_ip6` a colon that stands alone at an end or a second
`::`. -/
theorem ipv6Right_iff (ip : List UInt8) :
    Ipv6Right ip ↔
      ¬(FewGroups (ip.splitOn colon) ∨ GapBySeven ip ∨ ip = [colon, colon] ∨
        (OneGap (ip.splitOn colon) ∧ LoneEnd (ip.splitOn colon)) ∨ SecondGap (ip.splitOn colon)) := by
  have hnone {strLen : ℕ} (h : ¬Expandable (ip.splitOn colon)) : (expandIpv6 ip strLen).isSome = false := by
    rw [← Bool.not_eq_true, expandIpv6_isSome]
    exact h
  have hfits {addr : List ℕ} (h : Ipv6Text ip addr) {strLen : ℕ} (hlen : 40 ≤ strLen) :
      zbxVsnprintf strLen (addressText addr) = addressText addr :=
    zbxVsnprintf_of_lt (by rw [h.length_addressText]; omega)
  constructor
  · intro hright
    rintro (hfew | hseven | rfl | ⟨hone, hlone⟩ | hsecond)
    · have hexp : Expandable (ip.splitOn colon) :=
        ⟨hfew.1, by have := hfew.2.1; omega, loneEnd_groups hfew.2.2, fun g hg => (hfew.2.2 g hg).1,
          by simp [gaps_groups hfew.2.2]⟩
      obtain ⟨text, htext⟩ := Option.isSome_iff_exists.mp ((expandIpv6_isSome ip 40).mpr hexp)
      obtain ⟨addr, haddr, -⟩ := (hright.expanded 40 le_rfl text).mp htext
      exact hfew.not_text addr haddr
    · obtain ⟨addr, haddr⟩ := hseven.text
      have hsome := (hright.expanded 40 le_rfl _).mpr ⟨addr, haddr, rfl⟩
      have hexp := (expandIpv6_isSome ip 40).mp (Option.isSome_of_mem hsome)
      have h8 := hexp.2.1
      rw [hseven.length] at h8
      omega
    · exact absurd (hright.recognised 40) (by decide)
    · have htrue := (isIp6_texts ip).mpr (Or.inl hone)
      rw [hright.recognised 40, hnone fun h => h.2.2.1 hlone] at htrue
      exact Bool.false_ne_true htrue
    · have htrue := (isIp6_texts ip).mpr (Or.inr hsecond)
      have htwo := hsecond.two_le_gaps
      rw [hright.recognised 40, hnone fun h => absurd h.2.2.2.2 (by omega)] at htrue
      exact Bool.false_ne_true htrue
  · intro hnot
    rw [not_or, not_or, not_or, not_or] at hnot
    obtain ⟨hfew, hseven, hgap, hlone, hsecond⟩ := hnot
    refine ⟨?_, ?_, ?_⟩
    · rw [expandIpv6Groups_eq]
      split_ifs <;> simp
    · intro strLen hlen text
      constructor
      · intro htext
        have hexp := (expandIpv6_isSome ip strLen).mp (Option.isSome_of_mem htext)
        obtain ⟨addr, haddr⟩ := text_of_expandable hexp hfew
        rw [expandIpv6, expandIpv6Groups_of_text haddr hexp.2.1] at htext
        exact ⟨addr, haddr, (Option.some.inj htext).symm.trans (hfits haddr hlen)⟩
      · rintro ⟨addr, haddr, rfl⟩
        rw [expandIpv6, expandIpv6Groups_of_text haddr (haddr.length_texts hseven)]
        exact congrArg some (hfits haddr hlen)
    · intro strLen
      rw [Bool.eq_iff_iff, isIp6_texts, expandIpv6_isSome, or_iff_left hsecond]
      constructor
      · intro hone
        exact ⟨hone.2.1, hone.2.2.1, fun h => hlone ⟨hone, h⟩, hone.1, hone.2.2.2.1⟩
      · intro hexp
        exact ⟨hexp.2.2.2.1, hexp.1, hexp.2.1, hexp.2.2.2.2, exists_digit_of_expandable hexp hgap⟩

/-- `1:2:3` is expanded with five groups of zeros behind it. -/
theorem not_ipv6Right_three_groups : ¬Ipv6Right (bytes "1:2:3") := by
  intro h
  obtain ⟨addr, haddr, -⟩ := (h.expanded 40 le_rfl (bytes "0001:0002:0003:0000:0000:0000:0000:0000")).mp (by decide)
  exact FewGroups.not_text (by decide) addr haddr

end Zabbix
