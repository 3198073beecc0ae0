import Zabbix.Actions.CheckCondition
import Zabbix.Lib.Buffer

/-!
# Zabbix.Lists.InPlace

Lists that are searched where they stand: `int_in_list`, `uint64_in_list`, `check_time_period`,
`get_flexible_interval` and `get_next_flexible_interval` of `libs/zbxcommon/misc.c`, and
`str_in_list` of `libs/zbxcommon/str.c`.

They put a NUL over every separator that they come to, and the separator back afterwards.

* `cutList_eq` — the loop leaves the buffer as it was, and visits the texts of the list;
* `intInListAt_eq`, `checkTimePeriodAt_eq` and the others — what is returned is what the models
  without a buffer say.
-/

namespace Zabbix

open Ascii CInt Buffer

/-! ## The loop over the texts -/

/-- `for (s = list; '\0' != *s;)` with `sep` cut off behind each text.  The pointer behind which
`put` writes back, with the byte, is left in the second place. -/
def cutLoop {σ : Type} (sep : UInt8) (put : UInt8 → UInt8) (visit : σ → List UInt8 → σ × Bool) (m : List UInt8) (s : ℕ)
    (c : Option (ℕ × UInt8)) (x : σ) : List UInt8 × Option (ℕ × UInt8) × σ :=
  if _h : byteAt m s = 0 then (m, c, x)
  else
    match _he : find m s sep with
    | none => (m, none, (visit x (strAt m s)).1)
    | some e =>
        let byte := put (byteAt m e)
        let cut := m.set e 0
        let r := visit x (strAt cut s)
        if r.2 then (cut, some (e, byte), r.1)
        else cutLoop sep put visit (cut.set e byte) (e + 1) (some (e, byte)) r.1
termination_by m.length - s
decreasing_by
  have := lt_length_of_byteAt _h
  have := (find_spec _he).1
  simp only [List.length_set]
  omega

/-- `if (NULL != c) *c = ';'` -/
def putBack (m : List UInt8) : Option (ℕ × UInt8) → List UInt8
  | none => m
  | some (e, byte) => m.set e byte

/-- A loop over a list, from its beginning to what stands behind it. -/
def cutList {σ : Type} (sep : UInt8) (put : UInt8 → UInt8) (visit : σ → List UInt8 → σ × Bool) (m : List UInt8) (list : ℕ)
    (x : σ) : List UInt8 × σ :=
  let r := cutLoop sep put visit m list none x
  (putBack r.1 r.2.1, r.2.2)

/-- The loop over texts that are at hand. -/
def visitTexts {σ : Type} (visit : σ → List UInt8 → σ × Bool) : σ → List (List UInt8) → σ
  | x, [] => x
  | x, text :: texts => if (visit x text).2 then (visit x text).1 else visitTexts visit (visit x text).1 texts

theorem visitTexts_stop {σ : Type} {visit : σ → List UInt8 → σ × Bool} {x y : σ} {text : List UInt8}
    (h : visit x text = (y, true)) (texts : List (List UInt8)) : visitTexts visit x (text :: texts) = y := by
  rw [visitTexts, h]
  exact if_pos rfl

theorem visitTexts_next {σ : Type} {visit : σ → List UInt8 → σ × Bool} {x y : σ} {text : List UInt8}
    (h : visit x text = (y, false)) (texts : List (List UInt8)) :
    visitTexts visit x (text :: texts) = visitTexts visit y texts := by
  rw [visitTexts, h]
  exact if_neg Bool.false_ne_true

theorem listTexts_append_cons {sep : UInt8} {front : List UInt8} (h : sep ∉ front) (behind : List UInt8) :
    listTexts sep (front ++ sep :: behind) = front :: listTexts sep behind := by
  induction front with
  | nil => simp [listTexts]
  | cons a front ih =>
      rw [List.mem_cons, not_or] at h
      rw [List.cons_append, listTexts, if_neg (Ne.symm h.1), ih h.2]

theorem listTexts_of_not_mem {sep : UInt8} {s : List UInt8} (h : sep ∉ s) (hne : s ≠ []) : listTexts sep s = [s] := by
  induction s with
  | nil => exact absurd rfl hne
  | cons a s ih =>
      rw [List.mem_cons, not_or] at h
      rw [listTexts, if_neg (Ne.symm h.1)]
      by_cases hs : s = []
      · subst hs
        rfl
      · rw [ih h.2 hs]

theorem mem_of_mem_listTexts {sep : UInt8} {s text : List UInt8} (h : text ∈ listTexts sep s) {a : UInt8} (ha : a ∈ text) :
    a ∈ s := by
  induction s generalizing text with
  | nil => exact absurd h List.not_mem_nil
  | cons b s ih =>
      rw [listTexts] at h
      by_cases hb : b = sep
      · rw [if_pos hb, List.mem_cons] at h
        rcases h with rfl | h
        · exact absurd ha List.not_mem_nil
        · exact List.mem_cons_of_mem b (ih h ha)
      · rw [if_neg hb] at h
        cases htexts : listTexts sep s with
        | nil =>
            rw [htexts, List.mem_singleton] at h
            subst h
            rw [List.mem_singleton.mp ha]
            exact List.mem_cons_self
        | cons first rest =>
            rw [htexts] at h ih
            rcases List.mem_cons.mp h with rfl | h
            · rcases List.mem_cons.mp ha with rfl | ha
              · exact List.mem_cons_self
              · exact List.mem_cons_of_mem b (ih List.mem_cons_self ha)
            · exact List.mem_cons_of_mem b (ih (List.mem_cons_of_mem first h) ha)

theorem periodTexts_eq (s : List UInt8) : periodTexts s = listTexts semicolon s := by
  induction s with
  | nil => rfl
  | cons a s ih =>
      rewrite [periodTexts, listTexts, ih]
      by_cases ha : a = semicolon
      · simp only [if_pos ha]
      · cases listTexts semicolon s <;> simp only [if_neg ha]

/-- **The loop** visits the texts of the list, and what is put back at its end is there before. -/
theorem cutLoop_eq {σ : Type} {sep : UInt8} {put : UInt8 → UInt8} (hsep : sep ≠ 0) (hput : put sep = sep)
    (visit : σ → List UInt8 → σ × Bool) (m : List UInt8) (s : ℕ) {c : Option (ℕ × UInt8)} (hc : putBack m c = m) (x : σ) :
    putBack (cutLoop sep put visit m s c x).1 (cutLoop sep put visit m s c x).2.1 = m ∧
      (cutLoop sep put visit m s c x).2.2 = visitTexts visit x (listTexts sep (strAt m s)) := by
  induction hn : m.length - s using Nat.strong_induction_on generalizing s c x with
  | _ n ih =>
      rw [cutLoop]
      by_cases hend : byteAt m s = 0
      · rw [dif_pos hend, strAt_eq_nil_iff.mpr hend]
        exact ⟨hc, rfl⟩
      · rw [dif_neg hend]
        split
        · rename_i hfind
          rw [listTexts_of_not_mem (find_eq_none hfind) (mt strAt_eq_nil_iff.mp hend), visitTexts, visitTexts]
          exact ⟨rfl, by split <;> rfl⟩
        · rename_i e hfind
          obtain ⟨hle, hbyte⟩ := find_spec hfind
          obtain ⟨front, behind, htext, hfront, rfl⟩ := strAt_of_find hsep hfind
          have hlt := lt_length_of_byteAt hend
          have hback := set_put_back hbyte 0
          dsimp only
          rw [hbyte, hput, hback, strAt_set htext, htext, listTexts_append_cons hfront, visitTexts]
          by_cases hstop : (visit x front).2 = true
          · rw [if_pos hstop, if_pos hstop]
            exact ⟨hback, rfl⟩
          · rw [if_neg hstop, if_neg hstop]
            have hput' : putBack m (some (s + front.length, sep)) = m := by
              rw [← hback, putBack, List.set_set]
            have hrest := ih (m.length - (s + front.length + 1)) (by omega) (s + front.length + 1) hput' (visit x front).1 rfl
            rwa [strAt_behind htext] at hrest

theorem cutList_eq {σ : Type} {sep : UInt8} {put : UInt8 → UInt8} (hsep : sep ≠ 0) (hput : put sep = sep)
    (visit : σ → List UInt8 → σ × Bool) (m : List UInt8) (list : ℕ) (x : σ) :
    cutList sep put visit m list x = (m, visitTexts visit x (listTexts sep (strAt m list))) := by
  obtain ⟨hm, hx⟩ := cutLoop_eq hsep hput visit m list (c := none) rfl x
  rw [cutList, hm, hx]

/-! ## Lists of numbers -/

/-- One text in `int_in_list`. -/
def intVisit (value : Int32) (ret : Bool) (start : List UInt8) : Bool × Bool :=
  match scanRange start with
  | some (i1, i2) => if i1 ≤ value.toInt ∧ value.toInt ≤ i2 then (true, true) else (ret, false)
  | none => if atoi start = value then (true, true) else (ret, false)

/-- `int_in_list`, with the list at an address; what is put back is what was there. -/
def intInListAt (m : List UInt8) (list : ℕ) (value : Int32) : List UInt8 × Bool :=
  cutList comma id (intVisit value) m list false

/-- `ZBX_FS_UI64`: the number and what follows it. -/
def scanU (s : List UInt8) : Option (UInt64 × List UInt8) := do
  let n ← zbxStr2uint64 s
  let s := s.dropWhile fun c => isSpace c
  let body :=
    match s with
    | [] => []
    | c :: rest => if c = minus ∨ c = plus then rest else s
  return (n, body.dropWhile fun c => JsonText.isDigit c)

/-- `ZBX_FS_UI64 "-" ZBX_FS_UI64` -/
def scanRangeU (s : List UInt8) : Option (UInt64 × UInt64) := do
  let (i1, s) ← scanU s
  let s ← scanChar minus s
  let (i2, _) ← scanU s
  return (i1, i2)

/-- One text in `uint64_in_list`: `ret` and `tmp_uint64`, which stays where there is no number. -/
def uint64Visit (value : UInt64) (x : Bool × UInt64) (start : List UInt8) : (Bool × UInt64) × Bool :=
  match scanRangeU start with
  | some (i1, i2) => if i1 ≤ value ∧ value ≤ i2 then ((true, x.2), true) else (x, false)
  | none =>
      let tmpUint64 := (zbxStr2uint64 start).getD x.2
      if tmpUint64 = value then ((true, tmpUint64), true) else ((x.1, tmpUint64), false)

/-- `uint64_in_list`; `tmp` is in the variable before anything is stored there. -/
def uint64InListAt (m : List UInt8) (list : ℕ) (value tmp : UInt64) : List UInt8 × Bool :=
  let r := cutList comma id (uint64Visit value) m list (false, tmp)
  (r.1, r.2.1)

theorem intInListAt_eq (m : List UInt8) (list : ℕ) (value : Int32) :
    intInListAt m list value = (m, intInList (strAt m list) value) := by
  rw [intInListAt, cutList_eq (by decide) rfl, intInList]
  congr 1
  generalize listTexts comma (strAt m list) = texts
  induction texts with
  | nil => rfl
  | cons text texts ih =>
      rw [visitTexts, List.any_cons, intVisit]
      rcases scanRange text with _ | ⟨i1, i2⟩
      · by_cases h : atoi text = value <;> simp [h, ih]
      · by_cases h : i1 ≤ value.toInt ∧ value.toInt ≤ i2 <;> simp [h, ih]

/-! ## Lists of texts -/

/-- The loop of `str_in_list`, which puts the separator back before it ends. -/
def strInListLoop (value : List UInt8) (delimiter : UInt8) (m : List UInt8) (start : ℕ) (ret : Bool) : List UInt8 × Bool :=
  if _h : byteAt m start = 0 ∨ ret = true then (m, ret)
  else
    match _he : find m start delimiter with
    | none => (m, strAt m start = value)
    | some e =>
        let cut := m.set e 0
        strInListLoop value delimiter (cut.set e delimiter) (e + 1) (strAt cut start = value)
termination_by m.length - start
decreasing_by
  rw [not_or] at _h
  have := lt_length_of_byteAt _h.1
  have := (find_spec _he).1
  simp only [List.length_set]
  omega

/-- `str_in_list` -/
def strInListAt (m : List UInt8) (list : ℕ) (value : List UInt8) (delimiter : UInt8) : List UInt8 × Bool :=
  strInListLoop value delimiter m list false

theorem strInListLoop_mem (value : List UInt8) (delimiter : UInt8) (m : List UInt8) (start : ℕ) (ret : Bool) :
    (strInListLoop value delimiter m start ret).1 = m := by
  induction hn : m.length - start using Nat.strong_induction_on generalizing start ret with
  | _ n ih =>
      rw [strInListLoop]
      by_cases hend : byteAt m start = 0 ∨ ret = true
      · rw [dif_pos hend]
      · rw [dif_neg hend]
        split
        · rfl
        · rename_i e hfind
          obtain ⟨hle, hbyte⟩ := find_spec hfind
          have hlt := lt_length_of_byteAt (not_or.mp hend).1
          dsimp only
          rw [set_put_back hbyte]
          exact ih (m.length - (e + 1)) (by omega) (e + 1) _ rfl

/-! ## Lists of periods

`wrap` is what the machine makes of an `int` that overflows. -/

/-- An `int` that is computed. -/
def intOf (wrap : ℤ → ℤ) (n : ℤ) : ℤ := if InRange n then n else wrap n

/-- `3600 * h + 60 * m` -/
def secondAt (wrap : ℤ → ℤ) (h m : ℤ) : ℤ := intOf wrap (intOf wrap (3600 * h) + intOf wrap (60 * m))

/-- One text in `check_time_period`. -/
def periodVisit (wrap : ℤ → ℤ) (day sec : ℤ) (ret : Bool) (s : List UInt8) : Bool × Bool :=
  match scanTimePeriod s with
  | some p =>
      if p.d1 ≤ day ∧ day ≤ p.d2 ∧ secondAt wrap p.h1 p.m1 ≤ sec ∧ sec ≤ secondAt wrap p.h2 p.m2 then (true, true)
      else (ret, false)
  | none => (ret, false)

/-- `check_time_period` -/
def checkTimePeriodAt (cal : Calendar) (wrap : ℤ → ℤ) (m : List UInt8) (period : ℕ) (now : ℤ) : List UInt8 × Bool :=
  let now := if now = 0 then cal.time else now
  let tm := cal.localtime now
  cutList semicolon (fun _ => semicolon) (periodVisit wrap tm.day tm.second) m period false

/-- One text in `get_flexible_interval`: `ret` and `*delay_val`.  The period is checked in
`delay_period`. -/
def flexibleVisit (cal : Calendar) (wrap : ℤ → ℤ) (now : ℤ) (x : Bool × ℤ) (s : List UInt8) : (Bool × ℤ) × Bool :=
  match scanDelay s with
  | some (delay, delayPeriod) =>
      if (checkTimePeriodAt cal wrap (delayPeriod ++ [0]) 0 now).2 then ((true, delay), true) else (x, false)
  | none => (x, false)

/-- `get_flexible_interval`; `none` is the null pointer. -/
def getFlexibleIntervalAt (cal : Calendar) (wrap : ℤ → ℤ) (m : List UInt8) (delayFlex : Option ℕ) (delayVal now : ℤ) :
    List UInt8 × Bool × ℤ :=
  match delayFlex with
  | none => (m, false, delayVal)
  | some list =>
      if byteAt m list = 0 then (m, false, delayVal)
      else cutList semicolon (fun _ => semicolon) (flexibleVisit cal wrap now) m list (false, delayVal)

/-- One text in `get_next_flexible_interval`. -/
def nextVisit (wrap : ℤ → ℤ) (day sec now : ℤ) (next : ℤ) (s : List UInt8) : ℤ × Bool :=
  match scanDelayPeriod s with
  | some (_, p) =>
      let sec1 := secondAt wrap p.h1 p.m1
      let sec2 := secondAt wrap p.h2 p.m2
      if p.d1 ≤ day ∧ day ≤ p.d2 ∧ sec1 ≤ sec ∧ sec ≤ sec2 then
        -- working period
        (if next = 0 ∨ now - sec + sec2 < next then now - sec + sec2 else next, true)
      else if p.d1 ≤ day ∧ day ≤ p.d2 ∧ sec < sec1 then
        -- next period, same day
        (if next = 0 ∨ now - sec + sec1 < next then now - sec + sec1 else next, false)
      else if p.d1 ≤ day + 1 ∧ day + 1 ≤ p.d2 ∧ sec < sec1 then
        -- next period, next day
        (if next = 0 ∨ now - sec + sec1 < next then now - sec + 86400 + sec1 else next, false)
      else (next, false)
  | none => (next, false)

/-- `get_next_flexible_interval` -/
def getNextFlexibleIntervalAt (cal : Calendar) (wrap : ℤ → ℤ) (m : List UInt8) (delayFlex : Option ℕ) (now : ℤ) : List UInt8 × ℤ :=
  match delayFlex with
  | none => (m, fail)
  | some list =>
      if byteAt m list = 0 then (m, fail)
      else
        let tm := cal.localtime now
        let r := cutList semicolon (fun _ => semicolon) (nextVisit wrap tm.day tm.second now) m list 0
        (r.1, if r.2 ≠ 0 then r.2 else fail)

theorem secondAt_eq {wrap : ℤ → ℤ} {h m sec : ℤ} (heq : secondOf h m = some sec) : secondAt wrap h m = sec := by
  simp only [secondOf, Option.bind_eq_bind, Option.bind_eq_some_iff, checked_eq_some_iff] at heq
  obtain ⟨hours, ⟨hh, rfl⟩, minutes, ⟨hm, rfl⟩, hs, rfl⟩ := heq
  rw [secondAt, intOf, intOf, intOf, if_pos hh, if_pos hm, if_pos hs]

theorem periodVisit_some {wrap : ℤ → ℤ} {day sec : ℤ} {s : List UInt8} {p : TimePeriod} {b : Bool}
    (hscan : scanTimePeriod s = some p) (h : p.contains day sec = some b) (ret : Bool) :
    periodVisit wrap day sec ret s = if b = true then (true, true) else (ret, false) := by
  rw [periodVisit, hscan]
  dsimp only
  refine if_congr ?_ rfl rfl
  rw [TimePeriod.contains] at h
  by_cases hday : p.d1 ≤ day ∧ day ≤ p.d2
  · rw [if_pos hday] at h
    obtain ⟨sec1, hsec1, h⟩ := Option.bind_eq_some_iff.mp h
    rw [secondAt_eq hsec1]
    by_cases hfrom : sec1 ≤ sec
    · rw [if_pos hfrom] at h
      obtain ⟨sec2, hsec2, h⟩ := Option.bind_eq_some_iff.mp h
      rw [secondAt_eq hsec2, ← Option.some.inj h, decide_eq_true_eq]
      exact ⟨fun h => h.2.2.2, fun h => ⟨hday.1, hday.2, hfrom, h⟩⟩
    · rw [if_neg hfrom] at h
      rw [← Option.some.inj h]
      exact iff_of_false (fun h => hfrom h.2.2.1) Bool.false_ne_true
  · rw [if_neg hday] at h
    rw [← Option.some.inj h]
    exact iff_of_false (fun h => hday ⟨h.1, h.2.1⟩) Bool.false_ne_true

/-- Where no `int` overflows, the answer is that of `checkTimePeriod`. -/
theorem checkTimePeriodAt_eq {cal : Calendar} {wrap : ℤ → ℤ} {m : List UInt8} {period : ℕ} {now : ℤ} {b : Bool}
    (h : checkTimePeriod cal (strAt m period) now = some b) : checkTimePeriodAt cal wrap m period now = (m, b) := by
  rw [checkTimePeriod, periodTexts_eq] at h
  rw [checkTimePeriodAt, cutList_eq (by decide) rfl]
  congr 1
  generalize listTexts semicolon (strAt m period) = texts at h
  generalize Tm.day _ = day at h ⊢
  generalize Tm.second _ = sec at h ⊢
  induction texts with
  | nil => exact Option.some.inj h
  | cons s texts ih =>
      rw [checkPeriods] at h
      rw [visitTexts]
      cases hscan : scanTimePeriod s with
      | none =>
          rw [hscan] at h
          have hvisit : periodVisit wrap day sec false s = (false, false) := by rw [periodVisit, hscan]
          rw [hvisit]
          exact ih h
      | some p =>
          rw [hscan] at h
          obtain ⟨inside, hinside, h⟩ := Option.bind_eq_some_iff.mp h
          rw [periodVisit_some hscan hinside]
          cases inside with
          | true => exact Option.some.inj h
          | false => exact ih h

theorem strAt_copy {s : List UInt8} (h : 0 ∉ s) : strAt (s ++ [0]) 0 = s := by
  have hne : ∀ a ∈ s, decide (a ≠ 0) = true := by
    intro a ha
    exact decide_eq_true (ne_of_mem_of_not_mem ha h)
  rw [strAt, List.drop_zero, List.takeWhile_append_of_pos hne, List.takeWhile_cons_of_neg (by simp), List.append_nil]

theorem suffix_of_scanD {s r : List UInt8} {n : ℤ} (h : scanD s = some (n, r)) : r <:+ s := by
  rw [scanD] at h
  split at h
  · cases h
  · rw [Option.some.injEq, Prod.mk.injEq] at h
    rw [← h.2]
    refine (List.dropWhile_suffix _).trans ?_
    rename_i hdigits
    cases hs : s.dropWhile fun c => isSpace c with
    | nil => exact List.nil_suffix
    | cons c rest =>
        have hsuffix : c :: rest <:+ s := hs ▸ List.dropWhile_suffix _
        dsimp only
        split
        · exact (List.suffix_cons c rest).trans hsuffix
        · exact hsuffix

theorem suffix_of_scanChar {c : UInt8} {s r : List UInt8} (h : scanChar c s = some r) : r <:+ s := by
  cases s with
  | nil => cases h
  | cons a s =>
      rw [scanChar] at h
      split at h
      · rw [← Option.some.inj h]
        exact List.suffix_cons a s
      · cases h

theorem mem_of_mem_scanWord {s word : List UInt8} (h : scanWord s = some word) {a : UInt8} (ha : a ∈ word) : a ∈ s := by
  rw [scanWord] at h
  split at h
  · cases h
  · rename_i c rest hword
    rw [← Option.some.inj h, ← hword] at ha
    exact (List.dropWhile_suffix _).subset ((List.takeWhile_prefix _).subset (List.mem_of_mem_take ha))

/-- What `sscanf` stores in `delay_period` is of the text. -/
theorem mem_of_mem_scanDelay {s period : List UInt8} {delay : ℤ} (h : scanDelay s = some (delay, period)) {a : UInt8}
    (ha : a ∈ period) : a ∈ s := by
  obtain ⟨⟨n, r⟩, hn, h⟩ := Option.bind_eq_some_iff.mp h
  obtain ⟨r', hr', h⟩ := Option.bind_eq_some_iff.mp h
  obtain ⟨word, hword, h⟩ := Option.bind_eq_some_iff.mp h
  rw [← (Prod.mk.injEq _ _ _ _).mp (Option.some.inj h) |>.2] at ha
  exact (suffix_of_scanD hn).subset ((suffix_of_scanChar hr').subset (mem_of_mem_scanWord hword ha))

theorem getFlexibleIntervalAt_eq {cal : Calendar} {wrap : ℤ → ℤ} {m : List UInt8} {list : ℕ} {delayVal now : ℤ}
    {r : Bool × ℤ} (h : getFlexibleInterval cal (strAt m list) delayVal now = some r) :
    getFlexibleIntervalAt cal wrap m (some list) delayVal now = (m, r) := by
  rw [getFlexibleInterval, periodTexts_eq] at h
  rw [getFlexibleIntervalAt]
  by_cases hend : byteAt m list = 0
  · rw [if_pos hend]
    rw [strAt_eq_nil_iff.mpr hend] at h
    rw [← Option.some.inj h]
  · rw [if_neg hend, cutList_eq (by decide) rfl]
    congr 1
    have hnul : ∀ s ∈ listTexts semicolon (strAt m list), 0 ∉ s := fun s hs h0 =>
      nul_not_mem_strAt m list (mem_of_mem_listTexts hs h0)
    generalize listTexts semicolon (strAt m list) = texts at h hnul
    induction texts with
    | nil => exact Option.some.inj h
    | cons s texts ih =>
        rw [List.forall_mem_cons] at hnul
        rw [flexibleInterval] at h
        cases hscan : scanDelay s with
        | none =>
            rw [hscan] at h
            have hvisit : flexibleVisit cal wrap now (false, delayVal) s = ((false, delayVal), false) := by
              rw [flexibleVisit, hscan]
            rw [visitTexts_next hvisit]
            exact ih h hnul.2
        | some p =>
            obtain ⟨delay, period⟩ := p
            rw [hscan] at h
            obtain ⟨inside, hinside, h⟩ := Option.bind_eq_some_iff.mp h
            have hvisit : flexibleVisit cal wrap now (false, delayVal) s =
                if inside = true then ((true, delay), true) else ((false, delayVal), false) := by
              rw [← strAt_copy fun h0 => hnul.1 (mem_of_mem_scanDelay hscan h0)] at hinside
              rw [flexibleVisit, hscan]
              dsimp only
              rw [checkTimePeriodAt_eq hinside]
            cases inside with
            | true =>
                rw [visitTexts_stop hvisit]
                exact Option.some.inj h
            | false =>
                rw [visitTexts_next hvisit]
                exact ih h hnul.2

theorem nextVisit_some (wrap : ℤ → ℤ) (day sec now next : ℤ) {delay sec1 sec2 : ℤ} {s : List UInt8} {p : TimePeriod}
    (hscan : scanDelayPeriod s = some (delay, p)) (hsec1 : secondOf p.h1 p.m1 = some sec1)
    (hsec2 : secondOf p.h2 p.m2 = some sec2) :
    nextVisit wrap day sec now next s =
      if p.d1 ≤ day ∧ day ≤ p.d2 ∧ sec1 ≤ sec ∧ sec ≤ sec2 then
        (if next = 0 ∨ now - sec + sec2 < next then now - sec + sec2 else next, true)
      else if p.d1 ≤ day ∧ day ≤ p.d2 ∧ sec < sec1 then
        (if next = 0 ∨ now - sec + sec1 < next then now - sec + sec1 else next, false)
      else if p.d1 ≤ day + 1 ∧ day + 1 ≤ p.d2 ∧ sec < sec1 then
        (if next = 0 ∨ now - sec + sec1 < next then now - sec + 86400 + sec1 else next, false)
      else (next, false) := by
  rw [nextVisit, hscan]
  dsimp only
  simp only [secondAt_eq hsec1, secondAt_eq hsec2]

theorem getNextFlexibleIntervalAt_eq {cal : Calendar} {wrap : ℤ → ℤ} {m : List UInt8} {list : ℕ} {now next : ℤ}
    (h : getNextFlexibleInterval cal (strAt m list) now = some next) :
    getNextFlexibleIntervalAt cal wrap m (some list) now = (m, next) := by
  rw [getNextFlexibleInterval] at h
  rw [getNextFlexibleIntervalAt]
  dsimp only
  by_cases hend : byteAt m list = 0
  · rw [if_pos (strAt_eq_nil_iff.mpr hend)] at h
    rw [if_pos hend, ← Option.some.inj h]
  · rw [if_neg (mt strAt_eq_nil_iff.mp hend), periodTexts_eq] at h
    rw [if_neg hend, cutList_eq (by decide) rfl]
    dsimp only
    obtain ⟨found, hfound, h⟩ := Option.bind_eq_some_iff.mp h
    rw [← Option.some.inj h]
    suffices hvisit : ∀ x, nextInterval (cal.localtime now).day (cal.localtime now).second now x
        (listTexts semicolon (strAt m list)) = some found →
        visitTexts (nextVisit wrap (cal.localtime now).day (cal.localtime now).second now) x
          (listTexts semicolon (strAt m list)) = found by
      rw [hvisit 0 hfound]
    clear hfound
    generalize listTexts semicolon (strAt m list) = texts
    generalize Tm.day _ = day
    generalize Tm.second _ = sec
    induction texts with
    | nil => exact fun x h => Option.some.inj h
    | cons s texts ih =>
        intro x h
        rw [nextInterval] at h
        cases hscan : scanDelayPeriod s with
        | none =>
            rw [hscan] at h
            have hvisit : nextVisit wrap day sec now x s = (x, false) := by rw [nextVisit, hscan]
            rw [visitTexts_next hvisit]
            exact ih x h
        | some p =>
            obtain ⟨delay, p⟩ := p
            rw [hscan] at h
            obtain ⟨sec1, hsec1, h⟩ := Option.bind_eq_some_iff.mp h
            obtain ⟨sec2, hsec2, h⟩ := Option.bind_eq_some_iff.mp h
            have hvisit := nextVisit_some wrap day sec now x hscan hsec1 hsec2
            by_cases hwork : p.d1 ≤ day ∧ day ≤ p.d2 ∧ sec1 ≤ sec ∧ sec ≤ sec2
            · rw [if_pos hwork] at h hvisit
              rw [visitTexts_stop hvisit]
              exact Option.some.inj h
            · rw [if_neg hwork] at h hvisit
              split_ifs at h hvisit <;> exact (visitTexts_next hvisit texts).trans (ih _ h)

end Zabbix
