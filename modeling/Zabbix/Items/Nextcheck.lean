import Zabbix.Atoi
import Zabbix.Lib.CInt

/-!
# Zabbix.Items.Nextcheck

The time of the next check of an item (`calculate_item_nextcheck`,
`get_flexible_interval`, `get_next_flexible_interval` and `check_time_period` of
`libs/zbxcommon/misc.c`).

Times are seconds since the Epoch.  `none` is what the language leaves undefined, an
`int` that overflows.

* `calculateItemNextcheck_later` — when the next check is after now.
-/

namespace Zabbix

open Ascii CInt

/-- `FAIL` -/
abbrev fail : ℤ := -1

/-- `ITEM_TYPE_ZABBIX_ACTIVE` -/
def itemTypeZabbixActive : ℤ := 7

/-- What is read of a `struct tm`. -/
structure Tm where
  wday : Fin 7
  hour : Fin 24
  min : Fin 60
  sec : Fin 61

/-- The calendar and the clock of the machine: `localtime` and `time`. -/
structure Calendar where
  localtime : ℤ → Tm
  time : ℤ

/-- The day of the week, from Monday, which is 1, to Sunday. -/
def Tm.day (tm : Tm) : ℤ := if tm.wday = 0 then 7 else tm.wday.val

/-- The second of the day. -/
def Tm.second (tm : Tm) : ℤ := 3600 * tm.hour.val + 60 * tm.min.val + tm.sec.val

/-! ## `sscanf` -/

/-- `%d`: the `int` and what follows it. -/
def scanD (s : List UInt8) : Option (ℤ × List UInt8) :=
  let s := s.dropWhile fun c => isSpace c
  let body :=
    match s with
    | [] => []
    | c :: rest => if c = minus ∨ c = plus then rest else s
  match body.takeWhile fun c => JsonText.isDigit c with
  | [] => none
  | _ :: _ => some ((atoi s).toInt, body.dropWhile fun c => JsonText.isDigit c)

/-- A character of the format that stands for itself. -/
def scanChar (c : UInt8) : List UInt8 → Option (List UInt8)
  | [] => none
  | d :: rest => if d = c then some rest else none

/-- `%29s`, at the end of a format. -/
def scanWord (s : List UInt8) : Option (List UInt8) :=
  match (s.dropWhile fun c => isSpace c).takeWhile fun c => !isSpace c with
  | [] => none
  | c :: word => some ((c :: word).take 29)

/-- The days and the hours of a period. -/
structure TimePeriod where
  d1 : ℤ
  d2 : ℤ
  h1 : ℤ
  m1 : ℤ
  h2 : ℤ
  m2 : ℤ
deriving DecidableEq, Repr

/-- `"%d-%d,%d:%d-%d:%d"` -/
def scanTimePeriod (s : List UInt8) : Option TimePeriod := do
  let (d1, s) ← scanD s
  let s ← scanChar minus s
  let (d2, s) ← scanD s
  let s ← scanChar comma s
  let (h1, s) ← scanD s
  let s ← scanChar colon s
  let (m1, s) ← scanD s
  let s ← scanChar minus s
  let (h2, s) ← scanD s
  let s ← scanChar colon s
  let (m2, _) ← scanD s
  return { d1, d2, h1, m1, h2, m2 }

/-- `"%d/%29s"` -/
def scanDelay (s : List UInt8) : Option (ℤ × List UInt8) := do
  let (delay, s) ← scanD s
  let s ← scanChar slash s
  let period ← scanWord s
  return (delay, period)

/-- `"%d/%d-%d,%d:%d-%d:%d"` -/
def scanDelayPeriod (s : List UInt8) : Option (ℤ × TimePeriod) := do
  let (delay, s) ← scanD s
  let s ← scanChar slash s
  let period ← scanTimePeriod s
  return (delay, period)

/-- The texts that the loops over `';'` come to, one after the other. -/
def periodTexts : List UInt8 → List (List UInt8)
  | [] => []
  | c :: s =>
      if c = semicolon then [] :: periodTexts s
      else
        match periodTexts s with
        | [] => [[c]]
        | first :: rest => (c :: first) :: rest

/-! ## The intervals -/

/-- `3600 * h + 60 * m` -/
def secondOf (h m : ℤ) : Option ℤ := do
  let hours ← checked (3600 * h)
  let minutes ← checked (60 * m)
  checked (hours + minutes)

/-- The condition of `check_time_period`; what stands on its right is reckoned only when
what stands on its left holds. -/
def TimePeriod.contains (p : TimePeriod) (day sec : ℤ) : Option Bool :=
  if p.d1 ≤ day ∧ day ≤ p.d2 then do
    let sec1 ← secondOf p.h1 p.m1
    if sec1 ≤ sec then do
      let sec2 ← secondOf p.h2 p.m2
      return sec ≤ sec2
    else return false
  else return false

/-- The loop of `check_time_period`. -/
def checkPeriods (day sec : ℤ) : List (List UInt8) → Option Bool
  | [] => some false
  | s :: rest =>
      match scanTimePeriod s with
      | none => checkPeriods day sec rest
      | some p => do
          if ← p.contains day sec then return true else checkPeriods day sec rest

/-- `check_time_period`; at time 0 it takes the time of the clock. -/
def checkTimePeriod (cal : Calendar) (period : List UInt8) (now : ℤ) : Option Bool :=
  let now := if now = 0 then cal.time else now
  let tm := cal.localtime now
  checkPeriods tm.day tm.second (periodTexts period)

/-- The loop of `get_flexible_interval`. -/
def flexibleInterval (cal : Calendar) (delayVal now : ℤ) : List (List UInt8) → Option (Bool × ℤ)
  | [] => some (false, delayVal)
  | s :: rest =>
      match scanDelay s with
      | none => flexibleInterval cal delayVal now rest
      | some (delay, period) => do
          if ← checkTimePeriod cal period now then return (true, delay)
          else flexibleInterval cal delayVal now rest

/-- `get_flexible_interval`: whether there is an interval now, and `*delay_val` afterwards. -/
def getFlexibleInterval (cal : Calendar) (delayFlex : List UInt8) (delayVal now : ℤ) :
    Option (Bool × ℤ) :=
  flexibleInterval cal delayVal now (periodTexts delayFlex)

/-- The loop of `get_next_flexible_interval`. -/
def nextInterval (day sec now : ℤ) : ℤ → List (List UInt8) → Option ℤ
  | next, [] => some next
  | next, s :: rest =>
      match scanDelayPeriod s with
      | none => nextInterval day sec now next rest
      | some (_, p) => do
          let sec1 ← secondOf p.h1 p.m1
          let sec2 ← secondOf p.h2 p.m2
          if p.d1 ≤ day ∧ day ≤ p.d2 ∧ sec1 ≤ sec ∧ sec ≤ sec2 then
            -- working period
            return if next = 0 ∨ now - sec + sec2 < next then now - sec + sec2 else next
          else if p.d1 ≤ day ∧ day ≤ p.d2 ∧ sec < sec1 then
            -- next period, same day
            nextInterval day sec now
              (if next = 0 ∨ now - sec + sec1 < next then now - sec + sec1 else next) rest
          else if p.d1 ≤ day + 1 ∧ day + 1 ≤ p.d2 ∧ sec < sec1 then
            -- next period, next day
            nextInterval day sec now
              (if next = 0 ∨ now - sec + sec1 < next then now - sec + 86400 + sec1 else next) rest
          else nextInterval day sec now next rest

/-- `get_next_flexible_interval` -/
def getNextFlexibleInterval (cal : Calendar) (delayFlex : List UInt8) (now : ℤ) : Option ℤ :=
  if delayFlex = [] then some fail
  else do
    let tm := cal.localtime now
    let next ← nextInterval tm.day tm.second now 0 (periodTexts delayFlex)
    return if next ≠ 0 then next else fail

/-! ## The next check -/

/-- `while (i <= now) i += delay` -/
def catchUp (delay : ℤ) (hdelay : delay ≠ 0) (now i : ℤ) : Option ℤ :=
  if i ≤ now then
    if _h : InRange (i + delay) then catchUp delay hdelay now (i + delay) else none
  else some i
termination_by (if 0 < delay then 2 ^ 31 - i else 2 ^ 31 + i).toNat
decreasing_by
  obtain ⟨hlo, hhi⟩ := _h
  split <;> omega

/-- The default for a delay of 0. -/
def orDefault (delay : ℤ) : ℤ := if delay = 0 then 30 else delay

theorem orDefault_ne_zero (delay : ℤ) : orDefault delay ≠ 0 := by
  rw [orDefault]
  split
  · decide
  · assumption

/-- The end of `calculate_item_nextcheck`, from the delay that is in force and the time
that it counts from. -/
def nextMultiple (itemid : UInt64) (delay : ℤ) (hdelay : delay ≠ 0) (now : ℤ) : Option ℤ := do
  let multiple ← checked (delay * cast (now.tdiv delay))
  let i ← checked (multiple + cast (itemid.toNat % (delay % 2 ^ 64)))
  catchUp delay hdelay now i

/-- `calculate_item_nextcheck` -/
def calculateItemNextcheck (cal : Calendar) (itemid : UInt64) (itemType delay : ℤ)
    (delayFlex : List UInt8) (now : ℤ) : Option ℤ :=
  if itemType = itemTypeZabbixActive then checked (cast now + orDefault delay)
  else do
    let (_, flexDelay) ← getFlexibleInterval cal delayFlex delay now
    let next ← getNextFlexibleInterval cal delayFlex now
    if next ≠ fail ∧ next < now + flexDelay then do
      let (_, flexDelay2) ← getFlexibleInterval cal delayFlex delay (next + 1)
      let flexDelay := min flexDelay flexDelay2
      nextMultiple itemid (orDefault flexDelay) (orDefault_ne_zero flexDelay) next
    else nextMultiple itemid (orDefault flexDelay) (orDefault_ne_zero flexDelay) now

/-! ## The loop -/

/-- The loop ends after now, at an `int`. -/
theorem catchUp_spec {delay : ℤ} {hdelay : delay ≠ 0} {now i t : ℤ} (hi : InRange i)
    (h : catchUp delay hdelay now i = some t) : now < t ∧ InRange t := by
  induction i using catchUp.induct delay hdelay now with
  | case1 i hle hrange ih =>
      rw [catchUp, if_pos hle, dif_pos hrange] at h
      exact ih hrange h
  | case2 i hle hrange =>
      rw [catchUp, if_pos hle, dif_neg hrange] at h
      cases h
  | case3 i hlt =>
      rw [catchUp, if_neg hlt] at h
      cases h
      exact ⟨by omega, hi⟩

theorem catchUp_of_lt {delay now i : ℤ} {hdelay : delay ≠ 0} (h : now < i) :
    catchUp delay hdelay now i = some i := by
  rw [catchUp, if_neg (by omega)]

/-- One round is enough when now is less than a delay away. -/
theorem catchUp_once {delay now i : ℤ} {hdelay : delay ≠ 0} (hle : i ≤ now) (hlt : now < i + delay) :
    catchUp delay hdelay now i = checked (i + delay) := by
  rw [catchUp, if_pos hle]
  by_cases hrange : InRange (i + delay)
  · rw [dif_pos hrange, catchUp_of_lt hlt, checked_of_inRange hrange]
  · rw [dif_neg hrange, checked_of_not_inRange hrange]

/-- **A negative delay** takes the loop down until the `int` overflows. -/
theorem catchUp_neg {delay now i : ℤ} {hdelay : delay ≠ 0} (hneg : delay < 0) (hle : i ≤ now) :
    catchUp delay hdelay now i = none := by
  induction i using catchUp.induct delay hdelay now with
  | case1 i hle' hrange ih =>
      rw [catchUp, if_pos hle, dif_pos hrange]
      exact ih (by omega)
  | case2 i hle' hrange => rw [catchUp, if_pos hle, dif_neg hrange]
  | case3 i hlt => exact absurd hle hlt

/-! ## The next multiple -/

/-- The least number after `n` that is `a` modulo `d`. -/
def leastAfter (d a n : ℤ) : ℤ := n + 1 + (a - (n + 1)) % d

theorem isLeast_of_le {d a n t : ℤ} (hdvd : d ∣ t - a) (hlt : n < t) (hle : t ≤ n + d) :
    IsLeast {t | n < t ∧ d ∣ t - a} t := by
  refine ⟨⟨hlt, hdvd⟩, fun u ⟨hu, hdvdu⟩ => ?_⟩
  have hsub : d ∣ t - u := by
    have h := Int.dvd_sub hdvd hdvdu
    rwa [sub_sub_sub_cancel_right] at h
  by_contra hut
  have := Int.le_of_dvd (by omega) hsub
  omega

theorem isLeast_leastAfter {d : ℤ} (hd : 0 < d) (a n : ℤ) :
    IsLeast {t | n < t ∧ d ∣ t - a} (leastAfter d a n) := by
  have hnonneg := Int.emod_nonneg (a - (n + 1)) (by omega : d ≠ 0)
  have hlt := Int.emod_lt_of_pos (a - (n + 1)) hd
  refine isLeast_of_le ?_ (by rw [leastAfter]; omega) (by rw [leastAfter]; omega)
  have h : leastAfter d a n - a = (a - (n + 1)) % d - (a - (n + 1)) := by
    rw [leastAfter]
    ring
  rw [h]
  exact Int.dvd_sub_self_of_emod_eq rfl

theorem nextMultiple_eq (itemid : UInt64) (delay : ℤ) (hdelay : delay ≠ 0) (now : ℤ) :
    nextMultiple itemid delay hdelay now =
      (checked (delay * cast (now.tdiv delay))).bind fun multiple =>
        (checked (multiple + cast (itemid.toNat % (delay % 2 ^ 64)))).bind fun i =>
          catchUp delay hdelay now i := rfl

/-- What is returned is an `int` after now. -/
theorem nextMultiple_spec {itemid : UInt64} {delay now t : ℤ} {hdelay : delay ≠ 0}
    (h : nextMultiple itemid delay hdelay now = some t) : now < t ∧ InRange t := by
  rw [nextMultiple_eq] at h
  obtain ⟨multiple, -, h⟩ := Option.bind_eq_some_iff.mp h
  obtain ⟨i, hi, h⟩ := Option.bind_eq_some_iff.mp h
  obtain ⟨hrange, rfl⟩ := checked_eq_some_iff.mp hi
  exact catchUp_spec hrange h

theorem tmod_le {now : ℤ} (delay : ℤ) (hnow : 0 ≤ now) : now.tmod delay ≤ now := by
  have h := Int.natAbs_tmod now delay
  have := Nat.mod_le now.natAbs delay.natAbs
  omega

/-- The multiple of the delay that a time comes after. -/
theorem checked_multiple {delay now : ℤ} (hnow : 0 ≤ now) (hlt : now < 2 ^ 31) :
    checked (delay * cast (now.tdiv delay)) = some (now - now.tmod delay) := by
  have hdiv : (now.tdiv delay).natAbs ≤ now.natAbs := by
    rw [Int.natAbs_tdiv]
    exact Nat.div_le_self _ _
  have hmod : 0 ≤ now.tmod delay := Int.tmod_nonneg _ hnow
  have hle := tmod_le delay hnow
  have hmul := Int.mul_tdiv_add_tmod now delay
  rw [cast_of_inRange ⟨by omega, by omega⟩, checked_eq_some_iff]
  exact ⟨⟨by omega, by omega⟩, by omega⟩

/-- **A positive delay** yields the least time of the item's residue, if an `int` holds it. -/
theorem nextMultiple_of_pos {itemid : UInt64} {delay now : ℤ} {hdelay : delay ≠ 0} (hpos : 0 < delay)
    (hdelayRange : InRange delay) (hnow : 0 ≤ now) :
    nextMultiple itemid delay hdelay now = checked (leastAfter delay itemid.toNat now) := by
  have hleast := isLeast_leastAfter hpos itemid.toNat now
  by_cases hlt : now < 2 ^ 31
  · have htmod : now.tmod delay = now % delay := Int.tmod_eq_emod_of_nonneg hnow
    have hmod := Int.emod_nonneg now (by omega : delay ≠ 0)
    have hmodlt := Int.emod_lt_of_pos now hpos
    have hmodle : now % delay ≤ now := htmod ▸ tmod_le delay hnow
    have hres := Int.emod_nonneg (itemid.toNat : ℤ) (by omega : delay ≠ 0)
    have hreslt := Int.emod_lt_of_pos (itemid.toNat : ℤ) hpos
    have hunsigned : delay % 2 ^ 64 = delay := Int.emod_eq_of_lt hpos.le (by obtain ⟨-, h⟩ := hdelayRange; omega)
    have hcast : cast (itemid.toNat % (delay % 2 ^ 64)) = itemid.toNat % delay := by
      rw [hunsigned]
      exact cast_of_inRange ⟨by omega, by obtain ⟨-, h⟩ := hdelayRange; omega⟩
    have hdvd : delay ∣ now - now % delay + itemid.toNat % delay - itemid.toNat := by
      have h1 := Int.dvd_self_sub_of_emod_eq (rfl : now % delay = now % delay)
      have h2 := Int.dvd_sub_self_of_emod_eq (rfl : (itemid.toNat : ℤ) % delay = itemid.toNat % delay)
      have h := Int.dvd_add h1 h2
      rwa [← add_sub_assoc] at h
    rw [nextMultiple_eq, checked_multiple hnow hlt, Option.bind_some, hcast, htmod]
    by_cases hle : now - now % delay + itemid.toNat % delay ≤ now
    · rw [checked_of_inRange ⟨by omega, by omega⟩, Option.bind_some, catchUp_once hle (by omega)]
      refine congrArg checked (IsLeast.unique (isLeast_of_le ?_ (by omega) (by omega)) hleast)
      have h := Int.dvd_add hdvd (Int.dvd_refl delay)
      rwa [sub_add_eq_add_sub] at h
    · have heq : now - now % delay + itemid.toNat % delay = leastAfter delay itemid.toNat now :=
        IsLeast.unique (isLeast_of_le hdvd (by omega) (by omega)) hleast
      rw [heq]
      by_cases hrange : InRange (leastAfter delay itemid.toNat now)
      · rw [checked_of_inRange hrange, Option.bind_some, catchUp_of_lt (by omega)]
      · rw [checked_of_not_inRange hrange, Option.bind_none]
  · have hnone : nextMultiple itemid delay hdelay now = none := by
      refine Option.eq_none_iff_forall_not_mem.mpr fun t ht => ?_
      obtain ⟨hgt, -, hlt31⟩ := nextMultiple_spec ht
      omega
    rw [hnone, checked_of_not_inRange]
    rintro ⟨-, h⟩
    have := hleast.1.1
    omega

/-- **A negative delay** yields a time only when the first one tried is after now. -/
theorem nextMultiple_of_neg {itemid : UInt64} {delay now t : ℤ} {hdelay : delay ≠ 0} (hneg : delay < 0)
    (hnow : 0 ≤ now) : nextMultiple itemid delay hdelay now = some t ↔
      now.tmod delay < cast (itemid.toNat % (delay % 2 ^ 64)) ∧
        InRange (now - now.tmod delay + cast (itemid.toNat % (delay % 2 ^ 64))) ∧
        now - now.tmod delay + cast (itemid.toNat % (delay % 2 ^ 64)) = t := by
  constructor
  · intro h
    obtain ⟨hgt, -, hlt⟩ := nextMultiple_spec h
    rw [nextMultiple_eq, checked_multiple hnow (by omega), Option.bind_some] at h
    obtain ⟨i, hi, h⟩ := Option.bind_eq_some_iff.mp h
    obtain ⟨hrange, rfl⟩ := checked_eq_some_iff.mp hi
    by_cases hle : now - now.tmod delay + cast (itemid.toNat % (delay % 2 ^ 64)) ≤ now
    · rw [catchUp_neg hneg hle] at h
      cases h
    · rw [catchUp_of_lt (by omega), Option.some.injEq] at h
      exact ⟨by omega, hrange, h⟩
  · rintro ⟨hlt, hrange, rfl⟩
    have hnowlt : now < 2 ^ 31 := by
      obtain ⟨-, h⟩ := hrange
      omega
    rw [nextMultiple_eq, checked_multiple hnow hnowlt, Option.bind_some, checked_of_inRange hrange,
      Option.bind_some, catchUp_of_lt (by omega)]

/-! ## What the intervals yield -/

theorem inRange_of_scanD {s rest : List UInt8} {n : ℤ} (h : scanD s = some (n, rest)) : InRange n := by
  rw [scanD] at h
  split at h
  · cases h
  · cases h
    have hlo := Int32.le_toInt (atoi (s.dropWhile fun c => isSpace c))
    have hhi := Int32.toInt_lt (atoi (s.dropWhile fun c => isSpace c))
    exact ⟨hlo, hhi⟩

theorem inRange_of_scanDelay {s period : List UInt8} {n : ℤ} (h : scanDelay s = some (n, period)) :
    InRange n := by
  rw [scanDelay] at h
  obtain ⟨⟨delay, rest⟩, hd, h⟩ := Option.bind_eq_some_iff.mp h
  obtain ⟨_, -, h⟩ := Option.bind_eq_some_iff.mp h
  obtain ⟨_, -, h⟩ := Option.bind_eq_some_iff.mp h
  cases h
  exact inRange_of_scanD hd

/-- The delay in force is an `int`, of the text or the item's own. -/
theorem inRange_of_getFlexibleInterval {cal : Calendar} {delayFlex : List UInt8} {delayVal now d : ℤ}
    {b : Bool} (hdelay : InRange delayVal) (h : getFlexibleInterval cal delayFlex delayVal now = some (b, d)) :
    InRange d := by
  rw [getFlexibleInterval] at h
  generalize periodTexts delayFlex = texts at h
  induction texts with
  | nil =>
      cases h
      exact hdelay
  | cons s rest ih =>
      rw [flexibleInterval] at h
      cases hs : scanDelay s with
      | none =>
          rw [hs] at h
          exact ih h
      | some p =>
          rw [hs] at h
          obtain ⟨within, -, h⟩ := Option.bind_eq_some_iff.mp h
          cases within with
          | true =>
              cases h
              exact inRange_of_scanDelay hs
          | false => exact ih h

/-- Each boundary that is taken is not before now. -/
theorem le_of_nextInterval {day sec now next n : ℤ} {texts : List (List UInt8)}
    (hnext : next = 0 ∨ now ≤ next) (h : nextInterval day sec now next texts = some n) :
    n = 0 ∨ now ≤ n := by
  induction texts generalizing next with
  | nil =>
      cases h
      exact hnext
  | cons s rest ih =>
      rw [nextInterval] at h
      cases hs : scanDelayPeriod s with
      | none =>
          rw [hs] at h
          exact ih hnext h
      | some p =>
          rw [hs] at h
          obtain ⟨sec1, -, h⟩ := Option.bind_eq_some_iff.mp h
          obtain ⟨sec2, -, h⟩ := Option.bind_eq_some_iff.mp h
          split at h
          next hwork =>
            cases h
            split <;> omega
          next =>
            split at h
            next hsame =>
              refine ih ?_ h
              split <;> omega
            next =>
              split at h
              next hday =>
                refine ih ?_ h
                split <;> omega
              next => exact ih hnext h

theorem le_of_getNextFlexibleInterval {cal : Calendar} {delayFlex : List UInt8} {now next : ℤ}
    (h : getNextFlexibleInterval cal delayFlex now = some next) (hnext : next ≠ fail) : now ≤ next := by
  rw [getNextFlexibleInterval] at h
  split at h
  · cases h
    exact absurd rfl hnext
  · obtain ⟨n, hn, h⟩ := Option.bind_eq_some_iff.mp h
    cases h
    have hle := le_of_nextInterval (.inl rfl) hn
    split
    · omega
    · simp_all

/-- The time and the delay that the next check of a passive item counts from: now, or the
boundary of the intervals that comes before now and its delay. -/
inductive CountsFrom (cal : Calendar) (delay : ℤ) (delayFlex : List UInt8) (now : ℤ) : ℤ → ℤ → Prop
  | now {b : Bool} {d next : ℤ} (hnow : getFlexibleInterval cal delayFlex delay now = some (b, d))
      (hnext : getNextFlexibleInterval cal delayFlex now = some next) (h : next = fail ∨ now + d ≤ next) :
      CountsFrom cal delay delayFlex now now d
  | boundary {b b' : Bool} {d d' next : ℤ}
      (hnow : getFlexibleInterval cal delayFlex delay now = some (b, d))
      (hnext : getNextFlexibleInterval cal delayFlex now = some next) (h : next ≠ fail)
      (hlt : next < now + d)
      (hboundary : getFlexibleInterval cal delayFlex delay (next + 1) = some (b', d')) :
      CountsFrom cal delay delayFlex now next (min d d')

/-- The next check of a passive item is reckoned from there. -/
theorem calculateItemNextcheck_passive {cal : Calendar} {itemid : UInt64} {itemType delay now t : ℤ}
    {delayFlex : List UInt8} (htype : itemType ≠ itemTypeZabbixActive) :
    calculateItemNextcheck cal itemid itemType delay delayFlex now = some t ↔
      ∃ n d, CountsFrom cal delay delayFlex now n d ∧
        nextMultiple itemid (orDefault d) (orDefault_ne_zero d) n = some t := by
  rw [calculateItemNextcheck, if_neg htype]
  constructor
  · intro h
    obtain ⟨⟨b, d⟩, hnow, h⟩ := Option.bind_eq_some_iff.mp h
    obtain ⟨next, hnext, h⟩ := Option.bind_eq_some_iff.mp h
    split at h
    next hboundary =>
      obtain ⟨⟨b', d'⟩, hd', h⟩ := Option.bind_eq_some_iff.mp h
      exact ⟨next, min d d', .boundary hnow hnext hboundary.1 hboundary.2 hd', h⟩
    next hnone => exact ⟨now, d, .now hnow hnext (by omega), h⟩
  · rintro ⟨n, d, hcounts, h⟩
    cases hcounts with
    | now hnow hnext hle =>
        rw [hnow, Option.bind_eq_bind, Option.bind_some]
        dsimp only
        rw [hnext, Option.bind_eq_bind, Option.bind_some, if_neg (by omega)]
        exact h
    | boundary hnow hnext hne hlt hboundary =>
        rw [hnow, Option.bind_eq_bind, Option.bind_some]
        dsimp only
        rw [hnext, Option.bind_eq_bind, Option.bind_some, if_pos ⟨hne, hlt⟩, hboundary]
        exact h

theorem CountsFrom.le {cal : Calendar} {delay now n d : ℤ} {delayFlex : List UInt8}
    (h : CountsFrom cal delay delayFlex now n d) : now ≤ n := by
  cases h with
  | now hnow hnext hle => exact le_rfl
  | boundary hnow hnext hne hlt hboundary => exact le_of_getNextFlexibleInterval hnext hne

theorem CountsFrom.inRange {cal : Calendar} {delay now n d : ℤ} {delayFlex : List UInt8}
    (hdelay : InRange delay) (h : CountsFrom cal delay delayFlex now n d) : InRange (orDefault d) := by
  have hd : InRange d := by
    cases h with
    | now hnow hnext hle => exact inRange_of_getFlexibleInterval hdelay hnow
    | boundary hnow hnext hne hlt hboundary =>
        rw [min_def]
        split
        · exact inRange_of_getFlexibleInterval hdelay hnow
        · exact inRange_of_getFlexibleInterval hdelay hboundary
  rw [orDefault]
  split
  · decide
  · exact hd

/-- Without intervals it is counted from now, with the item's own delay. -/
theorem countsFrom_nil_iff {cal : Calendar} {delay now n d : ℤ} :
    CountsFrom cal delay [] now n d ↔ n = now ∧ d = delay := by
  constructor
  · rintro (⟨hnow, hnext, hle⟩ | ⟨hnow, hnext, hne, hlt, hboundary⟩)
    · cases hnow
      exact ⟨rfl, rfl⟩
    · cases hnext
      exact absurd rfl hne
  · rintro ⟨rfl, rfl⟩
    exact .now rfl rfl (.inl rfl)

/-- A passive item with delay `d` that counts from `n` has a time that an `int` holds: with a
positive delay, one of its residue; with a negative one, the first that is tried. -/
def Fits (itemid : UInt64) (d n : ℤ) : Prop :=
  0 < d ∧ (∃ t, n < t ∧ InRange t ∧ d ∣ t - itemid.toNat) ∨
    d < 0 ∧ n.tmod d < cast (itemid.toNat % (d % 2 ^ 64)) ∧
      InRange (n - n.tmod d + cast (itemid.toNat % (d % 2 ^ 64)))

/-- There is a next multiple after `n` when there is one that fits. -/
theorem exists_nextMultiple_iff {itemid : UInt64} {d n : ℤ} {hd : d ≠ 0} (hrange : InRange d) (hn : 0 ≤ n) :
    (∃ t, nextMultiple itemid d hd n = some t) ↔ Fits itemid d n := by
  rcases lt_or_gt_of_ne hd with hneg | hpos
  · constructor
    · rintro ⟨t, h⟩
      obtain ⟨hlt, hr, -⟩ := (nextMultiple_of_neg hneg hn).mp h
      exact .inr ⟨hneg, hlt, hr⟩
    · rintro (⟨hpos, -⟩ | ⟨-, hlt, hr⟩)
      · omega
      · exact ⟨_, (nextMultiple_of_neg hneg hn).mpr ⟨hlt, hr, rfl⟩⟩
  · have hleast := isLeast_leastAfter hpos itemid.toNat n
    rw [nextMultiple_of_pos hpos hrange hn]
    constructor
    · rintro ⟨t, h⟩
      obtain ⟨hr, rfl⟩ := checked_eq_some_iff.mp h
      exact .inl ⟨hpos, _, hleast.1.1, hr, hleast.1.2⟩
    · rintro (⟨-, t, hlt, ⟨-, hr⟩, hdvd⟩ | ⟨hneg, -⟩)
      · have hle := hleast.2 ⟨hlt, hdvd⟩
        have hgt := hleast.1.1
        exact ⟨_, checked_of_inRange ⟨by omega, by omega⟩⟩
      · omega

/-- What is asked of the next check: it is after now, and, for a passive item without
intervals, it is the least time of the item's residue. -/
def Later (cal : Calendar) (itemid : UInt64) (itemType delay : ℤ) (delayFlex : List UInt8) (now : ℤ) : Prop :=
  ∃ t, calculateItemNextcheck cal itemid itemType delay delayFlex now = some t ∧ now < t ∧
    (itemType ≠ itemTypeZabbixActive → delayFlex = [] → IsLeast {t | now < t ∧ delay ∣ t - itemid.toNat} t)

/-- An active item is checked a delay after now, if an `int` holds that time. -/
theorem later_active_iff {cal : Calendar} {itemid : UInt64} {delay now : ℤ} {delayFlex : List UInt8}
    (hdelay : 1 ≤ delay) (hnow : 0 ≤ now) :
    Later cal itemid itemTypeZabbixActive delay delayFlex now ↔ InRange (now + delay) := by
  have hdefault : orDefault delay = delay := if_neg (by omega)
  rw [Later, calculateItemNextcheck, if_pos rfl, hdefault]
  constructor
  · rintro ⟨t, h, hlt, -⟩
    obtain ⟨hr, rfl⟩ := checked_eq_some_iff.mp h
    have hnowlt : InRange now := by
      obtain ⟨hlo, hhi⟩ := hr
      exact ⟨by omega, by omega⟩
    rwa [cast_of_inRange hnowlt] at hr
  · intro hr
    have hnowlt : InRange now := by
      obtain ⟨hlo, hhi⟩ := hr
      exact ⟨by omega, by omega⟩
    refine ⟨now + delay, ?_, by omega, fun h => absurd rfl h⟩
    rw [cast_of_inRange hnowlt, checked_of_inRange hr]

/-- A passive item is checked when there is a time that fits. -/
theorem later_passive_iff {cal : Calendar} {itemid : UInt64} {itemType delay now : ℤ} {delayFlex : List UInt8}
    (htype : itemType ≠ itemTypeZabbixActive) (hdelay : 1 ≤ delay) (hrange : InRange delay) (hnow : 0 ≤ now) :
    Later cal itemid itemType delay delayFlex now ↔
      ∃ n d, CountsFrom cal delay delayFlex now n d ∧ Fits itemid (orDefault d) n := by
  constructor
  · rintro ⟨t, h, -, -⟩
    obtain ⟨n, d, hcounts, h⟩ := (calculateItemNextcheck_passive htype).mp h
    have hle := hcounts.le
    exact ⟨n, d, hcounts, (exists_nextMultiple_iff (hcounts.inRange hrange) (by omega)).mp ⟨t, h⟩⟩
  · rintro ⟨n, d, hcounts, hfits⟩
    have hle := hcounts.le
    have hfit := @exists_nextMultiple_iff itemid _ n (orDefault_ne_zero d) (hcounts.inRange hrange) (by omega)
    obtain ⟨t, h⟩ := hfit.mpr hfits
    have hlt := (nextMultiple_spec h).1
    refine ⟨t, (calculateItemNextcheck_passive htype).mpr ⟨n, d, hcounts, h⟩, by omega, fun _ hnil => ?_⟩
    subst hnil
    obtain ⟨rfl, rfl⟩ := countsFrom_nil_iff.mp hcounts
    have hdefault : orDefault d = d := if_neg (by omega)
    simp only [hdefault] at h
    rw [nextMultiple_of_pos (by omega) hrange hnow] at h
    obtain ⟨-, rfl⟩ := checked_eq_some_iff.mp h
    exact isLeast_leastAfter (by omega) _ _

/-- **When the next check is after now**: when an `int` holds the time of an active item; when
no hour of the text overflows an `int` and there is a time that fits the delay in force. -/
theorem calculateItemNextcheck_later (cal : Calendar) (itemid : UInt64) (itemType delay : ℤ)
    (delayFlex : List UInt8) (now : ℕ) (hlo : 1 ≤ delay) (hhi : delay ≤ 86400) :
    Later cal itemid itemType delay delayFlex now ↔
      if itemType = itemTypeZabbixActive then InRange (now + delay)
      else ∃ n d, CountsFrom cal delay delayFlex now n d ∧ Fits itemid (orDefault d) n := by
  split
  next htype =>
    subst htype
    exact later_active_iff hlo (Int.natCast_nonneg now)
  next htype => exact later_passive_iff htype hlo ⟨by omega, by omega⟩ (Int.natCast_nonneg now)

/-- A machine on universal time. -/
def universal : Calendar where
  localtime t :=
    { wday := Fin.ofNat 7 (t / 86400 + 4).toNat
      hour := Fin.ofNat 24 (t / 3600).toNat
      min := Fin.ofNat 60 (t / 60).toNat
      sec := Fin.ofNat 61 (t % 60).toNat }
  time := 0

/-- On a Tuesday at 22:13:20: an item of an hour, of a minute from 23:00 on. -/
theorem calculateItemNextcheck_later_evening :
    Later universal 10017 0 3600 (bytes "60/1-7,23:00-24:00") (1700000000 : ℕ) := by
  refine (calculateItemNextcheck_later universal 10017 0 3600 (bytes "60/1-7,23:00-24:00") 1700000000
    (by decide) (by decide)).mpr ?_
  rw [if_neg (by decide)]
  refine ⟨1700002800, min 3600 60, ?_, .inl ⟨by decide, 1700002857, by decide, by decide, by decide⟩⟩
  exact .boundary (b := false) (d := 3600) (by decide) (by decide) (by decide) (by decide)
    (by decide : getFlexibleInterval _ _ _ _ = some (true, 60))

/-- **A delay below zero** in the text: the item of a second node is never given a time. -/
theorem calculateItemNextcheck_negative :
    calculateItemNextcheck universal 200200000010017 0 30 (bytes "-60/1-7,00:00-24:00") 1700000000 = none ∧
      ¬Later universal 200200000010017 0 30 (bytes "-60/1-7,00:00-24:00") 1700000000 := by
  have hnone : calculateItemNextcheck universal 200200000010017 0 30 (bytes "-60/1-7,00:00-24:00") 1700000000 =
      none := by
    refine Option.eq_none_iff_forall_not_mem.mpr fun t ht => ?_
    obtain ⟨n, d, hcounts, h⟩ := (calculateItemNextcheck_passive (by decide)).mp ht
    have hflex : getFlexibleInterval universal (bytes "-60/1-7,00:00-24:00") 30 1700000000 = some (true, -60) := by
      decide
    have hnextInterval : getNextFlexibleInterval universal (bytes "-60/1-7,00:00-24:00") 1700000000 =
        some 1700006400 := by
      decide
    cases hcounts with
    | now hnow hnext hle =>
        rw [hflex] at hnow
        cases hnow
        have hlt := ((nextMultiple_of_neg (by decide) (by decide)).mp h).1
        exact absurd hlt (by decide)
    | boundary hnow hnext hne hlt hboundary =>
        rw [hflex] at hnow
        rw [hnextInterval] at hnext
        cases hnow
        cases hnext
        exact absurd hlt (by decide)
  refine ⟨hnone, fun ⟨t, h, _⟩ => ?_⟩
  rw [hnone] at h
  cases h

end Zabbix
