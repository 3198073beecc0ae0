import Zabbix.Items.Nextcheck

/-!
# Zabbix.Items.NextInterval

The next start or end of an interval in a list of flexible intervals
(`get_next_flexible_interval` of `libs/zbxcommon/misc.c`).

The loop ends at the first interval that is running, so what begins or ends earlier behind it
in the list is overlooked; an interval of the next day takes the place of whatever is not
earlier than the same time today; and an interval of the next day is seen only up to the time
of day at which it begins, and never from a Sunday.

* `getNextFlexibleInterval_join` — what the loop yields for a list of intervals;
* `getNextFlexibleInterval_iff` — when that is the first of what it yields for each of them,
  and this is where the interval starts or ends next.
-/

namespace Zabbix

open Ascii CInt

/-! ## Intervals -/

/-- The second of the day at which a period begins. -/
def TimePeriod.start (p : TimePeriod) : ℤ := 3600 * p.h1 + 60 * p.m1

/-- The second of the day at which a period ends. -/
def TimePeriod.stop (p : TimePeriod) : ℤ := 3600 * p.h2 + 60 * p.m2

/-- What the frontend requires of a period (`validate_period`). -/
structure TimePeriod.WellFormed (p : TimePeriod) : Prop where
  days : 1 ≤ p.d1 ∧ p.d1 ≤ p.d2 ∧ p.d2 ≤ 7
  from_hour : 0 ≤ p.h1 ∧ p.h1 ≤ 23 ∧ 0 ≤ p.m1 ∧ p.m1 ≤ 59
  till_hour : 0 ≤ p.h2 ∧ p.h2 ≤ 24 ∧ 0 ≤ p.m2 ∧ p.m2 ≤ 59
  start_lt_stop : p.start < p.stop
  stop_le : p.stop ≤ 86400

/-- A flexible interval: its text, and what is read from it. -/
structure FlexInterval where
  text : List UInt8
  delay : ℤ
  period : TimePeriod
  semicolon_not_mem : semicolon ∉ text
  scan : scanDelayPeriod text = some (delay, period)
  wellFormed : period.WellFormed

/-- The text of a list of intervals. -/
def joinIntervals (intervals : List FlexInterval) : List UInt8 :=
  List.intercalate [semicolon] (intervals.map (·.text))

/-- The text of an interval is not empty. -/
theorem FlexInterval.text_ne_nil (e : FlexInterval) : e.text ≠ [] := by
  intro h
  have hscan := e.scan
  rw [h] at hscan
  cases hscan

/-- A text behind which the list goes on. -/
theorem periodTexts_append {t : List UInt8} (h : semicolon ∉ t) (s : List UInt8) :
    periodTexts (t ++ semicolon :: s) = t :: periodTexts s := by
  induction t with
  | nil => simp [periodTexts]
  | cons c t ih =>
      rw [List.mem_cons, not_or] at h
      simp [periodTexts, Ne.symm h.1, ih h.2]

/-- The last text of a list. -/
theorem periodTexts_last {t : List UInt8} (h : semicolon ∉ t) (hne : t ≠ []) : periodTexts t = [t] := by
  induction t with
  | nil => exact absurd rfl hne
  | cons c t ih =>
      rw [List.mem_cons, not_or] at h
      cases t with
      | nil => simp [periodTexts, Ne.symm h.1]
      | cons d t =>
          have hrest := ih h.2 (List.cons_ne_nil d t)
          rw [periodTexts, if_neg (Ne.symm h.1), hrest]

/-- The loop comes to the intervals of the list. -/
theorem periodTexts_joinIntervals (intervals : List FlexInterval) :
    periodTexts (joinIntervals intervals) = intervals.map (·.text) := by
  induction intervals with
  | nil => rfl
  | cons e intervals ih =>
      cases intervals with
      | nil => simpa [joinIntervals] using periodTexts_last e.semicolon_not_mem e.text_ne_nil
      | cons f intervals =>
          have happend := periodTexts_append e.semicolon_not_mem (joinIntervals (f :: intervals))
          rw [ih] at happend
          simpa [joinIntervals] using happend

/-- The hours and minutes of a day fit an `int`. -/
theorem secondOf_start {p : TimePeriod} (h : p.WellFormed) : secondOf p.h1 p.m1 = some p.start := by
  obtain ⟨h1, h2, h3, h4⟩ := h.from_hour
  rw [secondOf, checked_of_inRange ⟨by omega, by omega⟩, checked_of_inRange ⟨by omega, by omega⟩]
  exact checked_of_inRange ⟨by omega, by omega⟩

theorem secondOf_stop {p : TimePeriod} (h : p.WellFormed) : secondOf p.h2 p.m2 = some p.stop := by
  obtain ⟨h1, h2, h3, h4⟩ := h.till_hour
  rw [secondOf, checked_of_inRange ⟨by omega, by omega⟩, checked_of_inRange ⟨by omega, by omega⟩]
  exact checked_of_inRange ⟨by omega, by omega⟩

/-! ## The loop

The times are seconds after the last midnight here. -/

section

variable (day sec : ℤ)

/-- The period is running. -/
def TimePeriod.Inside (p : TimePeriod) : Prop := p.d1 ≤ day ∧ day ≤ p.d2 ∧ p.start ≤ sec ∧ sec ≤ p.stop

/-- The period begins later today. -/
def TimePeriod.Later (p : TimePeriod) : Prop := p.d1 ≤ day ∧ day ≤ p.d2 ∧ sec < p.start

/-- The period begins on the next day, as the loop sees it. -/
def TimePeriod.NextDay (p : TimePeriod) : Prop := p.d1 ≤ day + 1 ∧ day + 1 ≤ p.d2 ∧ sec < p.start

instance (p : TimePeriod) : Decidable (p.Inside day sec) := inferInstanceAs (Decidable (_ ∧ _))

instance (p : TimePeriod) : Decidable (p.Later day sec) := inferInstanceAs (Decidable (_ ∧ _))

instance (p : TimePeriod) : Decidable (p.NextDay day sec) := inferInstanceAs (Decidable (_ ∧ _))

/-- The smaller of two times, if there is one already. -/
def sooner (best : Option ℤ) (o : ℤ) : ℤ := best.elim o (min o)

/-- A round with a period that is not running. -/
def intervalStep (best : Option ℤ) (p : TimePeriod) : Option ℤ :=
  if p.Later day sec then some (sooner best p.start)
  else if p.NextDay day sec then
    -- compared without the day
    if best.all fun b => p.start < b then some (86400 + p.start) else best
  else best

/-- The loop, which ends at a period that is running. -/
def intervalLoop : (best : Option ℤ) → List TimePeriod → Option ℤ
  | best, [] => best
  | best, p :: ps =>
      if p.Inside day sec then some (sooner best p.stop) else intervalLoop (intervalStep day sec best p) ps

/-- What the loop takes of one period. -/
def TimePeriod.taken (p : TimePeriod) : Option ℤ :=
  if p.Inside day sec then some p.stop
  else if p.Later day sec then some p.start
  else if p.NextDay day sec then some (86400 + p.start)
  else none

variable {sec} in
/-- What a round leaves is not before now. -/
theorem le_of_intervalStep {best : Option ℤ} {p : TimePeriod} (hp : p.WellFormed) (hsec : sec ≤ 86400)
    (hbest : ∀ b ∈ best, sec ≤ b) : ∀ b ∈ intervalStep day sec best p, sec ≤ b := by
  obtain ⟨hhour, -, hmin, -⟩ := hp.from_hour
  have hstart : 0 ≤ p.start := by
    rw [TimePeriod.start]
    omega
  rw [intervalStep]
  split
  · next hlater =>
      obtain ⟨-, -, hlt⟩ := hlater
      cases best with
      | none => simpa [sooner] using hlt.le
      | some b => simpa [sooner] using ⟨hlt.le, hbest b rfl⟩
  · split
    · split
      · simp only [Option.mem_def, Option.some.injEq, forall_eq']
        omega
      · exact hbest
    · exact hbest

variable {sec} in
/-- What the loop leaves is not before now. -/
theorem le_of_intervalLoop {ps : List TimePeriod} (hsec : sec ≤ 86400) (hps : ∀ p ∈ ps, p.WellFormed) {best : Option ℤ}
    (hbest : ∀ b ∈ best, sec ≤ b) : ∀ b ∈ intervalLoop day sec best ps, sec ≤ b := by
  induction ps generalizing best with
  | nil => exact hbest
  | cons p ps ih =>
      rw [intervalLoop]
      split
      · next hinside =>
          obtain ⟨-, -, -, hle⟩ := hinside
          cases best with
          | none => simpa [sooner] using hle
          | some b => simpa [sooner] using ⟨hle, hbest b rfl⟩
      · exact ih (fun q hq => hps q (List.mem_cons_of_mem _ hq))
          (le_of_intervalStep day (hps p (List.mem_cons_self ..)) hsec hbest)

theorem intervalLoop_singleton (p : TimePeriod) : intervalLoop day sec none [p] = p.taken day sec := by
  simp only [intervalLoop, intervalStep, TimePeriod.taken, sooner]
  split_ifs <;> simp_all

end

/-- `next`, which is 0 as long as there is none. -/
def nextOf (midnight : ℤ) (best : Option ℤ) : ℤ := best.elim 0 (midnight + ·)

section

variable {day sec now : ℤ} (hnow : 0 < now)

include hnow

/-- A time from now on is not 0. -/
theorem nextOf_ne_zero {b : ℤ} (hb : sec ≤ b) : nextOf (now - sec) (some b) ≠ 0 := by
  simp only [nextOf, Option.elim_some]
  omega

/-- The comparison with `next`. -/
theorem lt_nextOf {best : Option ℤ} {o : ℤ} (hbest : ∀ b ∈ best, sec ≤ b) :
    (nextOf (now - sec) best = 0 ∨ now - sec + o < nextOf (now - sec) best) ↔ best.all fun b => o < b := by
  cases best with
  | none => simp [nextOf]
  | some b =>
      have hne := @nextOf_ne_zero sec now hnow b (hbest b rfl)
      simp only [nextOf, Option.elim_some] at hne
      simp [nextOf, hne]

/-- The smaller of the two is taken. -/
theorem nextOf_sooner {best : Option ℤ} {o : ℤ} (hbest : ∀ b ∈ best, sec ≤ b) :
    (if nextOf (now - sec) best = 0 ∨ now - sec + o < nextOf (now - sec) best then now - sec + o
      else nextOf (now - sec) best) = nextOf (now - sec) (some (sooner best o)) := by
  simp only [lt_nextOf hnow hbest]
  cases best with
  | none => rfl
  | some b =>
      simp only [Option.all_some, decide_eq_true_eq, nextOf, Option.elim_some, sooner]
      split <;> omega

omit hnow in
/-- One round over the texts. -/
theorem nextInterval_cons (e : FlexInterval) (next : ℤ) (texts : List (List UInt8)) :
    nextInterval day sec now next (e.text :: texts) =
      if e.period.Inside day sec then
        some (if next = 0 ∨ now - sec + e.period.stop < next then now - sec + e.period.stop else next)
      else if e.period.Later day sec then
        nextInterval day sec now
          (if next = 0 ∨ now - sec + e.period.start < next then now - sec + e.period.start else next) texts
      else if e.period.NextDay day sec then
        nextInterval day sec now
          (if next = 0 ∨ now - sec + e.period.start < next then now - sec + 86400 + e.period.start else next) texts
      else nextInterval day sec now next texts := by
  simp only [nextInterval, e.scan, secondOf_start e.wellFormed, secondOf_stop e.wellFormed, Option.bind_eq_bind,
    Option.bind_some]
  rfl

/-- The loop over the texts. -/
theorem nextInterval_eq (intervals : List FlexInterval) {best : Option ℤ} (hsec : sec ≤ 86400)
    (hbest : ∀ b ∈ best, sec ≤ b) :
    nextInterval day sec now (nextOf (now - sec) best) (intervals.map (·.text)) =
      some (nextOf (now - sec) (intervalLoop day sec best (intervals.map (·.period)))) := by
  induction intervals generalizing best with
  | nil => rfl
  | cons e intervals ih =>
      have hstep := ih (le_of_intervalStep day e.wellFormed hsec hbest)
      rw [List.map_cons, List.map_cons, nextInterval_cons, intervalLoop]
      by_cases hinside : e.period.Inside day sec
      · rw [if_pos hinside, if_pos hinside, nextOf_sooner hnow hbest]
      · rw [if_neg hinside, if_neg hinside, ← hstep, intervalStep]
        by_cases hlater : e.period.Later day sec
        · rw [if_pos hlater, if_pos hlater, nextOf_sooner hnow hbest]
        · rw [if_neg hlater, if_neg hlater]
          by_cases hday : e.period.NextDay day sec
          · rw [if_pos hday, if_pos hday]
            simp only [lt_nextOf hnow hbest]
            split
            · simp only [nextOf, Option.elim_some]
              congr 1
              omega
            · rfl
          · rw [if_neg hday, if_neg hday]

end

/-- The second of the day, with one that leaps. -/
theorem Tm.second_le (tm : Tm) : tm.second ≤ 86400 := by
  have hhour := tm.hour.isLt
  have hmin := tm.min.isLt
  have hsec := tm.sec.isLt
  rw [Tm.second]
  omega

theorem Tm.one_le_day (tm : Tm) : 1 ≤ tm.day := by
  rw [Tm.day]
  split
  · decide
  · next h =>
      have hpos := Fin.pos_iff_ne_zero.mpr h
      omega

theorem Tm.day_le (tm : Tm) : tm.day ≤ 7 := by
  have hday := tm.wday.isLt
  rw [Tm.day]
  split <;> omega

/-- **The loop** over a list of intervals. -/
theorem getNextFlexibleInterval_join (cal : Calendar) (intervals : List FlexInterval) {now : ℤ} (hnow : 0 < now) :
    getNextFlexibleInterval cal (joinIntervals intervals) now =
      some ((intervalLoop (cal.localtime now).day (cal.localtime now).second none
        (intervals.map (·.period))).elim fail (now - (cal.localtime now).second + ·)) := by
  have hsec := (cal.localtime now).second_le
  cases intervals with
  | nil => rfl
  | cons e intervals =>
      have hne : joinIntervals (e :: intervals) ≠ [] := by
        intro h
        have htexts := periodTexts_joinIntervals (e :: intervals)
        rw [h] at htexts
        cases htexts
      have hwell : ∀ p ∈ (e :: intervals).map (·.period), p.WellFormed := by
        intro p hp
        obtain ⟨f, -, rfl⟩ := List.mem_map.mp hp
        exact f.wellFormed
      have hloop := @nextInterval_eq (cal.localtime now).day _ now hnow (e :: intervals) none hsec fun b hb => nomatch hb
      have hbounds := @le_of_intervalLoop (cal.localtime now).day _ _ hsec hwell none fun b hb => nomatch hb
      rw [getNextFlexibleInterval, if_neg hne, periodTexts_joinIntervals]
      refine (congrArg (Option.bind · _) hloop).trans ?_
      generalize intervalLoop _ _ none _ = best at hbounds
      cases best with
      | none => rfl
      | some b =>
          have hb := nextOf_ne_zero hnow (hbounds b rfl)
          exact congrArg some (if_pos hb)

/-! ## Where an interval starts or ends next -/

/-- When a period starts or ends next, today or on the following day. -/
def TimePeriod.nextBoundary (p : TimePeriod) (day sec : ℤ) : Option ℤ :=
  if p.Inside day sec then some p.stop
  else if p.Later day sec then some p.start
  -- Monday follows Sunday
  else if p.d1 ≤ day % 7 + 1 ∧ day % 7 + 1 ≤ p.d2 then some (86400 + p.start)
  else none

/-- The start on the following day is overlooked. -/
def TimePeriod.Missed (p : TimePeriod) (day sec : ℤ) : Prop :=
  ¬p.Inside day sec ∧ ¬p.Later day sec ∧ (p.d1 ≤ day % 7 + 1 ∧ day % 7 + 1 ≤ p.d2) ∧ (day = 7 ∨ p.start ≤ sec)

instance (p : TimePeriod) (day sec : ℤ) : Decidable (p.Missed day sec) := inferInstanceAs (Decidable (_ ∧ _))

/-- The following day as the loop sees it. -/
theorem nextDay_iff {p : TimePeriod} (hp : p.WellFormed) {day : ℤ} (hlo : 1 ≤ day) (hhi : day ≤ 7) (sec : ℤ) :
    p.NextDay day sec ↔ (p.d1 ≤ day % 7 + 1 ∧ day % 7 + 1 ≤ p.d2) ∧ ¬(day = 7 ∨ p.start ≤ sec) := by
  obtain ⟨h1, -, h7⟩ := hp.days
  rw [TimePeriod.NextDay]
  omega

/-- A period is taken at its next boundary, but when this is overlooked. -/
theorem taken_eq_nextBoundary_iff {p : TimePeriod} (hp : p.WellFormed) {day sec : ℤ} (hlo : 1 ≤ day) (hhi : day ≤ 7) :
    p.taken day sec = p.nextBoundary day sec ↔ ¬p.Missed day sec := by
  have hday := nextDay_iff hp hlo hhi sec
  rw [TimePeriod.taken, TimePeriod.nextBoundary, TimePeriod.Missed]
  by_cases hinside : p.Inside day sec
  · simp [hinside]
  by_cases hlater : p.Later day sec
  · simp [hlater]
  by_cases hfollowing : p.d1 ≤ day % 7 + 1 ∧ day % 7 + 1 ≤ p.d2
  · by_cases hmissed : day = 7 ∨ p.start ≤ sec
    · simp [hinside, hlater, hday, hfollowing, hmissed]
    · simp [hinside, hlater, hday, hfollowing, hmissed]
  · have hnot : ¬p.NextDay day sec := fun h => hfollowing (hday.mp h).1
    rw [if_neg hinside, if_neg hinside, if_neg hlater, if_neg hlater, if_neg hnot, if_neg hfollowing]
    exact iff_of_true rfl fun h => hfollowing h.2.2.1

/-! ## Which boundary is left -/

/-- An interval of the following day takes the place of a boundary that is not its own. -/
def TimePeriod.Displaces (p : TimePeriod) (day sec boundary : ℤ) : Prop :=
  p.nextBoundary day sec = some (86400 + p.start) ∧ p.start < boundary ∧ boundary ≠ 86400 + p.start

instance (p : TimePeriod) (day sec m : ℤ) : Decidable (p.Displaces day sec m) := inferInstanceAs (Decidable (_ ∧ _))

/-- What comes up to the first period that is running. -/
def untilInside (day sec : ℤ) (ps : List TimePeriod) : List TimePeriod :=
  ps.takeWhile fun p => ¬p.Inside day sec

/-- The loop comes to a period with this boundary, and none of those that it comes to later
takes its place. -/
def Prevails (day sec boundary : ℤ) (ps : List TimePeriod) : Prop :=
  ∃ before p behind, ps = before ++ p :: behind ∧ (∀ q ∈ before, ¬q.Inside day sec) ∧
    p.nextBoundary day sec = some boundary ∧
    (p.Inside day sec ∨ ∀ q ∈ untilInside day sec behind, ¬q.Displaces day sec boundary)

theorem prevails_cons {day sec m : ℤ} {p : TimePeriod} {ps : List TimePeriod} :
    Prevails day sec m (p :: ps) ↔
      (p.nextBoundary day sec = some m ∧
        (p.Inside day sec ∨ ∀ q ∈ untilInside day sec ps, ¬q.Displaces day sec m)) ∨
      (¬p.Inside day sec ∧ Prevails day sec m ps) := by
  constructor
  · rintro ⟨before, q, behind, heq, hbefore, hq⟩
    cases before with
    | nil =>
        obtain ⟨rfl, rfl⟩ := List.cons.inj heq
        exact .inl hq
    | cons r before =>
        obtain ⟨rfl, rfl⟩ := List.cons.inj heq
        exact .inr ⟨hbefore _ (List.mem_cons_self ..), before, q, behind, rfl,
          fun f hf => hbefore f (List.mem_cons_of_mem _ hf), hq⟩
  · rintro (hp | ⟨hp, before, q, behind, rfl, hbefore, hq⟩)
    · exact ⟨[], p, ps, rfl, fun f hf => (List.not_mem_nil hf).elim, hp⟩
    · refine ⟨p :: before, q, behind, rfl, fun f hf => ?_, hq⟩
      rcases List.mem_cons.mp hf with rfl | hf
      · exact hp
      · exact hbefore f hf

/-- The smaller of two times that are not before `m`. -/
theorem sooner_eq_iff {m o : ℤ} {best : Option ℤ} (hbest : ∀ b ∈ best, m ≤ b) (ho : m ≤ o) :
    sooner best o = m ↔ o = m ∨ best = some m := by
  cases best with
  | none => simp [sooner]
  | some b =>
      have hb := hbest b rfl
      simp only [sooner, Option.elim_some, Option.some.injEq]
      omega

/-- A round leaves the boundary of the period, or the one that there is if this is not displaced. -/
theorem intervalStep_eq_iff {day sec m : ℤ} {best : Option ℤ} {p : TimePeriod} (hp : ¬p.Inside day sec)
    (htaken : p.taken day sec = p.nextBoundary day sec) (hbest : ∀ b ∈ best, m ≤ b)
    (hmin : ∀ o ∈ p.nextBoundary day sec, m ≤ o) :
    intervalStep day sec best p = some m ↔
      p.nextBoundary day sec = some m ∨ (best = some m ∧ ¬p.Displaces day sec m) := by
  rw [TimePeriod.Displaces]
  rw [← htaken] at hmin ⊢
  rw [TimePeriod.taken, if_neg hp] at hmin ⊢
  rw [intervalStep]
  by_cases hlater : p.Later day sec
  · rw [if_pos hlater] at hmin
    have hstart : m ≤ p.start := hmin _ rfl
    have hne : ¬p.start = 86400 + p.start := by omega
    simp [if_pos hlater, sooner_eq_iff hbest hstart, hne]
  · rw [if_neg hlater] at hmin
    rw [if_neg hlater, if_neg hlater]
    by_cases hday : p.NextDay day sec
    · rw [if_pos hday] at hmin
      have hstart : m ≤ 86400 + p.start := hmin _ rfl
      rw [if_pos hday, if_pos hday]
      cases best with
      | none => simp
      | some b =>
          have hb := hbest b rfl
          by_cases hlt : p.start < b
          · simp [hlt]
            omega
          · simp [hlt]
            omega
    · simp [if_neg hday]

/-- A round leaves nothing that comes before the others. -/
theorem le_of_mem_intervalStep {day sec m : ℤ} {best : Option ℤ} {p : TimePeriod} (hp : ¬p.Inside day sec)
    (htaken : p.taken day sec = p.nextBoundary day sec) (hbest : ∀ b ∈ best, m ≤ b)
    (hmin : ∀ o ∈ p.nextBoundary day sec, m ≤ o) : ∀ b ∈ intervalStep day sec best p, m ≤ b := by
  rw [← htaken, TimePeriod.taken, if_neg hp] at hmin
  rw [intervalStep]
  split
  · next hlater =>
      rw [if_pos hlater] at hmin
      have hstart := hmin _ rfl
      cases best with
      | none => simpa [sooner] using hstart
      | some b => simpa [sooner] using ⟨hstart, hbest b rfl⟩
  · next hlater =>
      rw [if_neg hlater] at hmin
      split
      · next hday =>
          rw [if_pos hday] at hmin
          split
          · exact hmin
          · exact hbest
      · exact hbest

/-- **Which boundary the loop leaves**, if it is not after any of the others. -/
theorem intervalLoop_eq_iff {day sec m : ℤ} {ps : List TimePeriod} {best : Option ℤ}
    (htaken : ∀ p ∈ ps, p.taken day sec = p.nextBoundary day sec) (hbest : ∀ b ∈ best, m ≤ b)
    (hmin : ∀ p ∈ ps, ∀ o ∈ p.nextBoundary day sec, m ≤ o) :
    intervalLoop day sec best ps = some m ↔
      (best = some m ∧ ∀ q ∈ untilInside day sec ps, ¬q.Displaces day sec m) ∨ Prevails day sec m ps := by
  induction ps generalizing best with
  | nil => simp [intervalLoop, untilInside, Prevails]
  | cons p ps ih =>
      have hp := htaken p (List.mem_cons_self ..)
      have hpmin := hmin p (List.mem_cons_self ..)
      rw [intervalLoop, prevails_cons]
      by_cases hinside : p.Inside day sec
      · have hboundary : p.nextBoundary day sec = some p.stop := if_pos hinside
        have hstop : m ≤ p.stop := hpmin _ hboundary
        have hnone : untilInside day sec (p :: ps) = [] := by simp [untilInside, hinside]
        simp [sooner_eq_iff hbest hstop, hboundary, hnone, hinside, or_comm]
      · have hsome : untilInside day sec (p :: ps) = p :: untilInside day sec ps := by simp [untilInside, hinside]
        have hstep := @intervalStep_eq_iff _ _ _ best _ hinside hp hbest hpmin
        have hstepMin := le_of_mem_intervalStep hinside hp hbest hpmin
        rw [if_neg hinside, ih (fun q hq => htaken q (List.mem_cons_of_mem _ hq)) hstepMin
          (fun q hq => hmin q (List.mem_cons_of_mem _ hq)), hstep, hsome, List.forall_mem_cons]
        tauto

/-- Without a boundary nothing is left. -/
theorem intervalLoop_eq_none {day sec : ℤ} {ps : List TimePeriod} (h : ∀ p ∈ ps, p.taken day sec = none) :
    intervalLoop day sec none ps = none := by
  induction ps with
  | nil => rfl
  | cons p ps ih =>
      have hp := h p (List.mem_cons_self ..)
      rw [TimePeriod.taken] at hp
      split_ifs at hp with hinside hlater hday
      rw [intervalLoop, if_neg hinside, intervalStep, if_neg hlater, if_neg hday]
      exact ih fun q hq => h q (List.mem_cons_of_mem _ hq)

/-! ## The first of them -/

/-- The least of the times that are not `FAIL`, and `FAIL` if there is none. -/
def soonest (times : List ℤ) : ℤ := (times.filter (· ≠ fail)).min?.getD fail

theorem soonest_eq_fail {times : List ℤ} (h : ∀ t ∈ times, t = fail) : soonest times = fail := by
  have hnone : times.filter (· ≠ fail) = [] := List.filter_eq_nil_iff.mpr fun t ht => by simp [h t ht]
  rw [soonest, hnone]
  rfl

theorem soonest_eq {times : List ℤ} {t : ℤ} (hmem : t ∈ times) (hne : t ≠ fail)
    (hle : ∀ u ∈ times, u ≠ fail → t ≤ u) : soonest times = t := by
  have hmin : (times.filter (· ≠ fail)).min? = some t := by
    rw [List.min?_eq_some_iff]
    refine ⟨List.mem_filter.mpr ⟨hmem, by simpa using hne⟩, fun u hu => ?_⟩
    obtain ⟨hu, hufail⟩ := List.mem_filter.mp hu
    exact hle u hu (by simpa using hufail)
  rw [soonest, hmin]
  rfl

/-- When an interval starts or ends next, or `FAIL`. -/
def FlexInterval.nextTime (e : FlexInterval) (tm : Tm) (now : ℤ) : ℤ :=
  (e.period.nextBoundary tm.day tm.second).elim fail (now - tm.second + ·)

/-- One interval has the first boundary of all. -/
theorem exists_least_boundary {day sec : ℤ} {ps : List TimePeriod} {p : TimePeriod} {o : ℤ} (hp : p ∈ ps)
    (ho : p.nextBoundary day sec = some o) :
    ∃ q ∈ ps, ∃ m, q.nextBoundary day sec = some m ∧ ∀ r ∈ ps, ∀ u ∈ r.nextBoundary day sec, m ≤ u := by
  have hmem : o ∈ ps.filterMap fun q => q.nextBoundary day sec := List.mem_filterMap.mpr ⟨p, hp, ho⟩
  obtain ⟨m, hm⟩ := Option.ne_none_iff_exists'.mp
    (mt List.min?_eq_none_iff.mp (List.ne_nil_of_mem hmem))
  obtain ⟨hmMem, hmLe⟩ := List.min?_eq_some_iff.mp hm
  obtain ⟨q, hq, hqm⟩ := List.mem_filterMap.mp hmMem
  exact ⟨q, hq, m, hqm, fun r hr u hu => hmLe u (List.mem_filterMap.mpr ⟨r, hr, hu⟩)⟩

/-- A boundary is not before now. -/
theorem le_of_mem_nextBoundary {p : TimePeriod} (hp : p.WellFormed) {day sec o : ℤ} (hsec : sec ≤ 86400)
    (ho : o ∈ p.nextBoundary day sec) : sec ≤ o := by
  obtain ⟨hhour, -, hmin, -⟩ := hp.from_hour
  have hstart : 0 ≤ p.start := by
    rw [TimePeriod.start]
    omega
  rw [TimePeriod.nextBoundary] at ho
  split_ifs at ho with hinside hlater
  · cases ho
    exact hinside.2.2.2
  · cases ho
    exact hlater.2.2.le
  · cases ho
    omega
  · cases ho

/-- Times that are not before now are told apart, and from `FAIL`. -/
theorem elim_fail_inj {sec now : ℤ} (hnow : 0 < now) {a b : Option ℤ} (ha : ∀ o ∈ a, sec ≤ o) (hb : ∀ o ∈ b, sec ≤ o) :
    a.elim fail (now - sec + ·) = b.elim fail (now - sec + ·) ↔ a = b := by
  cases a with
  | none =>
      cases b with
      | none => simp
      | some y =>
          have hy := hb y rfl
          simp only [Option.elim_none, Option.elim_some, fail, reduceCtorEq, iff_false]
          omega
  | some x =>
      have hx := ha x rfl
      cases b with
      | none =>
          simp only [Option.elim_none, Option.elim_some, fail, reduceCtorEq, iff_false]
          omega
      | some y => simp

/-- An interval alone is taken at its next start or end, but when this is overlooked. -/
theorem getNextFlexibleInterval_text_iff (cal : Calendar) (e : FlexInterval) {now : ℤ} (hnow : 0 < now) :
    getNextFlexibleInterval cal e.text now = some (e.nextTime (cal.localtime now) now) ↔
      ¬e.period.Missed (cal.localtime now).day (cal.localtime now).second := by
  have hsec := (cal.localtime now).second_le
  have hjoin := getNextFlexibleInterval_join cal [e] hnow
  have htext : joinIntervals [e] = e.text := by simp [joinIntervals]
  have hwell : ∀ p ∈ [e.period], p.WellFormed := by simpa using e.wellFormed
  have htaken := @le_of_intervalLoop (cal.localtime now).day _ _ hsec hwell none fun b hb => nomatch hb
  rw [htext, List.map_singleton, intervalLoop_singleton] at hjoin
  rw [intervalLoop_singleton] at htaken
  rw [hjoin, Option.some.injEq, FlexInterval.nextTime,
    elim_fail_inj hnow htaken fun o ho => le_of_mem_nextBoundary e.wellFormed hsec ho]
  exact taken_eq_nextBoundary_iff e.wellFormed (cal.localtime now).one_le_day (cal.localtime now).day_le

/-- The values one after the other. -/
theorem mapM_eq_some_map {α β : Type} {f : α → Option β} {g : α → β} {l : List α} (h : ∀ a ∈ l, f a = some (g a)) :
    l.mapM f = some (l.map g) := by
  induction l with
  | nil => rfl
  | cons a l ih => simp [List.mapM_cons, h a (List.mem_cons_self ..), ih fun b hb => h b (List.mem_cons_of_mem _ hb)]

/-- The loop leaves the first boundary, if there is one, when it prevails. -/
theorem intervalLoop_eq_soonest_iff {day sec now : ℤ} {ps : List TimePeriod} (hnow : 0 < now) (hsec : sec ≤ 86400)
    (hwell : ∀ p ∈ ps, p.WellFormed) (htaken : ∀ p ∈ ps, p.taken day sec = p.nextBoundary day sec) :
    (intervalLoop day sec none ps).elim fail (now - sec + ·) =
        soonest (ps.map fun p => (p.nextBoundary day sec).elim fail (now - sec + ·)) ↔
      (∀ p ∈ ps, p.nextBoundary day sec = none) ∨
        ∃ boundary, (∀ p ∈ ps, ∀ o ∈ p.nextBoundary day sec, boundary ≤ o) ∧ Prevails day sec boundary ps := by
  by_cases hall : ∀ p ∈ ps, p.nextBoundary day sec = none
  · have hloop := intervalLoop_eq_none fun p hp => (htaken p hp).trans (hall p hp)
    have hfail : ∀ t ∈ ps.map fun p => (p.nextBoundary day sec).elim fail (now - sec + ·), t = fail := by
      intro t ht
      obtain ⟨p, hp, rfl⟩ := List.mem_map.mp ht
      rw [hall p hp]
      rfl
    rw [hloop, soonest_eq_fail hfail]
    exact iff_of_true rfl (.inl hall)
  · simp only [not_forall] at hall
    obtain ⟨p, hp, hsome⟩ := hall
    obtain ⟨o, ho⟩ := Option.ne_none_iff_exists'.mp hsome
    obtain ⟨q, hq, m, hqm, hleast⟩ := exists_least_boundary hp ho
    have hm : sec ≤ m := le_of_mem_nextBoundary (hwell q hq) hsec hqm
    have hsoonest : soonest (ps.map fun p => (p.nextBoundary day sec).elim fail (now - sec + ·)) = now - sec + m := by
      refine soonest_eq (List.mem_map.mpr ⟨q, hq, by rw [hqm]; rfl⟩) (by rw [fail]; omega) fun u hu hfail => ?_
      obtain ⟨r, hr, rfl⟩ := List.mem_map.mp hu
      cases hboundary : r.nextBoundary day sec with
      | none =>
          rw [hboundary] at hfail
          exact absurd rfl hfail
      | some x => exact Int.add_le_add_left (hleast r hr x hboundary) _
    have hbounds := @le_of_intervalLoop day _ _ hsec hwell none fun b hb => nomatch hb
    have hloop := @intervalLoop_eq_iff day sec m ps none htaken (fun b hb => nomatch hb) hleast
    have hinj := elim_fail_inj hnow hbounds (b := some m) fun o ho => by cases ho; exact hm
    rw [Option.elim_some] at hinj
    rw [hsoonest, hinj, hloop]
    constructor
    · rintro (⟨hnone, -⟩ | hprevails)
      · cases hnone
      · exact .inr ⟨m, hleast, hprevails⟩
    · rintro (hnone | ⟨m', hleast', hprevails⟩)
      · rw [hnone q hq] at hqm
        cases hqm
      · have hprevails' := hprevails
        obtain ⟨before, r, behind, heq, -, hr, -⟩ := hprevails'
        have hle := hleast r (by rw [heq]; simp) m' hr
        have hle' := hleast' q hq m hqm
        obtain rfl : m = m' := by omega
        exact .inr hprevails

/-- **The next flexible interval**: the first of what is yielded for each of the intervals,
which is where this starts or ends next, if no start on the following day is overlooked and the
first boundary prevails. -/
theorem getNextFlexibleInterval_iff (cal : Calendar) (intervals : List FlexInterval) (now : ℤ) (hnow : 0 < now) :
    (getNextFlexibleInterval cal (joinIntervals intervals) now =
        (intervals.mapM fun e => getNextFlexibleInterval cal e.text now).map soonest ∧
      ∀ e ∈ intervals, getNextFlexibleInterval cal e.text now = some (e.nextTime (cal.localtime now) now)) ↔
      let day := (cal.localtime now).day
      let sec := (cal.localtime now).second
      let periods := intervals.map (·.period)
      (∀ p ∈ periods, ¬p.Missed day sec) ∧
        ((∀ p ∈ periods, p.nextBoundary day sec = none) ∨
          ∃ boundary, (∀ p ∈ periods, ∀ o ∈ p.nextBoundary day sec, boundary ≤ o) ∧
            Prevails day sec boundary periods) := by
  dsimp only
  have hseen : (∀ e ∈ intervals, getNextFlexibleInterval cal e.text now = some (e.nextTime (cal.localtime now) now)) ↔
      ∀ p ∈ intervals.map (·.period), ¬p.Missed (cal.localtime now).day (cal.localtime now).second := by
    simp only [getNextFlexibleInterval_text_iff cal _ hnow, List.forall_mem_map]
  rw [← hseen, and_comm]
  refine and_congr_right fun halone => ?_
  have hwell : ∀ p ∈ intervals.map (·.period), p.WellFormed := List.forall_mem_map.mpr fun e _ => e.wellFormed
  have htaken : ∀ p ∈ intervals.map (·.period),
      p.taken (cal.localtime now).day (cal.localtime now).second =
        p.nextBoundary (cal.localtime now).day (cal.localtime now).second := fun p hp =>
    (taken_eq_nextBoundary_iff (hwell p hp) (cal.localtime now).one_le_day (cal.localtime now).day_le).mpr
      (hseen.mp halone p hp)
  have htimes : intervals.map (fun e => e.nextTime (cal.localtime now) now) =
      (intervals.map (·.period)).map fun p => (p.nextBoundary (cal.localtime now).day (cal.localtime now).second).elim
        fail (now - (cal.localtime now).second + ·) := by
    rw [List.map_map]
    rfl
  rw [getNextFlexibleInterval_join cal intervals hnow, mapM_eq_some_map halone, Option.map_some, Option.some.injEq, htimes]
  exact intervalLoop_eq_soonest_iff hnow (cal.localtime now).second_le hwell htaken

/-- The last hour of each day. -/
def lastHour : FlexInterval where
  text := bytes "60/1-7,23:00-24:00"
  delay := 60
  period := ⟨1, 7, 23, 0, 24, 0⟩
  semicolon_not_mem := by decide
  scan := by decide
  wellFormed := ⟨by decide, by decide, by decide, by decide, by decide⟩

/-- Half an hour on the evenings of working days. -/
def halfHour : FlexInterval where
  text := bytes "30/1-5,22:00-22:30"
  delay := 30
  period := ⟨1, 5, 22, 0, 22, 30⟩
  semicolon_not_mem := by decide
  scan := by decide
  wellFormed := ⟨by decide, by decide, by decide, by decide, by decide⟩

theorem getNextFlexibleInterval_tuesday :
    getNextFlexibleInterval universal (joinIntervals [lastHour, halfHour]) 1700000000 =
        ([lastHour, halfHour].mapM fun e => getNextFlexibleInterval universal e.text 1700000000).map soonest ∧
      ∀ e ∈ [lastHour, halfHour], getNextFlexibleInterval universal e.text 1700000000 =
        some (e.nextTime (universal.localtime 1700000000) 1700000000) :=
  (getNextFlexibleInterval_iff universal [lastHour, halfHour] 1700000000 (by decide)).mpr
    ⟨by decide, .inr ⟨81000, by decide, [lastHour.period], halfHour.period, [], rfl, by decide, by decide,
      .inl (by decide)⟩⟩

/-- On a Tuesday at 22:13:20, with an interval that is running: the one that begins at 23:00
is overlooked behind it, and is found in front of it. -/
theorem getNextFlexibleInterval_overlooked :
    getNextFlexibleInterval universal (bytes "60/1-7,00:00-24:00;30/1-7,23:00-23:30") 1700000000 = some 1700006400 ∧
      getNextFlexibleInterval universal (bytes "30/1-7,23:00-23:30;60/1-7,00:00-24:00") 1700000000 = some 1700002800 ∧
      getNextFlexibleInterval universal (bytes "60/1-7,00:00-24:00") 1700000000 = some 1700006400 ∧
      getNextFlexibleInterval universal (bytes "30/1-7,23:00-23:30") 1700000000 = some 1700002800 := by
  decide

end Zabbix
