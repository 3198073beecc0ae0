import Zabbix.Discovery.Discoverer

/-!
# Zabbix.Discovery.Edges

What is shown of a discovered object, a host or a service, and how a result
changes it.

An object goes up and down.  Its row has the time of the last change, in `lastup`
or in `lastdown`, where zero is no time; and its events are one for each result,
with one for the change in front of it.

* `Shown.next` — what `register_host` or `register_service` and then
  `update_host_status` or `update_service_status` do to one object;
* `Traced` — what is to be shown after some results;
* `traced_foldl` — that is what is shown.
-/

namespace Zabbix

/-- What a row of an object and its events show, the last event first. -/
structure Shown where
  status : ℤ
  lastup : ℤ
  lastdown : ℤ
  events : List ℤ
deriving DecidableEq

/-- A result for an object, and its time. -/
structure EdgeResult where
  up : Bool
  now : ℤ
deriving DecidableEq

/-- The status of a result. -/
def dobjectStatus (up : Bool) : ℤ := if up then dobjectStatusUp else dobjectStatusDown

/-- The event of a change. -/
def edgeValue (up : Bool) : ℤ := if up then dobjectStatusDiscover else dobjectStatusLost

/-! ## a result -/

namespace Shown

/-- `update_host_status` and `update_service_status`, of the row and the events. -/
def update (v : Shown) (r : EdgeResult) : Shown :=
  if r.up then
    if v.status = dobjectStatusDown ∨ v.lastup = 0 then
      ⟨dobjectStatusUp, r.now, 0, dobjectStatusUp :: dobjectStatusDiscover :: v.events⟩
    else { v with events := dobjectStatusUp :: v.events }
  else if v.status = dobjectStatusUp ∨ v.lastdown = 0 then
    ⟨dobjectStatusDown, 0, r.now, dobjectStatusDown :: dobjectStatusLost :: v.events⟩
  else { v with events := dobjectStatusDown :: v.events }

/-- An object that is registered, in front of its first update. -/
def registered : Shown := ⟨dobjectStatusDown, 0, 0, []⟩

/-- A result for an object that may have no row yet. -/
def next : Option Shown → EdgeResult → Option Shown
  | some v, r => some (v.update r)
  | none, r => if r.up then some (registered.update r) else none

/-- An object that went up or down at some time. -/
def since (up : Bool) (time : ℤ) (events : List ℤ) : Shown :=
  ⟨dobjectStatus up, if up then time else 0, if up then 0 else time, events⟩

end Shown

/-! ## what is to be shown -/

/-- The events of results behind a result, which was `up` or not. -/
def eventsBehind (up : Bool) : List EdgeResult → List ℤ
  | [] => []
  | r :: rs => (if r.up = up then [] else [edgeValue r.up]) ++ dobjectStatus r.up :: eventsBehind r.up rs

/-- The time of the last change, which was `time` in front of the results. -/
def lastChange (up : Bool) (time : ℤ) : List EdgeResult → ℤ
  | [] => time
  | r :: rs => lastChange r.up (if r.up = up then time else r.now) rs

/-- The last result, which was `up` in front of the results. -/
def lastUp (up : Bool) : List EdgeResult → Bool
  | [] => up
  | r :: rs => lastUp r.up rs

/-- The events of changes. -/
def edges (events : List ℤ) : List ℤ :=
  events.filter fun value => value = dobjectStatusDiscover ∨ value = dobjectStatusLost

/-- The object is shown as it was left by the results since its registration, the
first of which was up. -/
structure Shown.Follows (v : Shown) (results : List EdgeResult) : Prop where
  events : v.events.reverse = eventsBehind false results
  alternate : (edges v.events.reverse).IsChain (· ≠ ·)
  discovered : (edges v.events.reverse).head? = some dobjectStatusDiscover
  status : v.status = dobjectStatus (lastUp false results)
  changed : if lastUp false results then v.lastup = lastChange false 0 results ∧ v.lastup ≠ 0 ∧ v.lastdown = 0
    else v.lastdown = lastChange false 0 results ∧ v.lastdown ≠ 0 ∧ v.lastup = 0

/-- An object is shown exactly when it has been up, and then as it was left by the
results since then. -/
structure Traced (results : List EdgeResult) (v : Option Shown) : Prop where
  unknown : v = none ↔ ∀ r ∈ results, r.up = false
  follows : ∀ w, v = some w → w.Follows (results.dropWhile fun r => !r.up)

/-! ## some results -/

theorem Shown.update_since {up : Bool} {time : ℤ} (htime : time ≠ 0) (events : List ℤ) (r : EdgeResult) :
    (Shown.since up time events).update r =
      Shown.since r.up (if r.up = up then time else r.now)
        (dobjectStatus r.up :: ((if r.up = up then [] else [edgeValue r.up]) ++ events)) := by
  obtain ⟨rup, now⟩ := r
  cases up <;> cases rup <;>
    simp [Shown.update, Shown.since, dobjectStatus, edgeValue, dobjectStatusUp, dobjectStatusDown, htime]

theorem Shown.update_registered (now : ℤ) :
    Shown.registered.update ⟨true, now⟩ = Shown.since true now [dobjectStatusUp, dobjectStatusDiscover] := rfl

/-- The row and the events after some results. -/
theorem Shown.foldl_update {up : Bool} {time : ℤ} (htime : time ≠ 0) (events : List ℤ) {results : List EdgeResult}
    (hnow : ∀ r ∈ results, r.now ≠ 0) :
    results.foldl Shown.update (Shown.since up time events) =
      Shown.since (lastUp up results) (lastChange up time results) ((eventsBehind up results).reverse ++ events) := by
  induction results generalizing up time events with
  | nil => rfl
  | cons r rs ih =>
      obtain ⟨hr, hrs⟩ := List.forall_mem_cons.mp hnow
      have hchange : (if r.up = up then time else r.now) ≠ 0 := by
        split
        · exact htime
        · exact hr
      rw [List.foldl_cons, Shown.update_since htime, ih hchange _ hrs, lastUp, lastChange, eventsBehind]
      congr 1
      split <;> simp

theorem lastChange_ne_zero {up : Bool} {time : ℤ} (htime : time ≠ 0) {results : List EdgeResult}
    (hnow : ∀ r ∈ results, r.now ≠ 0) : lastChange up time results ≠ 0 := by
  induction results generalizing up time with
  | nil => exact htime
  | cons r rs ih =>
      obtain ⟨hr, hrs⟩ := List.forall_mem_cons.mp hnow
      refine ih ?_ hrs
      split
      · exact htime
      · exact hr

theorem foldl_next_some (v : Shown) (results : List EdgeResult) :
    results.foldl Shown.next (some v) = some (results.foldl Shown.update v) := by
  induction results generalizing v with
  | nil => rfl
  | cons r rs ih => exact ih (v.update r)

/-- Nothing is shown before the first result that is up. -/
theorem foldl_next_none (results : List EdgeResult) :
    results.foldl Shown.next none =
      (results.dropWhile fun r => !r.up).foldl Shown.next none := by
  induction results with
  | nil => rfl
  | cons r rs ih =>
      cases hup : r.up with
      | true => rw [List.dropWhile_cons_of_neg (by simp [hup])]
      | false => rw [List.dropWhile_cons_of_pos (by simp [hup]), List.foldl_cons, ← ih, Shown.next, if_neg (by simp [hup])]

/-! ## changes -/

@[simp] theorem edges_status (up : Bool) (es : List ℤ) : edges (dobjectStatus up :: es) = edges es := by
  cases up <;> rfl

@[simp] theorem edges_edgeValue (up : Bool) (es : List ℤ) : edges (edgeValue up :: es) = edgeValue up :: edges es := by
  cases up <;> rfl

/-- The changes behind a result are the other way and back, in turns. -/
theorem edges_eventsBehind (up : Bool) (results : List EdgeResult) :
    (edgeValue up :: edges (eventsBehind up results)).IsChain (· ≠ ·) := by
  induction results generalizing up with
  | nil => exact List.isChain_singleton _
  | cons r rs ih =>
      rw [eventsBehind]
      by_cases hsame : r.up = up
      · rw [if_pos hsame, List.nil_append, edges_status, ← hsame]
        exact ih r.up
      · rw [if_neg hsame, List.singleton_append, edges_edgeValue, edges_status, List.isChain_cons_cons]
        refine ⟨?_, ih r.up⟩
        cases hr : r.up <;> cases hup : up <;> simp_all [edgeValue, dobjectStatusDiscover, dobjectStatusLost]

/-- **What results leave**: an object that had no row has one exactly when it has
been up, with the events of its changes in turns and the time of the last one. -/
theorem traced_foldl {results : List EdgeResult} (hnow : ∀ r ∈ results, r.now ≠ 0) :
    Traced results (results.foldl Shown.next none) := by
  rw [foldl_next_none]
  cases hsince : results.dropWhile (fun r => !r.up) with
  | nil =>
      have hdown := List.dropWhile_eq_nil_iff.mp hsince
      refine ⟨⟨fun _ r hr => by simpa using hdown r hr, fun _ => rfl⟩, fun w hw => ?_⟩
      cases hw
  | cons r rs =>
      have hmem : ∀ x ∈ r :: rs, x ∈ results := fun x hx => List.dropWhile_sublist _ |>.mem (hsince ▸ hx)
      have hup : r.up = true := by
        have hhead := List.head?_dropWhile_not (fun r : EdgeResult => !r.up) results
        simpa [hsince] using hhead
      obtain ⟨now, rfl⟩ : ∃ now, r = ⟨true, now⟩ := ⟨r.now, by rw [← hup]⟩
      obtain ⟨htime, hrest⟩ := List.forall_mem_cons.mp fun x hx => hnow x (hmem x hx)
      have hshown : (⟨true, now⟩ :: rs).foldl Shown.next none = some (Shown.since (lastUp true rs) (lastChange true now rs)
          ((eventsBehind true rs).reverse ++ [dobjectStatusUp, dobjectStatusDiscover])) := by
        rw [← Shown.foldl_update htime _ hrest, ← Shown.update_registered]
        exact foldl_next_some _ rs
      refine ⟨⟨fun hnone => ?_, fun hdown => ?_⟩, fun w hw => ?_⟩
      · rw [hshown] at hnone
        cases hnone
      · exact absurd (hdown _ (hmem _ List.mem_cons_self)) (by simp)
      · obtain rfl := Option.some.inj (hshown.symm.trans hw)
        have hevents : ((eventsBehind true rs).reverse ++ [dobjectStatusUp, dobjectStatusDiscover]).reverse =
            eventsBehind false (⟨true, now⟩ :: rs) := by
          simp [eventsBehind, dobjectStatus, edgeValue]
        have hedges : edges (eventsBehind false (⟨true, now⟩ :: rs)) = edgeValue true :: edges (eventsBehind true rs) := by
          rw [eventsBehind, if_neg (by simp), List.singleton_append, edges_edgeValue, edges_status]
        have hchange := @lastChange_ne_zero true _ htime _ hrest
        rw [hsince]
        refine ⟨hevents, ?_, ?_, rfl, ?_⟩
        · rw [Shown.since, hevents, hedges]
          exact edges_eventsBehind true rs
        · rw [Shown.since, hevents, hedges]
          rfl
        · cases hlast : lastUp true rs <;> simp [lastUp, lastChange, Shown.since, hlast, hchange]

end Zabbix
