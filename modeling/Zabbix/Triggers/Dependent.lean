import Zabbix.Lib.Walk

/-!
# Zabbix.Triggers.Dependent

Triggers that depend on others (`libs/zbxdbhigh/db.c`).

`trigger_dependent_rec` counts its calls in a counter that all of them share, and
does not follow the dependencies of a trigger that comes later than the 32nd.
-/

namespace Zabbix

/-! ## the functions -/

/-- `TRIGGER_VALUE_TRUE` -/
def triggerValueTrue : ℤ := 1

/-- The columns of `triggers` that are looked at. -/
structure TriggerRow where
  triggerid : ℕ
  value : ℤ
deriving DecidableEq

/-- The table `trigger_depends`, a row being `triggerid_down` and `triggerid_up`,
and the table `triggers`. -/
structure TriggerDb where
  triggerDepends : List (ℕ × ℕ)
  triggers : List TriggerRow

/-- The select of `trigger_dependent_rec`. -/
def TriggerDb.dependencies (db : TriggerDb) (triggerid : ℕ) : List TriggerRow :=
  (db.triggerDepends.filter (·.1 = triggerid)).flatMap fun d => db.triggers.filter (·.triggerid = d.2)

/-- What a call comes to: `SUCCEED` or `FAIL`, with the counter; or the counter
leaves its `int`; or more calls are nested than were provided for. -/
inductive DependentResult
  | succeed (level : ℕ)
  | fail (level : ℕ)
  | overflow
  | deeper
deriving DecidableEq

/-- The loop over the rows. -/
def fetchDependencies (call : ℕ → ℕ → DependentResult) : List TriggerRow → ℕ → DependentResult
  | [], level => .fail level
  | row :: rows, level =>
      if row.value = triggerValueTrue then .succeed level
      else
        match call row.triggerid level with
        | .fail level => fetchDependencies call rows level
        | .succeed level => .succeed level
        | .overflow => .overflow
        | .deeper => .deeper

/-- `trigger_dependent_rec`, with up to `depth` calls nested. -/
def triggerDependentRec (db : TriggerDb) : (depth : ℕ) → (triggerid level : ℕ) → DependentResult
  | 0, _, _ => .deeper
  | depth + 1, triggerid, level =>
      if level = 2 ^ 31 - 1 then .overflow
      else if level + 1 > 32 then .fail (level + 1)
      else fetchDependencies (triggerDependentRec db depth) (db.dependencies triggerid) (level + 1)

/-- `trigger_dependent`: 33 calls are enough. -/
def triggerDependent (db : TriggerDb) (triggerid : ℕ) : DependentResult := triggerDependentRec db 33 triggerid 0

/-! ## what is met -/

/-- The triggers that are met, when the first `n` of them are followed. -/
def TriggerDb.met (db : TriggerDb) (n : ℕ) (rows : List TriggerRow) : List TriggerRow :=
  Walk.walk (fun row => db.dependencies row.triggerid) n rows

/-- How a call ends that goes along the triggers `met`, where `rest` is what comes
behind its own: it has counted `part`, and it has come to its end or has stopped at
the next one. -/
def TriggerDb.Ends (db : TriggerDb) (met rest : List TriggerRow) (level : ℕ) (part : List TriggerRow) :
    DependentResult → Prop
  | .fail level' => level' = level + part.length ∧ level' < 2 ^ 31 ∧ met = part ++ db.met (32 - level') rest
  | .succeed level' => level' = level + part.length ∧ level' < 2 ^ 31 ∧
      ∃ row more, row.value = triggerValueTrue ∧ met = part ++ row :: more
  | .overflow => level + part.length = 2 ^ 31 - 1 ∧
      ∃ row more, row.value ≠ triggerValueTrue ∧ met = part ++ row :: more
  | .deeper => False

theorem TriggerDb.Ends.append {db : TriggerDb} {met rest part' : List TriggerRow} {level : ℕ}
    {result : DependentResult} (part : List TriggerRow) (h : db.Ends met rest (level + part.length) part' result) :
    db.Ends (part ++ met) rest level (part ++ part') result := by
  have hlen : level + (part ++ part').length = level + part.length + part'.length := by
    rw [List.length_append]
    omega
  cases result with
  | fail level' =>
      obtain ⟨hlevel, hlt, rfl⟩ := h
      exact ⟨hlevel.trans hlen.symm, hlt, (List.append_assoc ..).symm⟩
  | succeed level' =>
      obtain ⟨hlevel, hlt, row, more, htrue, rfl⟩ := h
      exact ⟨hlevel.trans hlen.symm, hlt, row, more, htrue, (List.append_assoc ..).symm⟩
  | overflow =>
      obtain ⟨hlevel, row, more, hfalse, rfl⟩ := h
      exact ⟨hlen.trans hlevel, row, more, hfalse, (List.append_assoc ..).symm⟩
  | deeper => exact h

/-- How a call, or a loop over `rows`, gets along the walk, whatever comes behind:
it stops at the first trigger that is `TRUE`. -/
def TriggerDb.Meets (db : TriggerDb) (rows : List TriggerRow) (level : ℕ) (result : DependentResult) : Prop :=
  ∀ rest, ∃ part, (∀ row ∈ part, row.value ≠ triggerValueTrue) ∧
    db.Ends (db.met (32 - level) (rows ++ rest)) rest level part result

/-- The loop goes on where a call has stopped. -/
theorem meets_fetchDependencies {db : TriggerDb} {call : ℕ → ℕ → DependentResult} {level : ℕ}
    (hcall : ∀ row level', level ≤ level' → level' < 2 ^ 31 → row.value ≠ triggerValueTrue →
      db.Meets [row] level' (call row.triggerid level'))
    (rows : List TriggerRow) (hlevel : level < 2 ^ 31) : db.Meets rows level (fetchDependencies call rows level) := by
  induction rows generalizing level with
  | nil => exact fun rest => ⟨[], by simp, by simp, hlevel, rfl⟩
  | cons row rows ih =>
      intro rest
      rw [fetchDependencies]
      split
      · next htrue =>
          obtain ⟨more, hmore⟩ := Walk.walk_cons (fun row => db.dependencies row.triggerid) (32 - level) row (rows ++ rest)
          exact ⟨[], by simp, rfl, hlevel, row, more, htrue, hmore⟩
      · next hfalse =>
          obtain ⟨part, hpart, hends⟩ := hcall row level (Nat.le_refl _) hlevel hfalse (rows ++ rest)
          rw [List.singleton_append] at hends
          rw [List.cons_append]
          generalize call row.triggerid level = result at hends
          cases result with
          | fail level' =>
              obtain ⟨rfl, hlt, hmet⟩ := hends
              obtain ⟨part', hpart', hends'⟩ := ih (fun row level' h => hcall row level' (by omega)) hlt rest
              rw [hmet]
              exact ⟨part ++ part', List.forall_mem_append.mpr ⟨hpart, hpart'⟩, hends'.append part⟩
          | succeed level' => exact ⟨part, hpart, hends⟩
          | overflow => exact ⟨part, hpart, hends⟩
          | deeper => exact hends.elim

/-- A call counts the trigger it is for, and goes along what that depends on. -/
theorem meets_triggerDependentRec (db : TriggerDb) {depth : ℕ} {row : TriggerRow} {level : ℕ} (hdepth : 0 < depth)
    (hnested : 33 ≤ depth + level) (hlevel : level < 2 ^ 31) (hfalse : row.value ≠ triggerValueTrue) :
    db.Meets [row] level (triggerDependentRec db depth row.triggerid level) := by
  induction depth generalizing row level with
  | zero => omega
  | succ depth ih =>
      intro rest
      rw [triggerDependentRec, List.singleton_append]
      split
      · next hmax =>
          have hzero : 32 - level = 0 := by omega
          rw [hzero, TriggerDb.met, Walk.walk_zero]
          exact ⟨[], by simp, hmax, row, rest, hfalse, rfl⟩
      · next hmax =>
          split
          · next hcut =>
              have hzero : 32 - level = 0 := by omega
              have hzero' : 32 - (level + 1) = 0 := by omega
              refine ⟨[row], by simpa using hfalse, rfl, by omega, ?_⟩
              rw [hzero, hzero', TriggerDb.met, TriggerDb.met, Walk.walk_zero, Walk.walk_zero]
              rfl
          · next hcut =>
              have hsucc : 32 - level = 32 - (level + 1) + 1 := by omega
              have hcall : ∀ row' level', level + 1 ≤ level' → level' < 2 ^ 31 → row'.value ≠ triggerValueTrue →
                  db.Meets [row'] level' (triggerDependentRec db depth row'.triggerid level') :=
                fun row' level' hle hlt hfalse' => ih (by omega) (by omega) hlt hfalse'
              obtain ⟨part, hpart, hends⟩ :=
                meets_fetchDependencies hcall (db.dependencies row.triggerid) (by omega) rest
              rw [hsucc, TriggerDb.met, Walk.walk_succ_cons]
              exact ⟨row :: part, List.forall_mem_cons.mpr ⟨hfalse, hpart⟩, hends.append [row]⟩

/-! ## the answer -/

/-- A trigger depends on another one, directly. -/
def TriggerDb.DependsOn (db : TriggerDb) (down up : ℕ) : Prop :=
  (down, up) ∈ db.triggerDepends ∧ ∃ row ∈ db.triggers, row.triggerid = up

/-- Some trigger that is reached by following dependencies is `TRUE`. -/
def TriggerDb.TrueAbove (db : TriggerDb) (triggerid : ℕ) : Prop :=
  ∃ up, Relation.TransGen db.DependsOn triggerid up ∧ ⟨up, triggerValueTrue⟩ ∈ db.triggers

/-- The call returns. -/
def TriggerDb.Returns (db : TriggerDb) (triggerid : ℕ) : Prop :=
  ∃ level, triggerDependent db triggerid = .succeed level ∨ triggerDependent db triggerid = .fail level

/-- The call returns, and succeeds exactly when it should. -/
def TriggerDb.Answers (db : TriggerDb) (triggerid : ℕ) : Prop :=
  ∃ level, (triggerDependent db triggerid = .succeed level ∧ db.TrueAbove triggerid) ∨
    (triggerDependent db triggerid = .fail level ∧ ¬db.TrueAbove triggerid)

/-- What a depth-first walk meets that follows the first 32 triggers; the first is
the trigger itself, whose value is not looked at. -/
def TriggerDb.walked (db : TriggerDb) (triggerid : ℕ) : List TriggerRow := db.met 32 [⟨triggerid, 0⟩]

theorem mem_dependencies {db : TriggerDb} {triggerid : ℕ} {row : TriggerRow} :
    row ∈ db.dependencies triggerid ↔ (triggerid, row.triggerid) ∈ db.triggerDepends ∧ row ∈ db.triggers := by
  simp only [TriggerDb.dependencies, List.mem_flatMap, List.mem_filter, decide_eq_true_eq, Prod.exists]
  constructor
  · rintro ⟨down, up, ⟨hdepends, rfl⟩, hrow, rfl⟩
    exact ⟨hdepends, hrow⟩
  · rintro ⟨hdepends, hrow⟩
    exact ⟨triggerid, row.triggerid, ⟨hdepends, rfl⟩, hrow, rfl⟩

/-- Following the rows is following the dependencies. -/
theorem trueAbove_iff {db : TriggerDb} {root : TriggerRow} :
    db.TrueAbove root.triggerid ↔ ∃ row, row.value = triggerValueTrue ∧
      Relation.TransGen (fun x y => y ∈ db.dependencies x.triggerid) root row := by
  constructor
  · rintro ⟨up, hup, hmem⟩
    have hrows : ∀ down, Relation.TransGen db.DependsOn root.triggerid down → ∀ row ∈ db.triggers,
        row.triggerid = down → Relation.TransGen (fun x y => y ∈ db.dependencies x.triggerid) root row := by
      intro down hdown
      induction hdown with
      | single h =>
          rintro row hrow rfl
          exact .single (mem_dependencies.mpr ⟨h.1, hrow⟩)
      | tail hmid h ih =>
          rintro row hrow rfl
          obtain ⟨row', hrow', rfl⟩ : ∃ row' ∈ db.triggers, row'.triggerid = _ := by
            cases hmid with
            | single h => exact h.2
            | tail _ h => exact h.2
          exact (ih row' hrow' rfl).tail (mem_dependencies.mpr ⟨h.1, hrow⟩)
    exact ⟨⟨up, triggerValueTrue⟩, rfl, hrows up hup _ hmem rfl⟩
  · rintro ⟨row, htrue, hreach⟩
    have hstep : ∀ x y : TriggerRow, y ∈ db.dependencies x.triggerid → db.DependsOn x.triggerid y.triggerid :=
      fun x y h => ⟨(mem_dependencies.mp h).1, y, (mem_dependencies.mp h).2, rfl⟩
    have hmem : row ∈ db.triggers := by
      cases hreach with
      | single h => exact (mem_dependencies.mp h).2
      | tail _ h => exact (mem_dependencies.mp h).2
    refine ⟨row.triggerid, hreach.lift TriggerRow.triggerid hstep, ?_⟩
    rw [← htrue]
    exact hmem

/-- A `TRUE` trigger that is met is one that the trigger depends on. -/
theorem trueAbove_of_mem_walked {db : TriggerDb} {triggerid : ℕ} {row : TriggerRow} (h : row ∈ db.walked triggerid)
    (htrue : row.value = triggerValueTrue) : db.TrueAbove triggerid := by
  obtain ⟨root, hroot, hreach⟩ := Walk.reachable_of_mem_walk _ h
  obtain rfl := List.mem_singleton.mp hroot
  refine (@trueAbove_iff db ⟨triggerid, 0⟩).mpr ⟨row, htrue, ?_⟩
  rcases Relation.reflTransGen_iff_eq_or_transGen.mp hreach with rfl | hreach
  · exact absurd htrue (show (0 : ℤ) ≠ triggerValueTrue by decide)
  · exact hreach

/-- What is met in front of the first trigger that is `TRUE`. -/
def TriggerDb.untilTrue (db : TriggerDb) (triggerid : ℕ) : List TriggerRow :=
  (db.walked triggerid).takeWhile (·.value ≠ triggerValueTrue)

theorem takeWhile_of_false {part more : List TriggerRow} (hpart : ∀ row ∈ part, row.value ≠ triggerValueTrue) :
    (part ++ more).takeWhile (·.value ≠ triggerValueTrue) =
      part ++ more.takeWhile (·.value ≠ triggerValueTrue) :=
  List.takeWhile_append_of_pos fun row hrow => decide_eq_true (hpart row hrow)

/-- **The function goes along the walk** up to the first trigger that is `TRUE`,
and has to count less than 2^31 before. -/
theorem triggerDependent_spec (db : TriggerDb) (triggerid : ℕ) :
    triggerDependent db triggerid =
      if 2 ^ 31 ≤ (db.untilTrue triggerid).length then .overflow
      else if ∃ row ∈ db.walked triggerid, row.value = triggerValueTrue then
        .succeed (db.untilTrue triggerid).length
      else .fail (db.untilTrue triggerid).length := by
  have hroot : (0 : ℤ) ≠ triggerValueTrue := by decide
  obtain ⟨part, hpart, hends⟩ := @meets_triggerDependentRec db 33 ⟨triggerid, 0⟩ 0 (by decide) (by decide) (by decide)
    hroot []
  change db.Ends (db.walked triggerid) [] 0 part (triggerDependent db triggerid) at hends
  rw [TriggerDb.untilTrue]
  generalize triggerDependent db triggerid = result at hends
  cases result with
  | fail level =>
      obtain ⟨rfl, hlt, hmet⟩ := hends
      rw [TriggerDb.met, Walk.walk_nil, List.append_nil] at hmet
      rw [hmet]
      have hall : part.takeWhile (·.value ≠ triggerValueTrue) = part :=
        List.takeWhile_eq_self_iff.mpr fun row hrow => decide_eq_true (hpart row hrow)
      rw [hall, if_neg (by omega), if_neg (by rintro ⟨row, hrow, htrue⟩; exact hpart row hrow htrue), Nat.zero_add]
  | succeed level =>
      obtain ⟨rfl, hlt, row, more, htrue, hmet⟩ := hends
      rw [hmet, takeWhile_of_false hpart, List.takeWhile_cons_of_neg (by simpa using htrue), List.append_nil,
        if_neg (by omega), if_pos ⟨row, by simp, htrue⟩, Nat.zero_add]
  | overflow =>
      obtain ⟨hlevel, row, more, hfalse, hmet⟩ := hends
      rw [hmet, takeWhile_of_false hpart, List.takeWhile_cons_of_pos (by simpa using hfalse), if_pos]
      rw [List.length_append, List.length_cons]
      omega
  | deeper => exact hends.elim

theorem returns_iff (db : TriggerDb) (triggerid : ℕ) :
    db.Returns triggerid ↔ (db.untilTrue triggerid).length < 2 ^ 31 := by
  rw [TriggerDb.Returns, triggerDependent_spec]
  split
  · next hlen =>
      refine iff_of_false ?_ (Nat.not_lt_of_le hlen)
      rintro ⟨level, h | h⟩ <;> cases h
  · next hlen =>
      split
      · exact iff_of_true ⟨_, .inl rfl⟩ (Nat.lt_of_not_le hlen)
      · exact iff_of_true ⟨_, .inr rfl⟩ (Nat.lt_of_not_le hlen)

theorem answers_iff (db : TriggerDb) (triggerid : ℕ) :
    db.Answers triggerid ↔ (db.untilTrue triggerid).length < 2 ^ 31 ∧
      (db.TrueAbove triggerid → ∃ row ∈ db.walked triggerid, row.value = triggerValueTrue) := by
  rw [TriggerDb.Answers, triggerDependent_spec]
  split
  · next hlen =>
      refine iff_of_false ?_ fun h => Nat.not_lt_of_le hlen h.1
      rintro ⟨level, h | h⟩ <;> cases h.1
  · next hlen =>
      rw [and_iff_right (Nat.lt_of_not_le hlen)]
      split
      · next hmet =>
          obtain ⟨row, hrow, htrue⟩ := hmet
          exact iff_of_true ⟨_, .inl ⟨rfl, trueAbove_of_mem_walked hrow htrue⟩⟩ fun _ => ⟨row, hrow, htrue⟩
      · next hmet =>
          constructor
          · rintro ⟨level, h | h⟩
            · cases h.1
            · exact fun habove => absurd habove h.2
          · exact fun h => ⟨_, .inr ⟨rfl, fun habove => hmet (h habove)⟩⟩

/-- A walk that follows all it meets gives the answer. -/
theorem answers_of_length_le {db : TriggerDb} {triggerid : ℕ} (h : (db.walked triggerid).length ≤ 32) :
    db.Answers triggerid := by
  refine (answers_iff db triggerid).mpr ⟨?_, fun habove => ?_⟩
  · have hle := (List.takeWhile_prefix (l := db.walked triggerid) (·.value ≠ triggerValueTrue)).length_le
    rw [TriggerDb.untilTrue]
    omega
  · obtain ⟨row, htrue, hreach⟩ := (@trueAbove_iff db ⟨triggerid, 0⟩).mp habove
    exact ⟨row, Walk.mem_walk_of_reachable _ h (List.mem_singleton_self _) hreach.to_reflTransGen, htrue⟩

/-- **When the function returns, and is right**: the counter does not overflow, and
the first 32 triggers of the walk are enough to meet one that is `TRUE`, if there is
one to be reached. -/
theorem trigger_dependent_exact (db : TriggerDb) (triggerid : ℕ) :
    (db.Returns triggerid ↔ (db.untilTrue triggerid).length < 2 ^ 31) ∧
      (db.Answers triggerid ↔ (db.untilTrue triggerid).length < 2 ^ 31 ∧
        (db.TrueAbove triggerid → ∃ row ∈ db.walked triggerid, row.value = triggerValueTrue)) :=
  ⟨returns_iff db triggerid, answers_iff db triggerid⟩

/-- The dependencies have no cycle, and no chain has more than `n` steps. -/
def TriggerDb.ChainsWithin (db : TriggerDb) (n : ℕ) : Prop :=
  ∃ rank : ℕ → ℕ, ∀ d ∈ db.triggerDepends, rank d.1 < rank d.2 ∧ rank d.2 ≤ n

/-- A trigger with 32 dependencies, of which the last one depends on a trigger that
is `TRUE`. -/
def wideDependencies : TriggerDb :=
  { triggerDepends := (List.range 32).map (fun i => (1, i + 2)) ++ [(33, 34)]
    triggers := (List.range 33).map (fun i => ⟨i + 1, 0⟩) ++ [⟨34, triggerValueTrue⟩] }

theorem wide_dependency_missed :
    wideDependencies.ChainsWithin 2 ∧ wideDependencies.TrueAbove 1 ∧ ¬wideDependencies.Answers 1 := by
  have habove : wideDependencies.TrueAbove 1 := by
    refine ⟨34, .tail (.single ⟨by decide, ⟨33, 0⟩, by decide, rfl⟩) ⟨by decide, ⟨34, 1⟩, by decide, rfl⟩, by decide⟩
  refine ⟨⟨fun id => if id = 1 then 0 else if id = 34 then 2 else 1, by decide⟩, habove, fun hanswers => ?_⟩
  have hmissed : ¬∃ row ∈ wideDependencies.walked 1, row.value = triggerValueTrue := by decide
  exact hmissed (((answers_iff ..).mp hanswers).2 habove)

end Zabbix
