import Zabbix.Triggers.EvaluateExpression
import Zabbix.Triggers.Notify
import Mathlib.Logic.Relation

/-!
# Zabbix.Triggers.MassUpdate

What new values of items come to in functions and in triggers
(`DCmass_function_update` and `DCmass_update_triggers` of
`libs/zbxdbcache/dbcache.c`).

A trigger is fetched once for every one of its items that has a new value, with
the value that it had before all of them; `DBupdate_trigger_value` is called each
time.  Of these calls the first one changes the trigger, and only it has an event
(`updateTriggers_own`).
-/

namespace Zabbix

open Ascii Printf

/-! ## the tables -/

/-- `ITEM_STATUS_NOTSUPPORTED`, in the condition of the select. -/
def notsupportedStatus : ℤ := 3

/-- `TRIGGER_STATUS_ENABLED` -/
def triggerStatusEnabled : ℤ := 0

/-- `FUNCTION_LASTVALUE_LEN` -/
def functionLastvalueLen : ℕ := 255

/-- What a function is of. -/
structure FunctionKey where
  itemid : ℕ
  function : CString
  parameter : CString
deriving DecidableEq

/-- A row of `functions`. -/
structure FunctionsRow extends FunctionRow, FunctionKey where
  triggerid : ℕ

/-- The columns of `triggers` that only their evaluation looks at. -/
structure TriggerDefinition where
  triggerid : ℕ
  status : ℤ
  expression : CString

/-- A row of `items`, which belongs to a host. -/
structure ItemsStatus where
  itemid : ℕ
  status : ℤ

/-- The tables. -/
structure MassState where
  items : List ItemsStatus
  functions : List FunctionsRow
  definitions : List TriggerDefinition
  events : EventState

/-- The fields of `ZBX_DC_HISTORY` that are looked at. -/
structure HistoryEntry where
  itemid : ℕ
  clock : ℤ
  valueNull : Bool

/-- The loop that looks for an item in the history. -/
def historyOf (history : List HistoryEntry) (itemid : ℕ) : Option HistoryEntry :=
  history.find? (·.itemid = itemid)

namespace MassState

/-- An enabled trigger. -/
def enabled (s : MassState) (triggerid : ℕ) : Option TriggerDefinition :=
  s.definitions.find? fun d => d.triggerid = triggerid ∧ d.status = triggerStatusEnabled

/-! ## `DCmass_function_update` -/

/-- The select: the functions of items with a new value, and their last values. -/
def selectFunctions (s : MassState) (history : List HistoryEntry) : List (FunctionKey × Option CString) :=
  ((s.functions.filter fun f =>
      (s.enabled f.triggerid).isSome ∧ (∃ i ∈ s.items, i.itemid = f.itemid) ∧
        ∃ h ∈ history, h.itemid = f.itemid ∧ h.valueNull = false).map
    fun f => (f.toFunctionKey, f.lastvalue)).dedup

end MassState

/-- What is stored of a value: `DBdyn_escape_string_len`, read back. -/
def storedLastvalue (value : CString) : CString :=
  ⟨(kept value.val).take functionLastvalueLen, fun h => value.property (List.mem_of_mem_filter (List.mem_of_mem_take h))⟩

/-- The update for a row of the select, if there is one. -/
def lastvalueUpdate (evaluate : FunctionKey → ℤ → Option CString) (history : List HistoryEntry)
    (row : FunctionKey × Option CString) : Option (FunctionKey × CString) := do
  let h ← historyOf history row.1.itemid
  let value ← evaluate row.1 h.clock
  if row.2 = some value then none else some (row.1, storedLastvalue value)

/-- An update of `functions`, for a row; a carriage return is not written to the
condition. -/
def FunctionsRow.store (f : FunctionsRow) (u : FunctionKey × CString) : FunctionsRow :=
  if f.itemid = u.1.itemid ∧ f.function.val = kept u.1.function.val ∧ f.parameter.val = kept u.1.parameter.val then
    { f with lastvalue := some u.2 }
  else f

/-- An update of `functions`. -/
def storeLastvalue (functions : List FunctionsRow) (u : FunctionKey × CString) : List FunctionsRow :=
  functions.map (·.store u)

/-- `DCmass_function_update`, with the rows that it fetches: the updates are
executed after the last one. -/
def MassState.functionUpdate (s : MassState) (evaluate : FunctionKey → ℤ → Option CString) (history : List HistoryEntry)
    (rows : List (FunctionKey × Option CString)) : MassState :=
  { s with functions := (rows.filterMap (lastvalueUpdate evaluate history)).foldl storeLastvalue s.functions }

/-- The items whose `functions` is set. -/
def functionItems (history : List HistoryEntry) (rows : List (FunctionKey × Option CString)) : List ℕ :=
  rows.filterMap fun row => (historyOf history row.1.itemid).map HistoryEntry.itemid

/-! ## `DCmass_update_triggers` -/

/-- A row of the select. -/
structure FetchedTrigger extends DbTrigger where
  expression : CString
  itemid : ℕ
deriving DecidableEq

/-- The select: the triggers of the items. -/
def MassState.selectTriggers (s : MassState) (itemids : List ℕ) : List FetchedTrigger :=
  (s.functions.filterMap fun f =>
    if f.itemid ∈ itemids ∧ ∃ i ∈ s.items, i.itemid = f.itemid ∧ i.status ≠ notsupportedStatus then
      (s.enabled f.triggerid).bind fun d => (s.events.trigger f.triggerid).map fun r =>
        { triggerid := f.triggerid
          type := r.type
          value := r.value
          expression := d.expression
          itemid := f.itemid }
    else none).dedup

/-- The result of `evaluate_expression`. -/
def resultValue (result : ℚ) : TriggerValue := if result = 0 then .false else .true

/-- What the server rests on: its node, the column of the identifiers of events,
its database, and the names of functions in messages. -/
structure MassConfig where
  schema : Schema
  nodeid : ℕ
  eventid : Column schema
  backend : Backend
  name : ℕ → List UInt8

variable (config : MassConfig)

/-- The functions, as `substitute_functions` finds them. -/
def MassConfig.table (functions : List FunctionsRow) : FunctionTable :=
  ⟨functions.map FunctionsRow.toFunctionRow, config.name⟩

/-- The value of a trigger that is fetched. -/
def MassConfig.evaluateRow (functions : List FunctionsRow) (row : FetchedTrigger) : EvalOutcome :=
  evaluateExpression (config.table functions) maxStringLen row.value row.expression

/-- A trigger that is fetched; `none` when the process exits, or stores where it
must not. -/
def MassConfig.updateTrigger (functions : List FunctionsRow) (history : List HistoryEntry) (s : EventState)
    (row : FetchedTrigger) : Option EventState :=
  match historyOf history row.itemid with
  | none => some s
  | some h =>
      match config.evaluateRow functions row with
      | .outOfBounds => none
      | .fail _ => some s
      | .succeed result =>
          (dbUpdateTriggerValue config.nodeid config.eventid config.backend s row.toDbTrigger (resultValue result).code
            h.clock none).map Prod.snd

/-- `DCmass_update_triggers`, with the rows that it fetches. -/
def MassConfig.updateTriggers (s : MassState) (history : List HistoryEntry) (rows : List FetchedTrigger) :
    Option MassState :=
  (rows.foldlM (config.updateTrigger s.functions history) s.events).map fun events => { s with events := events }

/-! ## runs -/

/-- New values of items, and what the functions of the items come to at a time. -/
structure MassPass where
  history : List HistoryEntry
  distinct : (history.map HistoryEntry.itemid).Nodup
  evaluate : FunctionKey → ℤ → Option CString

/-- `DCmass_function_update` and `DCmass_update_triggers`; rows are fetched in any
order. -/
def MassPass.Leads (p : MassPass) (s s' : MassState) : Prop :=
  ∃ functionRows triggerRows,
    functionRows.Perm (s.selectFunctions p.history) ∧
    triggerRows.Perm ((s.functionUpdate p.evaluate p.history functionRows).selectTriggers
      (functionItems p.history functionRows)) ∧
    config.updateTriggers (s.functionUpdate p.evaluate p.history functionRows) p.history triggerRows = some s'

/-- What is stored of functions holds no carriage return and is not too long. -/
def StoredFunctions (functions : List FunctionsRow) : Prop :=
  ∀ f ∈ functions, cr ∉ f.function.val ∧ cr ∉ f.parameter.val ∧
    ∀ value ∈ f.lastvalue, cr ∉ value.val ∧ value.val.length ≤ functionLastvalueLen

/-- A pass, or a change of what is monitored, in between. -/
inductive MassStep : MassState → MassState → Prop
  | pass (p : MassPass) {s s' : MassState} (h : p.Leads config s s') : MassStep s s'
  | configure {s : MassState} (items : List ItemsStatus) (functions : List FunctionsRow)
      (definitions : List TriggerDefinition) (h : StoredFunctions functions) :
      MassStep s { s with items := items, functions := functions, definitions := definitions }

/-! ## functions -/

section

variable {f : FunctionsRow}

theorem FunctionsRow.toFunctionKey_store (u : FunctionKey × CString) : (f.store u).toFunctionKey = f.toFunctionKey := by
  rw [store]
  split <;> rfl

theorem foldl_storeLastvalue (us : List (FunctionKey × CString)) (functions : List FunctionsRow) :
    us.foldl storeLastvalue functions = functions.map fun f => us.foldl FunctionsRow.store f := by
  induction us generalizing functions with
  | nil => exact (List.map_id functions).symm
  | cons u us ih =>
      rw [List.foldl_cons, ih, storeLastvalue, List.map_map]
      rfl

/-- A key that its update is for. -/
def FunctionKey.Plain (key : FunctionKey) : Prop := cr ∉ key.function.val ∧ cr ∉ key.parameter.val

theorem FunctionsRow.store_eq {u : FunctionKey × CString} (hu : u.1.Plain) :
    f.store u = if u.1 = f.toFunctionKey then { f with lastvalue := some u.2 } else f := by
  have hiff : (f.itemid = u.1.itemid ∧ f.function.val = kept u.1.function.val ∧
      f.parameter.val = kept u.1.parameter.val) ↔ u.1 = f.toFunctionKey := by
    rw [kept_of_not_mem hu.1, kept_of_not_mem hu.2]
    constructor
    · rintro ⟨hitem, hfunction, hparameter⟩
      obtain ⟨⟨itemid, function, parameter⟩, value⟩ := u
      exact (FunctionKey.mk.injEq ..).mpr ⟨hitem.symm, Subtype.ext hfunction.symm, Subtype.ext hparameter.symm⟩
    · intro h
      rw [h]
      exact ⟨rfl, rfl, rfl⟩
  rw [store]
  exact if_congr hiff rfl rfl

/-- Updates of one value for a key come to one. -/
theorem lastvalue_foldl_store {us : List (FunctionKey × CString)} (hplain : ∀ u ∈ us, u.1.Plain) {v : CString}
    (hsame : ∀ u ∈ us, u.1 = f.toFunctionKey → u.2 = v) :
    (us.foldl FunctionsRow.store f).lastvalue =
      if ∃ u ∈ us, u.1 = f.toFunctionKey then some v else f.lastvalue := by
  induction us generalizing f with
  | nil => rw [List.foldl_nil, if_neg (by rintro ⟨u, hu, -⟩; cases hu)]
  | cons u us ih =>
      rw [List.forall_mem_cons] at hplain hsame
      have hrest := ih hplain.2 (f := f.store u) (by rw [FunctionsRow.toFunctionKey_store]; exact hsame.2)
      rw [List.foldl_cons, hrest, FunctionsRow.toFunctionKey_store, FunctionsRow.store_eq hplain.1]
      by_cases hu : u.1 = f.toFunctionKey
      · have hhead : ∃ w ∈ u :: us, w.1 = f.toFunctionKey := ⟨u, List.mem_cons_self, hu⟩
        rw [if_pos hu, if_pos hhead, hsame.1 hu]
        split <;> rfl
      · have hcons : (∃ w ∈ u :: us, w.1 = f.toFunctionKey) ↔ ∃ w ∈ us, w.1 = f.toFunctionKey := by
          rw [List.exists_mem_cons_iff, or_iff_right hu]
        rw [if_neg hu]
        exact (if_congr hcons rfl rfl).symm

end

section

variable {p : MassPass} {s : MassState} {rows : List (FunctionKey × Option CString)}

/-- What a function comes to, where it can be evaluated. -/
def MassPass.value (p : MassPass) (key : FunctionKey) : Option CString :=
  (historyOf p.history key.itemid).bind fun h => p.evaluate key h.clock

/-- A function of an enabled trigger, and of an item with a new value. -/
def MassPass.Selects (p : MassPass) (s : MassState) (f : FunctionsRow) : Prop :=
  (s.enabled f.triggerid).isSome ∧ (∃ i ∈ s.items, i.itemid = f.itemid) ∧
    ∃ h ∈ p.history, h.itemid = f.itemid ∧ h.valueNull = false

theorem mem_selectFunctions {row : FunctionKey × Option CString} :
    row ∈ s.selectFunctions p.history ↔
      ∃ f ∈ s.functions, p.Selects s f ∧ (f.toFunctionKey, f.lastvalue) = row := by
  rw [MassState.selectFunctions, List.mem_dedup, List.mem_map]
  simp only [List.mem_filter, decide_eq_true_eq, and_assoc, MassPass.Selects]

theorem lastvalueUpdate_eq_some {row : FunctionKey × Option CString} {u : FunctionKey × CString} :
    lastvalueUpdate p.evaluate p.history row = some u ↔
      ∃ value, p.value row.1 = some value ∧ row.2 ≠ some value ∧ u = (row.1, storedLastvalue value) := by
  rw [lastvalueUpdate, MassPass.value]
  dsimp only [Option.bind_eq_bind]
  rw [← Option.bind_assoc]
  generalize (historyOf p.history row.1.itemid).bind _ = value
  cases value with
  | none => simp
  | some value =>
      rw [Option.bind_some]
      split
      · next heq => simp [heq]
      · next hne => simp [hne, eq_comm]

theorem storedLastvalue_of_stored {value : CString} (hcr : cr ∉ value.val) (hlen : value.val.length ≤ functionLastvalueLen) :
    storedLastvalue value = value :=
  Subtype.ext (by
    change (kept value.val).take functionLastvalueLen = value.val
    rw [kept_of_not_mem hcr, List.take_of_length_le hlen])

/-- What the updates of a pass make of a function. -/
theorem lastvalue_updates (hstored : StoredFunctions s.functions) (hrows : rows.Perm (s.selectFunctions p.history))
    {f : FunctionsRow} (hf : f ∈ s.functions) :
    let f' := (rows.filterMap (lastvalueUpdate p.evaluate p.history)).foldl FunctionsRow.store f
    (p.Selects s f → f'.lastvalue = ((p.value f.toFunctionKey).map storedLastvalue).or f.lastvalue) ∧
      ((∀ g ∈ s.functions, p.Selects s g → g.toFunctionKey ≠ f.toFunctionKey) → f'.lastvalue = f.lastvalue) := by
  intro f'
  have hmem : ∀ u ∈ rows.filterMap (lastvalueUpdate p.evaluate p.history), ∃ g ∈ s.functions, p.Selects s g ∧
      u.1 = g.toFunctionKey ∧ ∃ value, p.value u.1 = some value ∧ u.2 = storedLastvalue value := by
    intro u hu
    obtain ⟨row, hrow, hu⟩ := List.mem_filterMap.mp hu
    obtain ⟨g, hg, hselects, rfl⟩ := mem_selectFunctions.mp (hrows.mem_iff.mp hrow)
    obtain ⟨value, hvalue, -, rfl⟩ := lastvalueUpdate_eq_some.mp hu
    exact ⟨g, hg, hselects, rfl, value, hvalue, rfl⟩
  have hplain : ∀ u ∈ rows.filterMap (lastvalueUpdate p.evaluate p.history), u.1.Plain := by
    intro u hu
    obtain ⟨g, hg, -, hkey, -⟩ := hmem u hu
    obtain ⟨hfunction, hparameter, -⟩ := hstored g hg
    rw [hkey]
    exact ⟨hfunction, hparameter⟩
  constructor
  · intro hselects
    cases hvalue : p.value f.toFunctionKey with
    | none =>
        -- nothing is updated that has the key
        have hfold := lastvalue_foldl_store (f := f) hplain (v := .empty) fun u hu hkey => by
          obtain ⟨-, -, -, -, value, hsome, -⟩ := hmem u hu
          rw [hkey, hvalue] at hsome
          cases hsome
        have hnone : ¬∃ u ∈ rows.filterMap (lastvalueUpdate p.evaluate p.history), u.1 = f.toFunctionKey := by
          rintro ⟨u, hu, hkey⟩
          obtain ⟨-, -, -, -, value, hsome, -⟩ := hmem u hu
          rw [hkey, hvalue] at hsome
          cases hsome
        rw [if_neg hnone] at hfold
        exact hfold
    | some value =>
        have hfold := lastvalue_foldl_store (f := f) hplain (v := storedLastvalue value) fun u hu hkey => by
          obtain ⟨-, -, -, -, value', hsome, hstore⟩ := hmem u hu
          rw [hkey, hvalue] at hsome
          rw [hstore, Option.some.inj hsome]
        refine hfold.trans ?_
        split
        · rfl
        · next hnone =>
            -- the value is the one that is stored
            have hlast : f.lastvalue = some value := by
              by_contra hne
              refine hnone ⟨(f.toFunctionKey, storedLastvalue value), List.mem_filterMap.mpr
                ⟨(f.toFunctionKey, f.lastvalue), hrows.mem_iff.mpr (mem_selectFunctions.mpr ⟨f, hf, hselects, rfl⟩),
                  lastvalueUpdate_eq_some.mpr ⟨value, hvalue, hne, rfl⟩⟩, rfl⟩
            obtain ⟨hcr, hlen⟩ := (hstored f hf).2.2 value hlast
            rw [hlast, Option.map_some, storedLastvalue_of_stored hcr hlen]
            rfl
  · intro hother
    have hnone : ¬∃ u ∈ rows.filterMap (lastvalueUpdate p.evaluate p.history), u.1 = f.toFunctionKey := by
      rintro ⟨u, hu, hkey⟩
      obtain ⟨g, hg, hselects, hkey', -⟩ := hmem u hu
      exact hother g hg hselects (hkey'.symm.trans hkey)
    have hfold := lastvalue_foldl_store (f := f) hplain (v := .empty) fun u hu hkey => absurd ⟨u, hu, hkey⟩ hnone
    rw [if_neg hnone] at hfold
    exact hfold

/-- What is stored stays so. -/
theorem StoredFunctions.functionUpdate (hstored : StoredFunctions s.functions) :
    StoredFunctions (s.functionUpdate p.evaluate p.history rows).functions := by
  have hstore : ∀ (functions : List FunctionsRow) (value : CString) (key : FunctionKey), StoredFunctions functions →
      StoredFunctions (storeLastvalue functions (key, storedLastvalue value)) := by
    intro functions value key hfunctions f hf
    obtain ⟨g, hg, rfl⟩ := List.mem_map.mp hf
    obtain ⟨hfunction, hparameter, hlast⟩ := hfunctions g hg
    rw [FunctionsRow.store]
    split
    · refine ⟨hfunction, hparameter, ?_⟩
      rintro v ⟨⟩
      exact ⟨fun h => cr_not_mem_kept _ (List.mem_of_mem_take h), List.length_take_le _ _⟩
    · exact ⟨hfunction, hparameter, hlast⟩
  have hall : ∀ u ∈ rows.filterMap (lastvalueUpdate p.evaluate p.history), ∃ value, u.2 = storedLastvalue value := by
    intro u hu
    obtain ⟨row, -, hu⟩ := List.mem_filterMap.mp hu
    obtain ⟨value, -, -, rfl⟩ := lastvalueUpdate_eq_some.mp hu
    exact ⟨value, rfl⟩
  rw [MassState.functionUpdate]
  dsimp only
  generalize rows.filterMap (lastvalueUpdate p.evaluate p.history) = us at hall
  generalize s.functions = functions at hstored
  induction us generalizing functions with
  | nil => exact hstored
  | cons u us ih =>
      rw [List.forall_mem_cons] at hall
      obtain ⟨value, hvalue⟩ := hall.1
      have hu : u = (u.1, storedLastvalue value) := Prod.ext rfl hvalue
      rw [List.foldl_cons, hu]
      exact ih hall.2 _ (hstore functions value u.1 hstored)

end

end Zabbix
