import Zabbix.Nodes.ChangeExpression

/-!
# Zabbix.Nodes.ChangeRun

`change_nodeid` as a whole: where no expression is written beyond its buffer, every
row is the one that the updates of its table make of it, each trigger with its
expression converted, and the node is inserted (`changeNodeid_eq`).
-/

namespace Zabbix.NodeChange

variable (n : ℕ) (tmp : ℕ → UInt64)

/-! ## the triggers -/

/-- The prefix of the functions, which the expressions get. -/
def functionPrefix : UInt64 := UInt64.ofNat (prefixOf n (syncOf .functions))

/-- What is written for a trigger, and fits the buffer or not. -/
def newExpression (p : Record × UInt64) : List UInt8 :=
  convertExpression (functionPrefix n) p.2 (p.1.text .expression)

/-- The trigger with its expression converted. -/
def convertTrigger (p : Record × UInt64) : Record :=
  { p.1 with text := Function.update p.1.text .expression (storedExpression (newExpression n p)) }

/-- The updates of the loop, on one trigger. -/
def updateTrigger (rows : List (Record × UInt64)) (r : Record) : Record :=
  match rows.find? fun p => p.1.number .triggerid = r.number .triggerid with
  | some p => updateExpression (p.1.number .triggerid) (storedExpression (newExpression n p)) r
  | none => r

@[simp] theorem updateExpression_number (id : ℤ) (e : List UInt8) (r : Record) :
    (updateExpression id e r).number = r.number := by
  unfold updateExpression
  split <;> rfl

theorem updateTrigger_cons_of_eq {p : Record × UInt64} {r : Record}
    (h : p.1.number .triggerid = r.number .triggerid) (rows : List (Record × UInt64)) :
    updateTrigger n (p :: rows) r =
      updateExpression (p.1.number .triggerid) (storedExpression (newExpression n p)) r := by
  rw [updateTrigger, List.find?_cons_of_pos (by simpa using h)]

theorem updateTrigger_cons_of_ne {p : Record × UInt64} {r : Record}
    (h : p.1.number .triggerid ≠ r.number .triggerid) (rows : List (Record × UInt64)) :
    updateTrigger n (p :: rows) r = updateTrigger n rows r := by
  rw [updateTrigger, updateTrigger, List.find?_cons_of_neg (by simpa using h)]

theorem updateTrigger_of_not_mem {rows : List (Record × UInt64)} {r : Record}
    (h : r.number .triggerid ∉ rows.map (·.1.number .triggerid)) : updateTrigger n rows r = r := by
  have hnone : rows.find? (fun p => p.1.number .triggerid = r.number .triggerid) = none := by
    rw [List.find?_eq_none]
    intro p hp heq
    exact h (List.mem_map.mpr ⟨p, hp, of_decide_eq_true heq⟩)
  rw [updateTrigger, hnone]

/-- **The loop over the triggers**: each of them is updated once. -/
theorem convertTriggersExpression_eq {rows : List (Record × UInt64)}
    (hrows : (rows.map (·.1.number .triggerid)).Nodup) (triggers : List Record) :
    convertTriggersExpression (functionPrefix n) rows triggers =
      if ∀ p ∈ rows, (newExpression n p).length < expressionBufLen then
        .ok (triggers.map (updateTrigger n rows))
      else .error .overflow := by
  induction rows generalizing triggers with
  | nil =>
      have hid : updateTrigger n [] = id := rfl
      simp [convertTriggersExpression, hid]
  | cons p rows ih =>
      obtain ⟨hp, hrest⟩ := List.nodup_cons.mp hrows
      rw [convertTriggersExpression, ← newExpression]
      simp only [List.forall_mem_cons]
      by_cases hlen : (newExpression n p).length < expressionBufLen
      · rw [if_pos hlen, ih hrest, List.map_map]
        simp only [hlen, true_and]
        congr 3
        funext r
        rw [Function.comp_apply]
        by_cases hid : p.1.number .triggerid = r.number .triggerid
        · rw [updateTrigger_cons_of_eq n hid, updateTrigger_of_not_mem]
          rw [updateExpression_number, ← hid]
          exact hp
        · rw [updateTrigger_cons_of_ne n hid, updateExpression, if_neg (Ne.symm hid)]
      · rw [if_neg hlen]
        simp [hlen]

/-- The rows with what `tmp` is at each of them. -/
def triggerRows (triggers : List Record) : List (Record × UInt64) :=
  triggers.zipIdx.map fun p => (p.1, tmp p.2)

theorem map_fst_triggerRows (triggers : List Record) : (triggerRows tmp triggers).map (·.1) = triggers := by
  rw [triggerRows, List.map_map]
  exact List.zipIdx_map_fst 0 triggers

/-- With distinct identifiers every trigger gets its own expression. -/
theorem map_updateTrigger {triggers : List Record} (h : (triggers.map (·.number .triggerid)).Nodup) :
    triggers.map (updateTrigger n (triggerRows tmp triggers)) =
      (triggerRows tmp triggers).map (convertTrigger n) := by
  have hrows : ((triggerRows tmp triggers).map (·.1.number .triggerid)).Nodup := by
    rw [← map_fst_triggerRows tmp triggers, List.map_map] at h
    exact h
  conv_lhs => rw [← map_fst_triggerRows tmp triggers, List.map_map, map_fst_triggerRows]
  refine List.map_congr_left fun p hp => ?_
  have hfind := Upsert.find?_of_nodup hrows hp
  simp only [Function.comp_apply, updateTrigger, hfind]
  rw [updateExpression, if_pos rfl]
  rfl

/-! ## the database -/

/-- The database after the conversion. -/
def changedDb (db : Database) : Database :=
  Function.update
    (Function.update (convertIds n db) .triggers
      ((triggerRows tmp (convertIds n db .triggers)).map (convertTrigger n)))
    .nodes (convertIds n db .nodes ++ [localNode n])

theorem columnUpdates_triggerid : columnUpdates .triggers .triggerid = [⟨.triggers, .triggerid, true, none⟩] := by
  decide

/-- The identifiers of triggers stay distinct. -/
theorem nodup_convertIds_triggerid {db : Database} (h : ((db .triggers).map (·.number .triggerid)).Nodup) :
    ((convertIds n db .triggers).map (·.number .triggerid)).Nodup := by
  have hmap : (convertIds n db .triggers).map (·.number .triggerid) =
      ((db .triggers).map (·.number .triggerid)).map (rename n true) := by
    rw [convertIds_apply, List.map_map, List.map_map]
    exact List.map_congr_left fun r _ => convertRow_number_plain n columnUpdates_triggerid r
  rw [hmap]
  exact h.map (rename_injective n true)

/-- **The conversion as a whole.** -/
theorem changeNodeid_eq {n : ℕ} (hn : n ≤ 999) (tmp : ℕ → UInt64) {db : Database}
    (hkeys : ((db .triggers).map (·.number .triggerid)).Nodup) :
    changeNodeid tmp 0 n db =
      if ∀ p ∈ triggerRows tmp (convertIds n db .triggers), (newExpression n p).length < expressionBufLen then
        .ok (changedDb n tmp db)
      else .error .overflow := by
  have hdistinct := nodup_convertIds_triggerid n hkeys
  have hrows : ((triggerRows tmp (convertIds n db .triggers)).map (·.1.number .triggerid)).Nodup := by
    rw [← map_fst_triggerRows tmp (convertIds n db .triggers), List.map_map] at hdistinct
    exact hdistinct
  have hloop := convertTriggersExpression_eq n hrows (convertIds n db .triggers)
  rw [changeNodeid, if_neg (by simp), if_neg (by omega)]
  simp only [Int.toNat_natCast]
  rw [← functionPrefix, ← triggerRows, hloop, map_updateTrigger n tmp hdistinct]
  split <;> rfl

end Zabbix.NodeChange
