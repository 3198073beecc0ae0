import Zabbix.Nodes.ChangeRun
import Zabbix.Nodes.References

/-!
# Zabbix.Nodes.Renaming

The conversion of a standalone database to a node id as a renaming.

Every row of the converted database is the one that was there, with its columns
converted (`getElem?_changedDb`), and the keys of each table are renamed
(`renamed_keys`).  Every column that designates rows is renamed as their keys are, or
passed over (`reaches_of_refersTo`); so the conversion is a renaming iff nothing
that is passed over designates a row, and the expressions fit
(`changeNodeid_isRenaming_iff`).
-/

namespace Zabbix.NodeChange

open Rekey Printf

/-! ## rows and keys -/

variable (n : ℕ) (tmp : ℕ → UInt64) (db : Database)

theorem changedDb_triggers : changedDb n tmp db .triggers =
    (triggerRows tmp (convertIds n db .triggers)).map (convertTrigger n) := rfl

theorem changedDb_nodes : changedDb n tmp db .nodes = convertIds n db .nodes ++ [localNode n] := rfl

theorem changedDb_of_ne {t : TableName} (ht : t ≠ .triggers) (hn : t ≠ .nodes) :
    changedDb n tmp db t = convertIds n db t := by
  rw [changedDb, Function.update_of_ne hn, Function.update_of_ne ht]

/-- The triggers in their places. -/
theorem getElem?_changedDb_triggers {i : ℕ} {r r' : Record} (h : (db .triggers)[i]? = some r)
    (h' : (changedDb n tmp db .triggers)[i]? = some r') :
    r' = convertTrigger n (convertRow n .triggers r, tmp i) := by
  rw [changedDb_triggers, triggerRows, List.map_map, List.getElem?_map, List.getElem?_zipIdx, convertIds_apply,
    List.getElem?_map, h] at h'
  exact (Option.some.inj h').symm.trans (by simp)

/-- A row after the conversion has its numbers converted, and its texts as before but for
an expression. -/
theorem getElem?_changedDb {t : TableName} {i : ℕ} {r r' : Record} (h : (db t)[i]? = some r)
    (h' : (changedDb n tmp db t)[i]? = some r') :
    r'.number = (convertRow n t r).number ∧ ∀ f, (t, f) ≠ (.triggers, .expression) → r'.text f = r.text f := by
  have hids : (convertIds n db t)[i]? = some (convertRow n t r) := by
    rw [convertIds_apply, List.getElem?_map, h]
    rfl
  by_cases ht : t = .triggers
  · subst ht
    rw [getElem?_changedDb_triggers n tmp db h h']
    refine ⟨rfl, fun f hf => ?_⟩
    have hne : f ≠ .expression := fun heq => hf (heq ▸ rfl)
    change Function.update (convertRow n .triggers r).text .expression _ f = r.text f
    rw [Function.update_of_ne hne, convertRow_text]
  · have hrow : (changedDb n tmp db t)[i]? = some (convertRow n t r) := by
      by_cases hn : t = .nodes
      · subst hn
        rw [changedDb_nodes, List.getElem?_append_left (List.getElem?_eq_some_iff.mp hids).1, hids]
      · rw [changedDb_of_ne n tmp db ht hn, hids]
    obtain rfl := Option.some.inj (hrow.symm.trans h')
    exact ⟨rfl, fun f _ => by rw [convertRow_text]⟩

theorem length_changedDb (t : TableName) :
    (changedDb n tmp db t).length = (db t).length + if t = .nodes then 1 else 0 := by
  by_cases ht : t = .triggers
  · subst ht
    simp [changedDb_triggers, triggerRows, convertIds_apply]
  · by_cases hn : t = .nodes
    · subst hn
      simp [changedDb_nodes, convertIds_apply]
    · simp [changedDb_of_ne n tmp db ht hn, convertIds_apply, hn]

/-- What does not look at expressions is a function of the converted rows. -/
theorem map_changedDb {α : Type} {t : TableName} (hn : t ≠ .nodes) (g : Record → α)
    (hg : ∀ r r' : Record, r'.number = r.number →
      (∀ f, (t, f) ≠ (.triggers, .expression) → r'.text f = r.text f) → g r' = g r) :
    (changedDb n tmp db t).map g = (db t).map fun r => g (convertRow n t r) := by
  refine List.ext_getElem? fun i => ?_
  rw [List.getElem?_map, List.getElem?_map]
  have hlen := length_changedDb n tmp db t
  rw [if_neg hn, Nat.add_zero] at hlen
  cases h : (db t)[i]? with
  | none =>
      rw [List.getElem?_eq_none_iff, ← hlen] at h
      rw [List.getElem?_eq_none h]
      rfl
  | some r =>
      have hi : i < (changedDb n tmp db t).length := by
        rw [hlen]
        exact (List.getElem?_eq_some_iff.mp h).1
      have h' := List.getElem?_eq_getElem hi
      obtain ⟨hnumber, htext⟩ := getElem?_changedDb n tmp db h h'
      rw [h', Option.map_some, Option.map_some, hg (convertRow n t r) _ hnumber fun f hf => by
        rw [htext f hf, convertRow_text]]

/-- **The keys of a table are renamed.** -/
theorem renamed_keys {t : TableName} (h : Rekeyed t) :
    Renamed (rename n (syncOf t)) (keys db t) (keys (changedDb n tmp db) t) := by
  obtain ⟨f, hf, hupdates⟩ := h
  have hn : t ≠ .nodes := by
    rintro rfl
    obtain rfl : .nodeid = f := Option.some.inj hf
    rw [columnUpdates_kept.2.2] at hupdates
    cases hupdates
  refine ⟨[], ?_⟩
  rw [Option.mem_def] at hf
  simp only [keys, hf]
  rw [map_changedDb n tmp db hn (fun r => r.number f) fun r r' hnumber _ => congrFun hnumber f, List.map_map,
    List.append_nil]
  exact List.map_congr_left fun r _ => convertRow_number_plain n hupdates r

/-! ## references that follow -/

/-- The columns that are not converted although they designate rows. -/
def PassedOver (t : TableName) (f : FieldName) (r : Record) : Prop :=
  (t, f) = (.sysmaps, .backgroundid) ∨ (t, f) = (.operations, .objectid) ∧ r.number .object ∉ [0, 1]

/-- The column is passed over and kept, or it is renamed as the keys of `t'` are. -/
def Reaches (t : TableName) (f : FieldName) (r : Record) (t' : TableName) : Prop :=
  Rekeyed t' ∧
    (PassedOver t f r ∧ (convertRow n t r).number f = r.number f ∨
      ¬PassedOver t f r ∧ (convertRow n t r).number f = rename n (syncOf t') (r.number f))

/-- A column with a type, for a row of one of the types. -/
theorem reaches_typed {t t' : TableName} {f g : FieldName} {types : List ℤ} (hnodup : types.Nodup)
    (hupdates : columnUpdates t f = typedUpdates t f g types) {r : Record} (hpass : ¬PassedOver t f r)
    (hr : r.number g ∈ types) (hsync : syncOf t' = true) : Reaches n t f r t' := by
  refine ⟨(sync_rekeyed hsync).2, .inr ⟨hpass, ?_⟩⟩
  rw [convertRow_number_typed n hnodup hupdates, if_pos hr, hsync]

theorem elementTable_eq_some {k : ℤ} {t : TableName} (h : elementTable k = some t) :
    k ∈ [0, 1, 2, 3, 4] ∧ syncOf t = true := by
  unfold elementTable at h
  split at h <;> first
    | exact ⟨by decide, typed_sync t (by obtain rfl := Option.some.inj h; decide)⟩
    | cases h

theorem eventTable_eq_some {k : ℤ} {t : TableName} (h : eventTable k = some t) :
    k ∈ [0, 1, 2] ∧ syncOf t = true := by
  unfold eventTable at h
  split at h <;> first
    | exact ⟨by decide, typed_sync t (by obtain rfl := Option.some.inj h; decide)⟩
    | cases h

theorem resourceTable_eq_some {k : ℤ} {t : TableName} (h : resourceTable k = some t) :
    k ∈ [0, 1, 2, 3, 4, 8, 9, 10] ∧ syncOf t = true := by
  unfold resourceTable at h
  split at h <;> first
    | exact ⟨by decide, typed_sync t (by obtain rfl := Option.some.inj h; decide)⟩
    | cases h

theorem operationTable_eq_some {k object : ℤ} {t : TableName} (h : operationTable k object = some t) :
    syncOf t = true := by
  unfold operationTable at h
  split at h
  · split at h <;> first
      | exact typed_sync t (by obtain rfl := Option.some.inj h; decide)
      | cases h
  all_goals first
    | exact typed_sync t (by obtain rfl := Option.some.inj h; decide)
    | cases h

theorem conditionTable_eq_some {k : ℤ} {t : TableName} (h : conditionTable k = some t) : syncOf t = true := by
  unfold conditionTable at h
  split at h <;> first
    | exact typed_sync t (by obtain rfl := Option.some.inj h; decide)
    | cases h

/-- A column with a related table. -/
theorem reaches_rel {t t' : TableName} {f : FieldName} (h : relOf t f = some t') {r : Record}
    (hpass : ¬PassedOver t f r) : t' = .nodes ∨ Reaches n t f r t' := by
  obtain ⟨c, hc, hrel⟩ := Option.bind_eq_some_iff.mp h
  have hname : c.name = f := by simpa using List.find?_some hc
  have hmem := List.mem_of_find?_eq_some hc
  unfold fieldsOf at hmem
  obtain ⟨d, hd⟩ := Option.isSome_iff_exists.mp (getTable_isSome t)
  rw [hd, Option.map_some, Option.getD_some] at hmem
  obtain ⟨hdmem, rfl⟩ := getTable_mem hd
  subst hname
  rcases rel_updates hdmem hmem hrel with hnodes | ⟨hkeys, hupdates⟩
  · exact .inl hnodes
  · exact .inr ⟨hkeys, .inr ⟨hpass, convertRow_number_plain n hupdates r⟩⟩

/-- Every column that designates rows is passed over, or renamed as their keys are. -/
theorem reaches_of_refersTo {t t' : TableName} {f : FieldName} {r : Record} (h : t' ∈ refersTo t f r) :
    t' = .nodes ∨ Reaches n t f r t' := by
  unfold refersTo at h
  split at h
  · rename_i heq
    obtain ⟨rfl, rfl⟩ := Prod.mk.inj heq
    obtain ⟨htype, hsync⟩ := elementTable_eq_some (Option.mem_toList.mp h)
    exact .inr (reaches_typed n (by decide) columnUpdates_elementid (by simp [PassedOver]) htype hsync)
  split at h
  · rename_i heq
    obtain ⟨rfl, rfl⟩ := Prod.mk.inj heq
    obtain ⟨htype, hsync⟩ := eventTable_eq_some (Option.mem_toList.mp h)
    exact .inr (reaches_typed n (by decide) columnUpdates_eventObject (by simp [PassedOver]) htype hsync)
  split at h
  · rename_i heq
    obtain ⟨rfl, rfl⟩ := Prod.mk.inj heq
    have hsync := operationTable_eq_some (Option.mem_toList.mp h)
    by_cases hobject : r.number .object ∈ [0, 1]
    · have hpass : ¬PassedOver .operations .objectid r := by
        rintro (heq | ⟨-, hnot⟩)
        · cases heq
        · exact hnot hobject
      exact .inr (reaches_typed n (by decide) columnUpdates_operationObject hpass hobject hsync)
    · refine .inr ⟨(sync_rekeyed hsync).2, .inl ⟨.inr ⟨rfl, hobject⟩, ?_⟩⟩
      rw [convertRow_number_typed n (by decide) columnUpdates_operationObject, if_neg hobject]
  split at h
  · rename_i heq
    obtain ⟨rfl, rfl⟩ := Prod.mk.inj heq
    obtain ⟨htype, hsync⟩ := resourceTable_eq_some (Option.mem_toList.mp h)
    exact .inr (reaches_typed n (by decide) columnUpdates_resourceid (by simp [PassedOver]) htype hsync)
  split at h
  · rename_i heq
    obtain ⟨rfl, rfl⟩ := Prod.mk.inj heq
    obtain rfl := List.mem_singleton.mp h
    have hsync := typed_sync .images (by decide)
    exact .inr ⟨(sync_rekeyed hsync).2,
      .inl ⟨.inl rfl, convertRow_number_of_nil n columnUpdates_kept.1 r⟩⟩
  rename_i hoperations _ hsysmaps
  have hpass : ¬PassedOver t f r := by
    rintro (heq | ⟨heq, -⟩)
    · exact hsysmaps heq
    · exact hoperations heq
  split at h
  · rename_i heq
    obtain ⟨rfl, hf⟩ := heq
    have hsync := syncOf_of_mem_syncTables h
    refine .inr ⟨(sync_rekeyed hsync).2, .inr ⟨hpass, ?_⟩⟩
    rw [hsync, convertRow_number_plain n (columnUpdates_profiles f (by simpa using hf))]
  · exact reaches_rel n (Option.mem_toList.mp h) hpass

variable {n db}

/-- A value that is kept follows iff it designates nothing. -/
theorem follows_kept_iff (hn : 0 < n) {t : TableName} (ht : Rekeyed t) (v : ℤ) :
    Follows (keys db t) (keys (changedDb n tmp db) t) v v ↔ ¬Designates db t v := by
  rw [follows_self_iff (renamed_keys n tmp db ht), rename_eq_self_iff hn, Designates, not_and']

/-- **A reference follows iff it is not passed over, or designates nothing.** -/
theorem follows_reference_iff (hn : 0 < n) (hnodes : db .nodes = []) {t t' : TableName} {i : ℕ} {r r' : Record}
    (h : (db t)[i]? = some r) (h' : (changedDb n tmp db t)[i]? = some r') {f : FieldName}
    (ht' : t' ∈ refersTo t f r) :
    Follows (keys db t') (keys (changedDb n tmp db) t') (r.number f) (r'.number f) ↔
      (PassedOver t f r → ¬Designates db t' (r.number f)) := by
  rw [(getElem?_changedDb n tmp db h h').1]
  rcases reaches_of_refersTo n ht' with rfl | ⟨hkeys, ⟨hpass, hkept⟩ | ⟨hpass, hrenamed⟩⟩
  · have hempty : keys db .nodes = [] := by
      unfold keys
      split
      · rw [hnodes]
        rfl
      · rfl
    rw [hempty, Designates, hempty]
    simp [Follows.nil]
  · rw [hkept, follows_kept_iff tmp hn hkeys]
    simp [hpass]
  · rw [hrenamed]
    simp [hpass, Follows.of_renamed (renamed_keys n tmp db hkeys)]

theorem exists_changedDb {t : TableName} {r : Record} (h : r ∈ db t) :
    ∃ (i : ℕ) (r' : Record), (db t)[i]? = some r ∧ (changedDb n tmp db t)[i]? = some r' := by
  obtain ⟨i, hi⟩ := List.mem_iff_getElem?.mp h
  have hlt : i < (changedDb n tmp db t).length := by
    rw [length_changedDb]
    exact Nat.lt_add_right _ (List.getElem?_eq_some_iff.mp hi).1
  exact ⟨i, _, hi, List.getElem?_eq_getElem hlt⟩

/-- The references in columns of numbers. -/
theorem references_iff (hn : 0 < n) (hnodes : db .nodes = []) :
    (∀ t (i : ℕ) r r', (db t)[i]? = some r → (changedDb n tmp db t)[i]? = some r' →
      ∀ f, ∀ t' ∈ refersTo t f r,
        Follows (keys db t') (keys (changedDb n tmp db) t') (r.number f) (r'.number f)) ↔
      (∀ r ∈ db .sysmaps, ¬Designates db .images (r.number .backgroundid)) ∧
        ∀ r ∈ db .operations, r.number .object ∉ [0, 1] →
          ∀ t ∈ operationTable (r.number .operationtype) (r.number .object),
            ¬Designates db t (r.number .objectid) := by
  constructor
  · intro h
    constructor
    · intro r hr
      obtain ⟨i, r', hi, hi'⟩ := exists_changedDb (n := n) tmp hr
      have hmem : .images ∈ refersTo .sysmaps .backgroundid r := List.mem_singleton_self _
      exact (follows_reference_iff tmp hn hnodes hi hi' hmem).mp (h _ i r r' hi hi' _ _ hmem) (.inl rfl)
    · intro r hr hobject t ht
      obtain ⟨i, r', hi, hi'⟩ := exists_changedDb (n := n) tmp hr
      have hmem : t ∈ refersTo .operations .objectid r := Option.mem_toList.mpr ht
      exact (follows_reference_iff tmp hn hnodes hi hi' hmem).mp (h _ i r r' hi hi' _ _ hmem)
        (.inr ⟨rfl, hobject⟩)
  · rintro ⟨hbackgrounds, hoperations⟩ t i r r' hi hi' f t' ht'
    refine (follows_reference_iff tmp hn hnodes hi hi' ht').mpr fun hpass => ?_
    rcases hpass with heq | ⟨heq, hobject⟩
    · obtain ⟨rfl, rfl⟩ := Prod.mk.inj heq
      obtain rfl : t' = .images := List.mem_singleton.mp ht'
      exact hbackgrounds r (List.mem_of_getElem? hi)
    · obtain ⟨rfl, rfl⟩ := Prod.mk.inj heq
      exact hoperations r (List.mem_of_getElem? hi) hobject t' (Option.mem_toList.mp ht')

/-- The values of conditions are kept. -/
theorem conditions_iff (hn : 0 < n) :
    (∀ (i : ℕ) r r', (db .conditions)[i]? = some r → (changedDb n tmp db .conditions)[i]? = some r' →
      ∀ t' ∈ conditionTable (r.number .conditiontype), ∀ v, conditionValue r = some v →
        ∃ v', conditionValue r' = some v' ∧
          Follows (keys db t') (keys (changedDb n tmp db) t') v v') ↔
      ∀ r ∈ db .conditions, ∀ t ∈ conditionTable (r.number .conditiontype),
        ∀ v ∈ conditionValue r, ¬Designates db t v := by
  have hkept : ∀ {i : ℕ} {r r' : Record}, (db .conditions)[i]? = some r →
      (changedDb n tmp db .conditions)[i]? = some r' → conditionValue r' = conditionValue r := by
    intro i r r' hi hi'
    obtain ⟨hnumber, htext⟩ := getElem?_changedDb n tmp db hi hi'
    rw [conditionValue, conditionValue, hnumber, convertRow_number_of_nil n columnUpdates_kept.2.1, htext .value (by decide)]
  have hkeys : ∀ {k : ℤ} {t : TableName}, t ∈ conditionTable k → Rekeyed t := fun ht =>
    (sync_rekeyed (conditionTable_eq_some ht)).2
  constructor
  · intro h r hr t ht v hv
    obtain ⟨i, r', hi, hi'⟩ := exists_changedDb (n := n) tmp hr
    obtain ⟨v', hv', hfollows⟩ := h i r r' hi hi' t ht v hv
    rw [hkept hi hi', hv] at hv'
    obtain rfl := Option.some.inj hv'
    exact (follows_kept_iff tmp hn (hkeys ht) v).mp hfollows
  · intro h i r r' hi hi' t ht v hv
    refine ⟨v, by rw [hkept hi hi', hv], ?_⟩
    exact (follows_kept_iff tmp hn (hkeys ht) v).mpr (h r (List.mem_of_getElem? hi) t ht v hv)

/-- The expressions of triggers. -/
theorem expressions_iff (hpos : 0 < n) (hn : n ≤ 999) :
    (∀ (i : ℕ) r r', (db .triggers)[i]? = some r → (changedDb n tmp db .triggers)[i]? = some r' →
      r'.text .expression = renameExpression (rename n (syncOf .functions)) (r.text .expression)) ↔
      ∀ r ∈ db .triggers, ExpressionFits n (r.text .expression) := by
  have hstored : ∀ {i : ℕ} {r r' : Record}, (db .triggers)[i]? = some r →
      (changedDb n tmp db .triggers)[i]? = some r' →
      (r'.text .expression = renameExpression (rename n (syncOf .functions)) (r.text .expression) ↔
        ExpressionFits n (r.text .expression)) := by
    intro i r r' hi hi'
    rw [getElem?_changedDb_triggers n tmp db hi hi', convertTrigger]
    change Function.update (convertRow n .triggers r).text .expression _ .expression = _ ↔ _
    rw [Function.update_self, newExpression, functionPrefix, convertRow_text]
    exact storedExpression_eq_iff hpos hn (tmp i) (r.text .expression)
  constructor
  · intro h r hr
    obtain ⟨i, r', hi, hi'⟩ := exists_changedDb (n := n) tmp hr
    exact (hstored hi hi').mp (h i r r' hi hi')
  · intro h i r r' hi hi'
    exact (hstored hi hi').mpr (h r (List.mem_of_getElem? hi))

/-- The columns of a primary key are converted by an injection. -/
theorem convertRow_number_inj {t : TableName} {f : FieldName} (hf : f ∈ recidOf t) {r s : Record}
    (h : (convertRow n t r).number f = (convertRow n t s).number f) : r.number f = s.number f := by
  obtain ⟨d, hd⟩ := Option.isSome_iff_exists.mp (getTable_isSome t)
  obtain ⟨hmem, rfl⟩ := getTable_mem hd
  have hrecid : f ∈ d.recid := by
    rw [recidOf, hd] at hf
    exact hf
  rcases recid_updates hmem hrecid with hnil | ⟨sync, hplain⟩
  · rwa [convertRow_number_of_nil n hnil, convertRow_number_of_nil n hnil] at h
  · rw [convertRow_number_plain n hplain, convertRow_number_plain n hplain] at h
    exact rename_injective n _ h

/-- The primary keys of converted rows are distinct where those of the rows are. -/
theorem keyOf_convertRow_inj {t : TableName} {r s : Record}
    (h : keyOf t (convertRow n t r) = keyOf t (convertRow n t s)) : keyOf t r = keyOf t s := by
  rw [keyOf, keyOf, List.map_inj_left] at h ⊢
  intro c hc
  have hname : c.name ∈ recidOf t := of_decide_eq_true (List.mem_filter.mp hc).2
  have hvalue := h c hc
  rw [TableField.value, TableField.value] at hvalue ⊢
  by_cases hchar : c.type = .char
  · rw [if_pos hchar, if_pos hchar, convertRow_text, convertRow_text] at hvalue
    rw [if_pos hchar, if_pos hchar, hvalue]
  · rw [if_neg hchar, if_neg hchar] at hvalue
    rw [if_neg hchar, if_neg hchar, convertRow_number_inj hname (Sum.inl.inj hvalue)]

/-- **Primary keys stay distinct.** -/
theorem nodup_changedDb (h : Standalone db) {t : TableName} (ht : recidOf t ≠ []) :
    ((changedDb n tmp db t).map (keyOf t)).Nodup := by
  by_cases hn : t = .nodes
  · subst hn
    rw [changedDb_nodes, convertIds_apply, h.nodes]
    exact List.nodup_singleton _
  · rw [map_changedDb n tmp db hn (keyOf t) fun r r' hnumber htext => List.map_congr_left fun c hc => by
      rw [TableField.value, TableField.value, hnumber, htext c.name]
      intro heq
      obtain ⟨rfl, hname⟩ := Prod.mk.inj heq
      have hexpression : FieldName.expression ∉ recidOf .triggers := by decide
      exact hexpression (hname ▸ of_decide_eq_true (List.mem_filter.mp hc).2)]
    have hkeys := h.primaryKeys t ht
    rw [List.Nodup, List.pairwise_map] at hkeys ⊢
    exact hkeys.imp fun hne heq => hne (keyOf_convertRow_inj heq)

theorem nodup_triggerid (h : Standalone db) : ((db .triggers).map (·.number .triggerid)).Nodup := by
  have hfields := triggers_key
  have hrecid : recidOf .triggers ≠ [] := by
    intro hnil
    rw [hnil] at hfields
    simp at hfields
  have hkeys := h.primaryKeys .triggers hrecid
  rw [List.Nodup, List.pairwise_map] at hkeys ⊢
  refine hkeys.imp fun hne heq => hne ?_
  rw [keyOf, keyOf, hfields]
  exact congrArg (fun v => [Sum.inl v]) heq

/-! ## the conversion -/

/-- **Where the conversion is a renaming**: a standalone database is renamed to the node
iff no reference is in a column that is passed over, and the expressions hold function
identifiers in braces and nothing else, and fit their column after it as before. -/
theorem changeNodeid_isRenaming_iff {n : ℕ} (hpos : 1 ≤ n) (hn : n ≤ 999) (tmp : ℕ → UInt64) {db : Database}
    (h : Standalone db) :
    (∃ db', changeNodeid tmp 0 n db = .ok db' ∧ IsRenaming n db db') ↔ Convertible n db := by
  rw [changeNodeid_eq hn tmp (nodup_triggerid h)]
  constructor
  · rintro ⟨db', heq, hrenaming⟩
    split at heq
    · obtain rfl := Except.ok.inj heq
      obtain ⟨hbackgrounds, hoperations⟩ := (references_iff tmp hpos h.nodes).mp hrenaming.references
      exact ⟨(conditions_iff tmp hpos).mp hrenaming.conditions, hbackgrounds, hoperations,
        (expressions_iff tmp hpos hn).mp hrenaming.expressions⟩
    · cases heq
  · intro hconvertible
    refine ⟨changedDb n tmp db, if_pos ?_, ?_⟩
    · intro p hp
      have hmem : p.1 ∈ convertIds n db .triggers := by
        rw [← map_fst_triggerRows tmp (convertIds n db .triggers)]
        exact List.mem_map_of_mem hp
      rw [convertIds_apply] at hmem
      obtain ⟨r, hr, hrow⟩ := List.mem_map.mp hmem
      rw [newExpression, functionPrefix, ← hrow, convertRow_text]
      exact length_convertExpression_lt hpos hn (hconvertible.expressions r hr) p.2
    · exact {
        rows := fun t => by
          rw [length_changedDb]
          exact Nat.le_add_right ..
        primaryKeys := fun t ht => nodup_changedDb tmp h ht
        references := (references_iff tmp hpos h.nodes).mpr ⟨hconvertible.backgrounds, hconvertible.operations⟩
        conditions := (conditions_iff tmp hpos).mpr hconvertible.conditions
        expressions := (expressions_iff tmp hpos hn).mpr hconvertible.expressions }

/-! ## a database with a condition -/

/-- A row with one number and one text. -/
def sampleRow (f : FieldName) (v : ℤ) (g : FieldName) (s : List UInt8) : Record where
  number := fun f' => if f' = f then v else 0
  text := fun g' => if g' = g then s else []

/-- A host, a trigger with its function, and a condition of a type on `10017`. -/
def sampleDb (conditiontype : ℤ) : Database := fun t =>
  if t = .hosts then [sampleRow .hostid 10017 .name []]
  else if t = .triggers then [sampleRow .triggerid 13 .expression (bytes "{12}>5")]
  else if t = .functions then [sampleRow .functionid 12 .name []]
  else if t = .conditions then [sampleRow .conditiontype conditiontype .value (bytes "10017")]
  else []

theorem conditionValue_sample {conditiontype : ℤ} (h : conditiontype ≠ 13) :
    conditionValue (sampleRow .conditiontype conditiontype .value (bytes "10017")) = some 10017 := by
  have htext : bytes "10017" = ui64 10017 := by decide
  have htype : (sampleRow .conditiontype conditiontype .value (bytes "10017")).number .conditiontype ≠ 13 := h
  rw [conditionValue, if_neg htype, htext]
  change (zbxStr2uint64 (ui64 10017)).map _ = _
  rw [zbxStr2uint64_ui64]
  rfl

theorem sampleRow_number {f : FieldName} {v : ℤ} (hv : 0 ≤ v ∧ v < 10 ^ 14) (g : FieldName) (s : List UInt8)
    (f' : FieldName) : 0 ≤ (sampleRow f v g s).number f' ∧ (sampleRow f v g s).number f' < 10 ^ 14 := by
  simp only [sampleRow]
  split
  · exact hv
  · decide

theorem sampleDb_standalone {conditiontype : ℤ} (hv : 0 ≤ conditiontype ∧ conditiontype < 10 ^ 14) :
    Standalone (sampleDb conditiontype) where
  nodes := rfl
  primaryKeys t _ := by
    unfold sampleDb
    split_ifs <;> simp
  ids t f _ _ r hr := by
    unfold sampleDb at hr
    split_ifs at hr
    · exact List.mem_singleton.mp hr ▸ sampleRow_number (by decide) ..
    · exact List.mem_singleton.mp hr ▸ sampleRow_number (by decide) ..
    · exact List.mem_singleton.mp hr ▸ sampleRow_number (by decide) ..
    · exact List.mem_singleton.mp hr ▸ sampleRow_number hv ..
    · cases hr
  expressions r hr := by
    obtain rfl := List.mem_singleton.mp hr
    decide

/-- A condition on a time period, whose value is no identifier. -/
theorem changeNodeid_isRenaming_timePeriod :
    ∃ db', changeNodeid (fun _ => 0) 0 1 (sampleDb 6) = .ok db' ∧ IsRenaming 1 (sampleDb 6) db' := by
  refine (changeNodeid_isRenaming_iff (n := 1) (by decide) (by decide) (fun _ => 0)
    (sampleDb_standalone (by decide))).mpr ⟨?_, ?_, ?_, ?_⟩
  · intro r hr t ht
    obtain rfl := List.mem_singleton.mp hr
    cases ht
  · exact fun r hr => nomatch hr
  · exact fun r hr => nomatch hr
  · intro r hr
    obtain rfl := List.mem_singleton.mp hr
    exact ⟨by decide, by decide⟩

/-- **A condition on a host does not follow it.** -/
theorem changeNodeid_condition_lost :
    Standalone (sampleDb 1) ∧
      ¬∃ db', changeNodeid (fun _ => 0) 0 1 (sampleDb 1) = .ok db' ∧ IsRenaming 1 (sampleDb 1) db' := by
  have hstandalone := sampleDb_standalone (by decide : (0 : ℤ) ≤ 1 ∧ (1 : ℤ) < 10 ^ 14)
  refine ⟨hstandalone, ?_⟩
  rintro ⟨db', heq, hrenaming⟩
  have hrun := changeNodeid_eq (n := 1) (by decide) (fun _ => 0) (nodup_triggerid hstandalone)
  rw [show ((1 : ℕ) : ℤ) = 1 from rfl, heq] at hrun
  split at hrun
  · obtain rfl := Except.ok.inj hrun
    have hvalue := (conditions_iff _ (by decide)).mp hrenaming.conditions _ (List.mem_singleton_self _)
      .hosts (by decide) 10017 (conditionValue_sample (by decide))
    exact hvalue ⟨by decide, by decide⟩
  · cases hrun

end Zabbix.NodeChange
