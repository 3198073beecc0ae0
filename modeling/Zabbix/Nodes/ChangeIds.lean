import Zabbix.Nodes.NodeChange

/-!
# Zabbix.Nodes.ChangeIds

What the updates of `change_nodeid` make of a row.

An update is for one table and one column, and no update changes a column that
says what another one holds.  So every row is converted for itself
(`convertIds_apply`), and each of its columns by the updates for this column alone
(`convertRow_number`).  A column with a single update goes by `rename`
(`updateValue_plain`), one whose updates go by a type goes by `rename` where the type
is one of those (`updateValue_typed`).
-/

namespace Zabbix.NodeChange

/-- The identifier that stands for `v` on the node. -/
def rename (newId : ℕ) (sync : Bool) (v : ℤ) : ℤ := if 0 < v then v + prefixOf newId sync else v

theorem rename_injective (newId : ℕ) (sync : Bool) : Function.Injective (rename newId sync) := by
  intro v w h
  have hpre : (0 : ℤ) ≤ prefixOf newId sync := Int.natCast_nonneg _
  unfold rename at h
  split at h <;> split at h <;> omega

theorem prefixOf_pos {newId : ℕ} (h : 0 < newId) (sync : Bool) : 0 < prefixOf newId sync := by
  unfold prefixOf
  omega

/-- Only what designates nothing is kept. -/
theorem rename_eq_self_iff {newId : ℕ} (h : 0 < newId) (sync : Bool) (v : ℤ) :
    v = rename newId sync v ↔ ¬0 < v := by
  have hpre := prefixOf_pos h sync
  unfold rename
  split <;> omega

variable (n : ℕ)

/-! ## one row -/

/-- The updates for a table. -/
def tableUpdates (t : TableName) : List IdUpdate :=
  ((getTable t).map fun d => d.fields.flatMap (convertField d)).getD []

/-- The updates for a column are for this column. -/
theorem column_of_mem_convertField {d : DbTable} {c : TableField} {u : IdUpdate} (h : u ∈ convertField d c) :
    u.table = d.table ∧ u.field = c.name := by
  unfold convertField at h
  split at h
  · rename_i s hs
    have hcolumn : s.tableName = d.table ∧ s.fieldName = c.name := by simpa using List.find?_some hs
    obtain ⟨conv, -, hu⟩ := List.mem_flatMap.mp h
    unfold convertSpecialField at hu
    split at hu
    · cases hu
    · rw [List.mem_singleton.mp hu]
      exact hcolumn
  · split at h
    · split at h
      · rw [List.mem_singleton.mp h]
        exact ⟨rfl, rfl⟩
      · split at h
        · split at h
          · cases h
          · rw [List.mem_singleton.mp h]
            exact ⟨rfl, rfl⟩
        · split at h
          · rename_i heq
            rw [List.mem_singleton.mp h, heq]
            exact ⟨rfl, rfl⟩
          · cases h
    · cases h

/-- Where no table is there twice, the updates for a table are those of its columns. -/
theorem filter_flatMap_updates {ds : List DbTable} (hnodup : (ds.map (·.table)).Nodup) (t : TableName) :
    (ds.flatMap fun d => d.fields.flatMap (convertField d)).filter (·.table = t) =
      ((ds.find? (·.table = t)).map fun d => d.fields.flatMap (convertField d)).getD [] := by
  induction ds with
  | nil => rfl
  | cons d ds ih =>
      obtain ⟨hd, hds⟩ := List.nodup_cons.mp hnodup
      have htable : ∀ u ∈ d.fields.flatMap (convertField d), u.table = d.table := fun u hu => by
        obtain ⟨c, -, hc⟩ := List.mem_flatMap.mp hu
        exact (column_of_mem_convertField hc).1
      rw [List.flatMap_cons, List.filter_append, ih hds]
      by_cases ht : d.table = t
      · subst ht
        have hself : (d.fields.flatMap (convertField d)).filter (·.table = d.table) =
            d.fields.flatMap (convertField d) := List.filter_eq_self.mpr fun u hu => by simpa using htable u hu
        have hnone : ds.find? (·.table = d.table) = none := by
          rw [List.find?_eq_none]
          intro d' hd' heq
          exact hd (List.mem_map.mpr ⟨d', hd', of_decide_eq_true heq⟩)
        rw [hself, hnone, List.find?_cons_of_pos (by simp)]
        simp
      · have hnil : (d.fields.flatMap (convertField d)).filter (·.table = t) = [] := by
          rw [List.filter_eq_nil_iff]
          intro u hu heq
          exact ht ((htable u hu).symm.trans (of_decide_eq_true heq))
        rw [hnil, List.nil_append, List.find?_cons_of_neg (by simpa using ht)]

theorem filter_idUpdates (t : TableName) : idUpdates.filter (·.table = t) = tableUpdates t :=
  filter_flatMap_updates tables_nodup t

/-- The updates, on one row of a table. -/
def convertRow (t : TableName) (r : Record) : Record := (tableUpdates t).foldl (fun r u => u.row n r) r

theorem foldl_run (us : List IdUpdate) (db : Database) (t : TableName) :
    us.foldl (fun db u => u.run n db) db t =
      (db t).map fun r => (us.filter (·.table = t)).foldl (fun r u => u.row n r) r := by
  induction us generalizing db with
  | nil => simp
  | cons u us ih =>
      rw [List.foldl_cons, ih, IdUpdate.run]
      by_cases hu : u.table = t
      · rw [if_pos hu.symm, List.filter_cons_of_pos (by simpa using hu), List.map_map]
        rfl
      · rw [if_neg (Ne.symm hu), List.filter_cons_of_neg (by simpa using hu)]

/-- Every row is converted for itself. -/
theorem convertIds_apply (db : Database) (t : TableName) :
    convertIds n db t = (db t).map (convertRow n t) := by
  rw [convertIds, foldl_run, filter_idUpdates]
  rfl

@[simp] theorem IdUpdate.row_text (u : IdUpdate) (r : Record) : (u.row n r).text = r.text := by
  unfold IdUpdate.row
  split <;> rfl

theorem foldl_row_text (us : List IdUpdate) (r : Record) :
    (us.foldl (fun r u => u.row n r) r).text = r.text := by
  induction us generalizing r with
  | nil => rfl
  | cons u us ih => rw [List.foldl_cons, ih, IdUpdate.row_text]

/-- Texts are not touched. -/
@[simp] theorem convertRow_text (t : TableName) (r : Record) : (convertRow n t r).text = r.text :=
  foldl_row_text n _ r

theorem IdUpdate.row_number_of_ne (u : IdUpdate) (r : Record) {f : FieldName} (h : f ≠ u.field) :
    (u.row n r).number f = r.number f := by
  unfold IdUpdate.row
  split
  · exact Function.update_of_ne h ..
  · rfl

theorem IdUpdate.row_number (u : IdUpdate) (r : Record) :
    (u.row n r).number u.field =
      if u.Applies r ∧ 0 < r.number u.field then r.number u.field + prefixOf n u.sync else r.number u.field := by
  unfold IdUpdate.row
  split
  · exact Function.update_self ..
  · rfl

/-! ## one column -/

/-- The updates for a column. -/
def columnUpdates (t : TableName) (f : FieldName) : List IdUpdate := (tableUpdates t).filter (·.field = f)

/-- Where no column is there twice, the updates for a column are those of its own. -/
theorem filter_flatMap_column {d : DbTable} {cs : List TableField} (hnodup : (cs.map (·.name)).Nodup)
    {c : TableField} (hc : c ∈ cs) :
    (cs.flatMap (convertField d)).filter (·.field = c.name) = convertField d c := by
  induction cs with
  | nil => exact nomatch hc
  | cons c' cs ih =>
      obtain ⟨hc', hcs⟩ := List.nodup_cons.mp hnodup
      rw [List.flatMap_cons, List.filter_append]
      rcases List.mem_cons.mp hc with rfl | hc
      · have hself : (convertField d c).filter (·.field = c.name) = convertField d c :=
          List.filter_eq_self.mpr fun u hu => decide_eq_true (column_of_mem_convertField hu).2
        have hnil : (cs.flatMap (convertField d)).filter (·.field = c.name) = [] := by
          rw [List.filter_eq_nil_iff]
          intro u hu heq
          obtain ⟨c', hmem, hu⟩ := List.mem_flatMap.mp hu
          refine hc' (List.mem_map.mpr ⟨c', hmem, ?_⟩)
          exact (column_of_mem_convertField hu).2.symm.trans (of_decide_eq_true heq)
        rw [hself, hnil, List.append_nil]
      · have hnil : (convertField d c').filter (·.field = c.name) = [] := by
          rw [List.filter_eq_nil_iff]
          intro u hu heq
          refine hc' (List.mem_map.mpr ⟨c, hc, ?_⟩)
          exact (of_decide_eq_true heq).symm.trans (column_of_mem_convertField hu).2
        rw [hnil, List.nil_append, ih hcs hc]

/-- The updates for a column of the schema. -/
theorem columnUpdates_eq {d : DbTable} (hd : d ∈ tables) {c : TableField} (hc : c ∈ d.fields) :
    columnUpdates d.table c.name = convertField d c := by
  rw [columnUpdates, tableUpdates, getTable_of_mem hd]
  exact filter_flatMap_column (fields_nodup d hd) hc

/-- Updates of one column, one after the other, in a row whose types are those of `r`. -/
def updateValue (r : Record) (us : List IdUpdate) (v : ℤ) : ℤ :=
  us.foldl (fun v u => if u.Applies r ∧ 0 < v then v + prefixOf n u.sync else v) v

/-- The columns that say what others hold are not changed. -/
theorem types_kept (t : TableName) :
    ∀ u ∈ tableUpdates t, ∀ p ∈ u.type, ∀ u' ∈ tableUpdates t, u'.field ≠ p.1 := by
  have hall : ∀ d ∈ tables, ∀ u ∈ tableUpdates d.table, ∀ p ∈ u.type, ∀ u' ∈ tableUpdates d.table,
      u'.field ≠ p.1 := by
    decide
  obtain ⟨d, hd⟩ := Option.isSome_iff_exists.mp (getTable_isSome t)
  obtain ⟨hmem, rfl⟩ := getTable_mem hd
  exact hall d hmem

theorem foldl_row_number {us : List IdUpdate} (r₀ : Record) {r : Record} (f : FieldName)
    (htypes : ∀ u ∈ us, ∀ p ∈ u.type, ∀ u' ∈ us, u'.field ≠ p.1)
    (hr : ∀ u ∈ us, u.Applies r ↔ u.Applies r₀) :
    (us.foldl (fun r u => u.row n r) r).number f = updateValue n r₀ (us.filter (·.field = f)) (r.number f) := by
  induction us generalizing r with
  | nil => rfl
  | cons u us ih =>
      have hih := ih (r := u.row n r) (fun u hu p hp u' hu' =>
          htypes u (List.mem_cons_of_mem _ hu) p hp u' (List.mem_cons_of_mem _ hu')) (fun u' hu' => by
        rw [← hr u' (List.mem_cons_of_mem _ hu')]
        refine forall_congr' fun p => forall_congr' fun hp => ?_
        rw [IdUpdate.row_number_of_ne n u r
          (htypes u' (List.mem_cons_of_mem _ hu') p hp u List.mem_cons_self).symm])
      rw [List.foldl_cons, hih]
      by_cases hf : u.field = f
      · subst hf
        rw [List.filter_cons_of_pos (by simp), IdUpdate.row_number, updateValue, updateValue, List.foldl_cons]
        simp only [hr u List.mem_cons_self]
      · rw [List.filter_cons_of_neg (by simpa using hf), IdUpdate.row_number_of_ne n u r (Ne.symm hf)]

/-- A column is converted by its own updates. -/
theorem convertRow_number (t : TableName) (f : FieldName) (r : Record) :
    (convertRow n t r).number f = updateValue n r (columnUpdates t f) (r.number f) :=
  foldl_row_number n r f (types_kept t) fun _ _ => Iff.rfl

theorem convertRow_number_of_nil {t : TableName} {f : FieldName} (h : columnUpdates t f = []) (r : Record) :
    (convertRow n t r).number f = r.number f := by
  rw [convertRow_number, h]
  rfl

/-- A column with a single update, without a type. -/
theorem convertRow_number_plain {t t' : TableName} {f f' : FieldName} {sync : Bool}
    (h : columnUpdates t f = [⟨t', f', sync, none⟩]) (r : Record) :
    (convertRow n t r).number f = rename n sync (r.number f) := by
  rw [convertRow_number, h]
  have happ : (⟨t', f', sync, none⟩ : IdUpdate).Applies r := fun p hp => nomatch hp
  simp only [updateValue, List.foldl_cons, List.foldl_nil, happ, true_and]
  rfl

/-- Updates of one column that go by a type, one for each of `types`. -/
def typedUpdates (t : TableName) (f g : FieldName) (types : List ℤ) : List IdUpdate :=
  types.map fun k => ⟨t, f, true, some (g, k)⟩

theorem updateValue_typed {t : TableName} {f g : FieldName} {types : List ℤ} (hnodup : types.Nodup)
    (r : Record) (v : ℤ) :
    updateValue n r (typedUpdates t f g types) v = if r.number g ∈ types then rename n true v else v := by
  induction types generalizing v with
  | nil => rfl
  | cons k types ih =>
      obtain ⟨hk, htail⟩ := List.nodup_cons.mp hnodup
      have happ : (⟨t, f, true, some (g, k)⟩ : IdUpdate).Applies r ↔ r.number g = k := by
        simp [IdUpdate.Applies]
      have hstep : updateValue n r (typedUpdates t f g (k :: types)) v =
          updateValue n r (typedUpdates t f g types) (if r.number g = k then rename n true v else v) := by
        simp only [updateValue, typedUpdates, List.map_cons, List.foldl_cons, happ, rename]
        by_cases hg : r.number g = k <;> simp [hg]
      rw [hstep, ih htail]
      by_cases hg : r.number g = k
      · rw [if_pos hg, if_neg (hg ▸ hk), if_pos (hg ▸ List.mem_cons_self)]
      · simp [hg]

/-- A column whose updates go by a type. -/
theorem convertRow_number_typed {t : TableName} {f g : FieldName} {types : List ℤ} (hnodup : types.Nodup)
    (h : columnUpdates t f = typedUpdates t f g types) (r : Record) :
    (convertRow n t r).number f =
      if r.number g ∈ types then rename n true (r.number f) else r.number f := by
  rw [convertRow_number, h, updateValue_typed n hnodup]

end Zabbix.NodeChange
