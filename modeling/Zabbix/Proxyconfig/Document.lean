import Zabbix.Atoi
import Zabbix.Json.Navigate
import Zabbix.Proxyconfig.Send

/-!
# Zabbix.Proxyconfig.Document

The document that the server sends, as a tree.
-/

namespace Zabbix

open Ascii Printf

/-! ## the tree -/

/-- The members of an array of values. -/
def valueMembers (values : List (Option CString × ZbxJsonType)) : Members :=
  values.foldr (fun v rest => .value none v.1 v.2 rest) .nil

/-- The members of an array of arrays of values. -/
def arrayMembers (rows : List (List (Option CString × ZbxJsonType))) : Members :=
  rows.foldr (fun values rest => .node none false (valueMembers values) rest) .nil

/-- The values of a row. -/
def rowValues (table : ZbxTable) (row : DbRow) : List (Option CString × ZbxJsonType) :=
  (some (recidText row.recid), .int) ::
    table.proxied.map fun f => (row.column f.name, proxyconfigType f.type)

/-- The names of the fields. -/
def fieldNames (table : ZbxTable) : List CString := table.recid :: table.proxied.map (·.name)

/-- The members of a table. -/
def tableMembers (table : ZbxTable) (rows : List DbRow) : Members :=
  .node (some (cname "fields")) false (valueMembers ((fieldNames table).map fun name => (some name, .string)))
    (.node (some (cname "data")) false (arrayMembers (rows.map (rowValues table))) .nil)

/-- The members of a document. -/
def documentMembers (tables : List (ZbxTable × List DbRow)) : Members :=
  tables.foldr (fun x rest => .node (some x.1.table) true (tableMembers x.1 x.2) rest) .nil

theorem foldl_step_values (values : List (Option CString × ZbxJsonType)) (fs : List Frame) :
    (values.map fun v => JsonOp.addstring none v.1 v.2).foldl Frame.step fs = Frame.add (valueMembers values) fs := by
  induction values generalizing fs with
  | nil => exact (Frame.add_nil fs).symm
  | cons v values ih =>
      rw [List.map_cons, List.foldl_cons, ih]
      exact Frame.add_add ..

theorem foldl_step_row (table : ZbxTable) (row : DbRow) {fs : List Frame} (hfs : fs ≠ []) :
    (proxyconfigRowOps table row).foldl Frame.step fs =
      Frame.add (.node none false (valueMembers (rowValues table row)) .nil) fs := by
  have hops : proxyconfigRowOps table row =
      .addarray none :: ((rowValues table row).map (fun v => JsonOp.addstring none v.1 v.2) ++ [.close]) := by
    simp [proxyconfigRowOps, rowValues]
  rw [hops]
  exact Frame.foldl_step_node (fun _ => rfl) (fun fs _ => foldl_step_values _ fs) hfs

theorem foldl_step_rows (table : ZbxTable) (rows : List DbRow) {fs : List Frame} (hfs : fs ≠ []) :
    (rows.flatMap (proxyconfigRowOps table)).foldl Frame.step fs =
      Frame.add (arrayMembers (rows.map (rowValues table))) fs := by
  induction rows generalizing fs with
  | nil => exact (Frame.add_nil fs).symm
  | cons row rows ih =>
      rw [List.flatMap_cons, List.foldl_append, foldl_step_row table row hfs, ih (Frame.add_ne_nil _ hfs)]
      exact Frame.add_add ..

theorem foldl_step_table (table : ZbxTable) (rows : List DbRow) {fs : List Frame} (hfs : fs ≠ []) :
    (getProxyconfigTable table rows).foldl Frame.step fs =
      Frame.add (.node (some table.table) true (tableMembers table rows) .nil) fs := by
  have hops : getProxyconfigTable table rows =
      .addobject (some table.table) ::
        ((.addarray (some (cname "fields")) ::
            (((fieldNames table).map fun name => (some name, ZbxJsonType.string)).map
              (fun v => JsonOp.addstring none v.1 v.2) ++ [.close]) ++
          .addarray (some (cname "data")) :: (rows.flatMap (proxyconfigRowOps table) ++ [.close])) ++ [.close]) := by
    simp [getProxyconfigTable, fieldNames, Function.comp_def]
  rw [hops]
  refine Frame.foldl_step_node (fun _ => rfl) (fun fs hfs => ?_) hfs
  rw [List.foldl_append, Frame.foldl_step_node (fun _ => rfl) (fun fs _ => foldl_step_values _ fs) hfs,
    Frame.foldl_step_node (fun _ => rfl) (fun fs hfs => foldl_step_rows table rows hfs) (Frame.add_ne_nil _ hfs)]
  exact Frame.add_add ..

/-- What is sent of the tables. -/
def sentRows (schema : Schema) (rows : CString → List DbRow) (proxyHostid : ℕ) : List (ZbxTable × List DbRow) :=
  (sentTables schema).map fun x => (x.1, proxyconfigSelect rows proxyHostid x.2)

/-- **The document** has an object for every table. -/
theorem jsonDocument_getProxyconfigData (schema : Schema) (rows : CString → List DbRow) (proxyHostid : ℕ) :
    jsonDocument (getProxyconfigData schema rows proxyHostid) =
      documentMembers (sentRows schema rows proxyHostid) := by
  have hfold : ∀ (xs : List (ZbxTable × List DbRow)) (fs : List Frame), fs ≠ [] →
      (xs.flatMap fun x => getProxyconfigTable x.1 x.2).foldl Frame.step fs = Frame.add (documentMembers xs) fs := by
    intro xs
    induction xs with
    | nil => exact fun fs _ => (Frame.add_nil fs).symm
    | cons x xs ih =>
        intro fs hfs
        rw [List.flatMap_cons, List.foldl_append, foldl_step_table x.1 x.2 hfs, ih _ (Frame.add_ne_nil _ hfs)]
        exact Frame.add_add ..
  have hops : getProxyconfigData schema rows proxyHostid =
      (sentRows schema rows proxyHostid).flatMap fun x => getProxyconfigTable x.1 x.2 := by
    rw [getProxyconfigData, sentRows, List.flatMap_map]
  rw [jsonDocument, Frame.run, hops, hfold _ _ (by simp)]
  simp [Frame.add, wrap, Members.children, Members.append]

/-! ## validity -/

/-- The digits of a number that is not zero do not begin with one. -/
theorem head_dec {n : ℕ} (h : 0 < n) : ∃ c s, dec n = c :: s ∧ 49 ≤ c := by
  induction n using Nat.strongRecOn with
  | _ n ih =>
      by_cases hlt : n < 10
      · have hall : ∀ n : Fin 10, 0 < n.val → 49 ≤ (dec n.val).headD 0 := by decide
        have hhead := hall ⟨n, hlt⟩ h
        cases hdec : dec n with
        | nil =>
            rw [hdec] at hhead
            exact absurd hhead (by decide)
        | cons c s =>
            rw [hdec] at hhead
            exact ⟨c, s, rfl, hhead⟩
      · obtain ⟨c, s, hdec, hc⟩ := ih (n / 10) (by omega) (by omega)
        have happend : dec n = dec (n / 10) ++ [(n % 10).digitChar.toUInt8] := by
          rw [dec, Nat.toDigits_of_base_le (by decide) (by omega), List.map_append]
          rfl
        rw [happend, hdec]
        exact ⟨c, _, rfl, hc⟩

/-- What is printed of a number is an integer. -/
theorem isInt_dec (n : ℕ) : JsonText.isInt (dec n) = true := by
  rcases Nat.eq_zero_or_pos n with rfl | hpos
  · decide
  · obtain ⟨c, s, hdec, hc⟩ := head_dec hpos
    have hdigits : ∀ d ∈ c :: s, JsonText.isDigit d = true := by
      rw [← hdec]
      exact fun d hd => isDigit_of_mem_dec hd
    have hminus : c ≠ minus := by
      rintro rfl
      revert hc
      decide
    have hhead := hdigits c (List.mem_cons_self ..)
    rw [JsonText.isDigit, decide_eq_true_eq] at hhead
    have htail : s.all JsonText.isDigit = true :=
      List.all_eq_true.mpr fun d hd => hdigits d (List.mem_cons_of_mem c hd)
    rw [hdec, JsonText.isInt, if_neg hminus, JsonText.isNat]
    simp [hc, hhead.2, htail]

theorem valid_valueMembers {values : List (Option CString × ZbxJsonType)} (h : ∀ v ∈ values, LegalValue v.1 v.2) :
    (valueMembers values).Valid false := by
  induction values with
  | nil => trivial
  | cons v values ih =>
      rw [List.forall_mem_cons] at h
      exact ⟨rfl, h.1, ih h.2⟩

theorem valid_arrayMembers {rows : List (List (Option CString × ZbxJsonType))}
    (h : ∀ values ∈ rows, ∀ v ∈ values, LegalValue v.1 v.2) : (arrayMembers rows).Valid false := by
  induction rows with
  | nil => trivial
  | cons values rows ih =>
      rw [List.forall_mem_cons] at h
      exact ⟨rfl, valid_valueMembers h.1, ih h.2⟩

/-- The columns of a row that are numbers hold such. -/
def DbRow.Typed (table : ZbxTable) (row : DbRow) : Prop :=
  row.recid < 2 ^ 63 ∧ ∀ f ∈ table.proxied, f.type.isNumber = true →
    ∀ v, row.column f.name = some v → IsNumber f.type v.val

theorem legalValue_rowValues {table : ZbxTable} {row : DbRow} (h : row.Typed table) :
    ∀ v ∈ rowValues table row, LegalValue v.1 v.2 := by
  rw [rowValues, List.forall_mem_cons, List.forall_mem_map]
  refine ⟨.inr ⟨rfl, isInt_dec row.recid⟩, fun f hf => ?_⟩
  cases hv : row.column f.name with
  | none => trivial
  | some v =>
      have hnumber := h.2 f hf
      revert hnumber
      cases f.type <;> intro hnumber
      case int | uint | id => exact .inr ⟨rfl, (hnumber rfl v hv).integer rfl⟩
      case char | float | blob | text => exact .inl rfl

theorem valid_tableMembers {table : ZbxTable} {rows : List DbRow} (h : ∀ row ∈ rows, row.Typed table) :
    (tableMembers table rows).Valid true := by
  refine ⟨rfl, valid_valueMembers ?_, rfl, valid_arrayMembers ?_, trivial⟩
  · exact List.forall_mem_map.mpr fun _ _ => .inl rfl
  · exact List.forall_mem_map.mpr fun row hrow => legalValue_rowValues (h row hrow)

theorem valid_documentMembers {tables : List (ZbxTable × List DbRow)}
    (h : ∀ x ∈ tables, ∀ row ∈ x.2, row.Typed x.1) : (documentMembers tables).Valid true := by
  induction tables with
  | nil => trivial
  | cons x tables ih =>
      rw [List.forall_mem_cons] at h
      exact ⟨rfl, valid_tableMembers h.1, ih h.2⟩

end Zabbix
