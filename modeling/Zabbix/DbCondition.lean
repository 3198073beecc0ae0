import Zabbix.Lib.InList
import Zabbix.Lib.Printf
import Zabbix.Str

/-!
# Zabbix.DbCondition

Conditions on many identifiers: `DBadd_condition_alloc` of `libs/zbxdbhigh/db.c`, in a buffer that grows
(`zbx_snprintf_alloc`, `libs/zbxcommon/str.c`).

* `dbAddConditionAlloc_eq` — the condition that is written;
* `condition_written` — its lists, and the rows that it selects.
-/

namespace Zabbix

open Ascii Printf

/-! ## The buffer -/

/-- A text in allocated memory, with room for the NUL behind it. -/
structure SqlBuffer where
  alloc : ℕ
  text : List UInt8
  length_lt : text.length < alloc

/-- `while (*offset + max_len >= *alloc_len) *alloc_len *= 2;` -/
def growAlloc (alloc need : ℕ) : ℕ :=
  if h : 0 < alloc ∧ alloc ≤ need then growAlloc (alloc * 2) need else alloc
termination_by need + 1 - alloc
decreasing_by omega

theorem lt_growAlloc {alloc need : ℕ} (h : 0 < alloc) : need < growAlloc alloc need := by
  fun_induction growAlloc alloc need with
  | case1 alloc hgrow ih => exact ih (by omega)
  | case2 alloc hstop => omega

namespace SqlBuffer

variable (s : SqlBuffer)

theorem length_printf_lt (maxLen : ℕ) (text : List UInt8) :
    (zbxSnprintfAlloc s.text maxLen text).length < growAlloc s.alloc (s.text.length + maxLen) := by
  have hgrow : s.text.length + maxLen < growAlloc s.alloc (s.text.length + maxLen) :=
    lt_growAlloc (Nat.zero_lt_of_lt s.length_lt)
  rw [zbxSnprintfAlloc, List.length_append, zbxVsnprintf, List.length_take]
  omega

/-- `zbx_snprintf_alloc` -/
def printf (maxLen : ℕ) (text : List UInt8) : SqlBuffer :=
  ⟨growAlloc s.alloc (s.text.length + maxLen), zbxSnprintfAlloc s.text maxLen text, s.length_printf_lt maxLen text⟩

/-- `(*sql_offset)--` -/
def back : SqlBuffer := ⟨s.alloc, s.text.dropLast, (List.dropLast_sublist _).length_le.trans_lt s.length_lt⟩

@[simp] theorem text_back : s.back.text = s.text.dropLast := rfl

variable {s} in
theorem text_printf {maxLen : ℕ} {text : List UInt8} (h : text.length < maxLen) :
    (s.printf maxLen text).text = s.text ++ text := congrArg (s.text ++ ·) (zbxVsnprintf_of_lt h)

end SqlBuffer

/-! ## The condition -/

/-- `MAX_EXPRESSIONS` -/
def maxExpressions : ℕ := 950

/-- `"%s in ("` -/
def listHead (fieldname : List UInt8) : List UInt8 := fieldname ++ bytes " in ("

/-- The loop of `DBadd_condition_alloc`, from the value with number `i` on. -/
def conditionLoop (fieldname : List UInt8) : (i : ℕ) → SqlBuffer → List UInt64 → SqlBuffer
  | _, sql, [] => sql
  | i, sql, v :: values =>
      let sql :=
        if i % maxExpressions = 0 then
          (if i ≠ 0 then sql.back.printf 8 (bytes ") or ") else sql).printf 128 (listHead fieldname)
        else sql
      conditionLoop fieldname (i + 1) (sql.printf 128 (ui64 v ++ bytes ",")) values

/-- `DBadd_condition_alloc` -/
def dbAddConditionAlloc (sql : SqlBuffer) (fieldname : List UInt8) (values : List UInt64) : SqlBuffer :=
  if values.length = 0 then sql
  else
    let sql := sql.printf 2 (bytes " ")
    let sql := if maxExpressions < values.length then sql.printf 2 (bytes "(") else sql
    let sql := (conditionLoop fieldname 0 sql values).back.printf 2 (bytes ")")
    if maxExpressions < values.length then sql.printf 2 (bytes ")") else sql

/-! ## What is written -/

/-- The values of a list, each with a comma behind it. -/
def commaText (values : List UInt64) : List UInt8 := values.flatMap fun v => ui64 v ++ bytes ","

theorem commaText_ne_nil {values : List UInt64} (h : values ≠ []) : commaText values ≠ [] := by
  have hcomma : bytes "," = [comma] := by decide
  obtain ⟨v, vs, rfl⟩ := List.exists_cons_of_ne_nil h
  simp [commaText, hcomma]

theorem commaText_append_singleton (values : List UInt64) (v : UInt64) :
    commaText (values ++ [v]) = commaText values ++ (ui64 v ++ bytes ",") := by
  rw [commaText, commaText, List.flatMap_append, List.flatMap_singleton]

/-- The last comma goes. -/
theorem dropLast_commaText {values : List UInt64} (h : values ≠ []) :
    (commaText values).dropLast = List.intercalate [comma] (values.map ui64) := by
  have hcomma : bytes "," = [comma] := by decide
  induction values with
  | nil => exact absurd rfl h
  | cons v values ih =>
      cases values with
      | nil => simp [commaText, hcomma, List.intercalate]
      | cons w values =>
          have hne : commaText (w :: values) ≠ [] := commaText_ne_nil (List.cons_ne_nil _ _)
          have hcons : commaText (v :: w :: values) = ui64 v ++ [comma] ++ commaText (w :: values) := by
            rw [commaText, List.flatMap_cons, hcomma]
            rfl
          rw [hcons, List.dropLast_append_of_ne_nil hne, ih (List.cons_ne_nil _ _), List.map_cons, List.map_cons,
            List.map_cons, List.intercalate_cons_cons, List.append_assoc]

/-- The lists of groups, as the loop leaves them. -/
def openText (fieldname : List UInt8) : List (List UInt64) → List UInt8
  | [] => []
  | [g] => listHead fieldname ++ commaText g
  | g :: gs => listHead fieldname ++ (commaText g).dropLast ++ bytes ") or " ++ openText fieldname gs

theorem openText_cons (fieldname : List UInt8) (g : List UInt64) {gs : List (List UInt64)} (h : gs ≠ []) :
    openText fieldname (g :: gs) =
      listHead fieldname ++ (commaText g).dropLast ++ bytes ") or " ++ openText fieldname gs := by
  rw [openText]
  exact h

theorem length_ui64_comma_lt (v : UInt64) : (ui64 v ++ bytes ",").length < 128 := by
  have hcomma : (bytes ",").length = 1 := by decide
  have := length_ui64_le v
  rw [List.length_append, hcomma]
  omega

/-- The loop goes from group to group. -/
theorem text_conditionLoop {fieldname : List UInt8} (hname : (listHead fieldname).length < 128) (before : List UInt8)
    {cur : List UInt64} (hcur : 0 < cur.length) (hle : cur.length ≤ maxExpressions) {i : ℕ} (hpos : i ≠ 0)
    (hi : i ≡ cur.length [MOD maxExpressions]) {sql : SqlBuffer}
    (hsql : sql.text = before ++ listHead fieldname ++ commaText cur) (values : List UInt64) :
    (conditionLoop fieldname i sql values).text =
      before ++ openText fieldname (InList.groups maxExpressions cur values) := by
  induction values generalizing before cur i sql with
  | nil => rw [conditionLoop, hsql, InList.groups, openText, List.append_assoc]
  | cons v values ih =>
      rw [conditionLoop, InList.groups]
      by_cases hfull : cur.length = maxExpressions
      · -- the list is full, and the next one is begun
        have hclose : (bytes ") or ").length < 8 := by decide
        rw [hfull] at hi
        have hmod : i % maxExpressions = 0 := Eq.trans hi (Nat.mod_self _)
        have hzero : i ≡ 0 [MOD maxExpressions] := hmod.trans (Nat.zero_mod _).symm
        have hnext : i + 1 ≡ [v].length [MOD maxExpressions] := hzero.add_right 1
        have htext : (((sql.back.printf 8 (bytes ") or ")).printf 128 (listHead fieldname)).printf 128
            (ui64 v ++ bytes ",")).text =
            (before ++ listHead fieldname ++ (commaText cur).dropLast ++ bytes ") or ") ++ listHead fieldname ++
              commaText [v] := by
          rw [SqlBuffer.text_printf (length_ui64_comma_lt v), SqlBuffer.text_printf hname,
            SqlBuffer.text_printf hclose, SqlBuffer.text_back, hsql,
            List.dropLast_append_of_ne_nil (commaText_ne_nil (List.ne_nil_of_length_pos hcur)),
            ← List.nil_append [v], commaText_append_singleton]
          rfl
        rw [if_pos hfull, if_pos hmod, if_pos hpos, openText_cons _ _ (InList.groups_ne_nil _ _ _)]
        have hrest := ih _ (show 0 < [v].length from Nat.one_pos) (show 1 ≤ maxExpressions by decide)
          (Nat.succ_ne_zero i) hnext htext
        rw [hrest]
        simp only [List.append_assoc]
      · have hlt : cur.length < maxExpressions := Nat.lt_of_le_of_ne hle hfull
        have hmod : i % maxExpressions ≠ 0 := by
          rw [hi, Nat.mod_eq_of_lt hlt]
          omega
        have htext : (sql.printf 128 (ui64 v ++ bytes ",")).text =
            before ++ listHead fieldname ++ commaText (cur ++ [v]) := by
          rw [SqlBuffer.text_printf (length_ui64_comma_lt v), hsql, commaText_append_singleton, List.append_assoc]
        have hlength : (cur ++ [v]).length = cur.length + 1 := List.length_append
        rw [if_neg hfull, if_neg hmod]
        exact ih before (by omega) (by omega) (Nat.succ_ne_zero i) (hlength ▸ Nat.ModEq.add_right 1 hi) htext

/-- The last comma makes room for the last parenthesis. -/
theorem dropLast_openText (fieldname : List UInt8) {gs : List (List UInt64)} (hgs : gs ≠ [])
    (h : ∀ g ∈ gs, g ≠ []) :
    openText fieldname gs ≠ [] ∧
      (openText fieldname gs).dropLast ++ bytes ")" = (InList.Cond.ofGroups fieldname gs).text ui64 := by
  induction gs with
  | nil => exact absurd rfl hgs
  | cons g gs ih =>
      obtain ⟨hg, hgs'⟩ := List.forall_mem_cons.mp h
      have hne : listHead fieldname ≠ [] := by simp [listHead, show bytes " in (" ≠ [] by decide]
      cases gs with
      | nil =>
          refine ⟨by simp [openText, hne], ?_⟩
          rw [openText, List.dropLast_append_of_ne_nil (commaText_ne_nil hg), dropLast_commaText hg,
            InList.Cond.ofGroups, InList.Cond.text, listHead]
      | cons g' gs =>
          obtain ⟨hopen, hrest⟩ := ih (List.cons_ne_nil _ _) hgs'
          rw [openText_cons _ _ (List.cons_ne_nil _ _)]
          refine ⟨by simp [hne], ?_⟩
          have hor : bytes ") or " = bytes ")" ++ bytes " or " := by decide
          rw [List.dropLast_append_of_ne_nil hopen, List.append_assoc, hrest, dropLast_commaText hg, hor,
            InList.Cond.ofGroups_cons _ _ (List.cons_ne_nil _ _), InList.Cond.text, InList.Cond.text, listHead]
          simp only [List.append_assoc]

/-- The condition of some values, whose first one is `v`. -/
def condition (fieldname : List UInt8) (v : UInt64) (values : List UInt64) : InList.Cond UInt64 :=
  let lists := InList.Cond.ofGroups fieldname (InList.groups maxExpressions [v] values)
  if maxExpressions < (v :: values).length then .paren lists else lists

/-- The condition is written behind a blank. -/
theorem dbAddConditionAlloc_eq (sql : SqlBuffer) {fieldname : List UInt8} (hname : (listHead fieldname).length < 128)
    (v : UInt64) (values : List UInt64) :
    (dbAddConditionAlloc sql fieldname (v :: values)).text =
      sql.text ++ bytes " " ++ (condition fieldname v values).text ui64 := by
  have hgroups := InList.groups_ne_nil maxExpressions [v] values
  have hnonempty : ∀ g ∈ InList.groups maxExpressions [v] values, g ≠ [] := fun g hg =>
    List.ne_nil_of_length_pos
      (InList.length_of_mem_groups (show 0 < maxExpressions by decide) (show 0 < [v].length from Nat.one_pos)
        (show 1 ≤ maxExpressions by decide) hg).1
  obtain ⟨hopen, htext⟩ := dropLast_openText fieldname hgroups hnonempty
  have hshort : (bytes " ").length < 2 ∧ (bytes "(").length < 2 ∧ (bytes ")").length < 2 := by decide
  -- the first value opens the first list
  have hloop : ∀ s : SqlBuffer, ((conditionLoop fieldname 0 s (v :: values)).back.printf 2 (bytes ")")).text =
      s.text ++ (InList.Cond.ofGroups fieldname (InList.groups maxExpressions [v] values)).text ui64 := by
    intro s
    have hfirst : ((s.printf 128 (listHead fieldname)).printf 128 (ui64 v ++ bytes ",")).text =
        s.text ++ listHead fieldname ++ commaText [v] := by
      rw [SqlBuffer.text_printf (length_ui64_comma_lt v), SqlBuffer.text_printf hname, ← List.nil_append [v],
        commaText_append_singleton]
      rfl
    have hrest := text_conditionLoop hname s.text (show 0 < [v].length from Nat.one_pos)
      (show 1 ≤ maxExpressions by decide) Nat.one_ne_zero rfl hfirst values
    rw [SqlBuffer.text_printf hshort.2.2, SqlBuffer.text_back, conditionLoop, if_pos (Nat.zero_mod _),
      if_neg (by simp), hrest, List.dropLast_append_of_ne_nil hopen, List.append_assoc, htext]
  rw [dbAddConditionAlloc, if_neg (by simp), condition]
  dsimp only
  split
  · rw [SqlBuffer.text_printf hshort.2.2, hloop, SqlBuffer.text_printf hshort.2.1, SqlBuffer.text_printf hshort.1,
      InList.Cond.text]
    simp only [List.append_assoc]
    rfl
  · rw [hloop, SqlBuffer.text_printf hshort.1]

/-- **Conditions on many values**: what is written behind a blank is a list, or lists joined by `or` in parentheses,
each of the field and with 1 to `MAX_EXPRESSIONS` values; the values are those that are given, in order, and the rows
are selected whose field is among them. -/
theorem condition_written (sql : SqlBuffer) (fieldname : List UInt8) (values : List UInt64)
    (hname : (listHead fieldname).length < 128) (hvalues : values ≠ []) :
    ∃ c : InList.Cond UInt64,
      (dbAddConditionAlloc sql fieldname values).text = sql.text ++ bytes " " ++ c.text ui64 ∧ c.Closed ∧
        (∀ l ∈ c.lists, l.1 = fieldname ∧ 0 < l.2.length ∧ l.2.length ≤ maxExpressions) ∧
        c.lists.flatMap Prod.snd = values ∧ ∀ row, c.Selects row ↔ row fieldname ∈ values := by
  obtain ⟨v, values, rfl⟩ := List.exists_cons_of_ne_nil hvalues
  have hlists : (condition fieldname v values).lists =
      (InList.groups maxExpressions [v] values).map (fieldname, ·) := by
    rw [condition]
    split
    · exact InList.Cond.lists_ofGroups fieldname (InList.groups_ne_nil _ _ _)
    · exact InList.Cond.lists_ofGroups fieldname (InList.groups_ne_nil _ _ _)
  have hflat : (condition fieldname v values).lists.flatMap Prod.snd = v :: values := by
    rw [hlists, List.flatMap_map]
    exact List.flatMap_id'.trans (InList.flatten_groups maxExpressions [v] values)
  have hfield : ∀ l ∈ (condition fieldname v values).lists,
      l.1 = fieldname ∧ 0 < l.2.length ∧ l.2.length ≤ maxExpressions := by
    intro l hl
    rw [hlists, List.mem_map] at hl
    obtain ⟨g, hg, rfl⟩ := hl
    exact ⟨rfl, InList.length_of_mem_groups (by decide) (show 0 < [v].length from Nat.one_pos)
      (show 1 ≤ maxExpressions by decide) hg⟩
  refine ⟨condition fieldname v values, dbAddConditionAlloc_eq sql hname v values, ?_, hfield, hflat, fun row => ?_⟩
  · rw [condition]
    split
    · trivial
    · next hfew =>
        rw [InList.groups_of_le (by simpa [Nat.add_comm] using hfew)]
        exact InList.Cond.closed_ofGroups_singleton _ _
  · rw [InList.Cond.selects_iff, ← hflat, List.mem_flatMap]
    constructor
    · rintro ⟨l, hl, hrow⟩
      exact ⟨l, hl, (hfield l hl).1 ▸ hrow⟩
    · rintro ⟨l, hl, hrow⟩
      exact ⟨l, hl, (hfield l hl).1.symm ▸ hrow⟩

/-- Three identifiers of items, behind a condition. -/
theorem condition_written_three :
    ∃ c : InList.Cond UInt64,
      (dbAddConditionAlloc ⟨64, bytes "where", by decide⟩ (bytes "i.itemid") [5, 7, 11]).text =
          bytes "where" ++ bytes " " ++ c.text ui64 ∧ c.Closed ∧
        (∀ l ∈ c.lists, l.1 = bytes "i.itemid" ∧ 0 < l.2.length ∧ l.2.length ≤ maxExpressions) ∧
        c.lists.flatMap Prod.snd = [5, 7, 11] ∧ ∀ row, c.Selects row ↔ row (bytes "i.itemid") ∈ [5, 7, 11] :=
  condition_written ⟨64, bytes "where", by decide⟩ (bytes "i.itemid") [5, 7, 11] (by decide) (by decide)

end Zabbix
