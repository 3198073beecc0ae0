import Zabbix.Lib.Ascii
import Mathlib.Data.List.Basic
import Mathlib.Tactic

/-!
# SqlStatement

Statements of SQL that set columns of one row, read back to what they set:

```
update table set column=value,… where column=value
insert into table (column,…) values (value,…)
```

How the text of a value is read is up to the database, and a parameter here
(`Reader`).  A value is `Coded` with its text when the text is read as the value,
whatever stands behind it, or is not read at all.  A statement that is put together
from such texts is read as their values, and is not read when one of them is not
(`read_updateText`, `read_insertText`).
-/

namespace SqlStatement

open Ascii

/-- Reads the text of a value for a column of a table: the value, and the text behind
it. -/
abbrev Reader (V : Type) := (table column : List UInt8) → List UInt8 → Option (V × List UInt8)

/-- What a statement sets: the columns of the rows with a key, or a row. -/
inductive Statement (V : Type)
  | update (table : List UInt8) (set : List (List UInt8 × V)) (key : List UInt8 × V)
  | insert (table : List UInt8) (row : List (List UInt8 × V))
deriving DecidableEq

/-! ## reading -/

/-- The text in front of the first `c`, and the text behind it. -/
def upTo (c : UInt8) (text : List UInt8) : Option (List UInt8 × List UInt8) :=
  ([c].isPrefixOf? (text.dropWhile (· ≠ c))).map fun rest => (text.takeWhile (· ≠ c), rest)

/-- `column=value,…`, at most `n` of them. -/
def readSet {V : Type} (read : List UInt8 → List UInt8 → Option (V × List UInt8)) :
    (n : ℕ) → List UInt8 → Option (List (List UInt8 × V) × List UInt8)
  | 0, _ => none
  | n + 1, text => do
      let (column, text) ← upTo equals text
      let (value, text) ← read column text
      match [comma].isPrefixOf? text with
      | none => pure ([(column, value)], text)
      | some text =>
          let (set, text) ← readSet read n text
          pure ((column, value) :: set, text)

/-- `value,…`, one for each of the columns. -/
def readRow {V : Type} (read : List UInt8 → List UInt8 → Option (V × List UInt8)) :
    (columns : List (List UInt8)) → List UInt8 → Option (List (List UInt8 × V) × List UInt8)
  | [], text => pure ([], text)
  | [column], text => (read column text).map fun r => ([(column, r.1)], r.2)
  | column :: columns, text => do
      let (value, text) ← read column text
      let text ← [comma].isPrefixOf? text
      let (row, text) ← readRow read columns text
      pure ((column, value) :: row, text)

variable {V : Type} (read : Reader V)

/-- An `update`. -/
def readUpdate (text : List UInt8) : Option (Statement V) := do
  let text ← (bytes "update ").isPrefixOf? text
  let (table, text) ← upTo space text
  let text ← (bytes "set ").isPrefixOf? text
  let (set, text) ← readSet (read table) text.length text
  let text ← (bytes " where ").isPrefixOf? text
  let (column, text) ← upTo equals text
  let (value, text) ← read table column text
  if text = [] then pure (.update table set (column, value)) else none

/-- An `insert`. -/
def readInsert (text : List UInt8) : Option (Statement V) := do
  let text ← (bytes "insert into ").isPrefixOf? text
  let (table, text) ← upTo space text
  let text ← [lparen].isPrefixOf? text
  let (columns, text) ← upTo rparen text
  let text ← (bytes " values (").isPrefixOf? text
  let (row, text) ← readRow (read table) (columns.splitOn comma) text
  if text = [rparen] then pure (.insert table row) else none

/-- A statement. -/
def readStatement (text : List UInt8) : Option (Statement V) := (readUpdate read text).or (readInsert read text)

@[simp] theorem isPrefixOf?_append (s text : List UInt8) : s.isPrefixOf? (s ++ text) = some text :=
  List.isPrefixOf?_eq_some_iff_append_eq.mpr rfl

theorem upTo_append {c : UInt8} {s : List UInt8} (h : c ∉ s) (text : List UInt8) :
    upTo c (s ++ c :: text) = some (s, text) := by
  have hs : ∀ a ∈ s, decide (a ≠ c) = true := fun a ha => decide_eq_true (ne_of_mem_of_not_mem ha h)
  have htake : (s ++ c :: text).takeWhile (· ≠ c) = s := by
    rw [List.takeWhile_append_of_pos hs, List.takeWhile_cons_of_neg (by simp), List.append_nil]
  have hdrop : (s ++ c :: text).dropWhile (· ≠ c) = [c] ++ text := by
    rw [List.dropWhile_append_of_pos hs, List.dropWhile_cons_of_neg (by simp)]
    rfl
  rw [upTo, htake, hdrop, isPrefixOf?_append, Option.map_some]

/-! ## writing -/

/-- `column=value,…` -/
def setText (set : List (List UInt8 × List UInt8)) : List UInt8 :=
  [comma].intercalate (set.map fun a => a.1 ++ equals :: a.2)

/-- The text of an `update`. -/
def updateText (table : List UInt8) (set : List (List UInt8 × List UInt8)) (key : List UInt8 × List UInt8) :
    List UInt8 :=
  bytes "update " ++ (table ++ space :: (bytes "set " ++ (setText set ++ (bytes " where " ++
    (key.1 ++ equals :: key.2)))))

/-- The text of an `insert`. -/
def insertText (table : List UInt8) (row : List (List UInt8 × List UInt8)) : List UInt8 :=
  bytes "insert into " ++ (table ++ space :: ([lparen] ++ ([comma].intercalate (row.map (·.1)) ++ rparen ::
    (bytes " values (" ++ ([comma].intercalate (row.map (·.2)) ++ [rparen])))))

/-- What may stand behind the text of a value. -/
def Ends (text : List UInt8) : Prop := ∀ c ∈ text.head?, c = comma ∨ c = space ∨ c = rparen

theorem ends_nil : Ends [] := by
  intro c hc
  cases hc

theorem ends_cons {c : UInt8} (h : c = comma ∨ c = space ∨ c = rparen) (text : List UInt8) : Ends (c :: text) := by
  intro d hd
  exact Option.some.inj hd ▸ h

/-- A column with the text of its value, and what the text is read as. -/
structure Coded (table : List UInt8) where
  column : List UInt8
  text : List UInt8
  value : Option V
  comma : comma ∉ column
  equals : equals ∉ column
  rparen : rparen ∉ column
  reads : ∀ rest, Ends rest → read table column (text ++ rest) = value.map fun v => (v, rest)

variable {read} {table : List UInt8}

/-- The column with its value. -/
def Coded.assigned (c : Coded read table) : Option (List UInt8 × V) := c.value.map fun v => (c.column, v)

/-- The column with the text of its value. -/
def Coded.written (c : Coded read table) : List UInt8 × List UInt8 := (c.column, c.text)

/-- **A list of assignments is read as their values.** -/
theorem readSet_setText {cs : List (Coded read table)} (hne : cs ≠ []) {n : ℕ} (hn : cs.length ≤ n)
    {text : List UInt8} (hends : Ends text) (hcomma : text.head? ≠ some comma) :
    readSet (read table) n (setText (cs.map Coded.written) ++ text) =
      (cs.mapM Coded.assigned).map fun set => (set, text) := by
  induction cs generalizing n with
  | nil => contradiction
  | cons c cs ih =>
      obtain ⟨n, rfl⟩ : ∃ k, n = k + 1 := ⟨n - 1, by simp only [List.length_cons] at hn; omega⟩
      cases cs with
      | nil =>
          have hlast : [comma].isPrefixOf? text = none := by
            cases text with
            | nil => rfl
            | cons d text =>
                have hd : comma ≠ d := fun h => hcomma (congrArg some h.symm)
                simp [List.isPrefixOf?, hd]
          have htext : setText ([c].map Coded.written) ++ text = c.column ++ equals :: (c.text ++ text) := by
            simp [setText, Coded.written]
          rw [htext, readSet, upTo_append c.equals]
          simp only [Option.bind_eq_bind, Option.bind_some, c.reads text hends]
          cases hv : c.value with
          | none => simp [Coded.assigned, hv]
          | some v => simp [Coded.assigned, hv, hlast]
      | cons d cs =>
          have htext : setText ((c :: d :: cs).map Coded.written) ++ text =
              c.column ++ equals :: (c.text ++ comma :: (setText ((d :: cs).map Coded.written) ++ text)) := by
            simp [setText, Coded.written, List.intercalate_cons_cons]
          have hnext : [comma].isPrefixOf? (comma :: (setText ((d :: cs).map Coded.written) ++ text)) =
              some (setText ((d :: cs).map Coded.written) ++ text) := isPrefixOf?_append [comma] _
          have hlen : (d :: cs).length ≤ n := by simpa using hn
          rw [htext, readSet, upTo_append c.equals]
          simp only [Option.bind_eq_bind, Option.bind_some, c.reads _ (ends_cons (.inl rfl) _)]
          rw [List.mapM_cons]
          cases hv : c.value with
          | none => simp [Coded.assigned, hv]
          | some v =>
              simp only [Option.map_some, Option.bind_some, hnext, ih (by simp) hlen]
              cases (d :: cs).mapM Coded.assigned <;> simp [Coded.assigned, hv]

/-- The first of several values. -/
theorem readRow_cons (read : List UInt8 → List UInt8 → Option (V × List UInt8)) (column : List UInt8)
    {columns : List (List UInt8)} (hne : columns ≠ []) (text : List UInt8) :
    readRow read (column :: columns) text = (read column text).bind fun value =>
      ([comma].isPrefixOf? value.2).bind fun text => (readRow read columns text).map fun row =>
        ((column, value.1) :: row.1, row.2) := by
  cases columns with
  | nil => contradiction
  | cons d columns =>
      rw [readRow]
      · simp only [Option.map_eq_bind]
        rfl
      · simp

/-- **A list of values is read as the values of the columns.** -/
theorem readRow_text {cs : List (Coded read table)} (hne : cs ≠ []) {text : List UInt8} (hends : Ends text) :
    readRow (read table) (cs.map (·.column)) ([comma].intercalate (cs.map (·.text)) ++ text) =
      (cs.mapM Coded.assigned).map fun row => (row, text) := by
  induction cs with
  | nil => contradiction
  | cons c cs ih =>
      cases cs with
      | nil =>
          simp only [List.map_cons, List.map_nil, List.intercalate_singleton, readRow, c.reads text hends]
          cases hv : c.value <;> simp [Coded.assigned, hv]
      | cons d cs =>
          have htext : [comma].intercalate ((c :: d :: cs).map (·.text)) ++ text =
              c.text ++ comma :: ([comma].intercalate ((d :: cs).map (·.text)) ++ text) := by
            simp [List.intercalate_cons_cons]
          have hnext : [comma].isPrefixOf? (comma :: ([comma].intercalate ((d :: cs).map (·.text)) ++ text)) =
              some ([comma].intercalate ((d :: cs).map (·.text)) ++ text) := isPrefixOf?_append [comma] _
          rw [htext, List.map_cons, readRow_cons _ _ (by simp), c.reads _ (ends_cons (.inl rfl) _), List.mapM_cons]
          cases hv : c.value with
          | none => simp [Coded.assigned, hv]
          | some v =>
              simp only [Option.map_some, Option.bind_some, hnext, ih (by simp)]
              cases (d :: cs).mapM Coded.assigned <;> simp [Coded.assigned, hv]

/-- There is a byte for each assignment. -/
theorem length_le_setText (set : List (List UInt8 × List UInt8)) : set.length ≤ (setText set).length := by
  induction set with
  | nil => simp
  | cons a set ih =>
      cases set with
      | nil =>
          have htext : setText [a] = a.1 ++ equals :: a.2 := by simp [setText]
          rw [htext, List.length_append, List.length_cons, List.length_cons, List.length_nil]
          omega
      | cons b set =>
          have htext : setText (a :: b :: set) = (a.1 ++ equals :: a.2) ++ comma :: setText (b :: set) := by
            simp [setText, List.intercalate_cons_cons]
          simp only [htext, List.length_append, List.length_cons] at ih ⊢
          omega

/-- **An `update` is read as the values that its texts are read as.** -/
theorem read_updateText (htable : space ∉ table) {cs : List (Coded read table)} (hne : cs ≠ [])
    (key : Coded read table) :
    readStatement read (updateText table (cs.map Coded.written) key.written) =
      (cs.mapM Coded.assigned).bind fun set => key.assigned.map fun key => .update table set key := by
  have hset := length_le_setText (cs.map Coded.written)
  have hlen : cs.length ≤ (setText (cs.map Coded.written) ++ (bytes " where " ++
      (key.column ++ equals :: key.text))).length := by
    rw [List.length_map] at hset
    rw [List.length_append]
    omega
  have hends : Ends (bytes " where " ++ (key.column ++ equals :: key.text)) := ends_cons (.inr (.inl rfl)) _
  have hcomma : (bytes " where " ++ (key.column ++ equals :: key.text)).head? ≠ some comma :=
    fun h => absurd (Option.some.inj h) (by decide)
  have hinsert : readInsert read (updateText table (cs.map Coded.written) key.written) = none := rfl
  have hkey := key.reads [] ends_nil
  rw [List.append_nil] at hkey
  rw [readStatement, hinsert, Option.or_none, readUpdate, updateText]
  simp only [isPrefixOf?_append, Option.bind_eq_bind, Option.bind_some, upTo_append htable,
    readSet_setText hne hlen hends hcomma, Coded.written]
  cases cs.mapM Coded.assigned with
  | none => rfl
  | some set =>
      simp only [Option.map_some, Option.bind_some, isPrefixOf?_append, upTo_append key.equals, hkey]
      cases hv : key.value <;> simp [Coded.assigned, hv]

theorem not_mem_intercalate {c d : UInt8} (hcd : c ≠ d) {ls : List (List UInt8)} (h : ∀ l ∈ ls, c ∉ l) :
    c ∉ [d].intercalate ls := by
  induction ls with
  | nil => simp
  | cons l ls ih =>
      rw [List.forall_mem_cons] at h
      cases ls with
      | nil => simpa using h.1
      | cons m ls =>
          rw [List.intercalate_cons_cons, List.mem_append, List.mem_append, List.mem_singleton]
          rintro ((hl | hd) | hls)
          · exact h.1 hl
          · exact hcd hd
          · exact ih h.2 hls

/-- **An `insert` is read as the values that its texts are read as.** -/
theorem read_insertText (htable : space ∉ table) {cs : List (Coded read table)} (hne : cs ≠ []) :
    readStatement read (insertText table (cs.map Coded.written)) =
      (cs.mapM Coded.assigned).map fun row => .insert table row := by
  have hcolumn : ∀ c ∈ cs.map (·.column), comma ∉ c ∧ rparen ∉ c := by
    intro column hcolumn
    obtain ⟨c, -, rfl⟩ := List.mem_map.mp hcolumn
    exact ⟨c.comma, c.rparen⟩
  have hcolumns : rparen ∉ [comma].intercalate (cs.map (·.column)) :=
    not_mem_intercalate (by decide) fun c hc => (hcolumn c hc).2
  have hsplit : ([comma].intercalate (cs.map (·.column))).splitOn comma = cs.map (·.column) :=
    List.splitOn_intercalate comma (fun c hc => (hcolumn c hc).1) (by simpa using hne)
  have hnames : (cs.map Coded.written).map (·.1) = cs.map (·.column) := by
    rw [List.map_map]
    rfl
  have htexts : (cs.map Coded.written).map (·.2) = cs.map (·.text) := by
    rw [List.map_map]
    rfl
  have hupdate : readUpdate read (insertText table (cs.map Coded.written)) = none := rfl
  rw [readStatement, hupdate, Option.none_or, readInsert, insertText, hnames, htexts]
  simp only [isPrefixOf?_append, Option.bind_eq_bind, Option.bind_some, upTo_append htable,
    upTo_append hcolumns, hsplit, readRow_text hne (ends_cons (.inr (.inr rfl)) [])]
  cases cs.mapM Coded.assigned <;> simp

/-- All values are the ones that have been expected. -/
theorem mapM_assigned_iff {α : Type} {l : List α} {coded : α → Coded read table} {f : α → V} :
    (l.map coded).mapM Coded.assigned = some (l.map fun a => ((coded a).column, f a)) ↔
      ∀ a ∈ l, (coded a).value = some (f a) := by
  induction l with
  | nil => simp
  | cons a l ih =>
      rw [List.map_cons, List.mapM_cons, List.forall_mem_cons, ← ih, Coded.assigned]
      cases hv : (coded a).value with
      | none => simp
      | some v => cases (l.map coded).mapM Coded.assigned <;> simp

end SqlStatement
