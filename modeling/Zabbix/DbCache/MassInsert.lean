import Zabbix.DbEscape
import Zabbix.Lib.Printf

/-!
# Zabbix.DbCache.MassInsert

The mass inserts of `libs/zbxdbcache/dbcache.c`.  `DCmass_add_history` and its
siblings build one SQL text out of sections, one for each table.  MySQL gets
one statement with many tuples for each section, the other backends one
statement for each tuple; every fragment goes through `zbx_snprintf_alloc`
with a length cap of its own.

`Insert` says what a section is for: a statement head and rows of fields.
`sqlTokens` is the text that stores the rows of some inserts, each in a
complete tuple.  A text built from sections is that text exactly when every
fragment is shorter than its cap (`massText_eq_iff`).
-/

namespace Zabbix

open Ascii SqlLiteral

/-! ## building the text -/

/-- A formatted VALUES tuple and the length cap of its fragment. -/
structure MassRow where
  values : List UInt8
  maxLen : Nat

/-- A section of a mass insert: `insert into … values ` and the tuples that
its loop formats. -/
structure MassSection where
  head : List UInt8
  rows : List MassRow

/-- One section of a mass insert.  With `HAVE_MYSQL` the last comma is
replaced by the end of the statement; when there is none, the head goes too. -/
def massInsert (b : Backend) (sql : List UInt8) (s : MassSection) : List UInt8 :=
  match b with
  | .mysql =>
      let tmpOffset := sql.length
      let sql := zbxSnprintfAlloc sql 512 s.head
      let sql := s.rows.foldl (fun sql r => zbxSnprintfAlloc sql r.maxLen (r.values ++ bytes ",")) sql
      if sql.getLast? = some comma then zbxSnprintfAlloc sql.dropLast 4 (bytes ";\n")
      else sql.take tmpOffset
  | .oracle | .postgresql | .sqlite3 =>
      s.rows.foldl
        (fun sql r => zbxSnprintfAlloc sql r.maxLen (s.head ++ r.values ++ bytes ";\n")) sql

/-- The text of a mass insert, section by section; `HAVE_ORACLE` wraps it in a
block. -/
def massSql (b : Backend) (sections : List MassSection) : List UInt8 :=
  let sql := if b = .oracle then zbxSnprintfAlloc [] 8 (bytes "begin\n") else []
  let sql := sections.foldl (massInsert b) sql
  if b = .oracle then zbxSnprintfAlloc sql 8 (bytes "end;\n") else sql

/-- What is executed: `sql_offset > 16`, since the block of `HAVE_ORACLE` is
always present. -/
def massExecute (sql : List UInt8) : Option (List UInt8) := if 16 < sql.length then some sql else none

/-! ## what is to be stored -/

/-- A field of a VALUES tuple: a number as printed, or a string literal by the
string that it stands for. -/
inductive Field
  | num (text : List UInt8)
  | str (value : List UInt8)

/-- Rows for one table, each of them a VALUES tuple. -/
structure Insert where
  head : List UInt8
  rows : List (List Field)

def Field.tokens : Field → List Token
  | num text => plain text
  | str value => [.lit value]

/-- Fields separated by commas. -/
def fieldsTokens : List Field → List Token
  | [] => []
  | [f] => f.tokens
  | f :: g :: fs => f.tokens ++ .byte comma :: fieldsTokens (g :: fs)

/-- A VALUES tuple. -/
def rowTokens (row : List Field) : List Token :=
  plain (bytes "(") ++ fieldsTokens row ++ plain (bytes ")")

/-- Tuples separated by commas. -/
def rowsTokens : List (List Field) → List Token
  | [] => []
  | [r] => rowTokens r
  | r :: r' :: rs => rowTokens r ++ plain (bytes ",") ++ rowsTokens (r' :: rs)

/-- The statements that insert the rows: one for all on MySQL, one for each
elsewhere. -/
def insertTokens : Backend → Insert → List Token
  | .mysql, i => if i.rows = [] then [] else plain i.head ++ rowsTokens i.rows ++ plain (bytes ";\n")
  | .oracle, i | .postgresql, i | .sqlite3, i =>
      i.rows.flatMap fun r => plain i.head ++ rowTokens r ++ plain (bytes ";\n")

/-- The text that stores the rows of all inserts. -/
def sqlTokens (b : Backend) (inserts : List Insert) : List Token :=
  plain (if b = .oracle then bytes "begin\n" else []) ++ inserts.flatMap (insertTokens b) ++
    plain (if b = .oracle then bytes "end;\n" else [])

/-- A text stores the inserts, complete and with nothing else. -/
abbrev Stores (b : Backend) (rule : UnescapeRule) (inserts : List Insert) (sql : List UInt8) : Prop :=
  ReadsAs b rule (sqlTokens b inserts) sql

/-! ## sections as texts of their own -/

/-- A fragment as it is formatted. -/
def Backend.fragment (b : Backend) (head : List UInt8) (r : MassRow) : List UInt8 :=
  match b with
  | .mysql => r.values ++ bytes ","
  | .oracle | .postgresql | .sqlite3 => head ++ r.values ++ bytes ";\n"

/-- The bytes of a fragment around its tuple. -/
def Backend.overhead (b : Backend) (head : List UInt8) : Nat :=
  match b with
  | .mysql => 1
  | .oracle | .postgresql | .sqlite3 => head.length + 2

theorem length_fragment (b : Backend) (head : List UInt8) (r : MassRow) :
    (b.fragment head r).length = b.overhead head + r.values.length := by
  have h1 : (bytes ",").length = 1 := by decide
  have h2 : (bytes ";\n").length = 2 := by decide
  cases b <;> simp only [Backend.fragment, Backend.overhead, List.length_append] <;> omega

/-- The end of a section, given its fragments. -/
def Backend.finish (b : Backend) (head fragments : List UInt8) : List UInt8 :=
  match b with
  | .mysql =>
      if (head ++ fragments).getLast? = some comma then (head ++ fragments).dropLast ++ bytes ";\n"
      else []
  | .oracle | .postgresql | .sqlite3 => fragments

/-- What a section adds to the text. -/
def massText (b : Backend) (s : MassSection) : List UInt8 :=
  b.finish s.head (s.rows.flatMap fun r => zbxVsnprintf r.maxLen (b.fragment s.head r))

/-- What a section adds when no fragment is cut. -/
def wholeText (b : Backend) (s : MassSection) : List UInt8 :=
  b.finish s.head (s.rows.flatMap (b.fragment s.head))

/-- Every fragment of a section is shorter than its cap. -/
def MassSection.Fits (b : Backend) (s : MassSection) : Prop :=
  ∀ r ∈ s.rows, (b.fragment s.head r).length < r.maxLen

/-- A statement head: short, and ending with a space. -/
def HeadOk (head : List UInt8) : Prop := head.length < 512 ∧ head.getLast? = some 32

instance (head : List UInt8) : Decidable (HeadOk head) := inferInstanceAs (Decidable (_ ∧ _))

/-- The end of a section touches only what the section wrote. -/
theorem finish_append {head : List UInt8} (hne : head ≠ []) (sql x : List UInt8) :
    (if (sql ++ head ++ x).getLast? = some comma then
        zbxSnprintfAlloc (sql ++ head ++ x).dropLast 4 (bytes ";\n")
      else (sql ++ head ++ x).take sql.length) = sql ++ Backend.finish .mysql head x := by
  have hx : head ++ x ≠ [] := by simp [hne]
  rw [List.append_assoc, List.getLast?_append_of_ne_nil _ hx, List.dropLast_append_of_ne_nil hx,
    Backend.finish]
  split
  · rw [zbxSnprintfAlloc, zbxVsnprintf_of_lt (by decide), List.append_assoc]
  · rw [List.take_left, List.append_nil]

/-- A section appends its text. -/
theorem massInsert_eq (b : Backend) (sql : List UInt8) {s : MassSection} (h : HeadOk s.head) :
    massInsert b sql s = sql ++ massText b s := by
  have hne : s.head ≠ [] := by
    intro h0
    have := h.2
    simp [h0] at this
  cases b with
  | oracle | postgresql | sqlite3 =>
      exact foldl_zbxSnprintfAlloc MassRow.maxLen (fun r => s.head ++ r.values ++ bytes ";\n")
        s.rows sql
  | mysql =>
      have hf := foldl_zbxSnprintfAlloc MassRow.maxLen (fun r => r.values ++ bytes ",") s.rows
        (sql ++ s.head)
      simp only [massInsert]
      rw [zbxSnprintfAlloc, zbxVsnprintf_of_lt h.1, hf]
      exact finish_append hne sql _

/-- The text of a mass insert is the texts of its sections. -/
theorem massSql_eq (b : Backend) {sections : List MassSection} (h : ∀ s ∈ sections, HeadOk s.head) :
    massSql b sections =
      (if b = .oracle then bytes "begin\n" else []) ++ sections.flatMap (massText b) ++
        if b = .oracle then bytes "end;\n" else [] := by
  have hfold : ∀ sql, sections.foldl (massInsert b) sql = sql ++ sections.flatMap (massText b) := by
    induction sections with
    | nil => simp
    | cons s sections ih =>
        intro sql
        rw [List.foldl_cons, massInsert_eq b sql (h s (List.mem_cons_self ..)),
          ih (fun s hs => h s (List.mem_cons_of_mem _ hs)), List.append_assoc, List.flatMap_cons]
  have hb : zbxSnprintfAlloc [] 8 (bytes "begin\n") = bytes "begin\n" := by decide
  have he : zbxVsnprintf 8 (bytes "end;\n") = bytes "end;\n" := by decide
  rw [massSql, hfold]
  split
  · rw [hb, zbxSnprintfAlloc, he]
  · simp

/-! ## when nothing is cut -/

theorem overhead_pos (b : Backend) (head : List UInt8) : 0 < b.overhead head := by
  cases b <;> simp [Backend.overhead]

theorem overhead_le (b : Backend) (head : List UInt8) : b.overhead head ≤ head.length + 2 := by
  cases b <;> simp [Backend.overhead]

theorem fragment_ne_nil (b : Backend) (head : List UInt8) (r : MassRow) : b.fragment head r ≠ [] := by
  have hpos := overhead_pos b head
  have hlen := length_fragment b head r
  intro h
  rw [h, List.length_nil] at hlen
  omega

/-- The fragments of a section are whole exactly when they fit. -/
theorem cut_eq_iff (b : Backend) (s : MassSection) :
    (s.rows.flatMap fun r => zbxVsnprintf r.maxLen (b.fragment s.head r)) =
      s.rows.flatMap (b.fragment s.head) ↔ s.Fits b := by
  rw [flatMap_eq_iff fun r _ => length_zbxVsnprintf_le _ _]
  exact forall₂_congr fun r _ => zbxVsnprintf_eq_iff (fragment_ne_nil b s.head r)

/-- The end of a section does not hide a cut. -/
theorem finish_eq_iff (b : Backend) {head x y : List UInt8}
    (hlen : x.length ≤ y.length) (hy : b = .mysql → y ≠ [] → y.getLast? = some comma) :
    (b.finish head x).length ≤ (b.finish head y).length ∧
      (b.finish head x = b.finish head y ↔ x = y) := by
  cases b with
  | oracle | postgresql | sqlite3 => exact ⟨hlen, Iff.rfl⟩
  | mysql =>
      by_cases hy0 : y = []
      · have hx0 : x = [] := List.eq_nil_of_length_eq_zero (by simpa [hy0] using hlen)
        simp [hx0, hy0]
      · have hyl : (head ++ y).getLast? = some comma := by
          rw [List.getLast?_append_of_ne_nil _ hy0, hy rfl hy0]
        have hy1 : 0 < y.length := List.length_pos_of_ne_nil hy0
        simp only [Backend.finish, if_pos hyl]
        split
        · next hxl =>
            constructor
            · simp only [List.length_append, List.length_dropLast]
              omega
            · rw [List.append_left_inj]
              constructor
              · intro hd
                have hx := List.dropLast_append_getLast? _ hxl
                have hy := List.dropLast_append_getLast? _ hyl
                rw [hd, hy] at hx
                exact (List.append_cancel_left hx).symm
              · rintro rfl
                rfl
        · next hxl =>
            have hb : bytes ";\n" ≠ [] := by decide
            constructor
            · simp
            · constructor
              · intro hd
                have hd' : bytes ";\n" = [] := (List.append_eq_nil_iff.mp hd.symm).2
                contradiction
              · rintro rfl
                contradiction

theorem getLast?_fragments (s : MassSection) (h : s.rows.flatMap (Backend.fragment .mysql s.head) ≠ []) :
    (s.rows.flatMap (Backend.fragment .mysql s.head)).getLast? = some comma := by
  have hb : bytes "," = [comma] := by decide
  rcases List.eq_nil_or_concat s.rows with hr | ⟨rows, r, hr⟩
  · simp [hr] at h
  · rw [hr, List.concat_eq_append, List.flatMap_append]
    simp [Backend.fragment, hb]

/-- **A section is whole exactly when its fragments fit**; else it is not
longer. -/
theorem massText_eq_iff (b : Backend) (s : MassSection) :
    (massText b s).length ≤ (wholeText b s).length ∧
      (massText b s = wholeText b s ↔ s.Fits b) := by
  rw [← cut_eq_iff b s]
  apply finish_eq_iff b
  · exact length_flatMap_le fun r _ => length_zbxVsnprintf_le _ _
  · rintro rfl
    exact getLast?_fragments s

/-- **A mass insert is whole exactly when all fragments fit.** -/
theorem massSql_eq_iff (b : Backend) {sections : List MassSection}
    (h : ∀ s ∈ sections, HeadOk s.head) :
    massSql b sections =
        (if b = .oracle then bytes "begin\n" else []) ++ sections.flatMap (wholeText b) ++
          (if b = .oracle then bytes "end;\n" else []) ↔
      ∀ s ∈ sections, s.Fits b := by
  rw [massSql_eq b h, List.append_left_inj, List.append_right_inj,
    flatMap_eq_iff fun s _ => (massText_eq_iff b s).1]
  exact forall₂_congr fun s _ => (massText_eq_iff b s).2

/-! ## sections that render inserts -/

/-- A field or a row without a quote outside its strings. -/
def Field.Ok : Field → Prop
  | .num text => squote ∉ text
  | .str _ => True

/-- A section formats the rows of an insert. -/
structure Formats (b : Backend) (s : MassSection) (i : Insert) : Prop where
  head : s.head = i.head
  rows : s.rows.map MassRow.values = i.rows.map fun r => render b.escape (rowTokens r)
  headOk : HeadOk s.head
  plain : squote ∉ i.head
  fields : ∀ r ∈ i.rows, ∀ f ∈ r, f.Ok

theorem separated_fieldsTokens {fs : List Field} (h : ∀ f ∈ fs, f.Ok) :
    Separated (fieldsTokens fs) := by
  have htok : ∀ f : Field, f.Ok → Separated f.tokens := by
    intro f hf
    cases f with
    | num text => exact (joins_plain hf).separated
    | str value => exact ⟨by simp, trivial⟩
  fun_induction fieldsTokens fs with
  | case1 => trivial
  | case2 f => exact htok f (h f (List.mem_cons_self ..))
  | case3 f g fs ih =>
      have hf := htok f (h f (List.mem_cons_self ..))
      exact hf.append_byte ⟨by decide, ih fun x hx => h x (List.mem_cons_of_mem _ hx)⟩

theorem joins_rowTokens {r : List Field} (h : ∀ f ∈ r, f.Ok) : Joins (rowTokens r) := by
  have hopen : Joins (plain (bytes "(")) := joins_plain (by decide)
  exact (hopen _ (separated_fieldsTokens h)).joins_plain (by decide) (by decide)

theorem joins_rowsTokens {rs : List (List Field)} (h : ∀ r ∈ rs, ∀ f ∈ r, f.Ok) :
    Joins (rowsTokens rs) := by
  fun_induction rowsTokens rs with
  | case1 => exact fun _ hs => hs
  | case2 r => exact joins_rowTokens (h r (List.mem_cons_self ..))
  | case3 r r' rs ih =>
      have hr := joins_rowTokens (h r (List.mem_cons_self ..))
      have hc : Joins (plain (bytes ",")) := joins_plain (by decide)
      exact (hr.append hc).append (ih fun x hx => h x (List.mem_cons_of_mem _ hx))

theorem joins_insertTokens (b : Backend) {i : Insert} (hp : squote ∉ i.head)
    (h : ∀ r ∈ i.rows, ∀ f ∈ r, f.Ok) : Joins (insertTokens b i) := by
  have hend : Joins (plain (bytes ";\n")) := joins_plain (by decide)
  cases b with
  | mysql =>
      rw [insertTokens]
      split
      · exact fun _ hs => hs
      · exact ((joins_plain hp).append (joins_rowsTokens h)).append hend
  | oracle | postgresql | sqlite3 =>
      exact Joins.flatMap fun r hr => ((joins_plain hp).append (joins_rowTokens (h r hr))).append hend

/-- The tuples of a MySQL section, each with its comma. -/
theorem flatMap_values (b : Backend) {rs : List (List Field)} (h : rs ≠ []) :
    (rs.flatMap fun r => render b.escape (rowTokens r) ++ bytes ",") =
      render b.escape (rowsTokens rs) ++ bytes "," := by
  induction rs with
  | nil => contradiction
  | cons r rs ih =>
      cases rs with
      | nil => simp [rowsTokens]
      | cons r' rs =>
          rw [List.flatMap_cons, ih (by simp)]
          simp [rowsTokens]

/-- A section that is whole is the text of its insert. -/
theorem Formats.wholeText {b : Backend} {s : MassSection} {i : Insert} (h : Formats b s i) :
    wholeText b s = render b.escape (insertTokens b i) := by
  have hmap : ∀ f : List UInt8 → List UInt8,
      (s.rows.flatMap fun r => f r.values) =
        i.rows.flatMap fun r => f (render b.escape (rowTokens r)) := by
    intro f
    have hl := List.flatMap_map MassRow.values f s.rows
    have hr := List.flatMap_map (fun r => render b.escape (rowTokens r)) f i.rows
    rw [← hl, ← hr, h.rows]
  cases b with
  | oracle | postgresql | sqlite3 =>
      have hf := hmap fun v => s.head ++ v ++ bytes ";\n"
      refine hf.trans ?_
      rw [insertTokens, h.head, render_flatMap]
      simp
  | mysql =>
      have hb : bytes "," = [comma] := by decide
      have hf : s.rows.flatMap (Backend.fragment .mysql s.head) =
          i.rows.flatMap fun r => render (Backend.escape .mysql) (rowTokens r) ++ bytes "," :=
        hmap fun v => v ++ bytes ","
      rw [Zabbix.wholeText, hf, Backend.finish, insertTokens]
      by_cases h0 : i.rows = []
      · rw [if_pos h0, h0, List.flatMap_nil, List.append_nil, h.headOk.2, if_neg (by decide),
          render_nil]
      · rw [if_neg h0, flatMap_values .mysql h0, hb, ← List.append_assoc, List.getLast?_concat,
          if_pos rfl, List.dropLast_concat, h.head]
        simp

/-- **A mass insert stores its inserts exactly when all fragments fit.** -/
theorem stores_iff (b : Backend) (rule : UnescapeRule) {sections : List MassSection}
    {inserts : List Insert} (h : List.Forall₂ (Formats b) sections inserts) :
    Stores b rule inserts (massSql b sections) ↔ ∀ s ∈ sections, s.Fits b := by
  have hhead : ∀ s ∈ sections, HeadOk s.head := by
    induction h with
    | nil => simp
    | cons hf _ ih => simpa using ⟨hf.headOk, ih⟩
  have hwhole : sections.flatMap (wholeText b) =
      render b.escape (inserts.flatMap (insertTokens b)) := by
    induction h with
    | nil => rfl
    | cons hf _ ih =>
        rw [List.flatMap_cons, List.flatMap_cons, render_append, hf.wholeText,
          ih fun s hs => hhead s (List.mem_cons_of_mem _ hs)]
  have hjoins : Joins (inserts.flatMap (insertTokens b)) := by
    clear hwhole hhead
    induction h with
    | nil => exact fun _ hs => hs
    | cons hf _ ih => exact (joins_insertTokens b hf.plain hf.fields).append ih
  have hsep : Separated (sqlTokens b inserts) := by
    have hbegin : Joins (plain (if b = .oracle then bytes "begin\n" else [])) :=
      joins_plain (by cases b <;> decide)
    have hend : Joins (plain (if b = .oracle then bytes "end;\n" else [])) :=
      joins_plain (by cases b <;> decide)
    exact ((hbegin.append hjoins).append hend).separated
  have htext : render b.escape (sqlTokens b inserts) =
      (if b = .oracle then bytes "begin\n" else []) ++ sections.flatMap (wholeText b) ++
        (if b = .oracle then bytes "end;\n" else []) := by
    rw [sqlTokens, render_append, render_append, render_plain, render_plain, hwhole]
  rw [Stores, readsAs_iff b rule hsep, ← massSql_eq_iff b hhead, ← htext]

end Zabbix
