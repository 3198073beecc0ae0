import Zabbix.Nodes.SyncValues

/-!
# Zabbix.Nodes.SyncReplay

A row of the configuration, from the node that has it to the statement that another one
executes.

Of each field that is sent there is a text in the record (`sentText`), a text in the
statement (`literalText`), and what the database reads there (`storedValue`).  This is the
value of the field when it arrives (`Arrives`): NULL and numbers always, a text when
`length()` counts its bytes and it has neither carriage returns nor NULs, and bytes when
the column and the literal fit.
-/

namespace Zabbix.Nodesync

open Ascii Outcome Printf SqlLiteral SqlStatement

variable {schema : NodeSchema} (node : ConfigNode schema) (db : NodeDb schema)

/-! ## values -/

/-- What is sent of a column: of a text or of bytes, as many bytes as `length()` says. -/
def sentValue (table : ZbxTable) (f : ZbxField) (column : Option (List UInt8)) : Option (List UInt8) :=
  (dbValue node.backend column).map fun v =>
    if f.type.isNumber then v else v.take (node.length table f v)

/-- The text in the record. -/
def sentText (type : ZbxFieldType) : Option (List UInt8) → List UInt8
  | none => bytes "NULL"
  | some v => if type.isNumber then v else zbxBinary2hex v

/-- The text in the statement. -/
def literalText (b : Backend) (type : ZbxFieldType) : Option (List UInt8) → List UInt8
  | none => bytes "NULL"
  | some v =>
      if type.isNumber then v
      else if type = .blob then
        if v = [] then [squote, squote]
        else
          match b with
          | .postgresql => squote :: zbxPgEscapeBytea v ++ [squote]
          | .mysql | .oracle | .sqlite3 => bytes "0x" ++ zbxBinary2hex v
      else squote :: dbDynEscapeString b (cstr v) ++ [squote]

/-- What the column is given. -/
def storedValue (table column : List UInt8) (type : ZbxFieldType) :
    Option (List UInt8) → Option (Option (List UInt8))
  | none => some none
  | some v =>
      if type.isNumber then some (some v)
      else if type = .blob then
        if v = [] then db.string table column []
        else
          match db.backend with
          | .postgresql => db.string table column (v.flatMap pgString)
          | .mysql => some (some v)
          | .oracle | .sqlite3 => none
      else db.string table column (kept (cstr v))

/-- The value of a column gets to the other node as it is. -/
def Arrives (table : ZbxTable) (f : ZbxField) : Option (List UInt8) → Prop
  | none => True
  | some v =>
      (v = [] → node.backend ≠ .oracle ∧ db.backend ≠ .oracle) ∧
        (f.type.isNumber = false → node.length table f v = v.length ∧
          if f.type = .blob then
            v = [] ∨ match db.backend with
              | .postgresql => db.bytea table.table.val f.name.val = true ∨ ∀ c ∈ v, isPgPlain c = true
              | .mysql => True
              | .oracle | .sqlite3 => False
          else cr ∉ v ∧ (0 : UInt8) ∉ v)

/-- The text of a number. -/
def IsNumberText (s : List UInt8) : Prop := s ≠ [] ∧ ∀ c ∈ s, isNumberByte c = true

/-- What the bytes of numbers and of names are not. -/
theorem plainByte_ne (c : UInt8) :
    (isNumberByte c = true →
        c ≠ 0 ∧ c ≠ newline ∧ c ≠ zbxDmDelimiter ∧ c ≠ capitalN ∧ c ≠ 120 ∧ c ≠ squote ∧ endsWord c = false) ∧
      (isNameByte c = true →
        c ≠ 0 ∧ c ≠ newline ∧ c ≠ zbxDmDelimiter ∧ c ≠ space ∧ c ≠ comma ∧ c ≠ equals ∧ c ≠ rparen) := by
  have hall : ∀ c : UInt8,
      (isNumberByte c = true →
          c ≠ 0 ∧ c ≠ newline ∧ c ≠ zbxDmDelimiter ∧ c ≠ capitalN ∧ c ≠ 120 ∧ c ≠ squote ∧ endsWord c = false) ∧
        (isNameByte c = true →
          c ≠ 0 ∧ c ≠ newline ∧ c ≠ zbxDmDelimiter ∧ c ≠ space ∧ c ≠ comma ∧ c ≠ equals ∧ c ≠ rparen) :=
    forall_byte (by decide +kernel)
  exact hall c

theorem isNumberByte_ne {c : UInt8} (h : isNumberByte c = true) :
    c ≠ 0 ∧ c ≠ newline ∧ c ≠ zbxDmDelimiter ∧ c ≠ capitalN ∧ c ≠ 120 ∧ c ≠ squote ∧ endsWord c = false :=
  (plainByte_ne c).1 h

/-- A number is read as its text. -/
theorem word_number {s : List UInt8} (h : IsNumberText s) : db.word s = some (some s) := by
  have hnull : s ≠ bytes "NULL" := by
    rintro rfl
    exact (isNumberByte_ne (h.2 capitalN (List.mem_cons_self ..))).2.2.2.1 rfl
  have hprefix : (bytes "0x").isPrefixOf? s = none := by
    cases hs : (bytes "0x").isPrefixOf? s with
    | none => rfl
    | some digits =>
        have heq := List.isPrefixOf?_eq_some_iff_append_eq.mp hs
        have hmem : (120 : UInt8) ∈ s := heq ▸ List.mem_append_left _ (by decide)
        exact absurd rfl (isNumberByte_ne (h.2 120 hmem)).2.2.2.2.1
  have hall : s.all isNumberByte = true := List.all_eq_true.mpr h.2
  rw [NodeDb.word, if_neg hnull, hprefix]
  exact if_pos ⟨h.1, hall⟩

/-- Digits behind `0x` are read as the bytes, by MySQL. -/
theorem word_hex {s : List UInt8} (h : s ≠ []) :
    db.word (bytes "0x" ++ zbxBinary2hex s) = if db.backend = .mysql then some (some s) else none := by
  have hnull : bytes "0x" ++ zbxBinary2hex s ≠ bytes "NULL" := fun heq =>
    absurd (List.head_eq_of_cons_eq heq) (by decide)
  have heven : (zbxBinary2hex s).length % 2 ≠ 1 := by
    rw [length_zbxBinary2hex]
    omega
  rw [NodeDb.word, if_neg hnull, isPrefixOf?_append]
  dsimp only
  rw [if_neg heven, hexBytes_binary2hex, Option.map_some]
  by_cases hb : db.backend = .mysql
  · rw [if_pos hb, if_pos ⟨hb, zbxBinary2hex_ne_nil h⟩]
  · rw [if_neg hb, if_neg fun hand => hb hand.1]

/-- **The text of a value is read as what the column is given.** -/
theorem read_literalText (table column : List UInt8) {type : ZbxFieldType} {sent : Option (List UInt8)}
    (hnumber : type.isNumber = true → ∀ v, sent = some v → IsNumberText v) {rest : List UInt8} (h : Ends rest) :
    db.read table column (literalText db.backend type sent ++ rest) =
      (storedValue db table column type sent).map fun v => (v, rest) := by
  cases sent with
  | none =>
      have hword : db.word (bytes "NULL") = some none := if_pos rfl
      have hread := read_word db table column (s := bytes "NULL") (by decide) (by decide) h
      rw [hword] at hread
      exact hread
  | some v =>
      rw [literalText.eq_def, storedValue.eq_def]
      dsimp only
      by_cases htype : type.isNumber = true
      · have hv := hnumber htype v rfl
        have hbyte : ∀ c ∈ v, c ≠ squote ∧ endsWord c = false := fun c hc => (isNumberByte_ne (hv.2 c hc)).2.2.2.2.2
        rw [if_pos htype, if_pos htype, read_word db table column hv.1 hbyte h, word_number db hv]
      · rw [if_neg htype, if_neg htype]
        by_cases hblob : type = .blob
        · rw [if_pos hblob, if_pos hblob]
          by_cases hv : v = []
          · rw [if_pos hv, if_pos hv]
            exact read_literal db table column (literalBody_flatMap db.backend db.rule []) h
          · rw [if_neg hv, if_neg hv]
            have hhex : ∀ c ∈ bytes "0x" ++ zbxBinary2hex v, c ≠ squote ∧ endsWord c = false := by
              intro c hc
              have hmark : ∀ c ∈ bytes "0x", c ≠ squote ∧ endsWord c = false := by decide
              rcases List.mem_append.mp hc with hc | hc
              · exact hmark c hc
              · exact (hexDigit_ne (hexDigit_of_mem hc)).2.2.2.2
            have hword := read_word db table column (List.append_ne_nil_of_left_ne_nil (by decide) _) hhex h
            rw [word_hex db hv] at hword
            cases hb : db.backend with
            | postgresql =>
                have hbody := literalBody_pgEscape db.rule v
                rw [← hb] at hbody
                exact read_literal db table column hbody h
            | mysql =>
                rw [if_pos hb] at hword
                exact hword
            | oracle | sqlite3 =>
                rw [if_neg (by rw [hb]; decide)] at hword
                exact hword
        · rw [if_neg hblob, if_neg hblob, dbDynEscapeString_eq]
          exact read_literal db table column (literalBody_flatMap db.backend db.rule _) h

theorem length_kept_cstr_le (v : List UInt8) : (kept (cstr v)).length ≤ v.length :=
  (length_kept_le _).trans (length_cstr_le v)

/-- A text that is kept as a whole has neither carriage returns nor NULs. -/
theorem kept_cstr_eq_iff (v : List UInt8) : kept (cstr v) = v ↔ cr ∉ v ∧ (0 : UInt8) ∉ v := by
  constructor
  · intro h
    have hcr : ∀ c ∈ v, c ≠ cr := by
      intro c hc
      rw [← h, kept, List.mem_filter] at hc
      simpa using hc.2
    have hnul : ∀ c ∈ v, c ≠ 0 := by
      intro c hc
      rw [← h, kept, List.mem_filter] at hc
      simpa using List.mem_takeWhile_imp hc.1
    exact ⟨fun hc => hcr cr hc rfl, fun hc => hnul 0 hc rfl⟩
  · rintro ⟨hcr, hnul⟩
    rw [cstr_of_not_mem hnul, kept_of_not_mem hcr]

/-- A part of a text is the text when it has all of the bytes. -/
theorem take_eq_iff {v : List UInt8} {n : ℕ} (h : n ≤ v.length) : v.take n = v ↔ n = v.length := by
  rw [List.take_eq_self_iff]
  omega

/-- A text whose first bytes are kept is kept when they are all of its bytes. -/
theorem kept_cstr_take {v : List UInt8} {n : ℕ} (h : n ≤ v.length) :
    kept (cstr (v.take n)) = v ↔ n = v.length ∧ cr ∉ v ∧ (0 : UInt8) ∉ v := by
  constructor
  · intro heq
    have hlen := length_kept_cstr_le (v.take n)
    rw [heq, List.length_take] at hlen
    have hn : n = v.length := by omega
    rw [hn, List.take_length] at heq
    exact ⟨hn, (kept_cstr_eq_iff v).mp heq⟩
  · rintro ⟨rfl, hv⟩
    rw [List.take_length]
    exact (kept_cstr_eq_iff v).mpr hv

/-- The strings of bytes are ASCII. -/
theorem pgString_ascii (c : UInt8) : ∀ d ∈ pgString c, d < 0x80 := by
  have hall : ∀ c : UInt8, ∀ d ∈ pgString c, d < 0x80 := forall_byte (by decide +kernel)
  exact hall c

/-- What a column that is not of the type `bytea` is given. -/
theorem string_eq_iff {table column : List UInt8} (h : db.bytea table column = false) (s v : List UInt8) :
    db.string table column s = some (some v) ↔ s = v ∧ (v = [] → db.backend ≠ .oracle) := by
  rw [NodeDb.string]
  cases hb : db.backend with
  | oracle =>
      by_cases hs : s = []
      · subst hs
        simp [eq_comm]
      · rw [if_neg hs]
        constructor
        · intro heq
          cases heq
          exact ⟨rfl, fun hv => absurd hv hs⟩
        · rintro ⟨rfl, -⟩
          rfl
  | postgresql => simp [h]
  | mysql | sqlite3 => simp

/-- What a column is given by an empty literal. -/
theorem string_nil (table column : List UInt8) (v : List UInt8) :
    db.string table column [] = some (some v) ↔ v = [] ∧ db.backend ≠ .oracle := by
  rw [NodeDb.string]
  cases hb : db.backend with
  | oracle => simp
  | postgresql => cases db.bytea table column <;> simp [byteaInput, eq_comm]
  | mysql | sqlite3 => simp [eq_comm]

/-- **Bytes arrive or they do not.** -/
theorem storedBlob_iff {table : ZbxTable} {f : ZbxField} {v : List UInt8} (hne : v ≠ [])
    (htype : f.type.isNumber = false) (hblob : f.type = .blob) :
    storedValue db table.table.val f.name.val f.type (some (v.take (node.length table f v))) = some (some v) ↔
      Arrives node db table f (some v) := by
  have hle := node.length_le table f v
  have hnumber : ¬f.type.isNumber = true := by rw [htype]; decide
  rw [Arrives, storedValue.eq_def]
  dsimp only
  rw [if_neg hnumber, if_pos hblob, if_pos hblob]
  simp only [hne, false_imp_iff, true_and, htype, true_imp_iff, false_or]
  by_cases hnil : v.take (node.length table f v) = []
  · have hlen : node.length table f v ≠ v.length := by
      intro hn
      rw [hn, List.take_length] at hnil
      exact hne hnil
    rw [if_pos hnil, string_nil]
    exact iff_of_false (fun h => hne h.1) fun h => hlen h.1
  · rw [if_neg hnil]
    cases hb : db.backend with
    | mysql =>
        dsimp only
        rw [Option.some.injEq, Option.some.injEq, take_eq_iff hle, and_true]
    | oracle | sqlite3 => simp
    | postgresql =>
        dsimp only
        cases hbytea : db.bytea table.table.val f.name.val with
        | true =>
            rw [NodeDb.string, hb]
            dsimp only
            rw [if_pos hbytea, byteaInput_pgString, Option.map_some, Option.some.injEq, Option.some.injEq,
              take_eq_iff hle]
            simp
        | false =>
            rw [string_eq_iff db hbytea, ← flatMap_pgString]
            constructor
            · rintro ⟨heq, -⟩
              have hascii : ∀ c ∈ v, c < 0x80 := by
                intro c hc
                rw [← heq, List.mem_flatMap] at hc
                obtain ⟨d, -, hc⟩ := hc
                exact pgString_ascii d c hc
              have hn := node.length_ascii table f v hascii
              rw [hn, List.take_length] at heq
              exact ⟨hn, .inr heq⟩
            · rintro ⟨hn, hor⟩
              have hplain : v.flatMap pgString = v := hor.resolve_left (by decide)
              rw [hn, List.take_length]
              exact ⟨hplain, fun hv => absurd hv hne⟩

/-- **A text arrives or it does not.** -/
theorem storedText_iff {table : ZbxTable} {f : ZbxField} {v : List UInt8} (hne : v ≠ [])
    (htype : f.type.isNumber = false) (hblob : f.type ≠ .blob)
    (hbytea : db.bytea table.table.val f.name.val = false) :
    storedValue db table.table.val f.name.val f.type (some (v.take (node.length table f v))) = some (some v) ↔
      Arrives node db table f (some v) := by
  have hnumber : ¬f.type.isNumber = true := by rw [htype]; decide
  rw [Arrives, storedValue.eq_def]
  dsimp only
  rw [if_neg hnumber, if_neg hblob, if_neg hblob, string_eq_iff db hbytea, kept_cstr_take (node.length_le table f v)]
  simp only [hne, false_imp_iff, true_and, and_true, htype, true_imp_iff]

/-- **A value arrives or it does not.** -/
theorem storedValue_iff {table : ZbxTable} (htable : table ∈ schema.tables) {f : ZbxField} (hf : f ∈ table.fields)
    {column : Option (List UInt8)} (hnumber : f.type.isNumber = true → ∀ v, column = some v → v ≠ []) :
    storedValue db table.table.val f.name.val f.type (sentValue node table f column) = some column ↔
      Arrives node db table f column := by
  cases column with
  | none => exact iff_of_true rfl trivial
  | some v =>
      by_cases hnull : dbIsNull node.backend (some v) = true
      · obtain ⟨horacle, rfl⟩ := of_decide_eq_true hnull
        have hsent : sentValue node table f (some []) = none := by
          rw [sentValue, dbValue, if_pos hnull]
          rfl
        rw [hsent]
        exact iff_of_false (fun h => nomatch h) fun h => (h.1 rfl).1 horacle
      · have hsent : sentValue node table f (some v) =
            some (if f.type.isNumber then v else v.take (node.length table f v)) := by
          rw [sentValue, dbValue, if_neg hnull]
          rfl
        rw [hsent]
        by_cases htype : f.type.isNumber = true
        · have hne := hnumber htype v rfl
          rw [if_pos htype, storedValue.eq_def]
          dsimp only
          rw [if_pos htype]
          exact iff_of_true rfl ⟨fun hv => absurd hv hne, fun h => absurd (htype.symm.trans h) (by decide)⟩
        · have htype' : f.type.isNumber = false := by simpa using htype
          rw [if_neg htype]
          by_cases hne : v = []
          · subst hne
            have hsender : node.backend ≠ .oracle := fun h => hnull (decide_eq_true ⟨h, rfl⟩)
            have hlen : node.length table f [] = 0 := Nat.le_zero.mp (node.length_le table f [])
            have hstored : storedValue db table.table.val f.name.val f.type (some []) =
                db.string table.table.val f.name.val [] := by
              rw [storedValue.eq_def]
              dsimp only
              rw [if_neg htype]
              split <;> rfl
            rw [List.take_nil, hstored, string_nil, Arrives]
            simp [hsender, hlen]
          · by_cases hblob : f.type = .blob
            · exact storedBlob_iff node db hne htype' hblob
            · have hbytea : db.bytea table.table.val f.name.val = false := by
                cases h : db.bytea table.table.val f.name.val with
                | false => rfl
                | true => exact absurd (db.bytea_blob table htable f hf h) hblob
              exact storedText_iff node db hne htype' hblob hbytea

/-! ## the record -/

theorem zbxSnprintfAlloc_of_lt {text : List UInt8} {maxLen : ℕ} (h : text.length < maxLen) (str : List UInt8) :
    zbxSnprintfAlloc str maxLen text = str ++ text := by
  rw [zbxSnprintfAlloc, zbxVsnprintf_of_lt h]

/-- A field of the record: its name, its type and its value. -/
def fieldText (f : ZbxField) (sent : Option (List UInt8)) : List UInt8 :=
  f.name.val ++ zbxDmDelimiter :: (d32 f.type.code ++ zbxDmDelimiter :: sentText f.type sent)

variable {table : ZbxTable} (values : ConfigValues table)

/-- What is sent of a field. -/
def sentField (f : ZbxField) : Option (List UInt8) := sentValue node table f (values.column f.name)

theorem isNumberText {f : ZbxField} (hf : f ∈ table.fields) (h : f.type.isNumber = true) {v : List UInt8}
    (hv : values.column f.name = some v) : IsNumberText v :=
  ⟨(values.number f hf h v hv).1, (values.number f hf h v hv).2.byte⟩

/-- What is sent of a number is a number. -/
theorem sentField_number {f : ZbxField} (h : f.type.isNumber = true) {v : List UInt8}
    (hv : sentField node values f = some v) : values.column f.name = some v := by
  obtain ⟨w, hw, heq⟩ := Option.map_eq_some_iff.mp hv
  rw [if_pos h] at heq
  subst heq
  rw [dbValue] at hw
  split at hw
  · cases hw
  · exact hw

theorem configValue_eq {f : ZbxField} (hf : f ∈ table.fields) (data : List UInt8) :
    configValue node table f (values.column f.name) data = data ++ sentText f.type (sentField node values f) := by
  rw [configValue, sentField, sentValue]
  cases hv : dbValue node.backend (values.column f.name) with
  | none => exact zbxSnprintfAlloc_of_lt (by decide) data
  | some v =>
      have hcolumn : values.column f.name = some v := by
        rw [dbValue] at hv
        split at hv
        · cases hv
        · exact hv
      dsimp only [Option.map_some]
      rw [sentText]
      by_cases htype : f.type.isNumber = true
      · obtain ⟨-, hnumber⟩ := values.number f hf htype v hcolumn
        have hnul : (0 : UInt8) ∉ v := fun h => (isNumberByte_ne (hnumber.byte 0 h)).1 rfl
        have hlen : v.length < 128 := lt_of_le_of_lt hnumber.length (by decide)
        rw [if_pos htype, if_pos htype, if_pos htype, cstr_of_not_mem hnul, zbxSnprintfAlloc_of_lt hlen]
      · have hlen := values.length f.name v hcolumn
        have hle := node.length_le table f v
        rw [if_neg htype, if_neg htype, if_neg htype, atoi_dec (by omega), zbxSnprintfAlloc_of_lt (by omega)]

theorem length_code (type : ZbxFieldType) : (d32 type.code).length = 1 := by
  cases type <;> decide

theorem configField_eq (htable : table ∈ schema.tables) {f : ZbxField} (hf : f ∈ table.fields) (data : List UInt8) :
    configField node table values data f = data ++ zbxDmDelimiter :: fieldText f (sentField node values f) := by
  have hname := (schema.field_identifier table htable f hf).2
  have hcode := length_code f.type
  rw [configField, configValue_eq node values hf, zbxSnprintfAlloc_of_lt]
  · simp [fieldText]
  · simp only [List.length_append, List.length_cons, List.length_nil, hcode]
    omega

/-- The record of a row, without the newline. -/
def recordLine (row : CksumRow) (fields : List ZbxField) : List UInt8 :=
  row.tablename.val ++ zbxDmDelimiter :: (ui64 row.recordid ++ zbxDmDelimiter :: (d32 nodeConfiglogOpUpdate ++
    fields.flatMap fun f => zbxDmDelimiter :: fieldText f (sentField node values f)))

/-- **What is sent of a row** is the record, whatever there is in front of it. -/
theorem configUpdate_eq (htable : table ∈ schema.tables) {row : CksumRow} (hrow : table.table = row.tablename)
    {fields : List ZbxField} (hfields : ∀ f ∈ fields, f ∈ table.fields) (data : List UInt8) :
    configUpdate node row table values fields data = data ++ recordLine node values row fields ++ [newline] := by
  have hfold : ∀ data : List UInt8, fields.foldl (configField node table values) data =
      data ++ fields.flatMap fun f => zbxDmDelimiter :: fieldText f (sentField node values f) := by
    induction fields with
    | nil => simp
    | cons f fields ih =>
        intro data
        rw [List.forall_mem_cons] at hfields
        rw [List.foldl_cons, configField_eq node values htable hfields.1, ih hfields.2, List.flatMap_cons]
        simp
  have hname := (schema.table_name table htable).2
  rw [hrow, zbxNameLen] at hname
  have hrecid := length_ui64_le row.recordid
  have hop : (d32 nodeConfiglogOpUpdate).length = 1 := by decide
  rw [configUpdate, zbxSnprintfAlloc_of_lt (by decide), hfold, zbxSnprintfAlloc_of_lt]
  · simp [recordLine]
  · simp only [List.length_append, List.length_cons, hop]
    omega

/-- The fields that are sent are fields of the table. -/
theorem changedFields_mem {dest : NodeType} {sync : Mem} {fields sent : List ZbxField}
    {r₀ r₁ : Option (List UInt8)} {s : ℕ} (h : changedFields dest sync fields r₀ r₁ s = some sent) :
    ∀ f ∈ sent, f ∈ fields := by
  induction fields generalizing r₀ r₁ s sent with
  | nil => cases h
  | cons f fields ih =>
      rw [changedFields] at h
      split at h
      · obtain ⟨rest, hrest, rfl⟩ := Option.map_eq_some_iff.mp h
        have hmem : ∀ g ∈ rest, g ∈ fields := by
          split at hrest
          · cases hrest
            exact fun g hg => nomatch hg
          · exact ih hrest
        intro g hg
        split at hg
        · rcases List.mem_cons.mp hg with rfl | hg
          · exact List.mem_cons_self ..
          · exact List.mem_cons_of_mem f (hmem g hg)
        · exact List.mem_cons_of_mem f (hmem g hg)
      · exact fun g hg => List.mem_cons_of_mem f (ih h g hg)

/-! ## the fields of a record -/

theorem code_ne {type : ZbxFieldType} : zbxDmDelimiter ∉ d32 type.code := by
  cases type <;> decide

theorem atoi_code (type : ZbxFieldType) : atoi (d32 type.code) = type.code := by
  cases type <;> decide

theorem isNumberType_code (type : ZbxFieldType) : isNumberType type.code = type.isNumber := by
  cases type <;> decide

theorem code_eq_blob {type : ZbxFieldType} : type.code = ZbxFieldType.blob.code ↔ type = .blob := by
  cases type <;> decide

theorem isNameByte_ne {c : UInt8} (h : isNameByte c = true) :
    c ≠ 0 ∧ c ≠ newline ∧ c ≠ zbxDmDelimiter ∧ c ≠ space ∧ c ≠ comma ∧ c ≠ equals ∧ c ≠ rparen :=
  (plainByte_ne c).2 h

/-- What is sent of numbers are numbers. -/
def SentNumber (type : ZbxFieldType) (sent : Option (List UInt8)) : Prop :=
  type.isNumber = true → ∀ v, sent = some v → IsNumberText v

/-- What the text of a value does not have in it. -/
theorem sentText_ne {type : ZbxFieldType} {sent : Option (List UInt8)} (h : SentNumber type sent) {c : UInt8}
    (hc : c ∈ sentText type sent) : c ≠ 0 ∧ c ≠ newline ∧ c ≠ zbxDmDelimiter := by
  cases sent with
  | none =>
      have hnull : ∀ c ∈ bytes "NULL", c ≠ 0 ∧ c ≠ newline ∧ c ≠ zbxDmDelimiter := by decide
      exact hnull c hc
  | some v =>
      rw [sentText] at hc
      split at hc
      · next htype =>
          have hbyte := isNumberByte_ne ((h htype v rfl).2 c hc)
          exact ⟨hbyte.1, hbyte.2.1, hbyte.2.2.1⟩
      · have hbyte := hexDigit_ne (hexDigit_of_mem hc)
        exact ⟨hbyte.1, hbyte.2.1, hbyte.2.2.1⟩

/-- Only the text of NULL is `NULL`. -/
theorem sentText_null {type : ZbxFieldType} {sent : Option (List UInt8)} (h : SentNumber type sent) :
    sentText type sent = bytes "NULL" ↔ sent = none := by
  cases sent with
  | none => exact iff_of_true rfl rfl
  | some v =>
      refine iff_of_false (fun heq => ?_) (by simp)
      have hmem : capitalN ∈ sentText type (some v) := heq ▸ (by decide)
      rw [sentText] at hmem
      split at hmem
      · next htype => exact (isNumberByte_ne ((h htype v rfl).2 _ hmem)).2.2.2.1 rfl
      · exact (hexDigit_ne (hexDigit_of_mem hmem)).2.2.2.1 rfl

theorem cstr_append_nul {s : List UInt8} (h : (0 : UInt8) ∉ s) (behind : List UInt8) : cstr (s ++ 0 :: behind) = s := by
  have hs : ∀ c ∈ s, decide (c ≠ 0) = true := fun c hc => decide_eq_true (ne_of_mem_of_not_mem hc h)
  rw [cstr, List.takeWhile_append_of_pos hs, List.takeWhile_cons_of_neg (by simp), List.append_nil]

/-- What the fields that have been received add to the texts. -/
def RecordTexts.add (t : RecordTexts) (name text : List UInt8) : RecordTexts where
  fieldsUpdate := t.fieldsUpdate ++ (name ++ equals :: text ++ [comma])
  fields := t.fields ++ (name ++ [comma])
  values := t.values ++ (text ++ [comma])

theorem put_eq (t : RecordTexts) {name text : List UInt8} {maxUpdate maxValues : ℕ}
    (hupdate : name.length + text.length + 2 < maxUpdate) (hvalues : text.length + 1 < maxValues) :
    t.put name text maxUpdate maxValues =
      { t with
        fieldsUpdate := t.fieldsUpdate ++ (name ++ equals :: text ++ [comma])
        values := t.values ++ (text ++ [comma]) } := by
  rw [RecordTexts.put, zbxSnprintfAlloc_of_lt, zbxSnprintfAlloc_of_lt]
  · simpa using hvalues
  · simp only [List.length_append, List.length_cons, List.length_nil]
    omega

/-- **A field adds the text of its value**, with room for all of it. -/
theorem recordValue_eq (b : Backend) (t : RecordTexts) {f : ZbxField} (hname : f.name.val.length ≤ zbxNameLen)
    {sent : Option (List UInt8)} (hsent : SentNumber f.type sent) (output : List UInt8) :
    ∃ buffer, recordValue b t
        { fieldname := f.name.val, valuetype := f.type.code, value := sentText f.type sent }
        (bufferPut output (sentText f.type sent)) =
      ({ t with
         fieldsUpdate := t.fieldsUpdate ++ (f.name.val ++ equals :: literalText b f.type sent ++ [comma])
         values := t.values ++ (literalText b f.type sent ++ [comma]) }, buffer) := by
  have hnul : (0 : UInt8) ∉ sentText f.type sent := fun h => (sentText_ne hsent h).1 rfl
  have hcstr : cstr (bufferPut output (sentText f.type sent)) = sentText f.type sent :=
    cstr_append_nul hnul _
  have hnull : bytes "NULL" = [78, 85, 76, 76] := by decide
  have htake : f.name.val.take zbxNameLen = f.name.val := List.take_of_length_le hname
  rw [recordValue.eq_def]
  dsimp only
  rw [hcstr, htake]
  cases sent with
  | none =>
      have htext : sentText f.type none = bytes "NULL" := rfl
      rw [if_pos htext, put_eq t (by rw [hnull]; simp) (by rw [hnull]; simp)]
      exact ⟨_, rfl⟩
  | some v =>
      have hne : sentText f.type (some v) ≠ bytes "NULL" := fun h => nomatch (sentText_null hsent).mp h
      rw [if_neg hne, literalText.eq_def]
      dsimp only
      rw [isNumberType_code]
      by_cases htype : f.type.isNumber = true
      · have htext : sentText f.type (some v) = v := if_pos htype
        rw [if_pos htype, if_pos htype, htext, put_eq t (by omega) (by omega)]
        exact ⟨_, rfl⟩
      · have htext : sentText f.type (some v) = zbxBinary2hex v := if_neg htype
        have hbinary : zbxHex2binary (bufferPut output (zbxBinary2hex v)) = v := zbxHex2binary_binary2hex v _
        rw [if_neg htype, if_neg htype, htext, hbinary]
        by_cases hblob : f.type = .blob
        · have hnil : zbxBinary2hex v = [] ↔ v = [] := by
            rw [← List.length_eq_zero_iff, length_zbxBinary2hex, ← List.length_eq_zero_iff]
            omega
          rw [if_pos (code_eq_blob.mpr hblob), if_pos hblob]
          by_cases hv : v = []
          · rw [if_pos (hnil.mpr hv), if_pos hv, put_eq t (by simp) (by simp)]
            exact ⟨_, rfl⟩
          · have hmark : (bytes "0x").length = 2 := by decide
            rw [if_neg fun h => hv (hnil.mp h), if_neg hv]
            cases b with
            | postgresql =>
                dsimp only
                rw [put_eq t (by simp; omega) (by simp)]
                exact ⟨_, rfl⟩
            | mysql | oracle | sqlite3 =>
                dsimp only
                rw [put_eq t (by rw [List.length_append, hmark]; omega) (by rw [List.length_append, hmark]; omega)]
                exact ⟨_, rfl⟩
        · rw [if_neg fun h => hblob (code_eq_blob.mp h), if_neg hblob, put_eq t (by simp; omega) (by simp)]
          exact ⟨_, rfl⟩

/-- The parts of a field are told apart. -/
theorem nextReceived_eq {f : ZbxField} (hname : zbxDmDelimiter ∉ f.name.val) {sent : Option (List UInt8)}
    (hsent : SentNumber f.type sent) (rest : Option (List UInt8)) (output : List UInt8) :
    ∃ output', nextReceived (fieldText f sent ++ rest.elim [] (zbxDmDelimiter :: ·)) output =
      .ok ({ fieldname := f.name.val, valuetype := f.type.code, value := sentText f.type sent }, rest,
        bufferPut output' (sentText f.type sent)) := by
  have htext : zbxDmDelimiter ∉ sentText f.type sent := fun h => (sentText_ne hsent h).2.2 rfl
  have hline : fieldText f sent ++ rest.elim [] (zbxDmDelimiter :: ·) = f.name.val ++ zbxDmDelimiter ::
      (d32 f.type.code ++ zbxDmDelimiter :: (sentText f.type sent ++ rest.elim [] (zbxDmDelimiter :: ·))) := by
    simp [fieldText]
  rw [hline, nextReceived, zbxGetNextField_append hname, ok_bind]
  dsimp only
  rw [zbxGetNextField_append code_ne, ok_bind]
  dsimp only
  rw [atoi_code]
  cases rest with
  | none =>
      rw [Option.elim_none, List.append_nil, zbxGetNextField_last htext]
      exact ⟨_, rfl⟩
  | some rest =>
      rw [Option.elim_some, zbxGetNextField_append htext]
      exact ⟨_, rfl⟩

end Zabbix.Nodesync
