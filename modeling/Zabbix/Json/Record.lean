import Zabbix.Atoi
import Zabbix.Json.Each

/-!
# Zabbix.Json.Record

Objects whose members are all values, and arrays of such objects: what the
programs send each other about their items.

What the builder makes of a field is read back by its name
(`zbxJsonValueByName_record`), and a loop over the objects of an array, with a
body that reads fields, is a fold over the records (`jsonWhile_records`).
-/

namespace Zabbix

open Ascii Nesting

/-! ## records -/

/-- A field of an object. -/
structure JsonField where
  name : CString
  value : CString
  type : ZbxJsonType

/-- The call that adds a field. -/
def JsonField.op (f : JsonField) : JsonOp := .addstring (some f.name) (some f.value) f.type

/-- A field that is read as it was written, where there is room for it: a
string, or an integer, without control characters that have no letter. -/
structure JsonField.Readable (f : JsonField) : Prop where
  legal : LegalValue (some f.value) f.type
  name_clean : ∀ c ∈ f.name.val, jsonClean c = true
  name_lt : f.name.val.length < maxStringLen
  value_clean : ∀ c ∈ f.value.val, jsonClean c = true

/-- A string that is transferred as it is. -/
def Transferable (s : CString) : Prop := s.val.length < maxStringLen ∧ ∀ c ∈ s.val, jsonClean c = true

instance (s : CString) : Decidable (Transferable s) := inferInstanceAs (Decidable (_ ∧ _))

theorem readable_string {name value : CString} (hname : Transferable name) (hvalue : ∀ c ∈ value.val, jsonClean c = true) :
    JsonField.Readable ⟨name, value, .string⟩ where
  legal := .inl rfl
  name_clean := hname.2
  name_lt := hname.1
  value_clean := hvalue

/-- The members of an object. -/
def recordMembers (fields : List JsonField) : Members :=
  fields.foldr (fun f rest => .value (some f.name) (some f.value) f.type rest) .nil

/-- The calls for an object. -/
def recordOps (fields : List JsonField) : List JsonOp := .addobject none :: (fields.map JsonField.op ++ [.close])

/-- The members of an array of objects. -/
def recordsMembers (rows : List (List JsonField)) : Members :=
  rows.foldr (fun fields rest => .node none true (recordMembers fields) rest) .nil

theorem foldl_step_fields (fields : List JsonField) (fs : List Frame) :
    (fields.map JsonField.op).foldl Frame.step fs = Frame.add (recordMembers fields) fs := by
  induction fields generalizing fs with
  | nil => exact (Frame.add_nil fs).symm
  | cons f fields ih =>
      rw [List.map_cons, List.foldl_cons, ih]
      exact Frame.add_add ..

theorem foldl_step_records (rows : List (List JsonField)) {fs : List Frame} (hfs : fs ≠ []) :
    (rows.flatMap recordOps).foldl Frame.step fs = Frame.add (recordsMembers rows) fs := by
  induction rows generalizing fs with
  | nil => exact (Frame.add_nil fs).symm
  | cons fields rows ih =>
      have hrow : (recordOps fields).foldl Frame.step fs =
          Frame.add (.node none true (recordMembers fields) .nil) fs :=
        Frame.foldl_step_node (fun _ => rfl) (fun fs _ => foldl_step_fields fields fs) hfs
      rw [List.flatMap_cons, List.foldl_append, hrow, ih (Frame.add_ne_nil _ hfs)]
      exact Frame.add_add ..

theorem valid_recordMembers {fields : List JsonField} (h : ∀ f ∈ fields, f.Readable) :
    (recordMembers fields).Valid true := by
  induction fields with
  | nil => trivial
  | cons f fields ih =>
      rw [List.forall_mem_cons] at h
      exact ⟨rfl, h.1.legal, ih h.2⟩

theorem valid_recordsMembers {rows : List (List JsonField)} (h : ∀ fields ∈ rows, ∀ f ∈ fields, f.Readable) :
    (recordsMembers rows).Valid false := by
  induction rows with
  | nil => trivial
  | cons fields rows ih =>
      rw [List.forall_mem_cons] at h
      exact ⟨rfl, valid_recordMembers h.1, ih h.2⟩

theorem readableNames_recordMembers {fields : List JsonField} (h : ∀ f ∈ fields, f.Readable) :
    ReadableNames maxStringLen (recordMembers fields).items := by
  induction fields with
  | nil => exact fun _ hitem => nomatch hitem
  | cons f fields ih =>
      rw [List.forall_mem_cons] at h
      exact List.forall_mem_cons.mpr ⟨⟨h.1.name_clean, h.1.name_lt⟩, ih h.2⟩

/-! ## fields by name -/

/-- The first field of a name. -/
def fieldOf (fields : List JsonField) (name : CString) : Option JsonField := fields.find? (·.name = name)

/-- A field is found with its value in front of a comma or a bracket, and any
other name among the members behind the fields. -/
theorem lookupEntry_append (fields : List JsonField) (ms : Members) (name : CString) (tail : Ptr) :
    match fieldOf fields name with
    | some f => ∃ c t, (c = comma ∨ c = rbrace) ∧
        lookupEntry name (entries (rbrace :: tail) ((recordMembers fields).append ms).items) =
          .found (jsonInsstring (some f.value) f.type ++ c :: t)
    | none => lookupEntry name (entries (rbrace :: tail) ((recordMembers fields).append ms).items) =
        lookupEntry name (entries (rbrace :: tail) ms.items) := by
  induction fields with
  | nil => rfl
  | cons f fields ih =>
      by_cases hname : f.name = name
      · have hfind : fieldOf (f :: fields) name = some f := List.find?_cons_of_pos (by simpa using hname)
        have hentry : lookupEntry name (entries (rbrace :: tail) ((recordMembers (f :: fields)).append ms).items) =
            .found (jsonInsstring (some f.value) f.type ++
              (followText ((recordMembers fields).append ms).items ++ rbrace :: tail)) :=
          lookupEntry_cons_self (congrArg some hname) _
        rw [hfind]
        cases hitems : ((recordMembers fields).append ms).items with
        | nil => exact ⟨rbrace, tail, .inr rfl, by rw [hentry, hitems]; rfl⟩
        | cons item items =>
            exact ⟨comma, nameText item.1 ++ item.2 ++ followText items ++ rbrace :: tail, .inl rfl,
              by rw [hentry, hitems]; simp [followText]⟩
      · have hfind : fieldOf (f :: fields) name = fieldOf fields name :=
          List.find?_cons_of_neg (by simpa using hname)
        have hentry : lookupEntry name (entries (rbrace :: tail) ((recordMembers (f :: fields)).append ms).items) =
            lookupEntry name (entries (rbrace :: tail) ((recordMembers fields).append ms).items) :=
          lookupEntry_cons_of_ne (fun heq => hname (Option.some.inj heq)) _
        rw [hfind, hentry]
        exact ih

/-- Fields that may be left out: names, types and values. -/
def optionalFields (entries : List (CString × ZbxJsonType × Option CString)) : List JsonField :=
  entries.filterMap fun e => e.2.2.map fun value => ⟨e.1, value, e.2.1⟩

theorem fieldOf_optionalFields_of_not_mem {entries : List (CString × ZbxJsonType × Option CString)} {name : CString}
    (h : name ∉ entries.map Prod.fst) : fieldOf (optionalFields entries) name = none := by
  refine List.find?_eq_none.mpr fun f hf hname => ?_
  obtain ⟨e, he, hvalue⟩ := List.mem_filterMap.mp hf
  obtain ⟨value, -, rfl⟩ := Option.map_eq_some_iff.mp hvalue
  exact h (List.mem_map.mpr ⟨e, he, of_decide_eq_true hname⟩)

/-- With distinct names, each name has its own value. -/
theorem value_optionalFields {entries : List (CString × ZbxJsonType × Option CString)}
    (hnodup : (entries.map Prod.fst).Nodup) {e : CString × ZbxJsonType × Option CString} (he : e ∈ entries) :
    (fieldOf (optionalFields entries) e.1).map (·.value) = e.2.2 := by
  induction entries with
  | nil => cases he
  | cons d entries ih =>
      rw [List.map_cons, List.nodup_cons] at hnodup
      rcases List.mem_cons.mp he with rfl | hmem
      · obtain ⟨name, type, value⟩ := e
        cases value with
        | none => exact congrArg (Option.map _) (fieldOf_optionalFields_of_not_mem hnodup.1)
        | some value =>
            have hfind : fieldOf (optionalFields ((name, type, some value) :: entries)) name =
                some ⟨name, value, type⟩ := List.find?_cons_of_pos (decide_eq_true rfl)
            exact congrArg (Option.map _) hfind
      · have hne : d.1 ≠ e.1 := fun heq => hnodup.1 (heq ▸ List.mem_map_of_mem hmem)
        obtain ⟨name, type, value⟩ := d
        cases value with
        | none => exact ih hnodup.2 hmem
        | some value =>
            have hfind : fieldOf (optionalFields ((name, type, some value) :: entries)) e.1 =
                fieldOf (optionalFields entries) e.1 := List.find?_cons_of_neg fun h => hne (of_decide_eq_true h)
            rw [hfind]
            exact ih hnodup.2 hmem

/-- What is decoded of a field, in front of what is no part of it. -/
theorem zbxJsonDecodevalue_field {f : JsonField} (h : f.Readable) {len : ℕ} (hlen : f.value.val.length < len)
    {c : UInt8} (hc : (c < 48 ∨ 57 < c) ∧ c ≠ minus) (t : Ptr) :
    (zbxJsonDecodevalue (jsonInsstring (some f.value) f.type ++ c :: t) len).map Prod.fst = .found f.value.val := by
  rcases h.legal with htype | ⟨htype, hint⟩
  · rw [htype, zbxJsonDecodevalue_string, decodestringLoop_flatMap h.value_clean (le_roomOf hlen)]
    rfl
  · have hbyte : ∀ d ∈ f.value.val, 48 ≤ d ∧ d ≤ 57 ∨ d = minus := by
      intro d hd
      refine (mem_isInt hint hd).imp_left fun hdigit => ?_
      simpa [JsonText.isDigit] using hdigit
    have hkind : zbxJsonType (f.value.val ++ c :: t) = .int := by
      cases hs : f.value.val with
      | nil =>
          rw [hs] at hint
          cases hint
      | cons d s =>
          have hd := hbyte d (hs ▸ List.mem_cons_self ..)
          have hquote : d ≠ dquote := by
            rintro rfl
            revert hd
            decide
          rw [zbxJsonType, List.cons_append, List.headD_cons, if_neg hquote, if_pos hd]
    rw [htype, jsonInsstring_int hint, zbxJsonDecodevalue, hkind]
    dsimp only
    rw [decodeintLoop_isInt hbyte (le_roomOf hlen) hc t]
    rfl

/-- The value of a field that is found. -/
theorem zbxJsonValueByName_of_lookup {ms : Members} (hvalid : ms.Valid true)
    (hnames : ReadableNames maxStringLen ms.items) (tail : Ptr) {name : CString} {f : JsonField} (hf : f.Readable)
    {len : ℕ} (hlen : f.value.val.length < len) {c : UInt8} (hc : c = comma ∨ c = rbrace) {t : Ptr}
    (h : lookupEntry name (entries (rbrace :: tail) ms.items) =
      .found (jsonInsstring (some f.value) f.type ++ c :: t)) :
    zbxJsonValueByName (nodeRange true ms tail) name.val len = .found f.value.val := by
  have hc' : (c < 48 ∨ 57 < c) ∧ c ≠ minus := by
    rcases hc with rfl | rfl <;> decide
  rw [zbxJsonValueByName, zbxJsonPairByName_lookup hvalid tail hnames name]
  exact (congrArg (Scan.bind · _) h).trans (zbxJsonDecodevalue_field hf hlen hc' t)

theorem append_recordMembers_nil (fields : List JsonField) : (recordMembers fields).append .nil = recordMembers fields :=
  Members.append_nil _

/-- **A field is read back by its name**, where there is room for it, and what
is no field is not found. -/
theorem zbxJsonValueByName_record {fields : List JsonField} (h : ∀ f ∈ fields, f.Readable) (tail : Ptr)
    (name : CString) {len : ℕ} (hlen : ∀ f, fieldOf fields name = some f → f.value.val.length < len) :
    zbxJsonValueByName (nodeRange true (recordMembers fields) tail) name.val len =
      match fieldOf fields name with
      | some f => .found f.value.val
      | none => .null := by
  have hvalid := valid_recordMembers h
  have hnames := readableNames_recordMembers h
  have hentry := lookupEntry_append fields .nil name tail
  rw [append_recordMembers_nil] at hentry
  cases hfind : fieldOf fields name with
  | none =>
      rw [hfind] at hentry
      rw [zbxJsonValueByName, zbxJsonPairByName_lookup hvalid tail hnames name]
      exact congrArg (Scan.bind · _) hentry
  | some f =>
      rw [hfind] at hentry
      obtain ⟨c, t, hc, hfound⟩ := hentry
      exact zbxJsonValueByName_of_lookup hvalid hnames tail (h f (List.mem_of_find?_eq_some hfind)) (hlen f hfind) hc
        hfound

/-! ## messages -/

/-- An object with an array of records behind some fields, and perhaps fields
behind it. -/
def messageMembers (front : List JsonField) (name : CString) (rows : List (List JsonField))
    (back : List JsonField) : Members :=
  (recordMembers front).append (.node (some name) false (recordsMembers rows) (recordMembers back))

/-- What is read as it was written. -/
structure ReadableMessage (front : List JsonField) (name : CString) (rows : List (List JsonField))
    (back : List JsonField) : Prop where
  front_readable : ∀ f ∈ front, f.Readable
  rows_readable : ∀ fields ∈ rows, ∀ f ∈ fields, f.Readable
  back_readable : ∀ f ∈ back, f.Readable
  name_clean : ∀ c ∈ name.val, jsonClean c = true
  name_lt : name.val.length < maxStringLen
  name_front : fieldOf front name = none

section

variable {front : List JsonField} {name : CString} {rows : List (List JsonField)} {back : List JsonField}

theorem valid_messageMembers (h : ReadableMessage front name rows back) :
    (messageMembers front name rows back).Valid true :=
  (valid_recordMembers h.front_readable).append ⟨rfl, valid_recordsMembers h.rows_readable, valid_recordMembers h.back_readable⟩

theorem readableNames_messageMembers (h : ReadableMessage front name rows back) :
    ReadableNames maxStringLen (messageMembers front name rows back).items := by
  have hback : ReadableNames maxStringLen
      (Members.node (some name) false (recordsMembers rows) (recordMembers back)).items :=
    List.forall_mem_cons.mpr ⟨⟨h.name_clean, h.name_lt⟩, readableNames_recordMembers h.back_readable⟩
  have hfront := h.front_readable
  rw [messageMembers]
  clear h
  induction front with
  | nil => exact hback
  | cons f front ih =>
      rw [List.forall_mem_cons] at hfront
      exact List.forall_mem_cons.mpr ⟨⟨hfront.1.name_clean, hfront.1.name_lt⟩, ih hfront.2⟩

/-- The calls for an object of fields. -/
theorem jsonDocument_record (fields : List JsonField) : jsonDocument (fields.map JsonField.op) = recordMembers fields := by
  rw [jsonDocument, Frame.run, foldl_step_fields]
  simp [Frame.add, wrap, Members.children, Members.append]

/-- The calls for a message; the array need not be closed. -/
theorem jsonDocument_message (front : List JsonField) (name : CString) (rows : List (List JsonField)) :
    (∀ back : List JsonField,
      jsonDocument (front.map JsonField.op ++ .addarray (some name) ::
        (rows.flatMap recordOps ++ .close :: back.map JsonField.op)) = messageMembers front name rows back) ∧
    jsonDocument (front.map JsonField.op ++ .addarray (some name) :: rows.flatMap recordOps) =
      messageMembers front name rows [] := by
  refine ⟨fun back => ?_, ?_⟩
  · rw [jsonDocument, Frame.run, List.foldl_append, foldl_step_fields, List.foldl_cons, List.foldl_append,
      foldl_step_records rows (by simp [Frame.step]), List.foldl_cons, foldl_step_fields]
    simp [Frame.add, Frame.step, Frame.close, wrap, Members.children, Members.append, messageMembers,
      Members.append_assoc]
  · rw [jsonDocument, Frame.run, List.foldl_append, foldl_step_fields, List.foldl_cons,
      foldl_step_records rows (by simp [Frame.step])]
    simp [Frame.add, Frame.step, wrap, Members.children, Members.append, messageMembers, recordMembers]

/-- **A field of a message** is read back by its name. -/
theorem zbxJsonValueByName_message (h : ReadableMessage front name rows back) (tail : Ptr) {key : CString}
    (hkey : key ≠ name) {len : ℕ} (hlen : ∀ f, fieldOf (front ++ back) key = some f → f.value.val.length < len) :
    zbxJsonValueByName (nodeRange true (messageMembers front name rows back) tail) key.val len =
      match fieldOf (front ++ back) key with
      | some f => .found f.value.val
      | none => .null := by
  have hvalid := valid_messageMembers h
  have hnames := readableNames_messageMembers h
  have hentry := lookupEntry_append front (.node (some name) false (recordsMembers rows) (recordMembers back)) key tail
  have hor : fieldOf (front ++ back) key = (fieldOf front key).or (fieldOf back key) := List.find?_append
  cases hfront : fieldOf front key with
  | some f =>
      rw [hfront, Option.some_or] at hor
      rw [hfront] at hentry
      obtain ⟨c, t, hc, hfound⟩ := hentry
      rw [hor]
      exact zbxJsonValueByName_of_lookup hvalid hnames tail (h.front_readable f (List.mem_of_find?_eq_some hfront))
        (hlen f hor) hc hfound
  | none =>
      have hback := lookupEntry_append back .nil key tail
      have hnode : lookupEntry key (entries (rbrace :: tail)
          (Members.node (some name) false (recordsMembers rows) (recordMembers back)).items) =
          lookupEntry key (entries (rbrace :: tail) (recordMembers back).items) :=
        lookupEntry_cons_of_ne (fun heq => hkey (Option.some.inj heq).symm) _
      rw [hfront, Option.none_or] at hor
      rw [hfront] at hentry
      rw [append_recordMembers_nil] at hback
      rw [hor]
      cases hfind : fieldOf back key with
      | none =>
          rw [hfind] at hback
          rw [zbxJsonValueByName, zbxJsonPairByName_lookup hvalid tail hnames key]
          exact congrArg (Scan.bind · _) (hentry.trans (hnode.trans hback))
      | some f =>
          rw [hfind] at hback
          obtain ⟨c, t, hc, hfound⟩ := hback
          exact zbxJsonValueByName_of_lookup hvalid hnames tail (h.back_readable f (List.mem_of_find?_eq_some hfind))
            (hlen f (hor.trans hfind)) hc (hentry.trans (hnode.trans hfound))

/-- **The array of a message** is found and opened. -/
theorem zbxJsonPairByName_message (h : ReadableMessage front name rows back) (tail : Ptr) :
    ∃ p t, zbxJsonPairByName (nodeRange true (messageMembers front name rows back) tail) name.val = .found p ∧
      zbxJsonBracketsOpen p = .found (nodeRange false (recordsMembers rows) t) := by
  have hentry := lookupEntry_append front (.node (some name) false (recordsMembers rows) (recordMembers back)) name tail
  rw [h.name_front] at hentry
  have hnode : lookupEntry name (entries (rbrace :: tail)
      (Members.node (some name) false (recordsMembers rows) (recordMembers back)).items) =
      .found (Members.nodeText false (recordsMembers rows) ++
        (followText (recordMembers back).items ++ rbrace :: tail)) := lookupEntry_cons_self rfl _
  refine ⟨_, followText (recordMembers back).items ++ rbrace :: tail, ?_,
    zbxJsonBracketsOpen_nodeText (valid_recordsMembers h.rows_readable) _⟩
  rw [zbxJsonPairByName_lookup (valid_messageMembers h) tail (readableNames_messageMembers h) name]
  exact hentry.trans hnode

end

/-! ## loops over records -/

/-- `while (SUCCEED == ret && NULL != (p = zbx_json_next(&jp, p)))`: the state,
and whether `ret` is `SUCCEED`.  The body has no result when it reads behind the
end of the text. -/
def jsonWhile {σ : Type} (jp : ZbxJsonParse) (body : σ → Ptr → Option (σ × Bool)) (s : σ) (p : Option Ptr) :
    Option (σ × Bool) :=
  match _h : zbxJsonNext jp p with
  | .found q =>
      match body s q with
      | none => none
      | some (s, true) => jsonWhile jp body s (some q)
      | some (s, false) => some (s, false)
  | .null => some (s, true)
  | .overrun => none
termination_by remaining jp p
decreasing_by exact length_zbxJsonNext _h

theorem jsonWhile_eq {σ : Type} (jp : ZbxJsonParse) (body : σ → Ptr → Option (σ × Bool)) (s : σ) (p : Option Ptr) :
    jsonWhile jp body s p =
      match zbxJsonNext jp p with
      | .found q =>
          match body s q with
          | none => none
          | some (s, true) => jsonWhile jp body s (some q)
          | some (s, false) => some (s, false)
      | .null => some (s, true)
      | .overrun => none := by
  rw [jsonWhile]
  split
  · next heq => rw [heq]
  · next heq => rw [heq]
  · next heq => rw [heq]

/-- A loop over what is enumerated, with a body that goes through all of it. -/
theorem jsonWhile_enumerates {σ β : Type} {jp : ZbxJsonParse} {body : σ → Ptr → Option (σ × Bool)}
    {step : σ → β → σ} {p : Option Ptr} {ps : List Ptr} (h : Enumerates (zbxJsonNext jp) id p ps) {bs : List β}
    (hbody : List.Forall₂ (fun q b => ∀ s, body s q = some (step s b, true)) ps bs) (s : σ) :
    jsonWhile jp body s p = some (bs.foldl step s, true) := by
  induction hbody generalizing p s with
  | nil =>
      have hnull : zbxJsonNext jp p = .null := h
      rw [jsonWhile_eq, hnull]
      rfl
  | @cons q b ps bs hq _ ih =>
      obtain ⟨hfound, hrest⟩ := h
      rw [jsonWhile_eq, hfound]
      dsimp only
      rw [hq s]
      exact ih hrest (step s b)

/-- What every turn keeps, the loop keeps. -/
theorem jsonWhile_keeps {σ : Type} {jp : ZbxJsonParse} {body : σ → Ptr → Option (σ × Bool)} {P : σ → Prop}
    (hbody : ∀ s q r, P s → body s q = some r → P r.1) {s : σ} {p : Option Ptr} {r : σ × Bool} (hs : P s)
    (h : jsonWhile jp body s p = some r) : P r.1 := by
  induction s, p using jsonWhile.induct jp body with
  | case1 s p q hq hnone =>
      rw [jsonWhile_eq, hq] at h
      dsimp only at h
      rw [hnone] at h
      cases h
  | case2 s p q hq s' htrue ih =>
      rw [jsonWhile_eq, hq] at h
      dsimp only at h
      rw [htrue] at h
      exact ih (hbody s q _ hs htrue) h
  | case3 s p q hq s' hfalse =>
      rw [jsonWhile_eq, hq] at h
      dsimp only at h
      rw [hfalse] at h
      obtain rfl := Option.some.inj h
      exact hbody s q _ hs hfalse
  | case4 s p hnull =>
      rw [jsonWhile_eq, hnull] at h
      obtain rfl := Option.some.inj h
      exact hs
  | case5 s p hoverrun =>
      rw [jsonWhile_eq, hoverrun] at h
      cases h

/-- **A loop over records**, with a body that goes through all of them, is a
fold. -/
theorem jsonWhile_records {σ ι : Type} {items : List ι} {fields : ι → List JsonField}
    (h : ∀ i ∈ items, ∀ f ∈ fields i, f.Readable) (tail : Ptr) {body : σ → Ptr → Option (σ × Bool)} {step : σ → ι → σ}
    (hbody : ∀ i ∈ items, ∀ s t,
      body s (Members.nodeText true (recordMembers (fields i)) ++ t) = some (step s i, true)) (s : σ) :
    jsonWhile (nodeRange false (recordsMembers (items.map fields)) tail) body s none =
      some (items.foldl step s, true) := by
  have hvalid := valid_recordsMembers (List.forall_mem_map.mpr h)
  refine jsonWhile_enumerates (enumerates_next hvalid tail) ?_ s
  clear h hvalid
  generalize closeBracket false :: tail = stop
  induction items with
  | nil => exact .nil
  | cons i items ih =>
      rw [List.forall_mem_cons] at hbody
      exact .cons (fun s => hbody.1 s _) (ih hbody.2)

/-! ## fields in the programs -/

/-- What is seen of bytes as a string. -/
def cstrOf (s : List UInt8) : CString := ⟨cstr s, not_mem_cstr s⟩

/-- `zbx_json_value_by_name` into an array: no result when it reads behind the
end of the text, and else the string, where there is one. -/
def jsonString (jp : ZbxJsonParse) (name : CString) (len : ℕ) : Option (Option CString) :=
  match zbxJsonValueByName jp name.val len with
  | .found value => some (some (cstrOf value))
  | .null => some none
  | .overrun => none

theorem jsonString_eq_of {jp : ZbxJsonParse} {name : CString} {len : ℕ} {f : Option JsonField}
    (h : zbxJsonValueByName jp name.val len = match f with
      | some f => .found f.value.val
      | none => .null) : jsonString jp name len = some (f.map (·.value)) := by
  rw [jsonString, h]
  cases f with
  | none => rfl
  | some f => exact congrArg (some ∘ some) (Subtype.ext (cstr_of_not_mem f.value.property))

theorem jsonString_record {fields : List JsonField} (h : ∀ f ∈ fields, f.Readable) (tail : Ptr) (name : CString)
    {len : ℕ} (hlen : ∀ f, fieldOf fields name = some f → f.value.val.length < len) :
    jsonString (nodeRange true (recordMembers fields) tail) name len =
      some ((fieldOf fields name).map (·.value)) :=
  jsonString_eq_of (zbxJsonValueByName_record h tail name hlen)

/-- A field of a message, where there is room for it. -/
theorem jsonString_message {front back : List JsonField} {name : CString} {rows : List (List JsonField)}
    (h : ReadableMessage front name rows back) (tail : Ptr) (key : CString) (hkey : key ≠ name) {f : JsonField}
    (hf : fieldOf (front ++ back) key = some f) {len : ℕ} (hlen : f.value.val.length < len) :
    jsonString (nodeRange true (messageMembers front name rows back) tail) key len = some (some f.value) := by
  have hroom : ∀ f', fieldOf (front ++ back) key = some f' → f'.value.val.length < len := by
    intro f' hf'
    obtain rfl := Option.some.inj (hf.symm.trans hf')
    exact hlen
  have hread := zbxJsonValueByName_message h tail hkey hroom
  rw [jsonString_eq_of hread, hf]
  rfl

theorem length_decodeintLoop_le {room : ℕ} {p q : Ptr} {s : List UInt8} (h : decodeintLoop room p = .found (s, q)) :
    s.length ≤ room := by
  induction p generalizing room s with
  | nil => cases h
  | cons c p ih =>
      rw [decodeintLoop] at h
      split at h
      · cases h
        exact Nat.zero_le _
      · split at h
        · exact ih h
        · obtain ⟨t, ht, rfl⟩ := put_eq_found h
          have := ih ht
          rw [List.length_cons]
          omega

/-- A value fits in the array that it is read into. -/
theorem length_zbxJsonValueByName_le {jp : ZbxJsonParse} {name : List UInt8} {len : ℕ} {s : List UInt8}
    (h : zbxJsonValueByName jp name (len + 1) = .found s) : s.length ≤ len := by
  obtain ⟨p, -, hp⟩ := Scan.bind_eq_found h
  obtain ⟨⟨s, q⟩, hdecode, rfl⟩ := Scan.map_eq_found hp
  rw [zbxJsonDecodevalue] at hdecode
  split at hdecode
  · rw [zbxJsonDecodestring.eq_def] at hdecode
    split at hdecode
    · cases hdecode
    · split at hdecode
      · exact length_decodestringLoop_le hdecode
      · cases hdecode
  · exact length_decodeintLoop_le hdecode
  all_goals cases hdecode

/-- `zbx_json_value_by_name` into an array with room for so many bytes in front of
the NUL. -/
def jsonStringIn (jp : ZbxJsonParse) (name : CString) (len : ℕ) :
    Option (Option { s : CString // s.val.length ≤ len }) :=
  match h : zbxJsonValueByName jp name.val (len + 1) with
  | .found value =>
      some (some ⟨cstrOf value, (length_cstr_le value).trans (length_zbxJsonValueByName_le h)⟩)
  | .null => some none
  | .overrun => none

theorem jsonStringIn_eq {jp : ZbxJsonParse} {name : CString} {len : ℕ} {s : CString} (hlen : s.val.length ≤ len)
    (h : jsonString jp name (len + 1) = some (some s)) : jsonStringIn jp name len = some (some ⟨s, hlen⟩) := by
  rw [jsonString] at h
  rw [jsonStringIn]
  split
  · next value hvalue =>
      rw [hvalue] at h
      obtain rfl := Option.some.inj (Option.some.inj h)
      rfl
  · next hnull =>
      rw [hnull] at h
      cases h
  · next hoverrun =>
      rw [hoverrun] at h
      cases h

/-- The text of a `%d`. -/
def d32Text (n : Int32) : CString :=
  ⟨Printf.d32 n, by
    have hdec : ∀ n, (0 : UInt8) ∉ Printf.dec n := fun n h => absurd (Printf.digit_of_mem_dec h).1 (by decide)
    rw [Printf.d32]
    split
    · rw [List.mem_cons, not_or]
      exact ⟨by decide, hdec _⟩
    · exact hdec _⟩

theorem clean_d32 {n : Int32} {c : UInt8} (h : c ∈ Printf.d32 n) : jsonClean c = true := by
  have hdigit : ∀ c : UInt8, 48 ≤ c.toNat ∧ c.toNat ≤ 57 → jsonClean c = true :=
    forall_byte (by decide +kernel)
  rw [Printf.d32] at h
  split at h
  · rcases List.mem_cons.mp h with rfl | h
    · decide
    · exact hdigit c (Printf.digit_of_mem_dec h)
  · exact hdigit c (Printf.digit_of_mem_dec h)

/-- An `int` is read as it was printed. -/
theorem atoi_d32 (n : Int32) : atoi (Printf.d32 n) = n := by
  have hlo := n.le_toInt
  have hhi := n.toInt_lt
  rw [Printf.d32, atoi]
  split
  · next h =>
      have hdigits : (Printf.dec n.toInt.natAbs).takeWhile (fun c => JsonText.isDigit c) =
          Printf.dec n.toInt.natAbs := List.takeWhile_eq_self_iff.mpr fun c hc => isDigit_of_mem_dec hc
      have hread : atoll (minus :: Printf.dec n.toInt.natAbs) = n.toInt := by
        rw [atoll, List.dropWhile_cons_of_neg (by decide)]
        dsimp only
        rw [if_pos rfl, hdigits, Printf.ofDec_dec]
        omega
      rw [hread, Int32.ofInt_toInt]
  · next h =>
      have hread : atoll (Printf.dec n.toInt.natAbs) = n.toInt := by
        rw [atoll_dec]
        omega
      rw [hread, Int32.ofInt_toInt]

end Zabbix
