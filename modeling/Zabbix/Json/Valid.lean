import Zabbix.Json.Tree
import Zabbix.Lib.JsonText

/-!
# Zabbix.Json.Valid

What the builder has in its buffer at any time is a JSON text, when its callers
name the members of objects, do not name those of arrays, and pass integers as
integers.
-/

namespace Zabbix

open Ascii

/-! ## callers -/

/-- What may be passed as a value: no string, a string, or an integer. -/
def LegalValue (string : Option CString) (type : ZbxJsonType) : Prop :=
  match string with
  | none => True
  | some s => type = .string ∨ (type = .int ∧ JsonText.isInt s.val = true)

/-- What may be called when an object (or an array) is open. -/
def JsonOp.Legal (object : Bool) : JsonOp → Prop
  | .addobject name | .addarray name => name.isSome = object
  | .addstring name string type => name.isSome = object ∧ LegalValue string type
  | .close => True

/-- Operations that may be called, one after the other. -/
def LegalOps (fs : List Frame) : List JsonOp → Prop
  | [] => True
  | op :: ops => op.Legal (fs.head?.all (·.object)) ∧ LegalOps (Frame.step fs op) ops

namespace Members

/-- The members of objects have names, those of arrays have none. -/
def Valid (object : Bool) : Members → Prop
  | nil => True
  | value name string type rest => name.isSome = object ∧ LegalValue string type ∧ rest.Valid object
  | node name object' members rest => name.isSome = object ∧ members.Valid object' ∧ rest.Valid object

theorem Valid.append {object : Bool} {ms ms' : Members} (h : ms.Valid object) (h' : ms'.Valid object) :
    (ms.append ms').Valid object := by
  induction ms with
  | nil => exact h'
  | value name string type rest ih => exact ⟨h.1, h.2.1, ih h.2.2⟩
  | node name object' members rest _ ih => exact ⟨h.1, h.2.1, ih h.2.2⟩

end Members

/-- The frames of a document that is valid so far. -/
def ValidFrames : List Frame → Prop
  | [] => True
  | [f] => f.members.Valid f.object
  | f :: g :: fs => f.members.Valid f.object ∧ f.name.isSome = g.object ∧ ValidFrames (g :: fs)

theorem ValidFrames.add {f : Frame} {fs : List Frame} (h : ValidFrames (f :: fs)) {ms : Members}
    (hms : ms.Valid f.object) : ValidFrames (Frame.add ms (f :: fs)) := by
  cases fs with
  | nil => exact Members.Valid.append h hms
  | cons g fs => exact ⟨h.1.append hms, h.2⟩

theorem ValidFrames.step {f : Frame} {fs : List Frame} (h : ValidFrames (f :: fs)) {op : JsonOp}
    (hop : op.Legal f.object) : ValidFrames (Frame.step (f :: fs) op) := by
  cases op with
  | addobject name => exact ⟨trivial, hop, h⟩
  | addarray name => exact ⟨trivial, hop, h⟩
  | addstring name string type => exact h.add ⟨hop.1, hop.2, trivial⟩
  | close =>
      cases fs with
      | nil => exact h
      | cons g fs => exact h.2.2.add ⟨h.2.1, h.1, trivial⟩

/-- Closing valid frames gives a valid document. -/
theorem ValidFrames.wrap {fs : List Frame} {inner : Members} (h : ValidFrames fs) {gs : List Frame}
    {ms : Members} (hroot : fs = gs ++ [{ name := none, object := true, members := ms }])
    (hinner : inner.Valid (fs.head?.all (·.object))) :
    (Zabbix.wrap inner fs).children.Valid true := by
  induction gs generalizing fs inner with
  | nil =>
      subst hroot
      exact Members.Valid.append h hinner
  | cons g gs ih =>
      subst hroot
      obtain ⟨f, fs, heq⟩ : ∃ f fs, gs ++ [{ name := none, object := true, members := ms : Frame }] = f :: fs :=
        List.exists_cons_of_ne_nil (by simp)
      rw [List.cons_append, heq] at h hinner ⊢
      have hmember : Members.Valid f.object (.node g.name g.object (g.members.append inner) .nil) :=
        ⟨h.2.1, h.1.append hinner, trivial⟩
      change (Zabbix.wrap (.node g.name g.object (g.members.append inner) .nil) (f :: fs)).children.Valid true
      exact ih h.2.2 heq.symm hmember

/-- **Legal operations make a valid document.** -/
theorem valid_jsonDocument {ops : List JsonOp} (h : LegalOps (Frame.run []) ops) :
    (jsonDocument ops).Valid true := by
  have hfold : ∀ (ops : List JsonOp) (fs : List Frame), Rooted fs → ValidFrames fs → LegalOps fs ops →
      ValidFrames (ops.foldl Frame.step fs) := by
    intro ops
    induction ops with
    | nil => exact fun _ _ hfs _ => hfs
    | cons op ops ih =>
        intro fs hroot hfs hops
        obtain ⟨gs, ms, rfl⟩ := id hroot
        obtain ⟨f, fs, heq⟩ : ∃ f fs, gs ++ [{ name := none, object := true, members := ms : Frame }] = f :: fs :=
          List.exists_cons_of_ne_nil (by simp)
        rw [heq] at hroot hfs hops ⊢
        refine ih _ (hroot.step op) (hfs.step ?_) hops.2
        simpa using hops.1
  have hvalid : ValidFrames (Frame.run ops) := hfold ops _ ⟨[], .nil, rfl⟩ trivial h
  obtain ⟨gs, ms, hroot⟩ := rooted_run ops
  exact hvalid.wrap hroot trivial

/-! ## the grammar -/

theorem chars_jsonEscape (c : UInt8) : JsonText.Chars (jsonEscape c) := by
  have hletter : ∀ c : UInt8, (escapeLetter c).all JsonText.isEscapeLetter = true :=
    forall_byte (by decide +kernel)
  have hhex : ∀ c : UInt8, c < 32 → JsonText.isHexDigit (zbxNum2hex ((c >>> 4) &&& 0xf)) = true ∧
      JsonText.isHexDigit (zbxNum2hex (c &&& 0xf)) = true := forall_byte (by decide +kernel)
  rw [jsonEscape]
  cases he : escapeLetter c with
  | some letter =>
      have hl := hletter c
      rw [he, Option.all_some] at hl
      exact .escape hl .nil
  | none =>
      dsimp only
      split
      · rename_i hlt
        exact .unicode ⟨rfl, rfl, hhex c hlt⟩ .nil
      · rename_i hle
        refine .unescaped ⟨UInt8.not_lt.mp hle, ?_, ?_⟩ .nil
        all_goals
          rintro rfl
          cases he

theorem chars_flatMap_jsonEscape (s : List UInt8) : JsonText.Chars (s.flatMap jsonEscape) := by
  induction s with
  | nil => exact .nil
  | cons c s ih =>
      rw [List.flatMap_cons]
      exact (chars_jsonEscape c).append ih

theorem str_jsonInsstring (s : CString) : JsonText.Str (jsonInsstring (some s) .string) :=
  ⟨s.val.flatMap jsonEscape, chars_flatMap_jsonEscape s.val, rfl⟩

/-- The bytes of an integer. -/
theorem mem_isInt {s : List UInt8} (h : JsonText.isInt s = true) {c : UInt8} (hc : c ∈ s) :
    JsonText.isDigit c = true ∨ c = minus := by
  have hnat : ∀ s : List UInt8, JsonText.isNat s = true → ∀ c ∈ s, JsonText.isDigit c = true := by
    intro s hs c hc
    cases s with
    | nil => cases hc
    | cons d s =>
        simp only [JsonText.isNat, Bool.or_eq_true, Bool.and_eq_true, decide_eq_true_eq,
          List.isEmpty_iff, List.all_eq_true] at hs
        rcases hs with ⟨rfl, rfl⟩ | ⟨⟨hlo, hhi⟩, hs⟩
        · rw [List.mem_singleton.mp hc]
          rfl
        · rcases List.mem_cons.mp hc with rfl | hc
          · exact decide_eq_true ⟨UInt8.le_trans (by decide) hlo, hhi⟩
          · exact hs c hc
  cases s with
  | nil => cases hc
  | cons d s =>
      rw [JsonText.isInt] at h
      split at h
      · rename_i hd
        rcases List.mem_cons.mp hc with rfl | hc
        · exact .inr hd
        · exact .inl (hnat s h c hc)
      · exact .inl (hnat _ h c hc)

theorem flatMap_jsonEscape_int {s : List UInt8} (h : JsonText.isInt s = true) :
    s.flatMap jsonEscape = s := by
  have hbyte : ∀ c : UInt8, JsonText.isDigit c = true ∨ c = minus → jsonEscape c = [c] :=
    forall_byte (by decide +kernel)
  have hall : ∀ t : List UInt8, (∀ c ∈ t, jsonEscape c = [c]) → t.flatMap jsonEscape = t := by
    intro t ht
    induction t with
    | nil => rfl
    | cons c t ih =>
        rw [List.flatMap_cons, ht c (List.mem_cons_self ..), ih fun d hd => ht d (List.mem_cons_of_mem c hd)]
        rfl
  exact hall s fun c hc => hbyte c (mem_isInt h hc)

theorem jsonInsstring_int {s : CString} (h : JsonText.isInt s.val = true) :
    jsonInsstring (some s) .int = s.val := by
  simp [jsonInsstring, stringOrNull, flatMap_jsonEscape_int h]

theorem value_jsonInsstring {string : Option CString} {type : ZbxJsonType} (h : LegalValue string type) :
    JsonText.Value (jsonInsstring string type) := by
  cases string with
  | none =>
      have hnull : jsonInsstring none type = bytes "null" := by
        simp [jsonInsstring, stringOrNull]
        decide
      rw [hnull]
      exact .null
  | some s =>
      rcases h with rfl | ⟨rfl, hint⟩
      · exact .string (str_jsonInsstring s)
      · rw [jsonInsstring_int hint]
        exact .number (JsonText.number_of_isInt hint)

/-- The members of an object or of an array. -/
def Items (object : Bool) (s : List UInt8) : Prop :=
  if object then JsonText.Pairs s else JsonText.Elements s

theorem ws_lineBreak (level : ℕ) : JsonText.Ws (lineBreak level) := by
  intro c hc
  rcases List.mem_cons.mp hc with rfl | hc
  · exact .inr (.inr (.inl rfl))
  · exact .inr (.inl (List.eq_of_mem_replicate hc))

/-- The last member. -/
theorem items_last {object : Bool} {w v : List UInt8} {name : Option CString} (hw : JsonText.Ws w)
    (hname : name.isSome = object) (hv : JsonText.Value v) : Items object (w ++ nameText name ++ v) := by
  subst hname
  cases name with
  | none => simpa [Items, nameText] using JsonText.Elements.last hw hv JsonText.ws_nil
  | some n =>
      simpa [Items, nameText] using JsonText.Pairs.last hw (str_jsonInsstring n) JsonText.ws_nil
        JsonText.ws_nil hv JsonText.ws_nil

/-- A member in front of others. -/
theorem items_cons {object : Bool} {w v s : List UInt8} {name : Option CString} (hw : JsonText.Ws w)
    (hname : name.isSome = object) (hv : JsonText.Value v) (hs : Items object s) :
    Items object (w ++ nameText name ++ v ++ comma :: s) := by
  subst hname
  cases name with
  | none => simpa [Items, nameText] using JsonText.Elements.cons hw hv JsonText.ws_nil hs
  | some n =>
      simpa [Items, nameText] using JsonText.Pairs.cons hw (str_jsonInsstring n) JsonText.ws_nil
        JsonText.ws_nil hv JsonText.ws_nil hs

namespace Members

theorem text_false {ms : Members} (h : ms.isNil = false) (level : ℕ) :
    ms.text level false = comma :: ms.text level true := by
  cases ms with
  | nil => cases h
  | value name string type rest => rfl
  | node name object members rest => rfl

/-- A member in front of the others, if there are any. -/
theorem items_text_cons {object : Bool} {w v : List UInt8} {name : Option CString} {rest : Members}
    {level : ℕ} (hw : JsonText.Ws w) (hname : name.isSome = object) (hv : JsonText.Value v)
    (hrest : rest.isNil = false → Items object (rest.text level true)) :
    Items object (w ++ nameText name ++ v ++ rest.text level false) := by
  cases hnil : rest.isNil with
  | false =>
      rw [text_false hnil]
      exact items_cons hw hname hv (hrest hnil)
  | true =>
      cases rest with
      | nil => simpa [text] using items_last hw hname hv
      | value name string type rest => cases hnil
      | node name object members rest => cases hnil

/-- An object or an array is a value. -/
theorem value_node {object : Bool} {ms : Members} {level : ℕ}
    (h : ms.isNil = false → Items object (ms.text level true)) :
    JsonText.Value (openBracket object :: (ms.text level true ++ [closeBracket object])) := by
  cases hnil : ms.isNil with
  | true =>
      cases ms with
      | nil =>
          cases object with
          | false => exact .emptyArray JsonText.ws_nil
          | true => exact .emptyObject JsonText.ws_nil
      | value name string type rest => cases hnil
      | node name object members rest => cases hnil
  | false =>
      cases object with
      | false => exact .array (h hnil)
      | true => exact .object (h hnil)

/-- **The text of valid members follows the grammar.** -/
theorem items_text {ms : Members} {object : Bool} (h : ms.Valid object) (level : ℕ)
    (hne : ms.isNil = false) : Items object (ms.text level true) := by
  induction ms generalizing object level with
  | nil => cases hne
  | value name string type rest ih =>
      have hw : JsonText.Ws (if name.isSome then lineBreak level else []) := by
        split
        · exact ws_lineBreak level
        · exact JsonText.ws_nil
      exact items_text_cons hw h.1 (value_jsonInsstring h.2.1) fun hnil => ih h.2.2 level hnil
  | node name object' members rest ihm ih =>
      have hw : JsonText.Ws (if level ≠ 0 then lineBreak level else []) := by
        split
        · exact ws_lineBreak level
        · exact JsonText.ws_nil
      have hvalue : JsonText.Value
          (openBracket object' :: (members.text (level + 1) true ++ [closeBracket object'])) :=
        value_node fun hnil => ihm h.2.1 (level + 1) hnil
      have hitems := items_text_cons hw h.1 hvalue fun hnil => ih h.2.2 level hnil
      simpa [text, separator, nodeHead] using hitems

end Members

/-! ## the builder -/

/-- What an operation does to the kinds of the open objects and arrays. -/
def kindsStep (kinds : List Bool) : JsonOp → List Bool
  | .addobject _ => true :: kinds
  | .addarray _ => false :: kinds
  | .addstring .. => kinds
  | .close => if kinds.length = 1 then kinds else kinds.tail

/-- The kinds of the open objects and arrays, the innermost first. -/
def openKinds (ops : List JsonOp) : List Bool := ops.foldl kindsStep [true]

theorem openKinds_eq (ops : List JsonOp) : openKinds ops = (Frame.run ops).map (·.object) := by
  have hadd : ∀ (ms : Members) (fs : List Frame),
      (Frame.add ms fs).map (·.object) = fs.map (·.object) := by
    intro ms fs
    cases fs <;> rfl
  have hstep : ∀ (fs : List Frame) (op : JsonOp),
      kindsStep (fs.map (·.object)) op = (Frame.step fs op).map (·.object) := by
    intro fs op
    cases op with
    | addobject name => rfl
    | addarray name => rfl
    | addstring name string type => exact (hadd _ fs).symm
    | close =>
        cases fs with
        | nil => rfl
        | cons f fs =>
            cases fs with
            | nil => rfl
            | cons g fs => simp [kindsStep, Frame.step, Frame.close, hadd]
  have hfold : ∀ (ops : List JsonOp) (fs : List Frame),
      ops.foldl kindsStep (fs.map (·.object)) = (ops.foldl Frame.step fs).map (·.object) := by
    intro ops
    induction ops with
    | nil => exact fun _ => rfl
    | cons op ops ih =>
        intro fs
        rw [List.foldl_cons, List.foldl_cons, hstep, ih]
  exact hfold ops [{ name := none, object := true, members := .nil }]

theorem closing_run (ops : List JsonOp) :
    Frame.closing (Frame.run ops) = (openKinds ops).map closeBracket := by
  rw [openKinds_eq]
  induction Frame.run ops with
  | nil => rfl
  | cons f fs ih => rw [Frame.closing, ih, List.map_cons, List.map_cons]

/-- **The representation of a document under construction**: the size is the
length of the text, and fits; behind the offset are the brackets that close
what is open; the two passes over a string agree; and the text is a JSON text,
when the operations are such as a caller may make. -/
theorem jsonBuilder_represents (garbage : Mem) (allocate : ℕ) (ops : List JsonOp) :
    let j := jsonRun garbage allocate ops
    j.bufferSize = j.text.length ∧
      j.bufferSize + 1 ≤ j.bufferAllocated ∧
      (∃ emitted, j.text = emitted ++ (openKinds ops).map closeBracket ∧
        j.bufferOffset = emitted.length) ∧
      (∀ string type, (jsonInsstring string type).length = jsonStringsize string type) ∧
      (LegalOps (Frame.run []) ops → JsonText.Text j.text) := by
  have h := jsonInv_run garbage allocate ops
  have htext : (jsonRun garbage allocate ops).text =
      Frame.emitted (Frame.run ops) ++ Frame.closing (Frame.run ops) := by
    rw [text_jsonRun, ← wrap_run, text_wrap, Members.text, List.append_nil]
  refine ⟨?_, h.allocated, ⟨Frame.emitted (Frame.run ops), ?_, h.offset⟩, length_jsonInsstring, ?_⟩
  · rw [htext, h.size, List.length_append]
  · rw [htext, closing_run]
  · intro hops
    have hvalue : JsonText.Value
        (openBracket true :: ((jsonDocument ops).text 1 true ++ [closeBracket true])) :=
      Members.value_node fun hnil => Members.items_text (valid_jsonDocument hops) 1 hnil
    refine ⟨[], _, [], JsonText.ws_nil, hvalue, JsonText.ws_nil, .inl rfl, ?_⟩
    rw [text_jsonRun]
    simp [Members.text, Members.separator, Members.nodeHead, nameText]

/-- An array with a string and a null in an object, still open. -/
theorem jsonBuilder_represents_array :
    JsonText.Text (jsonRun (fun _ => 7) 0 [.addarray (some ⟨bytes "data", by decide⟩),
      .addstring none (some ⟨[dquote, tab, 200], by decide⟩) .string, .addstring none none .null]).text :=
  (jsonBuilder_represents (fun _ => 7) 0 _).2.2.2.2 ⟨rfl, ⟨rfl, .inl rfl⟩, ⟨rfl, trivial⟩, trivial⟩

end Zabbix
