import Zabbix.Json.Parser

/-!
# Zabbix.Json.Tree

Documents as trees, and the builder as the building of one.

A document under construction is a stack of open objects and arrays, each with
the members it has so far.  Its text is the text of what is emitted, followed by
the brackets that close what is open; the builder keeps exactly this text in
its buffer, with the offset between the two parts (`JsonInv`).
-/

namespace Zabbix

open Ascii

/-! ## trees -/

/-- The members of an object or an array, one after the other: values as they
were given to `zbx_json_addstring`, and objects and arrays with members of
their own. -/
inductive Members
  | nil
  | value (name string : Option CString) (type : ZbxJsonType) (rest : Members)
  | node (name : Option CString) (object : Bool) (members rest : Members)
deriving DecidableEq

namespace Members

/-- The separator in front of a member. -/
def separator (first : Bool) : List UInt8 := if first then [] else [comma]

/-- What stands in front of a value. -/
def valueHead (level : ℕ) (name : Option CString) : List UInt8 :=
  (if name.isSome then lineBreak level else []) ++ nameText name

/-- What stands in front of the members of an object or an array. -/
def nodeHead (level : ℕ) (name : Option CString) (object : Bool) : List UInt8 :=
  (if level ≠ 0 then lineBreak level else []) ++ nameText name ++ [openBracket object]

/-- The text of members at a level. -/
def text (level : ℕ) : (first : Bool) → Members → List UInt8
  | _, nil => []
  | first, value name string type rest =>
      separator first ++ valueHead level name ++ jsonInsstring string type ++ rest.text level false
  | first, node name object members rest =>
      separator first ++ nodeHead level name object ++ members.text (level + 1) true ++
        closeBracket object :: rest.text level false

/-- Members one after the other. -/
def append : Members → Members → Members
  | nil, ms => ms
  | value name string type rest, ms => value name string type (rest.append ms)
  | node name object members rest, ms => node name object members (rest.append ms)

def isNil : Members → Bool
  | nil => true
  | value .. | node .. => false

@[simp] theorem isNil_nil : nil.isNil = true := rfl

@[simp] theorem isNil_value (name string : Option CString) (type : ZbxJsonType) (rest : Members) :
    (value name string type rest).isNil = false := rfl

@[simp] theorem isNil_node (name : Option CString) (object : Bool) (members rest : Members) :
    (node name object members rest).isNil = false := rfl

theorem text_append (ms ms' : Members) (level : ℕ) (first : Bool) :
    (ms.append ms').text level first = ms.text level first ++ ms'.text level (first && ms.isNil) := by
  induction ms generalizing first with
  | nil => simp [append, text]
  | value name string type rest ih => simp [append, text, ih]
  | node name object members rest _ ih => simp [append, text, ih]

@[simp] theorem isNil_append (ms ms' : Members) : (ms.append ms').isNil = (ms.isNil && ms'.isNil) := by
  cases ms <;> simp [append]

@[simp] theorem append_nil (ms : Members) : ms.append nil = ms := by
  induction ms with
  | nil => rfl
  | value name string type rest ih => rw [append, ih]
  | node name object members rest _ ih => rw [append, ih]

theorem append_assoc (ms ms' ms'' : Members) : (ms.append ms').append ms'' = ms.append (ms'.append ms'') := by
  induction ms with
  | nil => rfl
  | value name string type rest ih => simp only [append, ih]
  | node name object members rest _ ih => simp only [append, ih]

end Members

/-! ## documents under construction -/

/-- An open object or array. -/
structure Frame where
  name : Option CString
  object : Bool
  members : Members
deriving DecidableEq

namespace Frame

/-- What is emitted of the frames, the innermost first. -/
def emitted : List Frame → List UInt8
  | [] => []
  | f :: fs =>
      emitted fs ++ Members.separator (fs.head?.all fun g => g.members.isNil) ++
        Members.nodeHead fs.length f.name f.object ++ f.members.text (fs.length + 1) true

/-- The brackets that close the frames. -/
def closing : List Frame → List UInt8
  | [] => []
  | f :: fs => closeBracket f.object :: closing fs

/-- Add members to the innermost frame. -/
def add (ms : Members) : List Frame → List Frame
  | [] => []
  | f :: fs => { f with members := f.members.append ms } :: fs

/-- Close the innermost frame, unless it is the document. -/
def close : List Frame → List Frame
  | f :: g :: fs => add (.node f.name f.object f.members .nil) (g :: fs)
  | fs => fs

/-- What an operation does to the document. -/
def step (fs : List Frame) : JsonOp → List Frame
  | .addobject name => { name := name, object := true, members := .nil } :: fs
  | .addarray name => { name := name, object := false, members := .nil } :: fs
  | .addstring name string type => add (.value name string type .nil) fs
  | .close => close fs

/-- A document under construction, from the top level object on. -/
def run (ops : List JsonOp) : List Frame :=
  ops.foldl step [{ name := none, object := true, members := .nil }]

theorem add_add (ms ms' : Members) {fs : List Frame} : add ms' (add ms fs) = add (ms.append ms') fs := by
  cases fs with
  | nil => rfl
  | cons f fs => simp only [add, Members.append_assoc]

theorem add_nil (fs : List Frame) : add .nil fs = fs := by
  cases fs with
  | nil => rfl
  | cons f fs => simp only [add, Members.append_nil]

theorem add_ne_nil (ms : Members) {fs : List Frame} (h : fs ≠ []) : add ms fs ≠ [] := by
  cases fs with
  | nil => contradiction
  | cons f fs => simp [add]

/-- The operations for an object or an array, around those for its members. -/
theorem foldl_step_node {op : JsonOp} {name : Option CString} {object : Bool}
    (hop : ∀ fs, step fs op = ⟨name, object, .nil⟩ :: fs) {ops : List JsonOp} {ms : Members}
    (hops : ∀ fs, fs ≠ [] → ops.foldl step fs = add ms fs) {fs : List Frame} (hfs : fs ≠ []) :
    (op :: (ops ++ [JsonOp.close])).foldl step fs = add (.node name object ms .nil) fs := by
  obtain ⟨g, fs, rfl⟩ := List.exists_cons_of_ne_nil hfs
  rw [List.foldl_cons, hop, List.foldl_append, hops _ (by simp)]
  rfl

end Frame

/-! ## whole documents -/

/-- Close all frames, behind the last members of the innermost. -/
def wrap (inner : Members) : List Frame → Members
  | [] => inner
  | f :: fs => wrap (.node f.name f.object (f.members.append inner) .nil) fs

/-- The text of the closed document is what is emitted and the brackets that
close it. -/
theorem text_wrap (fs : List Frame) (inner : Members) :
    (wrap inner fs).text 0 true =
      Frame.emitted fs ++ inner.text fs.length (fs.head?.all fun f => f.members.isNil) ++
        Frame.closing fs := by
  induction fs generalizing inner with
  | nil => simp [wrap, Frame.emitted, Frame.closing]
  | cons f fs ih =>
      rw [wrap, ih, Members.text, Members.text_append]
      simp [Frame.emitted, Frame.closing, Members.text]

/-- The members of an object or an array. -/
def Members.children : Members → Members
  | node _ _ members _ => members
  | nil | value .. => nil

/-- The members of the document that operations make. -/
def jsonDocument (ops : List JsonOp) : Members := (wrap .nil (Frame.run ops)).children

/-- The frames of a document end with the top level object. -/
def Rooted (fs : List Frame) : Prop := ∃ gs ms, fs = gs ++ [{ name := none, object := true, members := ms }]

theorem Rooted.step {fs : List Frame} (h : Rooted fs) (op : JsonOp) : Rooted (Frame.step fs op) := by
  obtain ⟨gs, ms, rfl⟩ := h
  have hadd : ∀ (gs : List Frame) (ms new : Members),
      Rooted (Frame.add new (gs ++ [{ name := none, object := true, members := ms }])) := by
    intro gs ms new
    cases gs with
    | nil => exact ⟨[], ms.append new, rfl⟩
    | cons g gs => exact ⟨{ g with members := g.members.append new } :: gs, ms, rfl⟩
  cases op with
  | addobject name => exact ⟨_ :: gs, ms, rfl⟩
  | addarray name => exact ⟨_ :: gs, ms, rfl⟩
  | addstring name string type => exact hadd gs ms _
  | close =>
      cases gs with
      | nil => exact ⟨[], ms, rfl⟩
      | cons g gs =>
          cases gs with
          | nil => exact hadd [] ms _
          | cons g' gs => exact hadd (g' :: gs) ms _

theorem rooted_run (ops : List JsonOp) : Rooted (Frame.run ops) := by
  have hfold : ∀ (ops : List JsonOp) (fs : List Frame), Rooted fs → Rooted (ops.foldl Frame.step fs) := by
    intro ops
    induction ops with
    | nil => exact fun _ h => h
    | cons op ops ih => exact fun fs h => ih _ (h.step op)
  exact hfold ops _ ⟨[], .nil, rfl⟩

/-- The document is an object without name. -/
theorem wrap_run (ops : List JsonOp) :
    wrap .nil (Frame.run ops) = .node none true (jsonDocument ops) .nil := by
  have hroot : ∀ (gs : List Frame) (inner ms : Members),
      ∃ ms', wrap inner (gs ++ [{ name := none, object := true, members := ms }]) =
        .node none true ms' .nil := by
    intro gs
    induction gs with
    | nil => exact fun inner ms => ⟨ms.append inner, rfl⟩
    | cons g gs ih => exact fun inner ms => ih _ ms
  obtain ⟨gs, ms, hrun⟩ := rooted_run ops
  obtain ⟨ms', h⟩ := hroot gs .nil ms
  rw [jsonDocument, hrun, h]
  rfl

/-! ## the builder -/

/-- The builder holds a document under construction. -/
structure JsonInv (j : ZbxJson) (fs : List Frame) : Prop where
  holds : Mem.Holds j.buffer 0 (Frame.emitted fs ++ Frame.closing fs)
  offset : j.bufferOffset = (Frame.emitted fs).length
  size : j.bufferSize = (Frame.emitted fs).length + (Frame.closing fs).length
  allocated : j.bufferSize + 1 ≤ j.bufferAllocated
  level : j.level = fs.length
  status : j.status = .comma ↔ (fs.head?.all fun f => f.members.isNil) = false

theorem le_jsonGrow (need allocated : ℕ) : need ≤ jsonGrow need allocated := by
  fun_induction jsonGrow need allocated with
  | case1 allocated h ih => exact ih
  | case2 allocated h => omega

/-- Insertion at the offset. -/
theorem JsonInv.insert {j : ZbxJson} {fs : List Frame} (h : JsonInv j fs) (t : List UInt8) {len : ℕ}
    (hlen : len = t.length) :
    Mem.Holds (j.insert len t).buffer 0 (Frame.emitted fs ++ t ++ Frame.closing fs) ∧
      (j.insert len t).bufferSize = j.bufferSize + t.length ∧
      (j.insert len t).bufferSize + 1 ≤ (j.insert len t).bufferAllocated := by
  subst hlen
  refine ⟨?_, rfl, le_jsonGrow _ _⟩
  have hrest : j.bufferSize - j.bufferOffset + 1 = (Frame.closing fs).length + 1 := by
    rw [h.offset, h.size]
    omega
  change Mem.Holds ((j.buffer.move (j.bufferOffset + t.length) j.bufferOffset
    (j.bufferSize - j.bufferOffset + 1)).write j.bufferOffset t) 0 _
  rw [hrest, h.offset]
  exact h.holds.insert t

theorem JsonInv.separator_eq {j : ZbxJson} {fs : List Frame} (h : JsonInv j fs) :
    j.separator = Members.separator (fs.head?.all fun f => f.members.isNil) := by
  rw [ZbxJson.separator, Members.separator]
  cases hall : fs.head?.all fun f => f.members.isNil with
  | false => rw [if_pos (h.status.mpr hall), if_neg (by decide)]
  | true =>
      have hne : j.status ≠ .comma := by
        intro hc
        rw [h.status.mp hc] at hall
        cases hall
      rw [if_neg hne, if_pos rfl]

/-- Opening an object or an array. -/
theorem JsonInv.addobject {j : ZbxJson} {fs : List Frame} (h : JsonInv j fs) (name : Option CString)
    (object : Bool) :
    JsonInv (jsonAddobject j name object)
      ({ name := name, object := object, members := .nil } :: fs) := by
  have hbreak : (if j.level ≠ 0 then [newline] else []) ++ List.replicate j.level tab =
      if fs.length ≠ 0 then lineBreak fs.length else [] := by
    rw [h.level]
    cases fs with
    | nil => rfl
    | cons f fs => rfl
  have htext : j.separator ++ (if j.level ≠ 0 then [newline] else []) ++
      List.replicate j.level tab ++ nameText name ++ [openBracket object] =
      Members.separator (fs.head?.all fun f => f.members.isNil) ++
        Members.nodeHead fs.length name object := by
    rw [h.separator_eq, List.append_assoc (Members.separator _), hbreak, Members.nodeHead]
    simp only [List.append_assoc]
  have hlen : 2 + j.level + (if j.level ≠ 0 then 1 else 0) + (if j.status = .comma then 1 else 0) +
      nameSize name =
      (j.separator ++ (if j.level ≠ 0 then [newline] else []) ++
        List.replicate j.level tab ++ nameText name ++ [openBracket object] ++
          [closeBracket object]).length := by
    simp only [List.length_append, List.length_replicate, length_nameText, ZbxJson.separator,
      List.length_singleton]
    split_ifs <;> simp <;> omega
  obtain ⟨hholds, hsize, halloc⟩ := h.insert _ hlen
  have hemitted : Frame.emitted ({ name := name, object := object, members := .nil } :: fs) =
      Frame.emitted fs ++ (Members.separator (fs.head?.all fun f => f.members.isNil) ++
        Members.nodeHead fs.length name object) := by
    simp [Frame.emitted, Members.text]
  constructor
  · have hdoc : Frame.emitted ({ name := name, object := object, members := .nil } :: fs) ++
        Frame.closing ({ name := name, object := object, members := .nil } :: fs) =
        Frame.emitted fs ++ (Members.separator (fs.head?.all fun f => f.members.isNil) ++
          Members.nodeHead fs.length name object ++ [closeBracket object]) ++ Frame.closing fs := by
      rw [hemitted, Frame.closing]
      simp only [List.append_assoc, List.singleton_append]
    rw [hdoc, ← htext]
    exact hholds
  · change j.bufferOffset + List.length _ = _
    rw [htext, hemitted, h.offset]
    exact List.length_append.symm
  · refine hsize.trans ?_
    rw [htext, hemitted, Frame.closing, h.size]
    simp only [List.length_append, List.length_cons, List.length_nil]
    omega
  · exact halloc
  · change j.level + 1 = _
    rw [h.level, List.length_cons]
  · constructor
    · intro hc
      cases hc
    · intro hc
      cases hc

/-- Adding a value. -/
theorem JsonInv.addstring {j : ZbxJson} {f : Frame} {fs : List Frame} (h : JsonInv j (f :: fs))
    (name string : Option CString) (type : ZbxJsonType) :
    JsonInv (zbxJsonAddstring j name string type)
      (Frame.add (.value name string type .nil) (f :: fs)) := by
  have htext : j.separator ++ (if name.isSome then lineBreak j.level else []) ++ nameText name ++
      jsonInsstring string type =
      Members.separator f.members.isNil ++ Members.valueHead (fs.length + 1) name ++
        jsonInsstring string type := by
    rw [h.separator_eq, h.level, Members.valueHead]
    simp only [List.append_assoc]
    rfl
  have hlen : (if j.status = .comma then 1 else 0) +
      (if name.isSome then nameSize name + j.level + 1 else 0) + jsonStringsize string type =
      (j.separator ++ (if name.isSome then lineBreak j.level else []) ++ nameText name ++
        jsonInsstring string type).length := by
    simp only [List.length_append, length_nameText, length_jsonInsstring, ZbxJson.separator, lineBreak]
    cases name with
    | none => split_ifs <;> simp [nameSize]
    | some s =>
        simp only [Option.isSome_some, if_true, List.length_cons, List.length_replicate]
        split_ifs <;> simp only [List.length_singleton, List.length_nil] <;> omega
  obtain ⟨hholds, hsize, halloc⟩ := h.insert _ hlen
  have hemitted : Frame.emitted (Frame.add (.value name string type .nil) (f :: fs)) =
      Frame.emitted (f :: fs) ++ (Members.separator f.members.isNil ++
        Members.valueHead (fs.length + 1) name ++ jsonInsstring string type) := by
    simp [Frame.emitted, Frame.add, Members.text_append, Members.text]
  have hclosing : Frame.closing (Frame.add (.value name string type .nil) (f :: fs)) =
      Frame.closing (f :: fs) := rfl
  constructor
  · rw [hemitted, hclosing, ← htext]
    exact hholds
  · change j.bufferOffset + List.length _ = _
    rw [htext, hemitted, h.offset]
    exact List.length_append.symm
  · refine hsize.trans ?_
    rw [htext, hemitted, hclosing, h.size]
    simp only [List.length_append]
    omega
  · exact halloc
  · exact h.level
  · constructor
    · intro _
      simp [Frame.add]
    · intro _
      rfl

/-- Closing the innermost object or array. -/
theorem JsonInv.close {j : ZbxJson} {fs : List Frame} (h : JsonInv j fs) (hne : fs ≠ []) :
    JsonInv ((zbxJsonClose j).getD j) (Frame.close fs) := by
  rw [zbxJsonClose]
  cases fs with
  | nil => contradiction
  | cons f fs =>
      cases fs with
      | nil =>
          rw [if_pos (show j.level = 1 from h.level)]
          exact h
      | cons g fs =>
          have hlevel : j.level ≠ 1 := by
            rw [h.level]
            simp
          have hemitted : Frame.emitted (Frame.close (f :: g :: fs)) =
              Frame.emitted (f :: g :: fs) ++ [closeBracket f.object] := by
            simp [Frame.emitted, Frame.close, Frame.add, Members.text_append, Members.text]
          have hclosing : Frame.closing (f :: g :: fs) =
              closeBracket f.object :: Frame.closing (Frame.close (f :: g :: fs)) := rfl
          rw [if_neg hlevel]
          constructor
          · rw [hemitted, List.append_assoc, List.singleton_append, ← hclosing]
            exact h.holds
          · change j.bufferOffset + 1 = _
            rw [hemitted, h.offset, List.length_append, List.length_singleton]
          · change j.bufferSize = _
            rw [hemitted, h.size, hclosing, List.length_append, List.length_cons, List.length_singleton]
            omega
          · exact h.allocated
          · change j.level - 1 = _
            rw [h.level]
            rfl
          · constructor
            · intro _
              simp [Frame.close, Frame.add]
            · intro _
              rfl

theorem jsonInv_start (garbage : Mem) {allocated : ℕ} (h : 0 < allocated) :
    JsonInv (jsonStart garbage allocated) [] where
  holds := by simp [Mem.Holds, Mem.read, jsonStart, Frame.emitted, Frame.closing]
  offset := rfl
  size := rfl
  allocated := h
  level := rfl
  status := by simp [jsonStart]

/-- **The builder keeps a document under construction.** -/
theorem jsonInv_run (garbage : Mem) (allocate : ℕ) (ops : List JsonOp) :
    JsonInv (jsonRun garbage allocate ops) (Frame.run ops) := by
  have hfold : ∀ (ops : List JsonOp) (j : ZbxJson) (fs : List Frame), Rooted fs → JsonInv j fs →
      JsonInv (ops.foldl ZbxJson.step j) (ops.foldl Frame.step fs) := by
    intro ops
    induction ops with
    | nil => exact fun _ _ _ h => h
    | cons op ops ih =>
        intro j fs hroot h
        apply ih _ _ (hroot.step op)
        obtain ⟨gs, ms, rfl⟩ := hroot
        have hne : gs ++ [{ name := none, object := true, members := ms : Frame }] ≠ [] := by simp
        obtain ⟨f, fs, heq⟩ := List.exists_cons_of_ne_nil hne
        cases op with
        | addobject name => exact h.addobject name true
        | addarray name => exact h.addobject name false
        | addstring name string type =>
            rw [heq] at h ⊢
            exact h.addstring name string type
        | close => exact h.close hne
  have hpos : 0 < max allocate zbxJsonStatBufLen := lt_of_lt_of_le (by decide) (le_max_right _ _)
  exact hfold ops _ _ ⟨[], .nil, rfl⟩ ((jsonInv_start garbage hpos).addobject none true)

/-! ## the text -/

/-- What is written for a byte is not a control character. -/
theorem le_of_mem_jsonEscape {c d : UInt8} (h : d ∈ jsonEscape c) : 32 ≤ d := by
  have hall : ∀ c : UInt8, (jsonEscape c).all (32 ≤ ·) = true := forall_byte (by decide +kernel)
  simpa using List.all_eq_true.mp (hall c) d h

theorem le_of_mem_jsonInsstring {string : Option CString} {type : ZbxJsonType} {d : UInt8}
    (h : d ∈ jsonInsstring string type) : 32 ≤ d := by
  have hquote : ∀ d ∈ (if string.isSome ∧ type = .string then [dquote] else []), 32 ≤ d := by
    intro d hd
    split at hd
    · rw [List.mem_singleton.mp hd]
      decide
    · cases hd
  rw [jsonInsstring, List.mem_append, List.mem_append] at h
  rcases h with (h | h) | h
  · exact hquote d h
  · obtain ⟨c, -, h⟩ := List.mem_flatMap.mp h
    exact le_of_mem_jsonEscape h
  · exact hquote d h

theorem le_of_mem_nameText {name : Option CString} {d : UInt8} (h : d ∈ nameText name) : 32 ≤ d := by
  cases name with
  | none => cases h
  | some s =>
      rcases List.mem_append.mp h with h | h
      · exact le_of_mem_jsonInsstring h
      · rw [List.mem_singleton.mp h]
        decide

theorem stripLayout_append (s t : List UInt8) :
    stripLayout (s ++ t) = stripLayout s ++ stripLayout t :=
  List.filter_append ..

theorem stripLayout_of_le {s : List UInt8} (h : ∀ d ∈ s, 32 ≤ d) : stripLayout s = s := by
  rw [stripLayout, List.filter_eq_self]
  intro d hd
  have hle := h d hd
  rw [decide_eq_true_eq]
  constructor
  all_goals
    rintro rfl
    revert hle
    decide

theorem stripLayout_lineBreak (level : ℕ) : stripLayout (lineBreak level) = [] := by
  rw [stripLayout, List.filter_eq_nil_iff]
  intro d hd
  rcases List.mem_cons.mp hd with rfl | hd
  · decide
  · rw [List.eq_of_mem_replicate hd]
    decide

namespace Members

/-- The text of members without layout. -/
def compact : (first : Bool) → Members → List UInt8
  | _, nil => []
  | first, value name string type rest =>
      separator first ++ nameText name ++ jsonInsstring string type ++ rest.compact false
  | first, node name object members rest =>
      separator first ++ nameText name ++ openBracket object ::
        (members.compact true ++ closeBracket object :: rest.compact false)

theorem le_of_mem_separator {first : Bool} {d : UInt8} (h : d ∈ separator first) : 32 ≤ d := by
  cases first with
  | true => cases h
  | false =>
      rw [List.mem_singleton.mp h]
      decide

theorem le_openBracket (object : Bool) : 32 ≤ openBracket object := by cases object <;> decide

theorem le_closeBracket (object : Bool) : 32 ≤ closeBracket object := by cases object <;> decide

theorem le_of_mem_compact {ms : Members} {first : Bool} {d : UInt8} (h : d ∈ ms.compact first) :
    32 ≤ d := by
  induction ms generalizing first with
  | nil => cases h
  | value name string type rest ih =>
      rw [compact, List.mem_append, List.mem_append, List.mem_append] at h
      rcases h with ((h | h) | h) | h
      · exact le_of_mem_separator h
      · exact le_of_mem_nameText h
      · exact le_of_mem_jsonInsstring h
      · exact ih h
  | node name object members rest ihm ih =>
      rw [compact, List.mem_append, List.mem_append, List.mem_cons, List.mem_append, List.mem_cons] at h
      rcases h with (h | h) | rfl | h | rfl | h
      · exact le_of_mem_separator h
      · exact le_of_mem_nameText h
      · exact le_openBracket object
      · exact ihm h
      · exact le_closeBracket object
      · exact ih h

theorem stripLayout_valueHead (level : ℕ) (name : Option CString) :
    stripLayout (valueHead level name) = nameText name := by
  rw [valueHead, stripLayout_append, stripLayout_of_le fun d hd => le_of_mem_nameText hd]
  split
  · rw [stripLayout_lineBreak, List.nil_append]
  · rfl

theorem stripLayout_nodeHead (level : ℕ) (name : Option CString) (object : Bool) :
    stripLayout (nodeHead level name object) = nameText name ++ [openBracket object] := by
  rw [nodeHead, stripLayout_append, stripLayout_append,
    stripLayout_of_le fun d hd => le_of_mem_nameText hd,
    stripLayout_of_le (s := [openBracket object]) fun d hd => by
      rw [List.mem_singleton.mp hd]
      exact le_openBracket object]
  split
  · rw [stripLayout_lineBreak, List.nil_append]
  · rfl

/-- **The layout is all that is removed.** -/
theorem stripLayout_text (ms : Members) (level : ℕ) (first : Bool) :
    stripLayout (ms.text level first) = ms.compact first := by
  induction ms generalizing level first with
  | nil => rfl
  | value name string type rest ih =>
      rw [text, compact, stripLayout_append, stripLayout_append, stripLayout_append, ih,
        stripLayout_valueHead, stripLayout_of_le fun d hd => le_of_mem_separator hd,
        stripLayout_of_le fun d hd => le_of_mem_jsonInsstring hd]
  | node name object members rest ihm ih =>
      have hclose : ∀ s, stripLayout (closeBracket object :: s) = closeBracket object :: stripLayout s := by
        intro s
        exact (stripLayout_append [closeBracket object] s).trans
          (by rw [stripLayout_of_le fun d hd => by
            rw [List.mem_singleton.mp hd]
            exact le_closeBracket object]; rfl)
      rw [text, compact, stripLayout_append, stripLayout_append, stripLayout_append, hclose, ihm, ih,
        stripLayout_nodeHead, stripLayout_of_le fun d hd => le_of_mem_separator hd]
      simp only [List.append_assoc, List.cons_append, List.nil_append]

/-- Besides tabs and line breaks, a text has no control characters. -/
theorem mem_text {ms : Members} {level : ℕ} {first : Bool} {d : UInt8}
    (h : d ∈ ms.text level first) : d = tab ∨ d = newline ∨ 32 ≤ d := by
  by_cases hd : d = tab ∨ d = newline
  · exact hd.elim .inl fun hd => .inr (.inl hd)
  · rw [not_or] at hd
    have hstrip : d ∈ stripLayout (ms.text level first) := List.mem_filter.mpr ⟨h, by simpa using hd⟩
    rw [stripLayout_text] at hstrip
    exact .inr (.inr (le_of_mem_compact hstrip))

theorem not_mem_text (ms : Members) (level : ℕ) (first : Bool) : (0 : UInt8) ∉ ms.text level first := by
  intro h
  have hcases := mem_text h
  revert hcases
  decide

end Members

/-- **The string in the buffer is the text of the document.** -/
theorem text_jsonRun (garbage : Mem) (allocate : ℕ) (ops : List JsonOp) :
    (jsonRun garbage allocate ops).text = (Members.node none true (jsonDocument ops) .nil).text 0 true := by
  have h := jsonInv_run garbage allocate ops
  have htext : (Members.node none true (jsonDocument ops) .nil).text 0 true =
      Frame.emitted (Frame.run ops) ++ Frame.closing (Frame.run ops) := by
    rw [← wrap_run, text_wrap, Members.text, List.append_nil]
  have hnul := (Members.node none true (jsonDocument ops) .nil).not_mem_text 0 true
  rw [htext] at hnul ⊢
  refine Mem.strAt_of_holds h.holds hnul ?_
  have hsize := h.size
  have halloc := h.allocated
  rw [List.length_append]
  omega

/-- Without layout, it is the compact text of the members in braces. -/
theorem stripLayout_jsonRun (garbage : Mem) (allocate : ℕ) (ops : List JsonOp) :
    stripLayout (jsonRun garbage allocate ops).text =
      lbrace :: ((jsonDocument ops).compact true ++ [rbrace]) := by
  rw [text_jsonRun, Members.stripLayout_text]
  rfl

end Zabbix
