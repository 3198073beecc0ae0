import Zabbix.Json.Decode

/-!
# Zabbix.Json.Navigate

Navigation in a document of the builder: what the parser finds of its tree.

An `Entry` is what there is to find of a member, its name and the pointers to
it and to its value.  In every object and array `zbx_json_next` and
`zbx_json_pair_next` go from one entry to the next.
-/

namespace Zabbix

open Ascii Nesting

/-! ## entries -/

/-- The members of an object or an array as texts: the name and the value. -/
abbrev Item : Type := Option CString × List UInt8

/-- The text of members behind another one. -/
def followText (items : List Item) : List UInt8 :=
  items.flatMap fun item => comma :: (nameText item.1 ++ item.2)

/-- What there is to find of a member. -/
structure Entry where
  name : Option CString
  member : Ptr
  value : Ptr

/-- The entries of members, in front of a text. -/
def entries (tail : List UInt8) : List Item → List Entry
  | [] => []
  | (name, value) :: items =>
      { name := name
        member := nameText name ++ (value ++ (followText items ++ tail))
        value := value ++ (followText items ++ tail) } :: entries tail items

namespace Members

/-- The members as texts. -/
def items : Members → List Item
  | nil => []
  | value name string type rest => (name, jsonInsstring string type) :: rest.items
  | node name object members rest => (name, nodeText object members) :: rest.items

theorem compact_false (ms : Members) : ms.compact false = followText ms.items := by
  induction ms with
  | nil => rfl
  | value name string type rest ih => simp [compact, items, followText, separator, ih]
  | node name object members rest _ ih => simp [compact, items, followText, separator, nodeText, ih]

/-- The members, from the first one on. -/
theorem compact_true (ms : Members) (tail : List UInt8) :
    ms.compact true ++ tail = ((entries tail ms.items).head?.map (·.member)).getD tail := by
  cases ms with
  | nil => rfl
  | value name string type rest => simp [compact, items, entries, separator, compact_false]
  | node name object members rest => simp [compact, items, entries, separator, nodeText, compact_false]

end Members

/-- A member that the scanners pass over, with a name or without. -/
structure Passable (object : Bool) (item : Item) : Prop where
  named : item.1.isSome = object
  value_ne_nil : item.2 ≠ []
  walk_value : walk jsonKind true false 0 item.2 = some (false, 0)

theorem jsonInsstring_ne_nil {string : Option CString} {type : ZbxJsonType}
    (h : LegalValue string type) : jsonInsstring string type ≠ [] := by
  cases string with
  | none =>
      rw [jsonInsstring_none]
      decide
  | some s =>
      rcases h with rfl | ⟨rfl, hint⟩
      · simp [jsonInsstring_some]
      · rw [jsonInsstring_int hint]
        rintro hnil
        rw [hnil] at hint
        cases hint

theorem Members.passable_items {ms : Members} {object : Bool} (h : ms.Valid object) :
    ∀ item ∈ ms.items, Passable object item := by
  induction ms with
  | nil => simp [items]
  | value name string type rest ih =>
      rw [items, List.forall_mem_cons]
      exact ⟨⟨h.1, jsonInsstring_ne_nil h.2.1, walk_jsonInsstring true 0 h.2.1⟩, ih h.2.2⟩
  | node name object' members rest _ ih =>
      rw [items, List.forall_mem_cons]
      exact ⟨⟨h.1, by simp [nodeText], walk_nodeText h.2.1 true 0⟩, ih h.2.2⟩

/-! ## enumeration -/

/-- From a pointer on, a function finds one thing after the other, and then
nothing. -/
def Enumerates {β : Type} (next : Option Ptr → Scan β) (at' : β → Ptr) (p : Option Ptr) : List β → Prop
  | [] => next p = .null
  | b :: bs => next p = .found b ∧ Enumerates next at' (some (at' b)) bs

/-- The pointer to the first of some members. -/
def firstMember : List Entry → Scan Ptr
  | [] => .null
  | e :: _ => .found e.member

/-- `zbx_json_next` behind what is passed over. -/
theorem nextLoop_items {s : List UInt8} (hs : walk jsonKind true false 0 s = some (false, 0))
    (items : List Item) (object : Bool) (tail : List UInt8) :
    nextLoop (closeBracket object :: tail).length 0 false
        (s ++ (followText items ++ closeBracket object :: tail)) =
      firstMember (entries (closeBracket object :: tail) items) := by
  have hstop : (closeBracket object :: tail).length ≤
      (followText items ++ closeBracket object :: tail).length := by simp
  rw [nextLoop_walk hs hstop]
  cases items with
  | nil =>
      have hclose : jsonKind (closeBracket object) = .closing := by cases object <;> rfl
      rw [followText, List.flatMap_nil, List.nil_append, nextLoop_cons, if_neg (by omega), hclose]
      rfl
  | cons item items =>
      have hcomma : jsonKind comma = .separator := rfl
      rw [followText, List.flatMap_cons, List.append_assoc, List.cons_append] at hstop ⊢
      rw [nextLoop_cons, if_neg (by omega), hcomma]
      simp [entries, followText, firstMember]

/-- An object or an array in the text. -/
def nodeRange (object : Bool) (ms : Members) (tail : List UInt8) : ZbxJsonParse where
  start := Members.nodeText object ms ++ tail
  stop := closeBracket object :: tail

theorem jsonRbracket_nodeText {object object' : Bool} {ms : Members} (h : ms.Valid object')
    (tail : List UInt8) :
    jsonRbracket (Members.nodeText object ms ++ tail) = .found (closeBracket object :: tail) := by
  have hloop : ∀ object : Bool, rbracketLoop (closeBracket object) 0 false
      (openBracket object :: (ms.compact true ++ closeBracket object :: tail)) =
        .found (closeBracket object :: tail) := by
    intro object
    have hopen : jsonKind (openBracket object) = .opening := by cases object <;> rfl
    have hclose : jsonKind (closeBracket object) = .closing := by cases object <;> rfl
    have hwalk := rbracketLoop_walk (Members.walk_compact h true) (closeBracket object)
      (closeBracket object :: tail)
    rw [Nat.cast_zero] at hwalk
    rw [rbracketLoop_cons, hopen]
    dsimp only
    rw [if_neg (by decide), hwalk, rbracketLoop_cons, hclose]
    simp
  have htext : Members.nodeText object ms ++ tail =
      openBracket object :: (ms.compact true ++ closeBracket object :: tail) := by
    simp [Members.nodeText]
  rw [htext]
  cases object with
  | false => exact hloop false
  | true => exact hloop true

/-- `zbx_json_brackets_open` at an object or an array. -/
theorem zbxJsonBracketsOpen_nodeText {object object' : Bool} {ms : Members} (h : ms.Valid object')
    (tail : List UInt8) :
    zbxJsonBracketsOpen (Members.nodeText object ms ++ tail) = .found (nodeRange object ms tail) := by
  rw [zbxJsonBracketsOpen, jsonRbracket_nodeText h, Scan.map_found]
  rfl

theorem length_start {object object' : Bool} {ms : Members} (h : ms.Valid object') (tail : List UInt8) :
    (nodeRange object ms tail).start.length = (nodeRange object ms tail).stop.length + 1 ↔
      ms.items = [] := by
  have hstart : (nodeRange object ms tail).start.length =
      (ms.compact true ++ closeBracket object :: tail).length + 1 := by
    simp [nodeRange, Members.nodeText]
  have hpass := Members.passable_items h
  rw [hstart, ms.compact_true, nodeRange]
  cases hitems : ms.items with
  | nil => simp [entries]
  | cons item items =>
      rw [hitems] at hpass
      have hne := List.length_pos_iff.mpr (hpass item (List.mem_cons_self ..)).value_ne_nil
      simp only [entries, List.head?_cons, Option.map_some, Option.getD_some, List.length_append,
        List.length_cons, reduceCtorEq, iff_false]
      omega

/-- The first member. -/
theorem zbxJsonNext_none {object object' : Bool} {ms : Members} (h : ms.Valid object')
    (tail : List UInt8) :
    zbxJsonNext (nodeRange object ms tail) none =
      firstMember (entries (closeBracket object :: tail) ms.items) := by
  have hstart : (nodeRange object ms tail).start.tail = ms.compact true ++ closeBracket object :: tail := by
    simp [nodeRange, Members.nodeText]
  rw [zbxJsonNext]
  cases hitems : ms.items with
  | nil =>
      rw [if_pos ((length_start h tail).mpr hitems)]
      rfl
  | cons item items =>
      have hne : ms.items ≠ [] := by simp [hitems]
      rw [if_neg (mt (length_start h tail).mp hne), hstart, ms.compact_true, hitems]
      rfl

/-- The member behind what is passed over. -/
theorem zbxJsonNext_some {object object' : Bool} {ms : Members} (h : ms.Valid object')
    (tail : List UInt8) {s : List UInt8} (hs : walk jsonKind true false 0 s = some (false, 0))
    (items : List Item) (hne : ms.items ≠ []) :
    zbxJsonNext (nodeRange object ms tail)
        (some (s ++ (followText items ++ closeBracket object :: tail))) =
      firstMember (entries (closeBracket object :: tail) items) := by
  rw [zbxJsonNext, if_neg (mt (length_start h tail).mp hne)]
  exact nextLoop_items hs items object tail

/-- **`zbx_json_next` goes from one member to the next.** -/
theorem enumerates_next {object object' : Bool} {ms : Members} (h : ms.Valid object')
    (tail : List UInt8) :
    Enumerates (zbxJsonNext (nodeRange object ms tail)) id none
      ((entries (closeBracket object :: tail) ms.items).map (·.member)) := by
  have hfrom : ∀ (items : List Item) (p : Option Ptr), (∀ item ∈ items, Passable object' item) →
      (items ≠ [] → ms.items ≠ []) →
      (zbxJsonNext (nodeRange object ms tail) p =
        firstMember (entries (closeBracket object :: tail) items)) →
      Enumerates (zbxJsonNext (nodeRange object ms tail)) id p
        ((entries (closeBracket object :: tail) items).map (·.member)) := by
    intro items
    induction items with
    | nil => exact fun _ _ _ hp => hp
    | cons item items ih =>
        intro p hpass hne hp
        have hmember : walk jsonKind true false 0 (nameText item.1 ++ item.2) = some (false, 0) := by
          rw [walk_append (walk_nameText true 0 item.1)]
          exact (hpass item (List.mem_cons_self ..)).walk_value
        have hnext := @zbxJsonNext_some object object' ms h tail _ hmember items (hne (by simp))
        rw [List.append_assoc] at hnext
        exact ⟨hp, ih _ (fun i hi => hpass i (List.mem_cons_of_mem item hi)) (fun _ => hne (by simp)) hnext⟩
  exact hfrom ms.items none (Members.passable_items h) id (zbxJsonNext_none h tail)

/-! ## pairs -/

/-- The bytes of a name. -/
def nameBytes : Option CString → List UInt8
  | some n => n.val
  | none => []

/-- A name that is written without digits. -/
def CleanName (name : Option CString) : Prop := ∀ c ∈ nameBytes name, jsonClean c = true

/-- What `zbx_json_pair_next` makes of a member. -/
def decodePair (len : ℕ) (p : Ptr) : Scan (List UInt8 × Ptr) :=
  if zbxJsonType p = .string then
    (zbxJsonDecodestring p len).bind fun r =>
      if r.2.headD nul = colon then .found (r.1, r.2.tail) else .null
  else .null

theorem zbxJsonPairNext_eq (jp : ZbxJsonParse) (p : Option Ptr) (len : ℕ) :
    zbxJsonPairNext jp p len = (zbxJsonNext jp p).bind (decodePair len) := rfl

theorem decodePair_nameText (n : CString) (t : Ptr) (len : ℕ) :
    decodePair len (nameText (some n) ++ t) =
      (decodestringLoop (roomOf len) (n.val.flatMap jsonEscape ++ dquote :: colon :: t)).bind fun r =>
        if r.2.headD nul = colon then .found (r.1, r.2.tail) else .null := by
  have htext : nameText (some n) ++ t = jsonInsstring (some n) .string ++ colon :: t := by
    simp [nameText]
  rw [htext, decodePair, if_pos (zbxJsonType_jsonInsstring n _), zbxJsonDecodestring_jsonInsstring]

/-- A clean name is read, and the pointer is that to the value. -/
theorem decodePair_clean {name : Option CString} (hname : name.isSome = true) (hclean : CleanName name)
    {len : ℕ} (hlen : (nameBytes name).length < len) (t : Ptr) :
    decodePair len (nameText name ++ t) = .found (nameBytes name, t) := by
  cases name with
  | none => cases hname
  | some n =>
      have hloop := decodestringLoop_flatMap (s := n.val) hclean (le_roomOf hlen) (colon :: t)
      rw [decodePair_nameText, hloop]
      rfl

/-- A name that is not clean is read as another one. -/
theorem decodePair_dirty {name : Option CString} (hname : name.isSome = true) (hdirty : ¬CleanName name)
    {len : ℕ} (hlen : (nameBytes name).length < len) {t : Ptr} {r : List UInt8 × Ptr}
    (h : decodePair len (nameText name ++ t) = .found r) : cstr r.1 ≠ nameBytes name := by
  cases name with
  | none => cases hname
  | some n =>
      rw [decodePair_nameText] at h
      obtain ⟨s, hs, h⟩ := Scan.bind_eq_found h
      split at h
      · obtain rfl := Scan.found.inj h
        have hmem : ∃ c ∈ n.val, jsonClean c = false := by simpa [CleanName, nameBytes] using hdirty
        exact decodestringLoop_flatMap_ne n.property hmem (le_roomOf hlen) hs
      · cases h

/-- The names that a buffer has room for, all of them clean. -/
def ReadableNames (len : ℕ) (items : List Item) : Prop :=
  ∀ item ∈ items, CleanName item.1 ∧ (nameBytes item.1).length < len

/-- **`zbx_json_pair_next` goes from one pair to the next.** -/
theorem enumerates_pairNext {ms : Members} (h : ms.Valid true) (tail : List UInt8) {len : ℕ}
    (hnames : ReadableNames len ms.items) :
    Enumerates (zbxJsonPairNext (nodeRange true ms tail) · len) Prod.snd none
      ((entries (closeBracket true :: tail) ms.items).map fun e => (nameBytes e.name, e.value)) := by
  have hfrom : ∀ (items : List Item) (p : Option Ptr), (∀ item ∈ items, Passable true item) →
      ReadableNames len items → (items ≠ [] → ms.items ≠ []) →
      zbxJsonNext (nodeRange true ms tail) p = firstMember (entries (closeBracket true :: tail) items) →
      Enumerates (zbxJsonPairNext (nodeRange true ms tail) · len) Prod.snd p
        ((entries (closeBracket true :: tail) items).map fun e => (nameBytes e.name, e.value)) := by
    intro items
    induction items with
    | nil =>
        intro p _ _ _ hp
        change zbxJsonPairNext _ p len = .null
        rw [zbxJsonPairNext_eq, hp]
        rfl
    | cons item items ih =>
        intro p hpass hread hne hp
        have hitem := hpass item (List.mem_cons_self ..)
        have hname := hread item (List.mem_cons_self ..)
        have hnext := @zbxJsonNext_some true true ms h tail _ hitem.walk_value items (hne (by simp))
        refine ⟨?_, ih _ (fun i hi => hpass i (List.mem_cons_of_mem item hi))
          (fun i hi => hread i (List.mem_cons_of_mem item hi)) (fun _ => hne (by simp)) hnext⟩
        dsimp only
        rw [zbxJsonPairNext_eq, hp]
        exact decodePair_clean hitem.named hname.1 hname.2 _
  exact hfrom ms.items none (Members.passable_items h) hnames id (zbxJsonNext_none h tail)

/-- The pointer to the value of the first entry of a name. -/
def lookupEntry (name : CString) (es : List Entry) : Scan Ptr :=
  match es.find? fun e => e.name = some name with
  | some e => .found e.value
  | none => .null

/-- `zbx_json_pair_by_name` on what `zbx_json_pair_next` enumerates. -/
theorem pairByNameLoop_enumerates {jp : ZbxJsonParse} {es : List Entry} {p : Option Ptr}
    (h : Enumerates (zbxJsonPairNext jp · maxStringLen) Prod.snd p
      (es.map fun e => (nameBytes e.name, e.value)))
    (hnames : ∀ e ∈ es, e.name.isSome = true) (name : CString) :
    pairByNameLoop jp name.val p = lookupEntry name es := by
  induction es generalizing p with
  | nil =>
      have hnull : zbxJsonPairNext jp p maxStringLen = .null := h
      rw [pairByNameLoop_eq, hnull]
      rfl
  | cons e es ih =>
      obtain ⟨hfound, hrest⟩ := h
      have hname := hnames e (List.mem_cons_self ..)
      have hiff : cstr (nameBytes e.name) = name.val ↔ e.name = some name := by
        cases hn : e.name with
        | none =>
            rw [hn] at hname
            cases hname
        | some n =>
            rw [nameBytes, cstr_of_not_mem n.property, Option.some.injEq]
            exact ⟨Subtype.ext, congrArg Subtype.val⟩
      rw [pairByNameLoop_eq]
      dsimp only at hfound
      rw [hfound, Scan.found_bind, ih hrest fun e' he => hnames e' (List.mem_cons_of_mem e he),
        lookupEntry, lookupEntry, List.find?_cons]
      by_cases heq : e.name = some name
      · rw [if_pos (hiff.mpr heq)]
        simp [heq]
      · rw [if_neg (mt hiff.mp heq)]
        simp [heq]

theorem name_entries {tail : List UInt8} {items : List Item} {object : Bool}
    (h : ∀ item ∈ items, Passable object item) : ∀ e ∈ entries tail items, e.name.isSome = object := by
  induction items with
  | nil => simp [entries]
  | cons item items ih =>
      rw [entries, List.forall_mem_cons]
      exact ⟨(h item (List.mem_cons_self ..)).named, ih fun i hi => h i (List.mem_cons_of_mem item hi)⟩

/-- **`zbx_json_pair_by_name` finds the first member of a name.** -/
theorem zbxJsonPairByName_lookup {ms : Members} (h : ms.Valid true) (tail : List UInt8)
    (hnames : ReadableNames maxStringLen ms.items) (name : CString) :
    zbxJsonPairByName (nodeRange true ms tail) name.val =
      lookupEntry name (entries (closeBracket true :: tail) ms.items) :=
  pairByNameLoop_enumerates (enumerates_pairNext h tail hnames)
    (name_entries (Members.passable_items h)) name

/-- Names that are enumerated are clean. -/
theorem cleanName_of_enumerates {ms : Members} (h : ms.Valid true) {tail : List UInt8} {len : ℕ}
    (hlen : ∀ item ∈ ms.items, (nameBytes item.1).length < len)
    (hpairs : Enumerates (zbxJsonPairNext (nodeRange true ms tail) · len) Prod.snd none
      ((entries (closeBracket true :: tail) ms.items).map fun e => (nameBytes e.name, e.value))) :
    ∀ item ∈ ms.items, CleanName item.1 := by
  have hnul : ∀ name : Option CString, cstr (nameBytes name) = nameBytes name := by
    intro name
    cases name with
    | none => rfl
    | some n => exact cstr_of_not_mem n.property
  have hfrom : ∀ (items : List Item) (p : Option Ptr), (∀ item ∈ items, Passable true item) →
      (∀ item ∈ items, (nameBytes item.1).length < len) → (items ≠ [] → ms.items ≠ []) →
      zbxJsonNext (nodeRange true ms tail) p = firstMember (entries (closeBracket true :: tail) items) →
      Enumerates (zbxJsonPairNext (nodeRange true ms tail) · len) Prod.snd p
        ((entries (closeBracket true :: tail) items).map fun e => (nameBytes e.name, e.value)) →
      ∀ item ∈ items, CleanName item.1 := by
    intro items
    induction items with
    | nil =>
        intro p _ _ _ _ _ item hitem
        cases hitem
    | cons item items ih =>
        intro p hpass hshort hne hp henum
        obtain ⟨hfound, hrest⟩ := henum
        have hitem := hpass item (List.mem_cons_self ..)
        have hnext := @zbxJsonNext_some true true ms h tail _ hitem.walk_value items (hne (by simp))
        rw [List.forall_mem_cons]
        refine ⟨?_, ih _ (fun i hi => hpass i (List.mem_cons_of_mem item hi))
          (fun i hi => hshort i (List.mem_cons_of_mem item hi)) (fun _ => hne (by simp)) hnext hrest⟩
        by_contra hdirty
        dsimp only at hfound
        rw [zbxJsonPairNext_eq, hp] at hfound
        exact decodePair_dirty hitem.named hdirty (hshort item (List.mem_cons_self ..)) hfound
          (hnul item.1)
  exact hfrom ms.items none (Members.passable_items h) hlen id (zbxJsonNext_none h tail) hpairs

/-! ## whole documents -/

/-- What navigation is to find of an object or an array with these members, in
front of a text: its range, its members one after the other, and (of an object)
its pairs, with a buffer that has room for the names, and each by its name. -/
structure Navigable (object : Bool) (ms : Members) (tail : List UInt8) : Prop where
  opens : zbxJsonBracketsOpen (Members.nodeText object ms ++ tail) = .found (nodeRange object ms tail)
  members : Enumerates (zbxJsonNext (nodeRange object ms tail)) id none
    ((entries (closeBracket object :: tail) ms.items).map (·.member))
  pairs : object = true → ∀ len, (∀ item ∈ ms.items, (nameBytes item.1).length < len) →
    Enumerates (zbxJsonPairNext (nodeRange object ms tail) · len) Prod.snd none
      ((entries (closeBracket object :: tail) ms.items).map fun e => (nameBytes e.name, e.value))
  byName : object = true → (∀ item ∈ ms.items, (nameBytes item.1).length < maxStringLen) →
    ∀ name : CString, zbxJsonPairByName (nodeRange object ms tail) name.val =
      lookupEntry name (entries (closeBracket object :: tail) ms.items)

/-- A property of every object and array among members, and in these, in front
of a text. -/
def EveryNode (P : Bool → Members → List UInt8 → Prop) : Members → List UInt8 → Prop
  | .nil, _ => True
  | .value _ _ _ rest, tail => EveryNode P rest tail
  | .node _ object members rest, tail =>
      P object members (rest.compact false ++ tail) ∧
        EveryNode P members (closeBracket object :: (rest.compact false ++ tail)) ∧
          EveryNode P rest tail

/-- All names are clean. -/
def Members.CleanNames : Members → Prop
  | nil => True
  | value name _ _ rest => CleanName name ∧ rest.CleanNames
  | node name _ members rest => CleanName name ∧ members.CleanNames ∧ rest.CleanNames

theorem Members.CleanNames.items {ms : Members} (h : ms.CleanNames) :
    ∀ item ∈ ms.items, CleanName item.1 := by
  induction ms with
  | nil => simp [Members.items]
  | value name string type rest ih =>
      rw [Members.items, List.forall_mem_cons]
      exact ⟨h.1, ih h.2⟩
  | node name object members rest _ ih =>
      rw [Members.items, List.forall_mem_cons]
      exact ⟨h.1, ih h.2.2⟩

theorem navigable_of_clean {object : Bool} {ms : Members} (h : ms.Valid object)
    (hclean : ∀ item ∈ ms.items, CleanName item.1) (tail : List UInt8) : Navigable object ms tail where
  opens := zbxJsonBracketsOpen_nodeText h tail
  members := enumerates_next h tail
  pairs := by
    rintro rfl len hlen
    exact enumerates_pairNext h tail fun item hitem => ⟨hclean item hitem, hlen item hitem⟩
  byName := by
    rintro rfl hlen name
    exact zbxJsonPairByName_lookup h tail (fun item hitem => ⟨hclean item hitem, hlen item hitem⟩) name

theorem clean_of_navigable {object : Bool} {ms : Members} (h : ms.Valid object) {tail : List UInt8}
    (hnav : Navigable object ms tail) : ∀ item ∈ ms.items, CleanName item.1 := by
  cases object with
  | false =>
      intro item hitem
      have hnamed := (Members.passable_items h item hitem).named
      rw [Option.isSome_eq_false_iff, Option.isNone_iff_eq_none] at hnamed
      rw [hnamed]
      intro c hc
      cases hc
  | true =>
      obtain ⟨len, hlen⟩ : ∃ len, ∀ item ∈ ms.items, (nameBytes item.1).length < len := by
        refine ⟨(ms.items.map fun item => (nameBytes item.1).length).sum + 1, fun item hitem => ?_⟩
        exact Nat.lt_succ_of_le (List.single_le_sum (by simp) _ (List.mem_map_of_mem hitem))
      exact cleanName_of_enumerates h hlen (hnav.pairs rfl len hlen)

theorem everyNode_of_clean {object : Bool} {ms : Members} (h : ms.Valid object)
    (hclean : ms.CleanNames) (tail : List UInt8) : EveryNode Navigable ms tail := by
  induction ms generalizing object tail with
  | nil => trivial
  | value name string type rest ih => exact ih h.2.2 hclean.2 tail
  | node name object' members rest ihm ih =>
      exact ⟨navigable_of_clean h.2.1 hclean.2.1.items _, ihm h.2.1 hclean.2.1 _, ih h.2.2 hclean.2.2 tail⟩

theorem clean_of_everyNode {object : Bool} {ms : Members} (h : ms.Valid object) {tail : List UInt8}
    (hnav : EveryNode Navigable ms tail) (hclean : ∀ item ∈ ms.items, CleanName item.1) :
    ms.CleanNames := by
  induction ms generalizing object tail with
  | nil => trivial
  | value name string type rest ih =>
      rw [Members.items, List.forall_mem_cons] at hclean
      exact ⟨hclean.1, ih h.2.2 hnav hclean.2⟩
  | node name object' members rest ihm ih =>
      rw [Members.items, List.forall_mem_cons] at hclean
      exact ⟨hclean.1, ihm h.2.1 hnav.2.1 (clean_of_navigable h.2.1 hnav.1), ih h.2.2 hnav.2.2 hclean.2⟩

/-- `zbx_json_open` at a document of the builder. -/
theorem zbxJsonOpen_jsonRun (garbage : Mem) (allocate : ℕ) {ops : List JsonOp}
    (h : (jsonDocument ops).Valid true) :
    zbxJsonOpen (jsonRun garbage allocate ops).text = .found (nodeRange true (jsonDocument ops) []) := by
  have hhead : (jsonRun garbage allocate ops).text.headD nul = lbrace := by
    rw [text_jsonRun]
    simp [Members.text, Members.separator, Members.nodeHead, nameText, openBracket]
  have hstrip : stripLayout (jsonRun garbage allocate ops).text =
      Members.nodeText true (jsonDocument ops) ++ [] := by
    rw [stripLayout_jsonRun, List.append_nil]
    rfl
  rw [zbxJsonOpen, if_pos hhead, hstrip, jsonRbracket_nodeText h [], Scan.map_found]
  rfl

/-- **The navigation of a document**: it is opened from its first byte to its
last, and every object and array in it is navigable, just when no name has a
control character that is written with its digits. -/
theorem jsonDocument_navigable_iff (garbage : Mem) (allocate : ℕ) (ops : List JsonOp)
    (h : LegalOps (Frame.run []) ops) :
    (zbxJsonOpen (jsonRun garbage allocate ops).text =
        .found { start := stripLayout (jsonRun garbage allocate ops).text, stop := [rbrace] } ∧
      EveryNode Navigable (.node none true (jsonDocument ops) .nil) []) ↔
      (jsonDocument ops).CleanNames := by
  have hvalid := valid_jsonDocument h
  have hrange : nodeRange true (jsonDocument ops) [] =
      { start := stripLayout (jsonRun garbage allocate ops).text, stop := [rbrace] } := by
    rw [stripLayout_jsonRun, nodeRange, List.append_nil]
    rfl
  rw [zbxJsonOpen_jsonRun garbage allocate hvalid, hrange]
  constructor
  · rintro ⟨-, hroot, hnav, -⟩
    exact clean_of_everyNode hvalid hnav (clean_of_navigable hvalid hroot)
  · intro hclean
    exact ⟨rfl, navigable_of_clean hvalid hclean.items _, everyNode_of_clean hvalid hclean _, trivial⟩

/-- A list of one object, with quotes and brackets in a value. -/
def listOps : List JsonOp :=
  [.addarray (some ⟨bytes "data", by decide⟩), .addobject none,
    .addstring (some ⟨bytes "key", by decide⟩)
      (some ⟨[dquote, rbracket, comma, backslash], by decide⟩) .string, .close]

theorem legalOps_listOps : LegalOps (Frame.run []) listOps :=
  ⟨rfl, ⟨rfl, ⟨rfl, .inl rfl⟩, trivial, trivial⟩⟩

theorem jsonDocument_navigable_iff_list :
    (zbxJsonOpen (jsonRun (fun _ => 7) 0 listOps).text =
        .found { start := stripLayout (jsonRun (fun _ => 7) 0 listOps).text, stop := [rbrace] } ∧
      EveryNode Navigable (.node none true (jsonDocument listOps) .nil) []) ↔
      (jsonDocument listOps).CleanNames :=
  jsonDocument_navigable_iff _ _ _ legalOps_listOps

/-- The string `\x01`. -/
def controlByte : CString := ⟨[1], by decide⟩

/-- The member `\x01`, which is not found by its name. -/
def controlOps : List JsonOp :=
  [.addstring (some controlByte) (some ⟨bytes "x", by decide⟩) .string]

/-- A name with a control character is not enumerated. -/
theorem navigation_misses_control : LegalOps (Frame.run []) controlOps ∧
    ¬(zbxJsonOpen (jsonRun (fun _ => 7) 0 controlOps).text =
        .found { start := stripLayout (jsonRun (fun _ => 7) 0 controlOps).text, stop := [rbrace] } ∧
      EveryNode Navigable (.node none true (jsonDocument controlOps) .nil) []) := by
  have hlegal : LegalOps (Frame.run []) controlOps := ⟨⟨rfl, .inl rfl⟩, trivial⟩
  refine ⟨hlegal, ?_⟩
  rintro ⟨-, hnav, -⟩
  have hclean := clean_of_navigable (valid_jsonDocument hlegal) hnav _ (List.mem_cons_self ..) 1
    (List.mem_singleton.mpr rfl)
  cases hclean

end Zabbix
