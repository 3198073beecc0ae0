import Zabbix.Json.Navigate

/-!
# Zabbix.Json.RoundTrip

What is read of the members of a document by their names: the members that are
found, and the strings.
-/

namespace Zabbix

open Ascii Nesting

/-! ## what the loops find -/

/-- `zbx_json_next` finds what stands behind a comma. -/
theorem nextLoop_suffix {stop level : ℕ} {state : Bool} {p q : Ptr}
    (h : nextLoop stop level state p = .found q) : (comma :: q) <:+ p := by
  fun_induction nextLoop stop level state p <;> grind [List.suffix_cons_iff]

/-- `zbx_json_decodestring` finds what stands behind a quote. -/
theorem decodestringLoop_suffix {room : ℕ} {p q : Ptr} {r : List UInt8}
    (h : decodestringLoop room p = .found (r, q)) : (dquote :: q) <:+ p := by
  induction room, p using decodestringLoop_induction generalizing r <;> grind [put_eq_found, List.suffix_cons_iff]

theorem length_pairByNameLoop {jp : ZbxJsonParse} {name : List UInt8} {p : Option Ptr} {v : Ptr}
    (h : pairByNameLoop jp name p = .found v) : v.length < remaining jp p := by
  fun_induction pairByNameLoop jp name p with
  | case1 p r hr heq =>
      obtain rfl := Scan.found.inj h
      exact length_zbxJsonPairNext hr
  | case2 p r hr hne ih => exact (ih h).trans (length_zbxJsonPairNext hr)
  | case3 p hr => cases h
  | case4 p hr => cases h

/-- Only names that fit are found. -/
theorem length_name_of_found {jp : ZbxJsonParse} {name : List UInt8} {p : Option Ptr} {v : Ptr}
    (h : pairByNameLoop jp name p = .found v) : name.length < maxStringLen := by
  fun_induction pairByNameLoop jp name p with
  | case1 p r hr heq =>
      obtain ⟨q, -, hq⟩ := zbxJsonPairNext_eq_found hr
      have hroom : r.1.length ≤ 2047 := length_decodestringLoop_le hq
      have hmax : maxStringLen = 2048 := rfl
      rw [← heq, hmax]
      exact lt_of_le_of_lt ((length_cstr_le r.1).trans hroom) (by decide)
  | case2 p r hr hne ih => exact ih h
  | case3 p hr => cases h
  | case4 p hr => cases h

/-! ## inside a name -/

/-- Quotes stand behind backslashes. -/
def QuotesEscaped (s : List UInt8) : Prop := s.IsChain fun a b => b = dquote → a = backslash

theorem quotesEscaped_flatMap (s : List UInt8) : QuotesEscaped (s.flatMap jsonEscape) := by
  have hbyte : ∀ c : UInt8, QuotesEscaped (jsonEscape c) ∧ (jsonEscape c).head? ≠ some dquote := by
    have hall : ∀ c : UInt8, (jsonEscape c).IsChain (fun a b => b = dquote → a = backslash) ∧
        (jsonEscape c).head? ≠ some dquote := forall_byte (by decide +kernel)
    exact hall
  have hhead : ∀ s : List UInt8, (s.flatMap jsonEscape).head? ≠ some dquote := by
    intro s
    cases s with
    | nil => simp
    | cons c s =>
        have hne : jsonEscape c ≠ [] := by
          intro hnil
          have hlen := length_jsonEscape c
          rw [hnil, jsonEscapeSize] at hlen
          revert hlen
          split
          · simp
          · split <;> simp
        rw [List.flatMap_cons, List.head?_append_of_ne_nil _ hne]
        exact (hbyte c).2
  induction s with
  | nil => exact List.isChain_nil
  | cons c s ih =>
      rw [List.flatMap_cons]
      refine List.IsChain.append (hbyte c).1 ih fun a _ b hb hq => ?_
      rw [hq] at hb
      exact absurd hb (hhead s)

/-- From inside a name, what is found lies behind its value. -/
theorem zbxJsonPairNext_inside {jp : ZbxJsonParse} {s v : List UInt8} (hs : QuotesEscaped s) {len : ℕ}
    {r : List UInt8 × Ptr}
    (h : zbxJsonPairNext jp (some (s ++ dquote :: colon :: v)) len = .found r) :
    r.2.length < v.length := by
  obtain ⟨p, hp, hd⟩ := zbxJsonPairNext_eq_found h
  have hcomma : (comma :: dquote :: p) <:+ s ++ dquote :: colon :: v := by
    rw [zbxJsonNext] at hp
    split at hp
    · cases hp
    · exact nextLoop_suffix hp
  have hlen := (decodestringLoop_suffix hd).length_le
  rw [List.length_cons, List.length_cons] at hlen
  by_contra hge
  -- otherwise the comma and the quote behind it are both inside the name
  obtain ⟨b, hb⟩ := hcomma
  have hcount := congrArg List.length hb
  simp only [List.length_append, List.length_cons] at hcount
  rcases List.append_eq_append_iff.mp hb.symm with ⟨a, rfl, ha⟩ | ⟨a, rfl, ha⟩
  · rw [List.length_append] at hcount
    omega
  · cases a with
    | nil =>
        rw [List.append_nil] at hcount
        omega
    | cons a0 a =>
        cases a with
        | nil =>
            simp only [List.length_append, List.length_cons, List.length_nil] at hcount
            omega
        | cons a1 a =>
            simp only [List.cons_append, List.cons.injEq] at ha
            obtain ⟨rfl, rfl, -⟩ := ha
            have hpair := (List.isChain_append_cons_cons.mp hs).2.1 rfl
            revert hpair
            decide

/-! ## names -/

/-- Every member is found by its name. -/
def FindsMembers (jp : ZbxJsonParse) (es : List Entry) : Prop :=
  ∀ e ∈ es, ∀ name, e.name = some name → zbxJsonPairByName jp name.val = lookupEntry name es

theorem lookupEntry_cons_self {e : Entry} {name : CString} (h : e.name = some name) (es : List Entry) :
    lookupEntry name (e :: es) = .found e.value := by
  rw [lookupEntry, List.find?_cons_of_pos (by simpa using h)]

theorem lookupEntry_cons_of_ne {e : Entry} {name : CString} (h : e.name ≠ some name) (es : List Entry) :
    lookupEntry name (e :: es) = lookupEntry name es := by
  rw [lookupEntry, lookupEntry, List.find?_cons_of_neg (by simpa using h)]

/-- A name that is not clean does not lead to its value. -/
theorem pairByNameLoop_dirty {jp : ZbxJsonParse} {p : Option Ptr} {n : CString} {v : Ptr}
    (hp : zbxJsonNext jp p = .found (nameText (some n) ++ v)) (hdirty : ¬CleanName (some n)) :
    pairByNameLoop jp n.val p ≠ .found v := by
  intro hl
  have hshort := length_name_of_found hl
  rw [pairByNameLoop_eq] at hl
  obtain ⟨r, hr, hl⟩ := Scan.bind_eq_found hl
  have hne : cstr r.1 ≠ n.val := by
    rw [zbxJsonPairNext_eq, hp] at hr
    exact decodePair_dirty rfl hdirty hshort hr
  rw [if_neg hne] at hl
  have hremaining : v.length < r.2.length := length_pairByNameLoop hl
  obtain ⟨q, hq, hd⟩ := zbxJsonPairNext_eq_found hr
  obtain rfl : q = n.val.flatMap jsonEscape ++ dquote :: colon :: v := by
    have htext : nameText (some n) ++ v = dquote :: (n.val.flatMap jsonEscape ++ dquote :: colon :: v) := by
      simp [nameText, jsonInsstring_some]
    rw [hp, htext] at hq
    exact (List.cons.inj (Scan.found.inj hq)).2.symm
  -- the quote that ended the name was one inside it
  obtain ⟨b, hb⟩ := decodestringLoop_suffix hd
  have hcount := congrArg List.length hb
  simp only [List.length_append, List.length_cons] at hcount
  obtain ⟨s, hname, hrest⟩ : ∃ s, n.val.flatMap jsonEscape = b ++ dquote :: colon :: s ∧
      r.2 = s ++ dquote :: colon :: v := by
    rcases List.append_eq_append_iff.mp hb.symm with ⟨a, rfl, ha⟩ | ⟨a, heq, ha⟩
    · rw [List.length_append] at hcount
      omega
    · rcases a with _ | ⟨a, _ | ⟨a', s⟩⟩
      · have hlen := congrArg List.length ha
        simp only [List.nil_append, List.length_cons] at hlen
        omega
      · have hquote : colon = dquote := (List.cons.inj (List.cons.inj ha).2).1
        exact absurd hquote (by decide)
      · simp only [List.cons_append, List.cons.injEq] at ha
        obtain ⟨rfl, rfl, hrest⟩ := ha
        exact ⟨s, heq, hrest⟩
  have hquotes := quotesEscaped_flatMap n.val
  rw [hname] at hquotes
  have hinside : QuotesEscaped s := List.IsChain.infix hquotes ⟨b ++ [dquote, colon], [], by simp⟩
  rw [hrest, pairByNameLoop_eq] at hl
  obtain ⟨r', hr', hl⟩ := Scan.bind_eq_found hl
  have hlt := zbxJsonPairNext_inside hinside hr'
  split at hl
  · rw [Scan.found.inj hl] at hlt
    omega
  · have hlast : v.length < r'.2.length := length_pairByNameLoop hl
    omega

/-- **Members that are found have readable names.** -/
theorem readableNames_of_found {ms : Members} (h : ms.Valid true) {tail : List UInt8}
    (hfound : FindsMembers (nodeRange true ms tail) (entries (closeBracket true :: tail) ms.items)) :
    ReadableNames maxStringLen ms.items := by
  have hfrom : ∀ (items : List Item) (p : Option Ptr), (∀ item ∈ items, Passable true item) →
      (items ≠ [] → ms.items ≠ []) →
      zbxJsonNext (nodeRange true ms tail) p = firstMember (entries (closeBracket true :: tail) items) →
      (∀ e ∈ entries (closeBracket true :: tail) items, ∀ name : CString, e.name = some name →
        ¬(CleanName (some name) ∧ name.val.length < maxStringLen) →
        pairByNameLoop (nodeRange true ms tail) name.val p =
          lookupEntry name (entries (closeBracket true :: tail) items)) →
      ReadableNames maxStringLen items := by
    intro items
    induction items with
    | nil =>
        intro p _ _ _ _ item hitem
        cases hitem
    | cons item items ih =>
        intro p hpass hne hp hl
        obtain ⟨n, value⟩ := item
        have hitem := hpass (n, value) (List.mem_cons_self ..)
        obtain ⟨n, rfl⟩ := Option.isSome_iff_exists.mp hitem.named
        have hread : CleanName (some n) ∧ n.val.length < maxStringLen := by
          by_contra hun
          have hself := (hl _ (List.mem_cons_self ..) n rfl hun).trans (lookupEntry_cons_self rfl _)
          exact pairByNameLoop_dirty hp (fun hclean => hun ⟨hclean, length_name_of_found hself⟩) hself
        have hnext := @zbxJsonNext_some true true ms h tail _ hitem.walk_value items (hne (by simp))
        refine List.forall_mem_cons.mpr ⟨hread, ih _ (fun i hi => hpass i (List.mem_cons_of_mem _ hi))
          (fun _ => hne (by simp)) hnext fun e he name hname hun => ?_⟩
        have hdiff : n ≠ name := by
          rintro rfl
          exact hun hread
        have hrest := hl e (List.mem_cons_of_mem _ he) name hname hun
        rw [entries, lookupEntry_cons_of_ne (by simpa using hdiff), pairByNameLoop_eq,
          zbxJsonPairNext_eq, hp] at hrest
        change ((decodePair maxStringLen (nameText (some n) ++ _)).bind _) = _ at hrest
        rw [decodePair_clean rfl hread.1 hread.2, Scan.found_bind, nameBytes,
          cstr_of_not_mem n.property, if_neg (fun heq => hdiff (Subtype.ext heq))] at hrest
        exact hrest
  exact hfrom ms.items none (Members.passable_items h) id (zbxJsonNext_none h tail)
    fun e he name hname _ => hfound e he name hname

/-! ## strings -/

/-- The string of the first member of a name, if it is one. -/
def Members.stringOf (name : CString) : Members → Option CString
  | nil => none
  | value n string type rest =>
      if n = some name then if type = .string then string else none else rest.stringOf name
  | node n _ _ rest => if n = some name then none else rest.stringOf name

/-- A string that is a member is what stands at its pointer. -/
theorem Members.lookupEntry_of_stringOf {ms : Members} {name s : CString} (h : ms.stringOf name = some s)
    (tail : List UInt8) :
    ∃ t, lookupEntry name (entries tail ms.items) = .found (jsonInsstring (some s) .string ++ t) := by
  induction ms with
  | nil => cases h
  | value n string type rest ih =>
      rw [stringOf] at h
      split at h
      · rename_i hn
        split at h
        · rename_i htype
          subst htype h
          exact ⟨_, lookupEntry_cons_self hn _⟩
        · cases h
      · rename_i hn
        obtain ⟨t, ht⟩ := ih h
        exact ⟨t, (lookupEntry_cons_of_ne hn _).trans ht⟩
  | node n object members rest _ ih =>
      rw [stringOf] at h
      split at h
      · cases h
      · rename_i hn
        obtain ⟨t, ht⟩ := ih h
        exact ⟨t, (lookupEntry_cons_of_ne hn _).trans ht⟩

theorem Members.name_of_stringOf {ms : Members} {name s : CString} (h : ms.stringOf name = some s)
    (tail : List UInt8) : ∃ e ∈ entries tail ms.items, e.name = some name := by
  induction ms with
  | nil => cases h
  | value n string type rest ih =>
      rw [stringOf] at h
      split at h
      · rename_i hn
        exact ⟨_, List.mem_cons_self .., hn⟩
      · obtain ⟨e, he, hname⟩ := ih h
        exact ⟨e, List.mem_cons_of_mem _ he, hname⟩
  | node n object members rest _ ih =>
      rw [stringOf] at h
      split at h
      · cases h
      · obtain ⟨e, he, hname⟩ := ih h
        exact ⟨e, List.mem_cons_of_mem _ he, hname⟩

/-- What is read of a string at its pointer. -/
theorem zbxJsonDecodevalue_string (s : CString) (t : Ptr) (len : ℕ) :
    zbxJsonDecodevalue (jsonInsstring (some s) .string ++ t) len =
      decodestringLoop (roomOf len) (s.val.flatMap jsonEscape ++ dquote :: t) := by
  rw [zbxJsonDecodevalue, zbxJsonType_jsonInsstring]
  exact zbxJsonDecodestring_jsonInsstring s t len

/-- A string is read back, into every buffer that has room for it, just when it
is clean. -/
theorem decodevalue_string_iff (s : CString) (t : Ptr) :
    (∀ len, s.val.length < len →
      (zbxJsonDecodevalue (jsonInsstring (some s) .string ++ t) len).map (fun r => cstr r.1) =
        .found s.val) ↔ ∀ c ∈ s.val, jsonClean c = true := by
  constructor
  · intro h
    by_contra hdirty
    have hmem : ∃ c ∈ s.val, jsonClean c = false := by simpa using hdirty
    obtain ⟨r, hr, heq⟩ := Scan.map_eq_found (h (s.val.length + 1) (Nat.lt_succ_self _))
    rw [zbxJsonDecodevalue_string] at hr
    exact decodestringLoop_flatMap_ne s.property hmem (le_roomOf (Nat.lt_succ_self _)) hr heq
  · intro hclean len hlen
    have hloop := decodestringLoop_flatMap (s := s.val) hclean (le_roomOf hlen) t
    rw [zbxJsonDecodevalue_string, hloop, Scan.map_found, cstr_of_not_mem s.property]

/-- What is to be read of an object, in front of a text: every member is found
by its name, and every string is read back with `zbx_json_value_by_name` into
a large enough buffer. -/
def ReadsBack (object : Bool) (ms : Members) (tail : List UInt8) : Prop :=
  object = true →
    FindsMembers (nodeRange true ms tail) (entries (closeBracket true :: tail) ms.items) ∧
      ∀ name s, ms.stringOf name = some s → ∀ len, s.val.length < len →
        (zbxJsonValueByName (nodeRange true ms tail) name.val len).map cstr = .found s.val

/-- Names that are read as they were written and fit into `MAX_STRING_LEN`, and
strings that are read as they were written. -/
def Readable (object : Bool) (ms : Members) (_ : List UInt8) : Prop :=
  object = true →
    ReadableNames maxStringLen ms.items ∧
      ∀ name s, ms.stringOf name = some s → ∀ c ∈ s.val, jsonClean c = true

theorem readsBack_iff {object : Bool} {ms : Members} (h : ms.Valid object) (tail : List UInt8) :
    ReadsBack object ms tail ↔ Readable object ms tail := by
  rw [ReadsBack, Readable]
  refine forall_congr' fun hobject => ?_
  subst hobject
  have hvalue : FindsMembers (nodeRange true ms tail) (entries (closeBracket true :: tail) ms.items) →
      ∀ name s, ms.stringOf name = some s → ((∀ len, s.val.length < len →
        (zbxJsonValueByName (nodeRange true ms tail) name.val len).map cstr = .found s.val) ↔
          ∀ c ∈ s.val, jsonClean c = true) := by
    intro hfound name s hs
    obtain ⟨e, he, hname⟩ := Members.name_of_stringOf hs (closeBracket true :: tail)
    obtain ⟨t, ht⟩ := Members.lookupEntry_of_stringOf hs (closeBracket true :: tail)
    rw [← decodevalue_string_iff s t]
    refine forall_congr' fun len => forall_congr' fun _ => ?_
    rw [zbxJsonValueByName, hfound e he name hname, ht, Scan.found_bind]
    cases zbxJsonDecodevalue (jsonInsstring (some s) .string ++ t) len <;> simp
  constructor
  · rintro ⟨hfound, hstrings⟩
    exact ⟨readableNames_of_found h hfound, fun name s hs =>
      (hvalue hfound name s hs).mp (hstrings name s hs)⟩
  · rintro ⟨hnames, hclean⟩
    have hfound : FindsMembers (nodeRange true ms tail) (entries (closeBracket true :: tail) ms.items) :=
      fun e _ name _ => zbxJsonPairByName_lookup h tail hnames name
    exact ⟨hfound, fun name s hs => (hvalue hfound name s hs).mpr (hclean name s hs)⟩

theorem everyNode_congr {P Q : Bool → Members → List UInt8 → Prop}
    (h : ∀ object ms tail, ms.Valid object → (P object ms tail ↔ Q object ms tail)) {object : Bool}
    {ms : Members} (hms : ms.Valid object) (tail : List UInt8) : EveryNode P ms tail ↔ EveryNode Q ms tail := by
  induction ms generalizing object tail with
  | nil => exact Iff.rfl
  | value name string type rest ih => exact ih hms.2.2 tail
  | node name object' members rest ihm ih =>
      rw [EveryNode, EveryNode, h object' members _ hms.2.1, ihm hms.2.1, ih hms.2.2]

/-- **The round trip of strings**: the document is opened, and every object in
it, wherever it is, reads back, just when its names are shorter than
`MAX_STRING_LEN` and neither they nor its strings have a control character that
is written with its digits. -/
theorem jsonDocument_readsBack_iff (garbage : Mem) (allocate : ℕ) (ops : List JsonOp)
    (h : LegalOps (Frame.run []) ops) :
    (zbxJsonOpen (jsonRun garbage allocate ops).text =
        .found { start := stripLayout (jsonRun garbage allocate ops).text, stop := [rbrace] } ∧
      EveryNode ReadsBack (.node none true (jsonDocument ops) .nil) []) ↔
      EveryNode Readable (.node none true (jsonDocument ops) .nil) [] := by
  have hvalid : (Members.node none true (jsonDocument ops) .nil).Valid false :=
    ⟨rfl, valid_jsonDocument h, trivial⟩
  rw [everyNode_congr (fun _ _ tail hms => readsBack_iff hms tail) hvalid,
    zbxJsonOpen_jsonRun garbage allocate (valid_jsonDocument h), stripLayout_jsonRun, nodeRange]
  simp [Members.nodeText, openBracket, closeBracket]

/-- A list of one object, with quotes and brackets in a value. -/
theorem jsonDocument_readsBack_iff_list :
    (zbxJsonOpen (jsonRun (fun _ => 7) 0 listOps).text =
        .found { start := stripLayout (jsonRun (fun _ => 7) 0 listOps).text, stop := [rbrace] } ∧
      EveryNode ReadsBack (.node none true (jsonDocument listOps) .nil) []) ↔
      EveryNode Readable (.node none true (jsonDocument listOps) .nil) [] :=
  jsonDocument_readsBack_iff _ _ _ legalOps_listOps

/-- The value `\x01`. -/
def controlValueOps : List JsonOp :=
  [.addstring (some ⟨bytes "k", by decide⟩) (some controlByte) .string]

/-- A control character is read as a NUL and a digit: the string is empty. -/
theorem readsBack_control : LegalOps (Frame.run []) controlValueOps ∧
    (jsonDocument controlValueOps).stringOf ⟨bytes "k", by decide⟩ = some ⟨[1], by decide⟩ ∧
    (zbxJsonValueByName (nodeRange true (jsonDocument controlValueOps) []) (bytes "k") 100).map cstr =
      .found [] ∧
    ¬(zbxJsonOpen (jsonRun (fun _ => 7) 0 controlValueOps).text =
        .found { start := stripLayout (jsonRun (fun _ => 7) 0 controlValueOps).text, stop := [rbrace] } ∧
      EveryNode ReadsBack (.node none true (jsonDocument controlValueOps) .nil) []) := by
  have hlegal : LegalOps (Frame.run []) controlValueOps := ⟨⟨rfl, .inl rfl⟩, trivial⟩
  have hstring : (jsonDocument controlValueOps).stringOf ⟨bytes "k", by decide⟩ =
      some ⟨[1], by decide⟩ := by decide
  have hread : (zbxJsonValueByName (nodeRange true (jsonDocument controlValueOps) []) (bytes "k") 100).map
      cstr = .found [] := by
    rw [zbxJsonValueByName, zbxJsonPairByName, pairByNameLoop_eq]
    decide
  refine ⟨hlegal, hstring, hread, ?_⟩
  rintro ⟨-, hnode, -⟩
  have hback := (hnode rfl).2 _ _ hstring 100 (by decide)
  have hread' := hread.symm.trans hback
  revert hread'
  decide

end Zabbix
