import Zabbix.Comms.Tcp
import Zabbix.Crypto.Base64
import Zabbix.Lib.CInt
import Zabbix.Macros.TriggerConstants

/-!
# Zabbix.Comms.ParseResponse

The fields of a value that comes as XML: `comms_parse_response`
(`libs/zbxcommon/comms.c`) with `xml_get_data_dyn` (`libs/zbxcommon/xml.c`) and the
buffers of `str_base64_decode` (`libs/zbxcrypto/base64.c`).

The data of an element is copied into a buffer that is large enough for it
(`xmlGetDataDyn_spec`), and what is decoded fits the destination, with its NUL
(`fits_decodeLoop`).  In between the characters of base64 go through `str_clean`,
whose size nothing checks (`fieldSafe_iff`).
-/

namespace Zabbix

open Ascii

/-! ## the data of an element -/

/-- `<tag>`, behind its first character. -/
def startTag (tag : List UInt8) : List UInt8 := tag ++ [greater]

/-- `</tag>`, behind its first character. -/
def endTag (tag : List UInt8) : List UInt8 := slash :: tag ++ [greater]

/-- What `xml_get_data_dyn` returns: the string at `*data`, and what it has written
of the buffer there. -/
structure XmlData where
  data : List UInt8
  access : Access

/-- `xml_get_data_dyn`.  The difference of the pointers goes through an `int`, and
`len + 1` is the `size_t` of `zbx_strlcpy`; the buffer is `data_static`, or as large
as that. -/
def xmlGetDataDyn (xml tag : List UInt8) : Option XmlData :=
  match strstr less (startTag tag) xml, strstr less (endTag tag) xml with
  | some (front, _), some (front', _) =>
      if front'.length < front.length then none
      else
        let start := front.length + (tag.length + 2)
        let len := CInt.cast ((front'.length : ℤ) - start)
        let siz := ((len + 1) % 2 ^ 64).toNat
        let size := if len > (zbxMaxB64Len : ℤ) - 1 then siz else zbxMaxB64Len
        let data := (xml.drop start).take (siz - 1)
        some ⟨data, ⟨size, 0, min siz (data.length + 1)⟩⟩
  | _, _ => none

/-! ## the fields -/

/-- `str_base64_decode` into a buffer, and the NUL that is put behind what it returns:
the buffer afterwards, and what has been written of `str_clean` and of the buffer. -/
def decodeInto (data buffer : List UInt8) : List UInt8 × List Access :=
  let clean := data.filter isBase64
  let d := decodeLoop (buffer.length - 1) clean ⟨[], 0⟩
  (d.str ++ nul :: buffer.drop (d.outSize + 1),
    [⟨maxB64Size, 0, clean.length + 1⟩, ⟨buffer.length, 0, d.outSize⟩, ⟨buffer.length, d.outSize, 1⟩])

/-- One field of `comms_parse_response`. -/
def parseField (xml tag buffer : List UInt8) : List UInt8 × List Access :=
  match xmlGetDataDyn xml tag with
  | none => (buffer, [])
  | some r =>
      let (buffer, accesses) := decodeInto r.data buffer
      (buffer, r.access :: accesses)

/-- Something for each of the destinations. -/
structure CommsFields (α : Type) where
  host : α
  key : α
  data : α
  lastlogsize : α
  timestamp : α
  source : α
  severity : α

/-- The names of the elements. -/
def commsTags : List (List UInt8) :=
  [bytes "host", bytes "key", bytes "data", bytes "lastlogsize", bytes "timestamp", bytes "source",
    bytes "severity"]

/-- `comms_parse_response`: the destinations afterwards, each with the accesses that
were made for it. -/
def commsParseResponse (xml : List UInt8) (b : CommsFields (List UInt8)) :
    CommsFields (List UInt8 × List Access) where
  host := parseField xml (bytes "host") b.host
  key := parseField xml (bytes "key") b.key
  data := parseField xml (bytes "data") b.data
  lastlogsize := parseField xml (bytes "lastlogsize") b.lastlogsize
  timestamp := parseField xml (bytes "timestamp") b.timestamp
  source := parseField xml (bytes "source") b.source
  severity := parseField xml (bytes "severity") b.severity

/-! ## what the code keeps to -/

/-- Nothing is accessed outside of a buffer, and a destination that has been filled
ends at a NUL. -/
def FieldSafe (xml tag buffer : List UInt8) (r : List UInt8 × List Access) : Prop :=
  (∀ a ∈ r.2, a.InBounds) ∧ ((xmlGetDataDyn xml tag).isSome = true → r.1.length = buffer.length ∧ nul ∈ r.1)

/-- So it is for all fields. -/
def StaysInBuffers (xml : List UInt8) (b : CommsFields (List UInt8)) : Prop :=
  let r := commsParseResponse xml b
  FieldSafe xml (bytes "host") b.host r.host ∧ FieldSafe xml (bytes "key") b.key r.key ∧
    FieldSafe xml (bytes "data") b.data r.data ∧
    FieldSafe xml (bytes "lastlogsize") b.lastlogsize r.lastlogsize ∧
    FieldSafe xml (bytes "timestamp") b.timestamp r.timestamp ∧
    FieldSafe xml (bytes "source") b.source r.source ∧ FieldSafe xml (bytes "severity") b.severity r.severity

/-! ## what an element is -/

/-- No `sub` begins in front of an index. -/
def NoneBefore (sub s : List UInt8) (n : ℕ) : Prop := ∀ front behind, s = front ++ sub ++ behind → n ≤ front.length

/-- The data between the first start tag and the first end tag of a name. -/
def Element (xml tag data : List UInt8) : Prop :=
  ∃ front behind, xml = front ++ (less :: startTag tag) ++ data ++ (less :: endTag tag) ++ behind ∧
    NoneBefore (less :: startTag tag) xml front.length ∧
    NoneBefore (less :: endTag tag) xml (front ++ (less :: startTag tag) ++ data).length

/-- A name has no character of a tag. -/
structure IsTag (tag : List UInt8) : Prop where
  ne_nil : tag ≠ []
  less : Ascii.less ∉ tag
  slash : Ascii.slash ∉ tag

/-! ## the first occurrence -/

/-- `strstr` finds the first one. -/
theorem strstr_eq_some_iff {c : UInt8} {sub s front behind : List UInt8} :
    strstr c sub s = some (front, behind) ↔
      s = front ++ (c :: sub) ++ behind ∧ NoneBefore (c :: sub) s front.length := by
  induction s generalizing front with
  | nil =>
      constructor
      · intro h
        cases h
      · rintro ⟨h, -⟩
        simp at h
  | cons a s ih =>
      rw [strstr]
      by_cases hstart : c :: sub <+: a :: s
      · rw [if_pos (List.isPrefixOf_iff_prefix.mpr hstart), Option.some.injEq, Prod.mk.injEq]
        obtain ⟨t, ht⟩ := hstart
        constructor
        · rintro ⟨rfl, rfl⟩
          obtain ⟨rfl, rfl⟩ := List.cons.inj ht
          refine ⟨by simp, fun _ _ _ => Nat.zero_le _⟩
        · rintro ⟨hs, hfirst⟩
          obtain rfl : front = [] := List.length_eq_zero_iff.mp (Nat.le_zero.mp (hfirst [] t ht.symm))
          obtain ⟨rfl, rfl⟩ := List.cons.inj hs
          exact ⟨rfl, by simp⟩
      · rw [if_neg fun h => hstart (List.isPrefixOf_iff_prefix.mp h), Option.map_eq_some_iff]
        constructor
        · rintro ⟨⟨front, _⟩, hfound, heq⟩
          cases heq
          obtain ⟨hs, hfirst⟩ := ih.mp hfound
          refine ⟨by rw [hs]; rfl, fun front' behind' hs' => ?_⟩
          cases front' with
          | nil => exact absurd ⟨behind', hs'.symm⟩ hstart
          | cons b front' => exact Nat.succ_le_succ (hfirst front' behind' (List.cons.inj hs').2)
        · rintro ⟨hs, hfirst⟩
          cases front with
          | nil => exact absurd ⟨behind, hs.symm⟩ hstart
          | cons b front =>
              obtain ⟨rfl, hrest⟩ := List.cons.inj hs
              refine ⟨(front, behind), ih.mpr ⟨hrest, fun front' behind' hs' => ?_⟩, rfl⟩
              exact Nat.succ_le_succ_iff.mp (hfirst (a :: front') behind' (congrArg (a :: ·) hs'))

/-! ## the data found -/

variable {xml tag data buffer : List UInt8}

theorem IsTag.less_not_mem (htag : IsTag tag) : Ascii.less ∉ startTag tag := by
  rw [startTag, List.mem_append, List.mem_singleton, not_or]
  exact ⟨htag.less, by decide⟩

/-- A start tag and an end tag differ in their second character. -/
theorem IsTag.start_ne_end (htag : IsTag tag) (behind behind' : List UInt8) :
    startTag tag ++ behind ≠ endTag tag ++ behind' := by
  intro h
  cases tag with
  | nil => exact htag.ne_nil rfl
  | cons a tag =>
      obtain ⟨rfl, -⟩ := List.cons.inj h
      exact htag.slash List.mem_cons_self

/-- The end tag does not begin in the start tag. -/
theorem exists_data (htag : IsTag tag) {front front' behind behind' : List UInt8}
    (hs : front ++ (less :: startTag tag ++ behind) = front' ++ (less :: endTag tag ++ behind'))
    (hle : front.length ≤ front'.length) : ∃ data, front' = front ++ (less :: startTag tag) ++ data := by
  have hmiddle : ∃ middle, front' = front ++ middle ∧
      less :: startTag tag ++ behind = middle ++ (less :: endTag tag ++ behind') := by
    rcases List.append_eq_append_iff.mp hs with h | ⟨rest, rfl, h⟩
    · exact h
    · rw [List.length_append] at hle
      obtain rfl : rest = [] := List.length_eq_zero_iff.mp (by omega)
      exact ⟨[], by simp, h.symm⟩
  obtain ⟨middle, rfl, hmiddle⟩ := hmiddle
  rcases List.append_eq_append_iff.mp hmiddle with ⟨data, rfl, -⟩ | ⟨rest, hstart, hend⟩
  · exact ⟨data, by rw [List.append_assoc]⟩
  · cases rest with
    | nil => exact ⟨[], by rw [hstart, List.append_nil, List.append_nil]⟩
    | cons c rest =>
        obtain ⟨rfl, hrest⟩ := List.cons.inj hend
        cases middle with
        | nil =>
            obtain ⟨-, rfl⟩ := List.cons.inj hstart
            exact absurd hrest.symm (htag.start_ne_end _ _)
        | cons m middle =>
            obtain ⟨-, hmem⟩ := List.cons.inj hstart
            exact absurd (hmem ▸ List.mem_append_right _ List.mem_cons_self) htag.less_not_mem

theorem exists_element (htag : IsTag tag) {r : XmlData} (h : xmlGetDataDyn xml tag = some r) :
    ∃ data, Element xml tag data := by
  rw [xmlGetDataDyn] at h
  split at h
  · next front behind front' behind' hstart hend =>
      split at h
      · cases h
      · next hle =>
          obtain ⟨hs, hfirst⟩ := strstr_eq_some_iff.mp hstart
          obtain ⟨hs', hfirst'⟩ := strstr_eq_some_iff.mp hend
          have heq := hs.symm.trans hs'
          rw [List.append_assoc, List.append_assoc] at heq
          obtain ⟨data, rfl⟩ := exists_data htag heq (not_lt.mp hle)
          exact ⟨data, front, behind', hs', hfirst, hfirst'⟩
  · cases h

/-- **The data of an element is copied** into a buffer that is large enough. -/
theorem xmlGetDataDyn_of_element (hint : xml.length < 2 ^ 31) (h : Element xml tag data) :
    ∃ r, xmlGetDataDyn xml tag = some r ∧ r.data = data ∧ r.access.InBounds := by
  obtain ⟨front, behind, hxml, hstart, hend⟩ := h
  have hstart' : strstr less (startTag tag) xml =
      some (front, data ++ (less :: endTag tag) ++ behind) := by
    refine strstr_eq_some_iff.mpr ⟨?_, hstart⟩
    simpa only [List.append_assoc] using hxml
  have hend' : strstr less (endTag tag) xml = some (front ++ (less :: startTag tag) ++ data, behind) :=
    strstr_eq_some_iff.mpr ⟨hxml, hend⟩
  have hlen : (front ++ (less :: startTag tag) ++ data).length = front.length + (tag.length + 2) + data.length := by
    simp [startTag]
    omega
  have hle := congrArg List.length hxml
  rw [List.length_append, List.length_append, hlen] at hle
  have hcast : CInt.cast (((front ++ (less :: startTag tag) ++ data).length : ℤ) -
      (front.length + (tag.length + 2) : ℕ)) = data.length := by
    rw [CInt.cast_of_inRange]
    · omega
    · constructor <;> omega
  have hsiz : (((data.length : ℤ) + 1) % 2 ^ 64).toNat = data.length + 1 := by omega
  have hdata : (xml.drop (front.length + (tag.length + 2))).take data.length = data := by
    have hdrop : front.length + (tag.length + 2) = (front ++ (less :: startTag tag)).length := by
      simp [startTag]
    rw [hdrop, hxml, List.append_assoc, List.append_assoc, List.append_assoc, ← List.append_assoc front,
      List.drop_left, List.take_left]
  rw [xmlGetDataDyn, hstart', hend']
  simp only [hcast, hsiz]
  rw [if_neg (by omega)]
  refine ⟨_, rfl, hdata, ?_⟩
  refine ⟨le_rfl, ?_⟩
  simp only [Nat.add_sub_cancel, hdata, Nat.min_self, zero_add]
  by_cases hlong : (data.length : ℤ) > (zbxMaxB64Len : ℤ) - 1
  · rw [if_pos hlong]
  · rw [if_neg hlong]
    rw [zbxMaxB64Len] at hlong ⊢
    omega

/-! ## one field -/

theorem decodeInto_bounds (data : List UInt8) (hbuffer : 2 ≤ buffer.length) :
    ((∀ a ∈ (decodeInto data buffer).2, a.InBounds) ↔ data.countP isBase64 < maxB64Size) ∧
      (decodeInto data buffer).1.length = buffer.length ∧ nul ∈ (decodeInto data buffer).1 := by
  obtain ⟨hstr, hsize⟩ : (decodeLoop (buffer.length - 1) (data.filter isBase64) ⟨[], 0⟩).Fits (buffer.length - 1) :=
    fits_decodeLoop _ ⟨rfl, Nat.zero_le _⟩ (by change 0 < buffer.length - 1; omega)
  rw [decodeInto]
  refine ⟨?_, ?_, by simp⟩
  · simp only [List.forall_mem_cons, Access.InBounds, List.countP_eq_length_filter]
    constructor
    · rintro ⟨⟨-, hclean⟩, -⟩
      omega
    · intro hclean
      refine ⟨⟨le_rfl, by omega⟩, ⟨le_rfl, by omega⟩, ⟨by omega, by omega⟩, by simp⟩
  · simp only [List.length_append, List.length_cons, List.length_drop, hstr]
    omega

/-- **A field stays in its buffers** exactly when `str_clean` has room for the
characters of base64 in its element. -/
theorem fieldSafe_iff (htag : IsTag tag) (hint : xml.length < 2 ^ 31) (hbuffer : 2 ≤ buffer.length) :
    FieldSafe xml tag buffer (parseField xml tag buffer) ↔
      ∀ data, Element xml tag data → data.countP isBase64 < maxB64Size := by
  rw [FieldSafe, parseField]
  cases hfound : xmlGetDataDyn xml tag with
  | none =>
      refine ⟨fun _ data h => ?_, fun _ => by simp⟩
      obtain ⟨r, hr, -⟩ := xmlGetDataDyn_of_element hint h
      rw [hr] at hfound
      cases hfound
  | some r =>
      obtain ⟨data, helement⟩ := exists_element htag hfound
      obtain ⟨r', hr', rfl, haccess⟩ := xmlGetDataDyn_of_element hint helement
      obtain rfl : r' = r := Option.some.inj (hr'.symm.trans hfound)
      obtain ⟨hbounds, hlen, hnul⟩ := decodeInto_bounds r'.data hbuffer
      simp only [List.forall_mem_cons]
      constructor
      · rintro ⟨⟨-, h⟩, -⟩ data' helement'
        obtain ⟨r'', hr'', rfl, -⟩ := xmlGetDataDyn_of_element hint helement'
        obtain rfl : r'' = r' := Option.some.inj (hr''.symm.trans hr')
        exact hbounds.mp h
      · exact fun h => ⟨⟨haccess, hbounds.mpr (h _ helement)⟩, fun _ => ⟨hlen, hnul⟩⟩

/-! ## the response -/

instance (tag : List UInt8) : Decidable (IsTag tag) :=
  decidable_of_iff (tag ≠ [] ∧ less ∉ tag ∧ slash ∉ tag)
    ⟨fun h => ⟨h.1, h.2.1, h.2.2⟩, fun h => ⟨h.ne_nil, h.less, h.slash⟩⟩

theorem isTag_of_mem : ∀ tag ∈ commsTags, IsTag tag := by decide

/-- The room that the decoder asserts, for a byte and a NUL in each destination. -/
structure CommsFields.Room (b : CommsFields (List UInt8)) : Prop where
  host : 2 ≤ b.host.length
  key : 2 ≤ b.key.length
  data : 2 ≤ b.data.length
  lastlogsize : 2 ≤ b.lastlogsize.length
  timestamp : 2 ≤ b.timestamp.length
  source : 2 ≤ b.source.length
  severity : 2 ≤ b.severity.length

/-- **Fields stay in their buffers** exactly when no element holds as many characters
of base64 as `str_clean` has bytes. -/
theorem comms_parse_response_iff {b : CommsFields (List UInt8)} (hint : xml.length < 2 ^ 31) (hb : b.Room) :
    StaysInBuffers xml b ↔ ∀ tag ∈ commsTags, ∀ data, Element xml tag data → data.countP isBase64 < maxB64Size := by
  have htags := isTag_of_mem
  simp only [commsTags, List.forall_mem_cons] at htags ⊢
  obtain ⟨hhost, hkey, hdata, hlastlogsize, htimestamp, hsource, hseverity, -⟩ := htags
  simp only [List.not_mem_nil, false_implies, implies_true, and_true]
  exact and_congr (fieldSafe_iff hhost hint hb.host) <| and_congr (fieldSafe_iff hkey hint hb.key) <|
    and_congr (fieldSafe_iff hdata hint hb.data) <|
    and_congr (fieldSafe_iff hlastlogsize hint hb.lastlogsize) <|
    and_congr (fieldSafe_iff htimestamp hint hb.timestamp) <|
    and_congr (fieldSafe_iff hsource hint hb.source) (fieldSafe_iff hseverity hint hb.severity)

/-- A short message, with destinations of two bytes. -/
theorem comms_parse_response_key :
    StaysInBuffers (bytes "<key>QQ==</key>") ⟨[0, 0], [0, 0], [0, 0], [0, 0], [0, 0], [0, 0], [0, 0]⟩ := by
  refine (comms_parse_response_iff (by decide) ⟨by decide, by decide, by decide, by decide, by decide, by decide,
    by decide⟩).mpr fun tag _ data helement => ?_
  obtain ⟨front, behind, hxml, -⟩ := helement
  have hlen := congrArg List.length hxml
  have hxmlLen : (bytes "<key>QQ==</key>").length = 15 := by decide
  have hcount := List.countP_le_length (p := isBase64) (l := data)
  simp only [List.length_append] at hlen
  rw [maxB64Size]
  omega

/-- A tag begins only where its second character stands. -/
theorem noneBefore_of_not_mem {c d : UInt8} {front : List UInt8} (h : d ∉ front ++ [c]) (sub behind : List UInt8) :
    NoneBefore (c :: d :: sub) (front ++ (c :: d :: sub) ++ behind) front.length := by
  intro front' behind' hs
  by_contra hlt
  have hsecond : (front' ++ (c :: d :: sub) ++ behind')[front'.length + 1]? = some d := by
    rw [List.append_assoc, List.getElem?_append_right (by omega), Nat.add_sub_cancel_left]
    rfl
  have hsplit : front ++ (c :: d :: sub) ++ behind = (front ++ [c]) ++ (d :: sub ++ behind) := by simp
  rw [← hs, hsplit, List.getElem?_append_left (by rw [List.length_append, List.length_singleton]; omega)] at hsecond
  exact h (List.mem_of_getElem? hsecond)

/-- A host name of 65536 characters of base64. -/
def longHost : List UInt8 :=
  bytes "<host>" ++ List.replicate maxB64Size 65 ++ bytes "</host>"

theorem element_host {data : List UInt8} (h : slash ∉ data) :
    Element (bytes "<host>" ++ data ++ bytes "</host>") (bytes "host") data := by
  have hslash : slash ∉ bytes "<host>" ++ data ++ [less] := by
    simp only [List.mem_append, not_or]
    exact ⟨⟨by decide, h⟩, by decide⟩
  have hend := noneBefore_of_not_mem hslash (bytes "host>") []
  rw [List.append_nil] at hend
  exact ⟨[], [], by rw [List.nil_append, List.append_nil]; rfl, fun _ _ _ => Nat.zero_le _, hend⟩

theorem StaysInBuffers.host {b : CommsFields (List UInt8)} (h : StaysInBuffers xml b) :
    FieldSafe xml (bytes "host") b.host (parseField xml (bytes "host") b.host) := h.1

/-- It does not fit `str_clean`. -/
theorem not_comms_parse_response :
    ¬∀ (xml : List UInt8) (b : CommsFields (List UInt8)), xml.length < 2 ^ 31 → b.Room → StaysInBuffers xml b := by
  intro h
  have hlen : longHost.length = maxB64Size + 13 := by
    rw [longHost, List.length_append, List.length_append, List.length_replicate]
    have hstart : (bytes "<host>").length = 6 := by decide
    have hend : (bytes "</host>").length = 7 := by decide
    omega
  have hint : longHost.length < 2 ^ 31 := by
    rw [hlen, maxB64Size]
    decide
  have hsafe := h longHost ⟨[0, 0], [0, 0], [0, 0], [0, 0], [0, 0], [0, 0], [0, 0]⟩ hint
    ⟨by decide, by decide, by decide, by decide, by decide, by decide, by decide⟩
  have hslash : slash ∉ List.replicate maxB64Size 65 := fun hmem =>
    absurd (List.eq_of_mem_replicate hmem) (by decide)
  have hcount := (fieldSafe_iff (by decide) hint (by decide)).mp hsafe.host _ (element_host hslash)
  rw [List.countP_replicate, if_pos (by decide)] at hcount
  exact lt_irrefl _ hcount

end Zabbix
