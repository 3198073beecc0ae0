import Zabbix.Proxyconfig.Document
import Zabbix.Proxyconfig.Receive

/-!
# Zabbix.Proxyconfig.Values

What a proxy reads of a row.

A value is decoded into a buffer of `MAX_STRING_LEN`, which cuts it, and a NULL
ends the row.
-/

namespace Zabbix

open Ascii Printf Nesting

/-! ## values -/

/-- What is decoded of a value. -/
def readValue : Option CString × ZbxJsonType → Option (List UInt8)
  | (none, _) => none
  | (some s, .int) => some s.val
  | (some s, _) => some ((decoded s.val).take (maxStringLen - 1))

/-- The values that are read of a row. -/
def readValues : List (Option CString × ZbxJsonType) → List (List UInt8)
  | [] => []
  | v :: values =>
      match readValue v with
      | none => []
      | some buf => buf :: readValues values

/-- A value as it is sent; integers fit the buffers. -/
structure Sendable (v : Option CString × ZbxJsonType) : Prop where
  legal : LegalValue v.1 v.2
  fits : v.2 = .int → ∀ s, v.1 = some s → s.val.length < maxStringLen

/-- What is decoded of a value, in front of what is no part of it. -/
theorem zbxJsonDecodevalue_readValue {v : Option CString × ZbxJsonType} (h : Sendable v) {c : UInt8}
    (hc : (c < 48 ∨ 57 < c) ∧ c ≠ minus) (t : Ptr) :
    (zbxJsonDecodevalue (jsonInsstring v.1 v.2 ++ c :: t) maxStringLen).map Prod.fst =
      match readValue v with
      | none => .null
      | some buf => .found buf := by
  obtain ⟨string, type⟩ := v
  obtain ⟨hlegal, hfits⟩ := h
  cases string with
  | none =>
      dsimp only
      rw [jsonInsstring_none]
      rfl
  | some s =>
      rcases hlegal with rfl | ⟨rfl, hint⟩
      · obtain ⟨q, hq⟩ := decodestringLoop_take s.val (maxStringLen - 1) (c :: t)
        have hroom : roomOf maxStringLen = maxStringLen - 1 := rfl
        dsimp only
        rw [zbxJsonDecodevalue_string, hroom, hq]
        rfl
      · have hbyte : ∀ d ∈ s.val, 48 ≤ d ∧ d ≤ 57 ∨ d = minus := by
          intro d hd
          refine (mem_isInt hint hd).imp_left fun hdigit => ?_
          simpa [JsonText.isDigit] using hdigit
        have hloop := decodeintLoop_isInt hbyte (le_roomOf (hfits rfl s rfl)) hc t
        have htype : zbxJsonType (s.val ++ c :: t) = .int := by
          cases hs : s.val with
          | nil =>
              rw [hs] at hint
              cases hint
          | cons d s' =>
              have hd := hbyte d (hs ▸ List.mem_cons_self ..)
              have hquote : d ≠ dquote := by
                rintro rfl
                revert hd
                decide
              rw [zbxJsonType, List.cons_append, List.headD_cons, if_neg hquote, if_pos hd]
        dsimp only
        rw [jsonInsstring_int hint, zbxJsonDecodevalue, htype]
        dsimp only
        rw [hloop]
        rfl

/-! ## the values of a row -/

theorem items_valueMembers (values : List (Option CString × ZbxJsonType)) :
    (valueMembers values).items = values.map fun v => (none, jsonInsstring v.1 v.2) := by
  induction values with
  | nil => rfl
  | cons v values ih => exact congrArg _ ih

/-- The pointers of `zbx_json_next_value`, and what it reads: up to the first NULL. -/
theorem enumerates_nextValue {ms : Members} (h : ms.Valid false) (tail : List UInt8)
    (values : List (Option CString × ZbxJsonType)) (hvalues : ∀ v ∈ values, Sendable v)
    (hne : values ≠ [] → ms.items ≠ []) {p : Option Ptr}
    (hp : zbxJsonNext (nodeRange false ms tail) p =
      firstMember (entries (closeBracket false :: tail) (valueMembers values).items)) :
    ∃ bs : List (List UInt8 × Ptr), bs.map Prod.fst = readValues values ∧
      Enumerates (zbxJsonNextValue (nodeRange false ms tail) · maxStringLen) Prod.snd p bs := by
  induction values generalizing p with
  | nil =>
      refine ⟨[], rfl, ?_⟩
      change zbxJsonNextValue _ p maxStringLen = .null
      rw [zbxJsonNextValue, hp]
      rfl
  | cons v values ih =>
      rw [List.forall_mem_cons] at hvalues
      obtain ⟨c, t, hrest, hc⟩ : ∃ c t, followText (valueMembers values).items ++ closeBracket false :: tail = c :: t ∧
          (c < 48 ∨ 57 < c) ∧ c ≠ minus := by
        cases values with
        | nil => exact ⟨_, _, rfl, by decide⟩
        | cons v' values => exact ⟨_, _, rfl, by decide⟩
      have hread := zbxJsonDecodevalue_readValue hvalues.1 hc t
      rw [← hrest] at hread
      have hnext : zbxJsonNextValue (nodeRange false ms tail) p maxStringLen =
          (zbxJsonDecodevalue (jsonInsstring v.1 v.2 ++
            (followText (valueMembers values).items ++ closeBracket false :: tail)) maxStringLen).map fun r =>
              (r.1, jsonInsstring v.1 v.2 ++
                (followText (valueMembers values).items ++ closeBracket false :: tail)) := by
        rw [zbxJsonNextValue, hp]
        rfl
      rw [readValues]
      cases hv : readValue v with
      | none =>
          rw [hv] at hread
          refine ⟨[], rfl, ?_⟩
          change zbxJsonNextValue _ p maxStringLen = .null
          rw [hnext]
          revert hread
          cases zbxJsonDecodevalue _ maxStringLen <;> simp
      | some buf =>
          rw [hv] at hread
          obtain ⟨r, hr, rfl⟩ := Scan.map_eq_found hread
          have hmember := @zbxJsonNext_some false false ms h tail _ (walk_jsonInsstring true 0 hvalues.1.legal)
            (valueMembers values).items (hne (by simp))
          obtain ⟨bs, hbs, henum⟩ := ih hvalues.2 (fun _ => hne (by simp)) hmember
          refine ⟨(r.1, jsonInsstring v.1 v.2 ++ _) :: bs, congrArg (List.cons r.1) hbs, ?_, henum⟩
          dsimp only
          rw [hnext, hr, Scan.map_found]

/-! ## statements -/

/-- A field in a statement, by what has been read for it. -/
def statementValue (b : Backend) (f : ZbxField) (buf : List UInt8) : CString × SqlValue :=
  (f.name, sqlValue b f.type (cstr buf))

/-- The fields of a row in its statement; there is none with a NULL. -/
def sentValues (b : Backend) (fields : List ZbxField) (row : DbRow) : Option (List (CString × SqlValue)) :=
  fields.mapM fun f => (readValue (row.column f.name, proxyconfigType f.type)).map (statementValue b f)

/-- The body of the loop over the values of a row. -/
theorem foldlM_statementValue (b : Backend) (first : ZbxField) (read rest : List ZbxField)
    (values : List (CString × SqlValue)) (hvalues : values.length = read.length) (bufs : List (List UInt8))
    (hbufs : bufs.length ≤ rest.length) :
    bufs.foldlM (fun values buf => ((first :: (read ++ rest))[values.length + 1]?).map fun field =>
      values ++ [(field.name, sqlValue b field.type (cstr buf))]) values =
        some (values ++ List.zipWith (statementValue b) rest bufs) := by
  induction bufs generalizing read rest values with
  | nil => simp
  | cons buf bufs ih =>
      cases rest with
      | nil => exact absurd hbufs (by simp)
      | cons field rest =>
          have hget : (first :: (read ++ field :: rest))[values.length + 1]? = some field := by
            rw [List.getElem?_cons_succ, hvalues, List.getElem?_append_right le_rfl, Nat.sub_self]
            rfl
          have hstep := ih (read ++ [field]) rest (values ++ [statementValue b field buf]) (by simp [hvalues])
            (Nat.le_of_succ_le_succ hbufs)
          simp only [List.append_assoc, List.singleton_append] at hstep
          rw [List.foldlM_cons, hget]
          exact hstep

/-- The values that are read, and the fields that they are read for. -/
theorem sentValues_eq (b : Backend) (fields : List ZbxField) (row : DbRow) :
    let bufs := readValues (fields.map fun f => (row.column f.name, proxyconfigType f.type))
    bufs.length ≤ fields.length ∧ sentValues b fields row =
      if bufs.length = fields.length then some (List.zipWith (statementValue b) fields bufs) else none := by
  induction fields with
  | nil => exact ⟨le_rfl, rfl⟩
  | cons f fields ih =>
      obtain ⟨hle, heq⟩ := ih
      rw [sentValues] at heq
      rw [List.map_cons, readValues, sentValues, List.mapM_cons, heq]
      cases readValue (row.column f.name, proxyconfigType f.type) with
      | none => exact ⟨Nat.zero_le _, rfl⟩
      | some buf =>
          refine ⟨Nat.succ_le_succ hle, ?_⟩
          rw [List.length_cons, List.length_cons]
          simp only [Nat.succ.injEq]
          split
          · rfl
          · rfl

theorem sendable_rowValues {table : ZbxTable} {row : DbRow} (h : row.Typed table) :
    ∀ v ∈ rowValues table row, Sendable v := by
  have hlegal := legalValue_rowValues h
  rw [rowValues, List.forall_mem_cons, List.forall_mem_map] at hlegal ⊢
  refine ⟨⟨hlegal.1, ?_⟩, fun f hf => ⟨hlegal.2 f hf, ?_⟩⟩
  · rintro - s hs
    obtain rfl := Option.some.inj hs
    have hlen : (dec row.recid).length ≤ 19 := length_dec_le (by decide) (lt_trans h.1 (by decide))
    exact lt_of_le_of_lt hlen (by decide)
  · intro htype v hv
    have hnumber : f.type.isNumber = true := by
      revert htype
      cases f.type <;> simp [proxyconfigType, ZbxFieldType.isNumber]
    exact lt_of_le_of_lt (h.2 f hf hnumber v hv).length (by decide)

/-- **The statement for a row**; there is none for a row with a NULL. -/
theorem proxyconfigStatement_row {table : ZbxTable} {row : DbRow} (h : row.Typed table) (b : Backend)
    (first : ZbxField) (old : List ℕ) (tail : Ptr) :
    proxyconfigStatement b (first :: table.proxied) old
        (Members.nodeText false (valueMembers (rowValues table row)) ++ tail) =
      (sentValues b table.proxied row).map fun values =>
        { insert := !uint64ArrayExists old row.recid, recid := row.recid, values := values } := by
  have hvalid := valid_valueMembers (legalValue_rowValues h)
  obtain ⟨bs, hbs, henum⟩ := enumerates_nextValue hvalid tail (rowValues table row) (sendable_rowValues h)
    (fun _ => by simp [rowValues, items_valueMembers]) (zbxJsonNext_none hvalid tail)
  obtain ⟨hle, hsent⟩ := sentValues_eq b table.proxied row
  have hread : readValues (rowValues table row) = dec row.recid ::
      readValues (table.proxied.map fun f => (row.column f.name, proxyconfigType f.type)) := rfl
  rw [hread] at hbs
  generalize readValues (table.proxied.map fun f => (row.column f.name, proxyconfigType f.type)) = bufs at hbs hle hsent
  obtain ⟨⟨buf, pf⟩, rest, rfl, rfl, hrest⟩ := List.map_eq_cons_iff.mp hbs
  subst hrest
  obtain ⟨hfirst, henum⟩ := henum
  dsimp only at hfirst hle hsent
  have hvalues : proxyconfigValues b (first :: table.proxied) (nodeRange false (valueMembers (rowValues table row)) tail)
      pf = some (List.zipWith (statementValue b) table.proxied (rest.map Prod.fst)) := by
    have hfold := foldlM_statementValue b first [] table.proxied [] rfl (rest.map Prod.fst) hle
    rw [List.foldlM_map] at hfold
    rw [proxyconfigValues, jsonEachValue_enumerates henum]
    exact hfold
  have hrecid : zbxAtoui64 (cstr (dec row.recid)) = row.recid := by
    have hcstr : cstr (dec row.recid) = dec row.recid := cstr_of_not_mem (recidText row.recid).property
    rw [hcstr, zbxAtoui64_dec h.1]
  have hlength : (List.zipWith (statementValue b) table.proxied (rest.map Prod.fst)).length + 1 =
      (first :: table.proxied).length ↔ (rest.map Prod.fst).length = table.proxied.length := by
    rw [List.length_zipWith, List.length_cons]
    omega
  rw [proxyconfigStatement, zbxJsonBracketsOpen_nodeText hvalid]
  dsimp only
  rw [hfirst]
  dsimp only
  rw [hvalues, hsent, hrecid]
  dsimp only
  simp only [hlength]
  split <;> rfl

/-! ## what arrives -/

/-- What a column holds of a value that was sent. -/
def receivedValue (type : ZbxFieldType) (v : CString) : CString :=
  if type.isNumber then v else bufferString (kept (cstr ((decoded v.val).take (maxStringLen - 1))))

/-- A value that is cut, and changed, nowhere. -/
def Intact (v : CString) : Prop := v.val.length < maxStringLen ∧ ∀ c ∈ v.val, jsonClean c = true ∧ c ≠ cr

instance (v : CString) : Decidable (Intact v) := inferInstanceAs (Decidable (_ ∧ ∀ c ∈ v.val, _))

theorem bufferString_val {s : List UInt8} (h : (0 : UInt8) ∉ s) : (bufferString s).val = s := cstr_of_not_mem h

theorem not_mem_kept {s : List UInt8} (h : (0 : UInt8) ∉ s) : (0 : UInt8) ∉ kept s :=
  fun hmem => h (List.mem_of_mem_filter hmem)

/-- A string that is left as it was is clean: another byte is read as one that differs
from it and stays. -/
theorem clean_of_kept_decoded {s : List UInt8} (h0 : (0 : UInt8) ∉ s) (hcr : cr ∉ s) {room : ℕ}
    (hlen : s.length ≤ room) (h : kept (cstr ((decoded s).take room)) = s) : ∀ c ∈ s, jsonClean c = true := by
  induction s generalizing room with
  | nil => exact fun c hc => nomatch hc
  | cons d s ih =>
      obtain ⟨room, rfl⟩ : ∃ r, room = r + 1 := ⟨room - 1, by rw [List.length_cons] at hlen; omega⟩
      rw [List.mem_cons, not_or] at h0 hcr
      change kept (cstr (((if jsonClean d then [d] else _) ++ decoded s).take (room + 1))) = d :: s at h
      cases hd : jsonClean d with
      | true =>
          rw [hd, if_pos rfl, List.singleton_append, List.take_succ_cons, cstr_cons, if_neg (Ne.symm h0.1),
            kept_cons (Ne.symm hcr.1)] at h
          exact List.forall_mem_cons.mpr
            ⟨hd, ih h0.2 hcr.2 (Nat.le_of_succ_le_succ hlen) (List.cons.inj h).2⟩
      | false =>
          have hlt := misread_lt hd
          rw [hd, if_neg (by decide), List.cons_append, List.take_succ_cons, cstr_cons] at h
          split at h
          · cases h
          · have hne : misread d ≠ cr := by
              rintro heq
              rw [heq] at hlt
              exact absurd hlt (by decide)
            rw [kept_cons hne] at h
            exact absurd (List.cons.inj h).1 (misread_ne hd (Ne.symm h0.1))

/-- What is left of a string is the string just when nothing of it has been changed. -/
theorem kept_decoded {s : List UInt8} (h0 : (0 : UInt8) ∉ s) {room : ℕ} :
    kept (cstr ((decoded s).take room)) = s ↔ s.length ≤ room ∧ ∀ c ∈ s, jsonClean c = true ∧ c ≠ cr := by
  constructor
  · intro h
    have hlen : s.length ≤ room := by
      rw [← h]
      exact (length_kept_le _).trans ((length_cstr_le _).trans (List.length_take_le ..))
    have hcr : ∀ c ∈ s, c ≠ cr := by
      intro c hc
      rw [← h] at hc
      simpa using (List.mem_filter.mp hc).2
    have hclean := clean_of_kept_decoded h0 (fun hmem => hcr cr hmem rfl) hlen h
    exact ⟨hlen, fun c hc => ⟨hclean c hc, hcr c hc⟩⟩
  · rintro ⟨hlen, hclean⟩
    rw [decoded_of_clean fun c hc => (hclean c hc).1, List.take_of_length_le hlen, cstr_of_not_mem h0,
      kept_of_not_mem fun hcr => (hclean _ hcr).2 rfl]

/-- **A string arrives as it is** just when it is intact. -/
theorem receivedValue_eq_iff {type : ZbxFieldType} (h : type.isNumber = false) (v : CString) :
    receivedValue type v = v ↔ Intact v := by
  have hval : (receivedValue type v).val = kept (cstr ((decoded v.val).take (maxStringLen - 1))) := by
    rw [receivedValue, h, if_neg (by decide), bufferString_val (not_mem_kept (not_mem_cstr _))]
  have hintact : kept (cstr ((decoded v.val).take (maxStringLen - 1))) = v.val ↔ Intact v := by
    rw [kept_decoded v.property, Intact, Nat.lt_iff_le_pred (by decide)]
  rw [← hintact, ← hval]
  exact ⟨congrArg Subtype.val, Subtype.ext⟩

/-- A number is decoded as it is. -/
theorem readValue_number {type : ZbxFieldType} (htype : type.isNumber = true) {v : CString}
    (h : IsNumber type v.val) : readValue (some v, proxyconfigType type) = some v.val := by
  have hclean : ∀ c ∈ v.val, jsonClean c = true := by
    have hbyte : ∀ c : UInt8, isNumberByte c = true → jsonClean c = true := forall_byte (by decide +kernel)
    exact fun c hc => hbyte c (h.byte c hc)
  have htake : (decoded v.val).take (maxStringLen - 1) = v.val := by
    rw [decoded_of_clean hclean, List.take_of_length_le (h.length.trans (by decide))]
  cases type with
  | int | uint | id => rfl
  | float => exact congrArg some htake
  | char | blob | text => cases htype

/-- **The value of a statement is read** by the database. -/
theorem read_statementValue (db : ProxyDb) {f : ZbxField} {v : CString}
    (hnumber : f.type.isNumber = true → IsNumber f.type v.val) {buf : List UInt8}
    (hbuf : readValue (some v, proxyconfigType f.type) = some buf) :
    db.read (statementValue db.backend f buf).2 = some (receivedValue f.type v) := by
  rw [statementValue, sqlValue, receivedValue]
  dsimp only
  cases htype : f.type.isNumber with
  | true =>
      have hn := hnumber htype
      have hread : buf = v.val := by
        rw [readValue_number htype hn] at hbuf
        exact (Option.some.inj hbuf).symm
      have hcstr : cstr buf = v.val := by rw [hread, cstr_of_not_mem v.property]
      rw [if_pos rfl, if_pos rfl, hcstr, if_pos (lt_of_le_of_lt hn.length (by decide)), ProxyDb.read]
      exact congrArg some (Subtype.ext (bufferString_val v.property))
  | false =>
      have hread : buf = (decoded v.val).take (maxStringLen - 1) := by
        revert htype hbuf
        cases f.type <;> simp [proxyconfigType, ZbxFieldType.isNumber, readValue, eq_comm]
      have hbody := literalBody_flatMap db.backend db.rule (kept (cstr buf)) [] (by simp)
      rw [if_neg (by decide), if_neg (by decide), ProxyDb.read, dbDynEscapeString_eq, hbody, hread]
      rfl

end Zabbix
