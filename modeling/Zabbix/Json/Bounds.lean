import Zabbix.Json.Scanner

/-!
# Zabbix.Json.Bounds

How far the parser reads, on any buffer.

Only two scans can pass the terminating NUL: that for a closing bracket, when
the text ends with a backslash inside a string, and that of a string, when the
text ends inside an escape sequence that is still to be decoded.
-/

namespace Zabbix

open Ascii Nesting

/-! ## brackets -/

/-- From a state on, the text is passed over up to a backslash at its end, which
is inside a string. -/
def EndsInEscape (state : Bool) (depth : ℕ) (p : Ptr) : Prop :=
  ∃ body depth', p = body ++ [backslash] ∧ walk jsonKind false state depth body = some (true, depth')

theorem EndsInEscape.cons {state state' : Bool} {depth depth' : ℕ} {c : UInt8} {p : Ptr}
    (h : EndsInEscape state' depth' p)
    (hc : ∀ s, walk jsonKind false state depth (c :: s) = walk jsonKind false state' depth' s) :
    EndsInEscape state depth (c :: p) := by
  obtain ⟨body, last, rfl, hwalk⟩ := h
  exact ⟨c :: body, last, rfl, (hc body).trans hwalk⟩

theorem jsonKind_opening {c : UInt8} (h : c = lbracket ∨ c = lbrace) : jsonKind c = .opening := by
  rcases h with rfl | rfl <;> rfl

theorem jsonKind_closing {c : UInt8} (h : c = rbracket ∨ c = rbrace) : jsonKind c = .closing := by
  rcases h with rfl | rfl <;> rfl

/-- `__zbx_json_rbracket` reads behind the NUL only at such a backslash. -/
theorem endsInEscape_of_overrun {right : UInt8} {level : ℤ} {state : Bool} {p : Ptr}
    (h : rbracketLoop right level state p = .overrun) {depth : ℕ} (hlevel : level = depth + 1) :
    EndsInEscape state depth p := by
  fun_induction rbracketLoop right level state p generalizing depth with
  | case1 => cases h
  | case2 level state p ih => exact (ih h hlevel).cons fun s => walk_cons_of_quote rfl s
  | case3 => exact ⟨[], depth, rfl, rfl⟩
  | case4 level d p hq ih =>
      obtain ⟨body, last, rfl, hwalk⟩ := ih h hlevel
      exact ⟨backslash :: d :: body, last, rfl, (walk_cons_of_escape rfl d body).trans hwalk⟩
  | case5 level state p hs hq ih =>
      rw [Bool.not_eq_true] at hs
      subst hs
      exact (ih h hlevel).cons fun s => walk_cons_of_escape_outside rfl s
  | case6 level state c p hq he hc ih =>
      cases state with
      | false =>
          exact (ih h (by simpa using hlevel)).cons fun s => walk_cons_of_opening (jsonKind_opening hc) s
      | true =>
          exact (ih h hlevel).cons fun s => walk_cons_of_inString (by rw [jsonKind_opening hc]; decide)
            (by rw [jsonKind_opening hc]; decide) s
  | case7 level c p hq he ho hc ih =>
      exact (ih h hlevel).cons fun s => walk_cons_of_inString (by rw [jsonKind_closing hc]; decide)
        (by rw [jsonKind_closing hc]; decide) s
  | case8 => cases h
  | case9 => cases h
  | case10 level state c p hq he ho hc hs hne ih =>
      rw [Bool.not_eq_true] at hs
      subst hs
      obtain ⟨depth, rfl⟩ : ∃ d, depth = d + 1 := ⟨depth - 1, by omega⟩
      exact (ih h (by omega)).cons fun s => walk_cons_of_closing (jsonKind_closing hc) s
  | case11 level state c p hq he ho hc ih =>
      have hkind : jsonKind c = .separator ∨ jsonKind c = .other := by
        rw [jsonKind, if_neg hq, if_neg he, if_neg ho, if_neg hc]
        split <;> simp
      rcases hkind with hkind | hkind
      · exact (ih h hlevel).cons fun s => walk_cons_of_separator hkind s
      · exact (ih h hlevel).cons fun s => walk_cons_of_other hkind s

/-- And there it does. -/
theorem overrun_of_endsInEscape (right : UInt8) {depth : ℕ} {state : Bool} {p : Ptr}
    (h : EndsInEscape state depth p) : rbracketLoop right (depth + 1) state p = .overrun := by
  obtain ⟨body, depth', rfl, hwalk⟩ := h
  rw [rbracketLoop_walk hwalk, rbracketLoop_cons]
  rfl

/-- The text ends with a backslash inside a string, and the bracket that it
starts with is still open there. -/
def BracketCut (p : Ptr) : Prop :=
  ∃ c q, (c = lbracket ∨ c = lbrace) ∧ p = c :: q ∧ EndsInEscape false 0 q

theorem jsonRbracket_eq_overrun {p : Ptr} : jsonRbracket p = .overrun ↔ BracketCut p := by
  have hloop : ∀ (right c : UInt8) (q : Ptr), (c = lbracket ∨ c = lbrace) →
      (rbracketLoop right 0 false (c :: q) = .overrun ↔ EndsInEscape false 0 q) := by
    intro right c q hc
    rw [rbracketLoop_cons, jsonKind_opening hc]
    exact ⟨fun h => endsInEscape_of_overrun h rfl, fun h => overrun_of_endsInEscape right h⟩
  cases p with
  | nil =>
      constructor
      · intro h
        cases h
      · rintro ⟨c, q, -, h, -⟩
        cases h
  | cons c q =>
      have hiff : (c = lbracket ∨ c = lbrace) → (BracketCut (c :: q) ↔ EndsInEscape false 0 q) := by
        intro hc
        constructor
        · rintro ⟨c', q', -, heq, h⟩
          cases heq
          exact h
        · exact fun h => ⟨c, q, hc, rfl, h⟩
      rw [jsonRbracket, List.headD_cons]
      split
      · rename_i hc
        rw [hloop _ c q (.inr hc), hiff (.inr hc)]
      · split
        · rename_i hc
          rw [hloop _ c q (.inl hc), hiff (.inl hc)]
        · rename_i hbrace hbracket
          constructor
          · intro h
            cases h
          · rintro ⟨c', q', hc, heq, -⟩
            cases heq
            exact absurd hc (not_or.mpr ⟨hbracket, hbrace⟩)

/-! ## next -/

/-- `zbx_json_next` stays in front of the `end`. -/
theorem zbxJsonNext_ne_overrun (jp : ZbxJsonParse) (p : Option Ptr) : zbxJsonNext jp p ≠ .overrun := by
  have hloop : ∀ (stop level : ℕ) (state : Bool) (p : Ptr), nextLoop stop level state p ≠ .overrun := by
    intro stop level state p
    fun_induction nextLoop stop level state p <;> simp_all
  rw [zbxJsonNext.eq_def]
  split
  · simp
  · cases p with
    | none => simp
    | some p => exact hloop _ _ _ p

/-! ## strings -/

/-- Whole bytes and escape sequences of a string, and how many bytes they are
decoded to. -/
inductive Tokens : ℕ → List UInt8 → Prop
  | nil : Tokens 0 []
  | byte {n : ℕ} {c : UInt8} {s : List UInt8} (hc : c ≠ dquote ∧ c ≠ backslash) (h : Tokens n s) :
      Tokens (n + 1) (c :: s)
  | letter {n : ℕ} {c : UInt8} {s : List UInt8} (hc : (unescapeLetter c).isSome = true) (h : Tokens n s) :
      Tokens (n + 1) (backslash :: c :: s)
  | unicode {n : ℕ} {x y z : UInt8} {s : List UInt8} (h : Tokens n s) :
      Tokens (n + 1) (backslash :: 117 :: x :: y :: z :: s)
  | dropped {n : ℕ} {c : UInt8} {s : List UInt8} (hc : unescapeLetter c = none ∧ c ≠ 117)
      (h : Tokens n s) : Tokens n (backslash :: c :: s)

/-- An escape sequence without its last bytes: a backslash alone, or `\u` with
less than three bytes behind it. -/
def CutEscape (s : List UInt8) : Prop := s = [backslash] ∨ ∃ x, x.length < 3 ∧ s = backslash :: 117 :: x

/-- The text ends inside an escape sequence of a string, and there is room left
for what it stands for. -/
def EndsInSequence (room : ℕ) (p : Ptr) : Prop :=
  ∃ n body cut, p = body ++ cut ∧ Tokens n body ∧ n < room ∧ CutEscape cut

theorem overrun_of_endsInSequence {room : ℕ} {p : Ptr} (h : EndsInSequence room p) :
    decodestringLoop room p = .overrun := by
  obtain ⟨n, body, cut, rfl, htokens, hroom, hcut⟩ := h
  have hquote : backslash ≠ dquote := by decide
  have hnone : unescapeLetter 117 = none := by decide
  induction htokens generalizing room with
  | nil =>
      have hpos : room ≠ 0 := by omega
      rw [List.nil_append]
      rcases hcut with rfl | ⟨x, hx, rfl⟩
      · simp [decodestringLoop.eq_def room [_], hquote, hpos]
      · rw [decodestringLoop.eq_def]
        rcases x with _ | ⟨_, _ | ⟨_, _ | ⟨_, _⟩⟩⟩
        · simp [hquote, hpos, hnone]
        · simp [hquote, hpos, hnone]
        · simp [hquote, hpos, hnone]
        · simp only [List.length_cons] at hx
          omega
  | byte hc _ ih =>
      have hpos : room ≠ 0 := by omega
      rw [List.cons_append, decodestringLoop.eq_def]
      simp [hc, hpos, @ih (room - 1) (by omega)]
  | letter hc _ ih =>
      have hpos : room ≠ 0 := by omega
      obtain ⟨b, hb⟩ := Option.isSome_iff_exists.mp hc
      rw [List.cons_append, List.cons_append, decodestringLoop.eq_def]
      simp [hquote, hb, hpos, @ih (room - 1) (by omega)]
  | unicode _ ih =>
      have hpos : room ≠ 0 := by omega
      simp only [List.cons_append]
      rw [decodestringLoop.eq_def]
      simp [hquote, hnone, hpos, @ih (room - 1) (by omega)]
  | dropped hc _ ih =>
      have hpos : room ≠ 0 := by omega
      rw [List.cons_append, List.cons_append, decodestringLoop.eq_def]
      simp [hquote, hc, hpos, ih hroom]

theorem EndsInSequence.prepend {room room' k : ℕ} {s p : List UInt8} (h : EndsInSequence room' p)
    (hs : ∀ n body, Tokens n body → Tokens (n + k) (s ++ body)) (hroom : room' + k ≤ room) :
    EndsInSequence room (s ++ p) := by
  obtain ⟨n, body, cut, rfl, htokens, hlt, hcut⟩ := h
  exact ⟨n + k, s ++ body, cut, by simp, hs n body htokens, by omega, hcut⟩

theorem endsInSequence_of_overrun {room : ℕ} {p : Ptr} (h : decodestringLoop room p = .overrun) :
    EndsInSequence room p := by
  induction room, p using decodestringLoop_induction with
  | nil room hloop =>
      rw [hloop] at h
      cases h
  | quote room p hloop =>
      rw [hloop] at h
      cases h
  | full c p hloop ih =>
      obtain ⟨n, body, cut, -, -, hlt, -⟩ := ih (hloop ▸ h)
      omega
  | cut room hroom => exact ⟨0, [], [backslash], rfl, .nil, by omega, .inl rfl⟩
  | letter room c b p hroom hb hloop ih =>
      rw [hloop, put_eq_overrun] at h
      refine EndsInSequence.prepend (s := [backslash, c]) (ih h) ?_ (by omega : room - 1 + 1 ≤ room)
      exact fun n body hbody => .letter (by rw [hb]; rfl) hbody
  | unicode room x y z p hroom hloop ih =>
      rw [hloop, put_eq_overrun] at h
      refine EndsInSequence.prepend (s := [backslash, 117, x, y, z]) (ih h) ?_ (by omega : room - 1 + 1 ≤ room)
      exact fun n body hbody => .unicode hbody
  | cutUnicode room p hroom hshort =>
      exact ⟨0, [], backslash :: 117 :: p, rfl, .nil, by omega, .inr ⟨p, hshort, rfl⟩⟩
  | dropped room c p hb hu hloop ih =>
      refine EndsInSequence.prepend (s := [backslash, c]) (ih (hloop ▸ h)) ?_ (by omega : room + 0 ≤ room)
      exact fun n body hbody => .dropped ⟨hb, hu⟩ hbody
  | byte room c p hroom hq he hloop ih =>
      rw [hloop, put_eq_overrun] at h
      refine EndsInSequence.prepend (s := [c]) (ih h) ?_ (by omega : room - 1 + 1 ≤ room)
      exact fun n body hbody => .byte ⟨hq, he⟩ hbody

/-- `zbx_json_decodestring` reads behind the NUL only in a sequence that is cut. -/
theorem decodestringLoop_eq_overrun {room : ℕ} {p : Ptr} :
    decodestringLoop room p = .overrun ↔ EndsInSequence room p :=
  ⟨endsInSequence_of_overrun, overrun_of_endsInSequence⟩

/-- The text ends inside an escape sequence of the string that is to be decoded. -/
def StringCut (p : Ptr) (len : ℕ) : Prop := ∃ q, p = dquote :: q ∧ EndsInSequence (roomOf len) q

theorem zbxJsonDecodestring_eq_overrun {p : Ptr} {len : ℕ} :
    zbxJsonDecodestring p len = .overrun ↔ StringCut p len := by
  rw [zbxJsonDecodestring.eq_def, StringCut]
  cases p with
  | nil => simp
  | cons c p =>
      dsimp only
      split
      · rename_i hc
        simp [hc, decodestringLoop_eq_overrun]
      · rename_i hc
        simp [hc]

theorem zbxJsonDecodevalue_eq_overrun {p : Ptr} {len : ℕ} :
    zbxJsonDecodevalue p len = .overrun ↔ StringCut p len := by
  have hint : ∀ (room : ℕ) (p : Ptr), decodeintLoop room p ≠ .overrun := by
    intro room p
    fun_induction decodeintLoop room p <;> simp_all
  have htype : StringCut p len → zbxJsonType p = .string := by
    rintro ⟨q, rfl, -⟩
    rfl
  rw [zbxJsonDecodevalue.eq_def]
  split
  · exact zbxJsonDecodestring_eq_overrun
  · rename_i hp
    exact iff_of_false (hint _ _) fun hcut => by simp [htype hcut] at hp
  all_goals
    rename_i hp
    exact iff_of_false (by simp) fun hcut => by simp [htype hcut] at hp

/-! ## pairs -/

/-- The text ends inside an escape sequence of the next name. -/
def PairCut (jp : ZbxJsonParse) (p : Option Ptr) (len : ℕ) : Prop :=
  ∃ q, zbxJsonNext jp p = .found q ∧ StringCut q len

theorem zbxJsonPairNext_eq_overrun {jp : ZbxJsonParse} {p : Option Ptr} {len : ℕ} :
    zbxJsonPairNext jp p len = .overrun ↔ PairCut jp p len := by
  rw [zbxJsonPairNext, Scan.bind_eq_overrun, PairCut]
  simp only [zbxJsonNext_ne_overrun, false_or]
  refine exists_congr fun q => and_congr_right fun _ => ?_
  rw [← zbxJsonDecodestring_eq_overrun]
  split
  · rw [Scan.bind_eq_overrun]
    refine or_iff_left ?_
    rintro ⟨r, -, hr⟩
    split at hr <;> cases hr
  · rename_i htype
    refine iff_of_false (by simp) fun hover => htype ?_
    obtain ⟨r, rfl, -⟩ := zbxJsonDecodestring_eq_overrun.mp hover
    rfl

/-- The pointers from which `zbx_json_pair_by_name` goes to the next pair. -/
inductive Passes (jp : ZbxJsonParse) (name : List UInt8) (p : Option Ptr) : Option Ptr → Prop
  | start : Passes jp name p p
  | next {q : Option Ptr} {r : List UInt8 × Ptr} (h : Passes jp name p q)
      (hr : zbxJsonPairNext jp q maxStringLen = .found r) (hne : cstr r.1 ≠ name) :
      Passes jp name p (some r.2)

/-- A name is cut that `zbx_json_pair_by_name` comes to. -/
def LookupCut (jp : ZbxJsonParse) (name : List UInt8) (p : Option Ptr) : Prop :=
  ∃ q, Passes jp name p q ∧ PairCut jp q maxStringLen

theorem Passes.cons {jp : ZbxJsonParse} {name : List UInt8} {p q : Option Ptr} {r : List UInt8 × Ptr}
    (hr : zbxJsonPairNext jp p maxStringLen = .found r) (hne : cstr r.1 ≠ name)
    (h : Passes jp name (some r.2) q) : Passes jp name p q := by
  induction h with
  | start => exact .next .start hr hne
  | next _ hr' hne' ih => exact .next ih hr' hne'

theorem Passes.cases_head {jp : ZbxJsonParse} {name : List UInt8} {p q : Option Ptr}
    (h : Passes jp name p q) :
    q = p ∨ ∃ r, zbxJsonPairNext jp p maxStringLen = .found r ∧ cstr r.1 ≠ name ∧
      Passes jp name (some r.2) q := by
  induction h with
  | start => exact .inl rfl
  | next _ hr hne ih =>
      rcases ih with rfl | ⟨r', hr', hne', h'⟩
      · exact .inr ⟨_, hr, hne, .start⟩
      · exact .inr ⟨r', hr', hne', .next h' hr hne⟩

theorem pairByNameLoop_eq_overrun {jp : ZbxJsonParse} {name : List UInt8} {p : Option Ptr} :
    pairByNameLoop jp name p = .overrun ↔ LookupCut jp name p := by
  fun_induction pairByNameLoop jp name p with
  | case1 p r hr heq =>
      refine iff_of_false (by simp) ?_
      rintro ⟨q, hpass, hcut⟩
      rcases hpass.cases_head with rfl | ⟨r', hr', hne, -⟩
      · rw [zbxJsonPairNext_eq_overrun.mpr hcut] at hr
        cases hr
      · rw [hr] at hr'
        obtain rfl := Scan.found.inj hr'
        exact hne heq
  | case2 p r hr hne ih =>
      rw [ih]
      constructor
      · rintro ⟨q, hpass, hcut⟩
        exact ⟨q, hpass.cons hr hne, hcut⟩
      · rintro ⟨q, hpass, hcut⟩
        rcases hpass.cases_head with rfl | ⟨r', hr', -, h'⟩
        · rw [zbxJsonPairNext_eq_overrun.mpr hcut] at hr
          cases hr
        · rw [hr] at hr'
          obtain rfl := Scan.found.inj hr'
          exact ⟨q, h', hcut⟩
  | case3 p hr =>
      refine iff_of_false (by simp) ?_
      rintro ⟨q, hpass, hcut⟩
      rcases hpass.cases_head with rfl | ⟨r', hr', -⟩
      · rw [zbxJsonPairNext_eq_overrun.mpr hcut] at hr
        cases hr
      · rw [hr] at hr'
        cases hr'
  | case4 p hr => exact iff_of_true rfl ⟨p, .start, zbxJsonPairNext_eq_overrun.mp hr⟩

/-- A name is cut that `zbx_json_value_by_name` comes to, or the value of the
name. -/
def ValueCut (jp : ZbxJsonParse) (name : List UInt8) (len : ℕ) : Prop :=
  LookupCut jp name none ∨ ∃ p, zbxJsonPairByName jp name = .found p ∧ StringCut p len

theorem zbxJsonValueByName_eq_overrun {jp : ZbxJsonParse} {name : List UInt8} {len : ℕ} :
    zbxJsonValueByName jp name len = .overrun ↔ ValueCut jp name len := by
  rw [zbxJsonValueByName, Scan.bind_eq_overrun, ValueCut]
  refine or_congr pairByNameLoop_eq_overrun (exists_congr fun p => and_congr_right fun _ => ?_)
  rw [Scan.map_eq_overrun, zbxJsonDecodevalue_eq_overrun]

/-! ## sessions -/

/-- What a caller has of a text: the ranges and the pointers that calls gave it. -/
structure ParseState where
  ranges : List ZbxJsonParse
  pointers : List Ptr

/-- A call of the parser, with ranges and pointers by their number. -/
inductive ParseCall
  | next (range : ℕ) (p : Option ℕ)
  | pairNext (range : ℕ) (p : Option ℕ) (len : ℕ)
  | bracketsOpen (p : ℕ)
  | valueByName (range : ℕ) (name : List UInt8) (len : ℕ)
  | decodestring (p : ℕ) (len : ℕ)

namespace ParseState

/-- A pointer that may be null. -/
def pointer? (st : ParseState) : Option ℕ → Option (Option Ptr)
  | none => some none
  | some i => (st.pointers[i]?).map some

def addPointer (st : ParseState) (p : Ptr) : ParseState := { st with pointers := st.pointers ++ [p] }

def addRange (st : ParseState) (jp : ZbxJsonParse) : ParseState := { st with ranges := st.ranges ++ [jp] }

/-- A call, and what the caller has then; nothing happens when it has not got
the range or the pointer. -/
def call (st : ParseState) : ParseCall → Scan ParseState
  | .next range p =>
      match st.ranges[range]?, st.pointer? p with
      | some jp, some p => (zbxJsonNext jp p).map st.addPointer
      | _, _ => .null
  | .pairNext range p len =>
      match st.ranges[range]?, st.pointer? p with
      | some jp, some p => (zbxJsonPairNext jp p len).map fun r => st.addPointer r.2
      | _, _ => .null
  | .bracketsOpen p =>
      match st.pointers[p]? with
      | some p => (zbxJsonBracketsOpen p).map st.addRange
      | none => .null
  | .valueByName range name len =>
      match st.ranges[range]? with
      | some jp => (zbxJsonValueByName jp name len).map fun _ => st
      | none => .null
  | .decodestring p len =>
      match st.pointers[p]? with
      | some p => (zbxJsonDecodestring p len).map fun r => st.addPointer r.2
      | none => .null

/-- A call that comes to a place where the text is cut. -/
def Cut (st : ParseState) : ParseCall → Prop
  | .next .. => False
  | .pairNext range p len => ∃ jp q, st.ranges[range]? = some jp ∧ st.pointer? p = some q ∧ PairCut jp q len
  | .bracketsOpen p => ∃ q, st.pointers[p]? = some q ∧ BracketCut q
  | .valueByName range name len => ∃ jp, st.ranges[range]? = some jp ∧ ValueCut jp name len
  | .decodestring p len => ∃ q, st.pointers[p]? = some q ∧ StringCut q len

/-- A call reads behind the NUL just when the text is cut where it comes to. -/
theorem call_eq_overrun (st : ParseState) (c : ParseCall) : st.call c = .overrun ↔ st.Cut c := by
  cases c with
  | next range p =>
      rw [call, Cut]
      cases st.ranges[range]? <;> cases st.pointer? p <;> simp [zbxJsonNext_ne_overrun]
  | pairNext range p len =>
      rw [call, Cut]
      cases st.ranges[range]? <;> cases st.pointer? p <;> simp [zbxJsonPairNext_eq_overrun]
  | bracketsOpen p =>
      rw [call, Cut]
      cases st.pointers[p]? <;> simp [zbxJsonBracketsOpen, jsonRbracket_eq_overrun]
  | valueByName range name len =>
      rw [call, Cut]
      cases st.ranges[range]? <;> simp [zbxJsonValueByName_eq_overrun]
  | decodestring p len =>
      rw [call, Cut]
      cases st.pointers[p]? <;> simp [zbxJsonDecodestring_eq_overrun]

/-- No call of a sequence reads behind the NUL. -/
def Bounded (st : ParseState) : List ParseCall → Prop
  | [] => True
  | c :: cs =>
      match st.call c with
      | .found st' => Bounded st' cs
      | .null => Bounded st cs
      | .overrun => False

/-- No call of a sequence comes to a place where the text is cut. -/
def Uncut (st : ParseState) : List ParseCall → Prop
  | [] => True
  | c :: cs =>
      ¬st.Cut c ∧
        match st.call c with
        | .found st' => Uncut st' cs
        | .null => Uncut st cs
        | .overrun => True

theorem bounded_iff (st : ParseState) (cs : List ParseCall) : st.Bounded cs ↔ st.Uncut cs := by
  induction cs generalizing st with
  | nil => exact Iff.rfl
  | cons c cs ih =>
      rw [Bounded, Uncut, ← call_eq_overrun]
      cases hc : st.call c with
      | found st' => simp [ih]
      | null => simp [ih]
      | overrun => simp

end ParseState

/-- `zbx_json_open` on a buffer, and calls over what it opened: none of them
reads behind the terminating NUL. -/
def SessionBounded (buffer : List UInt8) (cs : List ParseCall) : Prop :=
  match zbxJsonOpen buffer with
  | .found jp => ParseState.Bounded { ranges := [jp], pointers := [] } cs
  | .null => True
  | .overrun => False

/-- The text without layout is not cut inside a string before its bracket is
closed, and the calls do not come to a string that is cut. -/
def SessionUncut (buffer : List UInt8) (cs : List ParseCall) : Prop :=
  ¬(buffer.headD nul = lbrace ∧ BracketCut (stripLayout buffer)) ∧
    ∀ jp, zbxJsonOpen buffer = .found jp → ParseState.Uncut { ranges := [jp], pointers := [] } cs

/-- **How far the parser reads**: on any buffer, `zbx_json_open` and any calls
over the ranges and pointers that result stay in front of the terminating NUL
just when none of them comes to a place where the text ends inside an escape
sequence. -/
theorem jsonSession_bounded_iff (buffer : List UInt8) (cs : List ParseCall) :
    SessionBounded buffer cs ↔ SessionUncut buffer cs := by
  have hopen : zbxJsonOpen buffer = .overrun ↔
      buffer.headD nul = lbrace ∧ BracketCut (stripLayout buffer) := by
    rw [zbxJsonOpen]
    split
    · rename_i hbrace
      rw [Scan.map_eq_overrun, jsonRbracket_eq_overrun]
      exact (and_iff_right hbrace).symm
    · rename_i hbrace
      exact iff_of_false (by simp) fun h => hbrace h.1
  rw [SessionBounded, SessionUncut, ← hopen]
  cases zbxJsonOpen buffer with
  | found jp => simp [ParseState.bounded_iff]
  | null => simp
  | overrun => simp

/-- The buffer of three bytes that ends with a backslash, and a name of two that
is read as an escape sequence of four. -/
theorem jsonSession_overruns :
    ¬SessionBounded [lbrace, dquote, backslash] [] ∧
      ¬SessionBounded [lbrace, dquote, backslash, 117, dquote, rbrace] [.pairNext 0 none 100] := by
  constructor
  · exact fun h => h
  · exact fun h => h

end Zabbix
