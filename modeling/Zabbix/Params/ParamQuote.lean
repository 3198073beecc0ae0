import Zabbix.Params.ParamList

/-!
# Zabbix.Params.ParamQuote

Lists of quoted parameters, and what `get_param` reads back from them.

Where `get_param` copies a parameter it honours `\"`, but where it passes over one it
does not, so that a quote in a parameter opens or closes a quotation there.  A
parameter comes back if the quotes and commas in front of it even out (`Aligned`).
-/

namespace Zabbix

open Ascii

/-- A text with a backslash in front of every quote. -/
def escapeQuotes (s : List UInt8) : List UInt8 :=
  s.flatMap fun c => if c = dquote then [backslash, dquote] else [c]

/-- A text as a quoted parameter. -/
def quoteParam (s : List UInt8) : List UInt8 := dquote :: escapeQuotes s ++ [dquote]

/-- The quoted parameters of a list, each with a comma behind it. -/
def quotedFront (ss : List CString) : List UInt8 := ss.flatMap fun s => quoteParam s.val ++ [comma]

/-- The quoted parameters of a list, each with a comma in front of it. -/
def quotedBack (ss : List CString) : List UInt8 := ss.flatMap fun s => comma :: quoteParam s.val

/-- The bytes of a list of quoted parameters. -/
def quotedBytes (ss : List CString) : List UInt8 := [comma].intercalate (ss.map fun s => quoteParam s.val)

/-- Quoting a text brings in no NUL. -/
theorem nul_not_mem_quoteParam (s : CString) : (0 : UInt8) ∉ quoteParam s.val := by
  have hs := s.property
  simp only [quoteParam, escapeQuotes, List.mem_append, List.mem_cons, List.mem_flatMap, not_or, not_exists]
  refine ⟨⟨by decide, ?_⟩, by decide, by simp⟩
  rintro c ⟨hc, hmem⟩
  split at hmem
  · revert hmem
    decide
  · simp only [List.mem_singleton] at hmem
    exact hs (hmem ▸ hc)

/-- A list of quoted parameters around one of them. -/
theorem quotedBytes_split (pre : List CString) (s : CString) (post : List CString) :
    quotedBytes (pre ++ s :: post) = quotedFront pre ++ (quoteParam s.val ++ quotedBack post) := by
  have hback : ∀ (s : CString) (post : List CString),
      quotedBytes (s :: post) = quoteParam s.val ++ quotedBack post := by
    intro s post
    induction post generalizing s with
    | nil => simp [quotedBytes, quotedBack]
    | cons t post ih =>
        have ht := ih t
        simp only [quotedBytes, quotedBack, List.map_cons, List.flatMap_cons] at ht ⊢
        rw [List.intercalate_cons_cons, ht]
        simp
  induction pre with
  | nil => simp [quotedFront, hback]
  | cons p pre ih =>
      obtain ⟨q, rest, hrest⟩ : ∃ q rest, pre ++ s :: post = q :: rest := by
        cases pre <;> simp
      simp only [List.cons_append, quotedFront, List.flatMap_cons] at ih ⊢
      rw [hrest] at ih ⊢
      simp only [quotedBytes, List.map_cons] at ih ⊢
      rw [List.intercalate_cons_cons, ih]
      simp

/-- The bytes of a list of quoted parameters have no NUL among them. -/
theorem nul_not_mem_quotedBytes (ss : List CString) : (0 : UInt8) ∉ quotedBytes ss := by
  cases ss with
  | nil => simp [quotedBytes]
  | cons s post =>
      rw [← List.nil_append (s :: post), quotedBytes_split]
      simp only [quotedFront, quotedBack, List.flatMap_nil, List.nil_append, List.mem_append, List.mem_flatMap,
        not_or, not_exists]
      refine ⟨nul_not_mem_quoteParam s, ?_⟩
      rintro t ⟨-, ht⟩
      rcases List.mem_cons.mp ht with h | h
      · exact absurd h (by decide)
      · exact nul_not_mem_quoteParam t h

/-- A list of texts as a list of quoted parameters. -/
def quotedList (ss : List CString) : CString := ⟨quotedBytes ss, nul_not_mem_quotedBytes ss⟩

/-- Given a buffer that is large enough, `get_param` returns the text `s` behind those of
`pre` from the list of `pre`, `s` and `post`. -/
def ParamReadsBack (pre : List CString) (s : CString) (post : List CString) : Prop :=
  ∀ maxlen, (quotedList (pre ++ s :: post)).val.length < maxlen →
    getParam (quotedList (pre ++ s :: post)) (pre.length + 1) maxlen = ⟨true, s.val⟩

/-- The commas with an even number of quotes in front of them. -/
def evenCommas : (quoted : Bool) → List UInt8 → ℕ
  | _, [] => 0
  | quoted, c :: s =>
      if c = dquote then evenCommas (!quoted) s
      else if c = comma ∧ quoted = false then evenCommas false s + 1
      else evenCommas quoted s

/-- In the quoted parameters of `pre`, each with its comma, the quotes are even in number,
and as many commas as there are parameters have an even number of quotes in front. -/
def Aligned (pre : List CString) : Prop :=
  Even ((quotedFront pre).count dquote) ∧ evenCommas false (quotedFront pre) = pre.length

instance (pre : List CString) : Decidable (Aligned pre) :=
  inferInstanceAs (Decidable (_ ∧ _))

/-! ## the copy of a quoted parameter -/

/-- No escaped text begins with a quote. -/
theorem head?_escapeQuotes_append {s t : List UInt8} (ht : s = [] → t.head? ≠ some dquote) :
    (escapeQuotes s ++ t).head? ≠ some dquote := by
  cases s with
  | nil => simpa [escapeQuotes] using ht rfl
  | cons c s =>
      by_cases hc : c = dquote
      · have hne : backslash ≠ dquote := by decide
        simp [escapeQuotes, hc, hne]
      · simp [escapeQuotes, hc]

/-- The copy of a byte in quotes that is neither a quote nor the backslash of one. -/
theorem paramText_quoted_cons {c : UInt8} {s : List UInt8} (hc : c ≠ dquote)
    (hs : c = backslash → s.head? ≠ some dquote) : paramText .quoted (c :: s) = c :: paramText .quoted s := by
  cases s with
  | nil => simp [paramText, hc]
  | cons d s =>
      have hesc : ¬(c = backslash ∧ d = dquote) := by
        rintro ⟨h, rfl⟩
        exact hs h rfl
      simp [paramText, hc, hesc]

/-- The copy of an escaped quote. -/
theorem paramText_quoted_escape (s : List UInt8) :
    paramText .quoted (backslash :: dquote :: s) = dquote :: paramText .quoted s := by
  have hne : backslash ≠ dquote := by decide
  simp [paramText, hne]

/-- The copy of an escaped text, if no backslash at its end escapes what follows. -/
theorem paramText_escapeQuotes {s t : List UInt8}
    (h : s.getLast? = some backslash → t.head? ≠ some dquote) :
    paramText .quoted (escapeQuotes s ++ t) = s ++ paramText .quoted t := by
  induction s with
  | nil => simp [escapeQuotes]
  | cons c s ih =>
      have htail : s.getLast? = some backslash → t.head? ≠ some dquote := by
        intro hs
        refine h ?_
        rw [List.getLast?_cons, hs]
        rfl
      by_cases hc : c = dquote
      · subst hc
        have hcopy := paramText_quoted_escape (escapeQuotes s ++ t)
        rw [ih htail] at hcopy
        simpa [escapeQuotes] using hcopy
      · have hhead : c = backslash → (escapeQuotes s ++ t).head? ≠ some dquote := by
          rintro rfl
          apply head?_escapeQuotes_append
          rintro rfl
          exact h rfl
        have hcopy := paramText_quoted_cons hc hhead
        rw [ih htail] at hcopy
        simpa [escapeQuotes, hc] using hcopy

/-- Nothing is copied in front of a comma. -/
theorem paramText_comma (s : List UInt8) : paramText .init (comma :: s) = [] := by
  cases s <;> simp [paramText]

/-- What follows a quoted parameter ends its copy. -/
theorem paramText_quotedBack (post : List CString) :
    paramText .quoted (dquote :: quotedBack post) = [] := by
  cases post with
  | nil => simp [quotedBack, paramText]
  | cons t post => simp [quotedBack, paramText, paramText_comma]

/-- The quote in front of a parameter is not copied. -/
theorem paramText_open (s t : List UInt8) :
    paramText .init (quoteParam s ++ t) = paramText .quoted (escapeQuotes s ++ dquote :: t) := by
  have hne : dquote ≠ comma := by decide
  cases htail : escapeQuotes s ++ dquote :: t with
  | nil => simp at htail
  | cons d rest => simp [quoteParam, htail, paramText, hne]

/-- The copy of a quoted parameter. -/
theorem paramText_quoteParam {s : CString} (hs : s.val.getLast? ≠ some backslash) (post : List CString) :
    paramText .init (quoteParam s.val ++ quotedBack post) = s.val := by
  rw [paramText_open, paramText_escapeQuotes (fun h => absurd h hs), paramText_quotedBack, List.append_nil]

/-- The backslash at the end of a text escapes the quote that should end the parameter. -/
theorem paramText_quoteParam_backslash {s : CString} (hs : s.val.getLast? = some backslash)
    (post : List CString) :
    paramText .init (quoteParam s.val ++ quotedBack post) ≠ s.val := by
  obtain ⟨u, hu⟩ := List.getLast?_eq_some_iff.mp hs
  have hne : backslash ≠ dquote := by decide
  have hescape : escapeQuotes (u ++ [backslash]) = escapeQuotes u ++ [backslash] := by
    simp [escapeQuotes, hne]
  rw [paramText_open, hu, hescape, List.append_assoc, List.singleton_append,
    paramText_escapeQuotes (by simp [hne]), paramText_quoted_escape]
  intro heq
  have hlast := List.append_cancel_left heq
  exact hne (List.cons.inj hlast).1.symm

/-! ## the parameters in front -/

/-- Whether a quotation is open behind a text. -/
def quotedAfter : (quoted : Bool) → List UInt8 → Bool
  | quoted, [] => quoted
  | quoted, c :: s => quotedAfter (if c = dquote then !quoted else quoted) s

/-- An even number of quotes leaves things as they are. -/
theorem quotedAfter_eq (quoted : Bool) (s : List UInt8) :
    quotedAfter quoted s = (quoted ^^ !decide (Even (s.count dquote))) := by
  induction s generalizing quoted with
  | nil => simp [quotedAfter]
  | cons c s ih =>
      rw [quotedAfter, ih]
      by_cases hc : c = dquote
      · by_cases hs : Even (s.count dquote) <;> simp [hc, hs, Nat.even_add_one]
      · simp [hc]

/-- The commas of two texts in turn. -/
theorem evenCommas_append (quoted : Bool) (s t : List UInt8) :
    evenCommas quoted (s ++ t) = evenCommas quoted s + evenCommas (quotedAfter quoted s) t := by
  fun_induction evenCommas quoted s <;> grind [evenCommas, quotedAfter]

/-- With too few commas in a text, the parameter begins behind it. -/
theorem paramRest_append_of_lt {n : ℕ} {quoted : Bool} {s : List UInt8} (h : evenCommas quoted s < n)
    (t : List UInt8) :
    paramRest n quoted (s ++ t) = paramRest (n - evenCommas quoted s) (quotedAfter quoted s) t := by
  induction s generalizing n quoted with
  | nil => simp [evenCommas, quotedAfter]
  | cons c s ih =>
      obtain ⟨n, rfl⟩ : ∃ m, n = m + 1 := ⟨n - 1, by omega⟩
      rw [List.cons_append, paramRest, quotedAfter]
      unfold evenCommas at h ⊢
      by_cases hd : c = dquote
      · simp only [hd, if_true] at h ⊢
        exact ih h
      by_cases hc : c = comma ∧ quoted = false
      · simp only [hd, if_pos hc, if_false] at h ⊢
        rw [hc.2, Nat.add_sub_add_right]
        exact ih (by omega)
      · simp only [hd, hc, if_false] at h ⊢
        exact ih h

/-- With enough commas in a text, the parameter begins in it. -/
theorem paramRest_append_of_le {n : ℕ} {quoted : Bool} {s : List UInt8} (h : n ≤ evenCommas quoted s) :
    ∃ rest, ∀ t, paramRest n quoted (s ++ t) = some (rest ++ t) := by
  induction s generalizing n quoted with
  | nil =>
      obtain rfl : n = 0 := by simpa [evenCommas] using h
      exact ⟨[], fun t => by simp [paramRest]⟩
  | cons c s ih =>
      cases n with
      | zero => exact ⟨c :: s, fun t => rfl⟩
      | succ n =>
          simp only [List.cons_append, paramRest]
          unfold evenCommas at h
          by_cases hd : c = dquote
          · simp only [hd, if_true] at h ⊢
            exact ih h
          by_cases hc : c = comma ∧ quoted = false
          · simp only [hd, if_false, if_pos hc] at h ⊢
            exact ih (by omega)
          · simp only [hd, hc, if_false] at h ⊢
            exact ih h

/-- Where a parameter begins in front of a comma, its copy ends there whatever follows, or
goes over the comma. -/
theorem paramText_over_comma (state : ParamState) (s : List UInt8) :
    (∀ t, paramText state (s ++ comma :: t) = paramText state s) ∨
      ∀ t, comma ∈ paramText state (s ++ comma :: t) := by
  have hdc : comma ≠ dquote := by decide
  have hbc : comma ≠ backslash := by decide
  have hsc : comma ≠ space := by decide
  have hquoted : ∀ t, paramText .quoted (comma :: t) = comma :: paramText .quoted t :=
    fun t => paramText_quoted_cons hdc (fun h => absurd h hbc)
  fun_induction paramText state s
  case case1 state =>
      cases state with
      | quoted => exact .inr fun t => by simp [hquoted]
      | init => exact .inl fun t => paramText_comma t
      | unquoted => exact .inl fun t => by simp [paramText]
  case case13 c d s hd h ih =>
      have hstep : ∀ t, paramText .quoted (c :: d :: s ++ comma :: t) =
          c :: paramText .quoted (d :: s ++ comma :: t) := fun t => by simp [paramText, hd, h]
      rcases ih with ih | ih
      · exact .inl fun t => by rw [hstep, ih]
      · exact .inr fun t => by rw [hstep]; exact List.mem_cons_of_mem c (ih t)
  all_goals grind [paramText, paramText_comma]

/-! ## the round trip -/

/-- The list up to a parameter, with what stands there. -/
theorem paramAt_quotedList (pre : List CString) (s : CString) (post : List CString) :
    paramAt (quotedList (pre ++ s :: post)) (pre.length + 1) =
      paramRest pre.length false (quotedFront pre ++ (quoteParam s.val ++ quotedBack post)) := by
  rw [paramAt, if_neg (by omega), show ((pre.length : ℤ) + 1).toNat - 1 = pre.length by omega]
  exact congrArg (paramRest pre.length false) (quotedBytes_split pre s post)

/-- A text comes back if something stands where its parameter should begin, and is copied
to the text. -/
theorem paramReadsBack_iff {pre : List CString} {s : CString} {post : List CString} :
    ParamReadsBack pre s post ↔
      ∃ rest, paramRest pre.length false (quotedFront pre ++ (quoteParam s.val ++ quotedBack post)) = some rest ∧
        (pre = [] ∨ rest ≠ []) ∧ paramText .init rest = s.val := by
  have hlarge : ∀ maxlen, (quotedList (pre ++ s :: post)).val.length < maxlen →
      getParam (quotedList (pre ++ s :: post)) (pre.length + 1) maxlen =
        ⟨pre = [] || (paramAt (quotedList (pre ++ s :: post)) (pre.length + 1)).any (· ≠ []),
          paramTextAt (quotedList (pre ++ s :: post)) (pre.length + 1)⟩ := by
    intro maxlen hmax
    rw [getParam_large ((length_paramTextAt _ _).trans_lt hmax)]
    simp
  have hiff : ParamReadsBack pre s post ↔
      (⟨pre = [] || (paramAt (quotedList (pre ++ s :: post)) (pre.length + 1)).any (· ≠ []),
          paramTextAt (quotedList (pre ++ s :: post)) (pre.length + 1)⟩ : ParamScan) = ⟨true, s.val⟩ := by
    constructor
    · intro h
      rw [← hlarge _ (Nat.lt_succ_self _)]
      exact h _ (Nat.lt_succ_self _)
    · intro h maxlen hmax
      rw [hlarge maxlen hmax, h]
  rw [hiff, ParamScan.mk.injEq, paramTextAt, paramAt_quotedList]
  cases hrest : paramRest pre.length false (quotedFront pre ++ (quoteParam s.val ++ quotedBack post)) with
  | none =>
      cases pre with
      | nil => simp [paramRest, quotedFront] at hrest
      | cons p pre => simp
  | some rest => simp

/-- The last comma of the parameters in front. -/
theorem quotedFront_eq {pre : List CString} (h : pre ≠ []) : ∃ front, quotedFront pre = front ++ [comma] := by
  obtain ⟨init, p, rfl⟩ := List.eq_nil_or_concat pre |>.resolve_left h
  exact ⟨quotedFront init ++ quoteParam p.val, by simp [quotedFront]⟩

/-- What the last comma adds. -/
theorem evenCommas_concat_comma (s : List UInt8) :
    evenCommas false (s ++ [comma]) = evenCommas false s + if Even (s.count dquote) then 1 else 0 := by
  have hne : comma ≠ dquote := by decide
  rw [evenCommas_append, quotedAfter_eq]
  by_cases h : Even (s.count dquote) <;> simp [evenCommas, hne, h]

/-- The quotes in front even out if those up to the last comma do. -/
theorem even_count_concat_comma (s : List UInt8) :
    Even ((s ++ [comma]).count dquote) ↔ Even (s.count dquote) := by
  have hne : comma ≠ dquote := by decide
  simp [hne]

/-- A list of parameters that even out ends where the next parameter begins. -/
theorem paramRest_of_aligned {pre : List CString} (h : Aligned pre) (t : List UInt8) :
    paramRest pre.length false (quotedFront pre ++ t) = some t := by
  by_cases hpre : pre = []
  · simp [hpre, quotedFront, paramRest]
  obtain ⟨front, hfront⟩ := quotedFront_eq hpre
  obtain ⟨heven, hcommas⟩ := h
  rw [hfront] at heven hcommas ⊢
  rw [even_count_concat_comma] at heven
  rw [evenCommas_concat_comma, if_pos heven] at hcommas
  have hne : comma ≠ dquote := by decide
  rw [List.append_assoc, paramRest_append_of_lt (by omega), ← hcommas, Nat.add_sub_cancel_left, quotedAfter_eq]
  simp [heven, paramRest, hne]

/-- Where the parameters in front do not even out, one of two texts does not come back. -/
theorem not_paramReadsBack_of_not_aligned {pre : List CString} (h : ¬Aligned pre) :
    ¬(ParamReadsBack pre ⟨[], by simp⟩ [] ∧ ParamReadsBack pre ⟨[space], by decide⟩ []) := by
  rintro ⟨hempty, hspace⟩
  obtain ⟨rest, hrest, -, htext⟩ := paramReadsBack_iff.mp hempty
  obtain ⟨rest', hrest', -, htext'⟩ := paramReadsBack_iff.mp hspace
  by_cases hlt : evenCommas false (quotedFront pre) < pre.length
  · -- too few commas: the text itself brings in none
    obtain ⟨m, hm⟩ : ∃ m, pre.length - evenCommas false (quotedFront pre) = m + 1 :=
      ⟨_, (Nat.succ_pred_eq_of_pos (by omega)).symm⟩
    rw [paramRest_append_of_lt hlt, hm] at hrest
    simp [quoteParam, escapeQuotes, quotedBack, paramRest] at hrest
  · -- too many commas: the parameter begins in front of the last one
    have hpre : pre ≠ [] := by
      rintro rfl
      exact h ⟨by simp [quotedFront], rfl⟩
    obtain ⟨front, hfront⟩ := quotedFront_eq hpre
    have hle : pre.length ≤ evenCommas false front := by
      by_contra hfew
      rw [hfront, evenCommas_concat_comma] at hlt
      by_cases heven : Even (front.count dquote)
      · refine h ⟨?_, ?_⟩
        · rw [hfront, even_count_concat_comma]
          exact heven
        · rw [hfront, evenCommas_concat_comma, if_pos heven]
          rw [if_pos heven] at hlt
          omega
      · rw [if_neg heven] at hlt
        omega
    obtain ⟨start, hstart⟩ := paramRest_append_of_le hle
    rw [hfront, List.append_assoc, hstart, Option.some.injEq] at hrest hrest'
    subst hrest hrest'
    rcases paramText_over_comma .init start with hsame | hover
    · rw [List.singleton_append, hsame] at htext htext'
      rw [htext] at htext'
      cases htext'
    · rw [List.singleton_append] at htext
      have hmem := hover (quoteParam [] ++ quotedBack [])
      rw [htext] at hmem
      cases hmem

/-- **Quoted parameters**: the texts that come back from behind the texts of `pre` are
exactly those that do not end in a backslash, if and only if the quotes and commas of the
quoted texts of `pre` even out. -/
theorem paramReadsBack_iff_aligned (pre : List CString) :
    (∀ (s : CString) (post : List CString), ParamReadsBack pre s post ↔ s.val.getLast? ≠ some backslash) ↔
      Aligned pre := by
  constructor
  · intro h
    by_contra hpre
    exact not_paramReadsBack_of_not_aligned hpre ⟨(h _ _).mpr (by simp), (h _ _).mpr (by decide)⟩
  · intro hpre s post
    rw [paramReadsBack_iff, paramRest_of_aligned hpre]
    constructor
    · rintro ⟨rest, hrest, -, htext⟩ hs
      obtain rfl := Option.some.inj hrest
      exact paramText_quoteParam_backslash hs post htext
    · intro hs
      exact ⟨_, rfl, .inr (by simp [quoteParam]), paramText_quoteParam hs post⟩

/-- Behind a text with a quote in it, nothing comes back: the quote leaves the comma between
the two in quotes. -/
theorem not_paramReadsBack_quote :
    ¬∀ (pre : List CString) (s : CString) (post : List CString), ParamReadsBack pre s post := by
  intro h
  have hfound := h [⟨bytes "a\"b", by decide⟩] ⟨bytes "c", by decide⟩ [] 12 (by decide)
  revert hfound
  decide

/-- A text without quotes stays in its quotation. -/
theorem evenCommas_no_quotes {s : List UInt8} (h : dquote ∉ s) (t : List UInt8) :
    evenCommas true (s ++ t) = evenCommas true t := by
  induction s with
  | nil => rfl
  | cons c s ih =>
      obtain ⟨hc, hs⟩ := not_or.mp (mt List.mem_cons.mpr h)
      simp [evenCommas, Ne.symm hc, ih hs]

/-- Texts without quotes even out. -/
theorem aligned_of_no_quotes {pre : List CString} (h : ∀ s ∈ pre, dquote ∉ s.val) : Aligned pre := by
  have hne : comma ≠ dquote := by decide
  have hescape : ∀ s : CString, dquote ∉ s.val → escapeQuotes s.val = s.val := by
    intro s hs
    refine (List.flatMap_congr fun c hc => ?_).trans (List.flatMap_singleton' s.val)
    have hcd : c ≠ dquote := fun heq => hs (heq ▸ hc)
    simp [hcd]
  induction pre with
  | nil => exact ⟨by simp [quotedFront], rfl⟩
  | cons s pre ih =>
      obtain ⟨heven, hcommas⟩ := ih fun t ht => h t (List.mem_cons_of_mem s ht)
      have hs := h s List.mem_cons_self
      have hfront : quotedFront (s :: pre) = dquote :: (s.val ++ dquote :: comma :: quotedFront pre) := by
        simp [quotedFront, quoteParam, hescape s hs]
      constructor
      · rw [hfront]
        simp [hne, List.count_eq_zero_of_not_mem hs, heven]
      · rw [hfront]
        simp [evenCommas, evenCommas_no_quotes hs, hne, hcommas]

end Zabbix
