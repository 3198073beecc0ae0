import Zabbix.Lib.Buffer
import Zabbix.Macros.TriggerConstants
import Zabbix.Params.ReplaceParam

/-!
# Zabbix.Httppoller.HttpMacros

The macros of a web scenario: `http_substitute_macros` of
`zabbix_server/httppoller/httpmacro.c`.

A macro is looked for with `strstr` in the whole text of the definitions, and
its value behind the next `=` (`lookupMacro`); what is put together is appended
with `zbx_strlcat`, which is given the room that is left for the size of the
buffer, as in `replace_param`.

* `httpSubstituteLoop_eq` — what the loop appends, and that both texts are as
  they have been;
* `httpSubstituteMacros_iff` — when that is the text with its macros replaced,
  cut at the capacity only.
-/

namespace Zabbix

open Ascii Buffer

/-! ## the function -/

/-- `strstr`: the address of the first `sub` in the string at `p`. -/
def strstrAt (m : List UInt8) (p : ℕ) : List UInt8 → Option ℕ
  | [] => some p
  | c :: sub => (strstr c sub (strAt m p)).map fun q => p + q.1.length

/-- The definitions after a search for the macro, and the `replacement` as it is
printed to `replace_to`. -/
def macroValueAt (macros token : List UInt8) : List UInt8 × Option (List UInt8) :=
  match strstrAt macros 0 token with
  | none => (macros, none)
  | some c2 =>
      match find macros c2 equals with
      | none => (macros, none)
      | some e =>
          match find macros (e + 1) cr with
          | some c2 =>
              let save2 := byteAt macros c2
              let cut := macros.set c2 nul
              (cut.set c2 save2, some (zbxVsnprintf maxStringLen (strAt cut (e + 1))))
          | none => (macros, some (zbxVsnprintf maxStringLen (strAt macros (e + 1))))

/-- What stands in the place of a `{`, and how much of the text it replaces. -/
structure HttpReplacement where
  data : List UInt8
  macros : List UInt8
  replaceTo : List UInt8
  varLen : ℕ

def httpReplacement (data macros : List UInt8) (pr : ℕ) : HttpReplacement :=
  match find data pr rbrace with
  | none => ⟨data, macros, [lbrace], 1⟩
  | some c =>
      let save := byteAt data (c + 1)
      let cut := data.set (c + 1) nul
      let (macros, value) := macroValueAt macros (strAt cut pr)
      match value with
      | some value => ⟨cut.set (c + 1) save, macros, value, (strAt cut pr).length⟩
      | none => ⟨cut.set (c + 1) save, macros, [lbrace], 1⟩

theorem length_httpReplacement (data macros : List UInt8) (pr : ℕ) :
    (httpReplacement data macros pr).data.length = data.length := by
  rw [httpReplacement]
  split
  · rfl
  · dsimp only
    split <;> rw [List.length_set, List.length_set]

/-- The loop moves on. -/
theorem one_le_varLen {data : List UInt8} {pr : ℕ} (macros : List UInt8) (h : byteAt data pr = lbrace) :
    1 ≤ (httpReplacement data macros pr).varLen := by
  rw [httpReplacement]
  split
  · exact le_rfl
  · next c hc =>
    dsimp only
    split
    · refine List.length_pos_of_ne_nil fun hnil => ?_
      have hle := (find_spec hc).1
      rw [strAt_eq_nil_iff, byteAt, List.getElem?_set_ne (by omega)] at hnil
      rw [byteAt, hnil] at h
      cases h
    · exact le_rfl

/-- The texts, and what has been put together. -/
structure HttpSubstituted where
  data : List UInt8
  macros : List UInt8
  strOut : List UInt8

/-- The loop of `http_substitute_macros`, and the append behind it. -/
def httpSubstituteLoop (data macros : List UInt8) (pl : ℕ) (strOut : List UInt8) (outlen : ℕ) : HttpSubstituted :=
  match _h : find data pl lbrace with
  | none => ⟨data, macros, zbxStrlcat strOut (strAt data pl) outlen⟩
  | some pr =>
      if 0 < outlen then
        let cut := data.set pr nul
        let text := strAt cut pl
        let strOut := zbxStrlcat strOut text outlen
        let outlen := outlen - min text.length outlen
        let r := httpReplacement (cut.set pr lbrace) macros pr
        httpSubstituteLoop r.data r.macros (pr + r.varLen) (zbxStrlcat strOut r.replaceTo outlen)
          (outlen - min r.replaceTo.length outlen)
      else ⟨data, macros, zbxStrlcat strOut (strAt data pl) outlen⟩
termination_by data.length - pl
decreasing_by
  obtain ⟨hle, hbyte⟩ := find_spec _h
  have hback : (data.set pr nul).set pr lbrace = data := set_put_back hbyte nul
  have hlt := lt_length_of_byteAt (hbyte.trans_ne (by decide))
  rw [hback, length_httpReplacement]
  have hone := one_le_varLen macros hbyte
  omega

/-- `http_substitute_macros`: what is stored in `data` in the end, with the
string that has been there before that and the definitions. -/
def httpSubstituteMacros (macros data : CString) (dataMaxLen : ℕ) : HttpSubstituted :=
  let r := httpSubstituteLoop data.val macros.val 0 [] (maxStringLen - 1)
  { r with strOut := zbxVsnprintf dataMaxLen r.strOut }

/-! ## what is looked up -/

/-- The value that is found for a macro: behind the next `=` from the first place
on where the macro stands, up to a CR. -/
def lookupMacro (macros : List UInt8) : List UInt8 → Option (List UInt8)
  | [] => none
  | c :: sub =>
      (strstr c sub macros).bind fun q =>
        (strchr equals (c :: sub ++ q.2)).map fun value => value.2.takeWhile (· ≠ cr)

theorem strstr_eq_some {c : UInt8} {sub s : List UInt8} {p : List UInt8 × List UInt8} (h : strstr c sub s = some p) :
    s = p.1 ++ (c :: sub ++ p.2) := by
  induction s generalizing p with
  | nil => cases h
  | cons a s ih =>
      rw [strstr] at h
      split at h
      case isTrue hstart =>
        obtain ⟨t, ht⟩ := List.isPrefixOf_iff_prefix.mp hstart
        rw [List.cons_append] at ht
        obtain ⟨rfl, rfl⟩ := List.cons_eq_cons.mp ht
        obtain rfl := Option.some.inj h
        rw [List.drop_left]
        rfl
      case isFalse =>
        obtain ⟨q, hq, rfl⟩ := Option.map_eq_some_iff.mp h
        exact congrArg (a :: ·) (ih hq)

/-- Cut at its end, a string is what it has been. -/
theorem strAt_cut {m : List UInt8} {p : ℕ} {front behind : List UInt8} (h : strAt m p = front ++ behind) :
    strAt (m.set (p + front.length) nul) p = front := by
  cases behind with
  | cons c behind => exact strAt_set h
  | nil =>
      rw [List.append_nil] at h
      have hnul : byteAt m (p + front.length) = nul := by
        rw [byteAt_add (by rw [h]), h, List.getElem?_eq_none le_rfl]
        rfl
      have hsame := set_put_back hnul nul
      rw [List.set_set] at hsame
      rw [hsame, h]

theorem strAt_zero (s : CString) : strAt s.val 0 = s.val :=
  List.takeWhile_eq_self_iff.mpr fun _ hc => decide_eq_true (ne_of_mem_of_not_mem hc s.property)

/-- The definitions are put back, and the value is that of the texts. -/
theorem macroValueAt_eq (macros : CString) (c : UInt8) (sub : List UInt8) :
    macroValueAt macros.val (c :: sub) =
      (macros.val, (lookupMacro macros.val (c :: sub)).map (zbxVsnprintf maxStringLen)) := by
  have hself := strAt_zero macros
  rw [macroValueAt, strstrAt, lookupMacro, hself]
  cases hstr : strstr c sub macros.val with
  | none => rfl
  | some q =>
      have hsplit := hself.trans (strstr_eq_some hstr)
      have hat := strAt_add hsplit
      dsimp only [Option.map_some, Option.bind_some]
      cases hfind : find macros.val (0 + q.1.length) equals with
      | none =>
          rw [← hat, strchr_of_not_mem (find_eq_none hfind)]
          rfl
      | some e =>
          obtain ⟨x, y, hxy, hx, rfl⟩ := strAt_of_find (by decide) hfind
          have hy := strAt_behind hxy
          rw [← hat, hxy, strchr_append_cons hx]
          dsimp only [Option.map_some]
          cases hcr : find macros.val (0 + q.1.length + x.length + 1) cr with
          | none =>
              have hnot := find_eq_none hcr
              rw [hy] at hnot ⊢
              rw [List.takeWhile_eq_self_iff.mpr fun d hd => decide_eq_true (ne_of_mem_of_not_mem hd hnot)]
          | some c2 =>
              obtain ⟨u, v, huv, hu, rfl⟩ := strAt_of_find (by decide) hcr
              dsimp only
              rw [strAt_set huv, set_put_back rfl, hy.symm.trans huv,
                List.takeWhile_append_of_pos fun d hd => decide_eq_true (ne_of_mem_of_not_mem hd hu),
                List.takeWhile_cons_of_neg (by decide), List.append_nil]

/-! ## what the loop does -/

/-- The pieces that are appended, where `value` says what a macro is replaced by. -/
def substPieces (value : List UInt8 → Option (List UInt8)) (text : List UInt8) : List (List UInt8) :=
  match _h : strchr lbrace text with
  | none => [text]
  | some (front, behind) =>
      match _hc : strchr rbrace behind with
      | none => front :: [lbrace] :: substPieces value behind
      | some (name, rest) =>
          match value (lbrace :: (name ++ [rbrace])) with
          | some v => front :: v :: substPieces value rest
          | none => front :: [lbrace] :: substPieces value behind
termination_by text.length
decreasing_by
  all_goals
    have hlen := congrArg List.length (strchr_eq_some _h)
    try have hrest := congrArg List.length (strchr_eq_some _hc)
    simp only [List.length_append, List.length_cons] at *
    omega

section Pieces

variable {value : List UInt8 → Option (List UInt8)} {text front behind name rest v : List UInt8}

theorem substPieces_of_not_mem (h : strchr lbrace text = none) : substPieces value text = [text] := by
  rw [substPieces]
  split
  case h_1 => rfl
  case h_2 hsome => cases h.symm.trans hsome

/-- A `{` without `}` stays. -/
theorem substPieces_unclosed (h : strchr lbrace text = some (front, behind)) (hc : strchr rbrace behind = none) :
    substPieces value text = front :: [lbrace] :: substPieces value behind := by
  rw [substPieces]
  split
  case h_1 hnone => cases h.symm.trans hnone
  case h_2 hsome =>
    cases h.symm.trans hsome
    split
    case h_1 => rfl
    case h_2 hsome => cases hc.symm.trans hsome

/-- A `{` that begins a macro without value stays. -/
theorem substPieces_unknown (h : strchr lbrace text = some (front, behind)) (hc : strchr rbrace behind = some (name, rest))
    (hvalue : value (lbrace :: (name ++ [rbrace])) = none) :
    substPieces value text = front :: [lbrace] :: substPieces value behind := by
  rw [substPieces]
  split
  case h_1 hnone => cases h.symm.trans hnone
  case h_2 hsome =>
    cases h.symm.trans hsome
    split
    case h_1 => rfl
    case h_2 hsome =>
      cases hc.symm.trans hsome
      rw [hvalue]

/-- A macro is replaced by its value. -/
theorem substPieces_value (h : strchr lbrace text = some (front, behind)) (hc : strchr rbrace behind = some (name, rest))
    (hvalue : value (lbrace :: (name ++ [rbrace])) = some v) :
    substPieces value text = front :: v :: substPieces value rest := by
  rw [substPieces]
  split
  case h_1 hnone => cases h.symm.trans hnone
  case h_2 hsome =>
    cases h.symm.trans hsome
    split
    case h_1 hnone => cases hc.symm.trans hnone
    case h_2 hsome =>
      cases hc.symm.trans hsome
      rw [hvalue]

end Pieces

/-- What is done at a `{`. -/
theorem httpReplacement_eq {data : List UInt8} {pr : ℕ} {behind : List UInt8} (macros : CString)
    (h : strAt data pr = lbrace :: behind) :
    httpReplacement data macros.val pr =
      match strchr rbrace behind with
      | none => ⟨data, macros.val, [lbrace], 1⟩
      | some (name, _) =>
          match lookupMacro macros.val (lbrace :: (name ++ [rbrace])) with
          | some v => ⟨data, macros.val, zbxVsnprintf maxStringLen v, name.length + 2⟩
          | none => ⟨data, macros.val, [lbrace], 1⟩ := by
  rw [httpReplacement]
  cases hfind : find data pr rbrace with
  | none =>
      have hnot := find_eq_none hfind
      rw [h, List.mem_cons, not_or] at hnot
      rw [strchr_of_not_mem hnot.2]
  | some c =>
      obtain ⟨token, rest, htoken, hnot, rfl⟩ := strAt_of_find (by decide) hfind
      cases token with
      | nil => cases h.symm.trans htoken
      | cons d name =>
          obtain ⟨rfl, hbehind⟩ := List.cons_eq_cons.mp ((h.symm.trans htoken).trans (List.cons_append ..))
          subst hbehind
          have hlen : pr + (lbrace :: name).length + 1 = pr + (lbrace :: (name ++ [rbrace])).length := by
            simp only [List.length_cons, List.length_append, List.length_nil]
            omega
          have hsplit : lbrace :: (name ++ rbrace :: rest) = lbrace :: (name ++ [rbrace]) ++ rest := by simp
          have hcut : strAt (data.set (pr + (lbrace :: name).length + 1) nul) pr = lbrace :: (name ++ [rbrace]) := by
            rw [hlen]
            exact strAt_cut (h.trans hsplit)
          rw [strchr_append_cons fun hmem => hnot (List.mem_cons_of_mem _ hmem)]
          dsimp only
          rw [hcut, macroValueAt_eq, set_put_back rfl]
          cases lookupMacro macros.val (lbrace :: (name ++ [rbrace])) with
          | none => rfl
          | some v =>
              change HttpReplacement.mk _ _ _ (lbrace :: (name ++ [rbrace])).length = _
              rw [List.length_cons, List.length_append, List.length_singleton]

/-- Two pieces are appended. -/
theorem zbxStrlcat_two (out p p' : List UInt8) (room : ℕ) (ps : List (List UInt8)) :
    let out' := zbxStrlcat (zbxStrlcat out p room) p' (room - p.length)
    out' ++ ps.flatten.take (keptLen out'.length (room - p.length - p'.length) ps - out'.length) =
      out ++ (p :: p' :: ps).flatten.take (keptLen out.length room (p :: p' :: ps) - out.length) := by
  dsimp only
  rw [zbxStrlcat_keptLen, zbxStrlcat_keptLen]

/-- A value that is cut at the size of `replace_to` fills the room all the same. -/
theorem zbxStrlcat_zbxVsnprintf {room : ℕ} (hroom : room < maxStringLen) (out v : List UInt8) :
    zbxStrlcat out (zbxVsnprintf maxStringLen v) room = zbxStrlcat out v room ∧
      room - min (zbxVsnprintf maxStringLen v).length room = room - v.length := by
  constructor
  · rw [zbxStrlcat, zbxStrlcat, zbxVsnprintf, List.take_take, min_eq_left (by omega)]
  · rw [zbxVsnprintf, List.length_take]
    omega

/-- The loop appends the pieces, as far as they are kept. -/
theorem httpSubstituteLoop_eq {data : List UInt8} (macros : CString) {pl room : ℕ} (hroom : room < maxStringLen)
    (out : List UInt8) :
    httpSubstituteLoop data macros.val pl out room =
      let pieces := substPieces (lookupMacro macros.val) (strAt data pl)
      ⟨data, macros.val, out ++ pieces.flatten.take (keptLen out.length room pieces - out.length)⟩ := by
  induction hn : (strAt data pl).length using Nat.strong_induction_on generalizing pl out room with
  | _ n ih =>
  subst hn
  rw [httpSubstituteLoop]
  split
  case h_1 hnone =>
    have hstr := strchr_of_not_mem (find_eq_none hnone)
    have hkept := zbxStrlcat_keptLen out (strAt data pl) room []
    rw [List.flatten_nil, List.take_nil, List.append_nil] at hkept
    rw [substPieces_of_not_mem hstr, hkept]
  case h_2 pr hfound =>
    obtain ⟨front, behind, htext, hnot, rfl⟩ := strAt_of_find (by decide) hfound
    have hstr : strchr lbrace (strAt data pl) = some (front, behind) := by rw [htext, strchr_append_cons hnot]
    have hat := strAt_add htext
    have hbehind := strAt_behind htext
    have hback := set_put_back (find_spec hfound).2 nul
    have hlen := congrArg List.length htext
    rw [List.length_append, List.length_cons] at hlen
    have hmin : ∀ r n : ℕ, r - min n r = r - n := fun r n => by omega
    split
    case isFalse hzero =>
      obtain rfl : room = 0 := by omega
      dsimp only
      rw [keptLen_of_le (Nat.zero_le _), Nat.sub_self, List.take_zero, List.append_nil, zbxStrlcat,
        if_pos (Nat.zero_le _)]
    case isTrue hpos =>
      dsimp only
      rw [strAt_set htext, hback, httpReplacement_eq macros hat, hmin]
      -- a `{` that belongs to no macro
      have hbrace : httpSubstituteLoop data macros.val (pl + front.length + 1)
          (zbxStrlcat (zbxStrlcat out front room) [lbrace] (room - front.length))
          (room - front.length - min ([lbrace] : List UInt8).length (room - front.length)) =
          let pieces := front :: [lbrace] :: substPieces (lookupMacro macros.val) behind
          ⟨data, macros.val, out ++ pieces.flatten.take (keptLen out.length room pieces - out.length)⟩ := by
        rw [hmin, ih _ (by rw [hbehind, hlen]; omega) (by omega) _ rfl, hbehind]
        exact congrArg _ (zbxStrlcat_two out front [lbrace] room _)
      cases hclose : strchr rbrace behind with
      | none =>
          rw [substPieces_unclosed hstr hclose]
          exact hbrace
      | some q =>
          obtain ⟨name, rest⟩ := q
          dsimp only
          cases hlookup : lookupMacro macros.val (lbrace :: (name ++ [rbrace])) with
          | none =>
              rw [substPieces_unknown hstr hclose hlookup]
              exact hbrace
          | some v =>
              have hsplit := strchr_eq_some hclose
              dsimp only at hsplit
              have hlenb := congrArg List.length hsplit
              rw [List.length_append, List.length_cons] at hlenb
              have hrest : strAt data (pl + front.length + (name.length + 2)) = rest := by
                have hafter := @strAt_behind data (pl + front.length) (lbrace :: name) rest rbrace
                  (by rw [hat, hsplit]; rfl)
                rw [← hafter]
                congr 1
              obtain ⟨hcat, hcount⟩ := @zbxStrlcat_zbxVsnprintf (room - front.length) (by omega)
                (zbxStrlcat out front room) v
              dsimp only
              rw [substPieces_value hstr hclose hlookup, hcat, hcount, ih _ (by rw [hrest]; omega) (by omega) _ rfl,
                hrest]
              exact congrArg _ (zbxStrlcat_two out front v room _)

/-! ## definitions and the text with its macros replaced -/

/-- A line `{name}=value`, without the CR LF at its end. -/
structure MacroLine where
  name : List UInt8
  value : List UInt8
  name_plain : ∀ c ∈ name, c ≠ nul ∧ c ≠ lbrace ∧ c ≠ rbrace ∧ c ≠ cr ∧ c ≠ newline
  nul_not_mem_value : nul ∉ value
  no_break_in_value : ¬[cr, newline] <:+: value

def MacroLine.token (line : MacroLine) : List UInt8 := lbrace :: (line.name ++ [rbrace])

def MacroLine.text (line : MacroLine) : List UInt8 := line.token ++ equals :: (line.value ++ [cr, newline])

/-- The definitions of a web scenario. -/
def macrosText (lines : List MacroLine) : CString :=
  ⟨lines.flatMap MacroLine.text, by
    intro h
    obtain ⟨line, -, hmem⟩ := List.mem_flatMap.mp h
    have hname : nul ∉ line.name := fun h => (line.name_plain nul h).1 rfl
    have hvalue := line.nul_not_mem_value
    simp only [MacroLine.text, MacroLine.token, List.mem_append, List.mem_cons, hname, hvalue] at hmem
    revert hmem
    decide⟩

/-- The value of the line that defines a macro. -/
def definedValue (lines : List MacroLine) (token : List UInt8) : Option (List UInt8) :=
  (lines.find? fun line => line.token = token).map MacroLine.value

/-- Every macro that a line defines is replaced by the value, and all else stays. -/
def replaceMacros (lines : List MacroLine) : List UInt8 → List UInt8
  | [] => []
  | c :: s =>
      match lines.find? fun line => line.token.isPrefixOf (c :: s) with
      | some line => line.value ++ replaceMacros lines (s.drop (line.name.length + 1))
      | none => c :: replaceMacros lines s
termination_by text => text.length
decreasing_by
  all_goals
    simp only [List.length_drop, List.length_cons]
    omega

/-- Behind the first `}` nothing of a macro stands. -/
theorem token_isPrefixOf_iff (line : MacroLine) {name rest : List UInt8} (h : rbrace ∉ name) :
    line.token.isPrefixOf (lbrace :: (name ++ rbrace :: rest)) = true ↔ line.token = lbrace :: (name ++ [rbrace]) := by
  have hname : rbrace ∉ line.name := fun h => (line.name_plain rbrace h).2.2.1 rfl
  rw [List.isPrefixOf_iff_prefix, MacroLine.token]
  constructor
  · rintro ⟨t, ht⟩
    rw [List.cons_append, List.cons_eq_cons, List.append_assoc, List.singleton_append] at ht
    have hfirst := strchr_append_cons hname t
    rw [ht.2, strchr_append_cons h] at hfirst
    rw [(Prod.mk.inj (Option.some.inj hfirst)).1]
  · intro htoken
    rw [htoken]
    exact ⟨rest, by simp⟩

section

variable {lines : List MacroLine}

theorem replaceMacros_cons_of_none {c : UInt8} {s : List UInt8}
    (h : lines.find? (fun line => line.token.isPrefixOf (c :: s)) = none) :
    replaceMacros lines (c :: s) = c :: replaceMacros lines s := by
  rw [replaceMacros, h]

theorem replaceMacros_append {front : List UInt8} (h : lbrace ∉ front) (s : List UInt8) :
    replaceMacros lines (front ++ s) = front ++ replaceMacros lines s := by
  induction front with
  | nil => rfl
  | cons c front ih =>
      rw [List.mem_cons, not_or] at h
      have hnone : lines.find? (fun line => line.token.isPrefixOf (c :: (front ++ s))) = none := by
        refine List.find?_eq_none.mpr fun line _ hstart => ?_
        obtain ⟨t, ht⟩ := List.isPrefixOf_iff_prefix.mp hstart
        exact h.1 (List.cons_eq_cons.mp ht).1
      rw [List.cons_append, replaceMacros_cons_of_none hnone, ih h.2, List.cons_append]

/-- At a `{` with a `}` behind it, the macro up to there counts. -/
theorem find?_token_eq {name rest : List UInt8} (h : rbrace ∉ name) :
    lines.find? (fun line => line.token.isPrefixOf (lbrace :: (name ++ rbrace :: rest))) =
      lines.find? fun line => line.token = lbrace :: (name ++ [rbrace]) :=
  congrArg (lines.find? ·) (funext fun line => Bool.eq_iff_iff.mpr
    ((token_isPrefixOf_iff line h).trans (decide_eq_true_iff).symm))

/-- The pieces make up the text with its macros replaced. -/
theorem flatten_substPieces (lines : List MacroLine) (text : List UInt8) :
    (substPieces (definedValue lines) text).flatten = replaceMacros lines text := by
  fun_induction substPieces (definedValue lines) text with
  | case1 text h =>
      have htext := @replaceMacros_append lines text (strchr_eq_none_iff.mp h) []
      rw [List.append_nil, replaceMacros, List.append_nil] at htext
      rw [htext, List.flatten_singleton]
  | case2 text front behind h hc ih =>
      have hnone : lines.find? (fun line => line.token.isPrefixOf (lbrace :: behind)) = none := by
        refine List.find?_eq_none.mpr fun line _ hstart => ?_
        have hmem : rbrace ∈ lbrace :: behind :=
          (List.isPrefixOf_iff_prefix.mp hstart).subset (List.mem_cons_of_mem _ (by simp))
        exact strchr_eq_none_iff.mp hc ((List.mem_cons.mp hmem).resolve_left (by decide))
      have htext := strchr_eq_some h
      dsimp only at htext
      rw [htext, replaceMacros_append (not_mem_of_strchr h), replaceMacros_cons_of_none hnone, ← ih]
      rfl
  | case3 text front behind h name rest hc v hvalue ih =>
      have htext := strchr_eq_some h
      have hbehind := strchr_eq_some hc
      dsimp only at htext hbehind
      obtain ⟨line, hfind, rfl⟩ := Option.map_eq_some_iff.mp hvalue
      have hname : line.name = name := by
        have htoken := List.find?_some hfind
        exact List.append_cancel_right (List.cons_eq_cons.mp (of_decide_eq_true htoken)).2
      have hdrop : (name ++ rbrace :: rest).drop (name.length + 1) = rest := by
        rw [List.append_cons]
        exact List.drop_left' (by simp)
      rw [htext, replaceMacros_append (not_mem_of_strchr h), hbehind, replaceMacros,
        find?_token_eq (not_mem_of_strchr hc), hfind]
      dsimp only
      rw [hname, hdrop, ← ih]
      rfl
  | case4 text front behind h name rest hc hvalue ih =>
      have htext := strchr_eq_some h
      have hbehind := strchr_eq_some hc
      dsimp only at htext hbehind
      have hnone : lines.find? (fun line => line.token.isPrefixOf (lbrace :: behind)) = none := by
        rw [hbehind, find?_token_eq (not_mem_of_strchr hc)]
        exact Option.map_eq_none_iff.mp hvalue
      rw [htext, replaceMacros_append (not_mem_of_strchr h), replaceMacros_cons_of_none hnone, ← ih]
      rfl

end

/-! ## when macros are replaced by their values -/

/-- Every macro of the text is found where it is defined, if it is. -/
def FoundWhereDefined (lines : List MacroLine) (text : List UInt8) : Prop :=
  ∀ name, rbrace ∉ name → lbrace :: (name ++ [rbrace]) <:+: text →
    lookupMacro (macrosText lines).val (lbrace :: (name ++ [rbrace])) =
      definedValue lines (lbrace :: (name ++ [rbrace]))

/-- The pieces are the same where every macro of the text has the same value. -/
theorem substPieces_congr {f g : List UInt8 → Option (List UInt8)} (text : List UInt8)
    (h : ∀ name, rbrace ∉ name → lbrace :: (name ++ [rbrace]) <:+: text →
      f (lbrace :: (name ++ [rbrace])) = g (lbrace :: (name ++ [rbrace]))) :
    substPieces f text = substPieces g text := by
  induction hn : text.length using Nat.strong_induction_on generalizing text with
  | _ n ih =>
  subst hn
  cases hopen : strchr lbrace text with
  | none => rw [substPieces_of_not_mem hopen, substPieces_of_not_mem hopen]
  | some p =>
      obtain ⟨front, behind⟩ := p
      have htext := strchr_eq_some hopen
      dsimp only at htext
      have hlen := congrArg List.length htext
      rw [List.length_append, List.length_cons] at hlen
      have hsuffix : behind <:+ text := ⟨front ++ [lbrace], by rw [htext]; simp⟩
      have hbehind := ih _ (by omega) behind (fun name hname hin => h name hname (hin.trans hsuffix.isInfix)) rfl
      cases hclose : strchr rbrace behind with
      | none => rw [substPieces_unclosed hopen hclose, substPieces_unclosed hopen hclose, hbehind]
      | some q =>
          obtain ⟨name, rest⟩ := q
          have hsplit := strchr_eq_some hclose
          dsimp only at hsplit
          have hlenb := congrArg List.length hsplit
          rw [List.length_append, List.length_cons] at hlenb
          have hvalue := h name (not_mem_of_strchr hclose) ⟨front, rest, by rw [htext, hsplit]; simp⟩
          cases hg : g (lbrace :: (name ++ [rbrace])) with
          | none =>
              rw [substPieces_unknown hopen hclose (hvalue.trans hg), substPieces_unknown hopen hclose hg, hbehind]
          | some v =>
              have hrest : rest <:+ behind := ⟨name ++ [rbrace], by rw [hsplit]; simp⟩
              rw [substPieces_value hopen hclose (hvalue.trans hg), substPieces_value hopen hclose hg,
                ih _ (by omega) rest
                  (fun name hname hin => h name hname ((hin.trans hrest.isInfix).trans hsuffix.isInfix)) rfl]

/-- What is kept whole has fitted twice. -/
theorem fitsTwice_of_le_keptLen {outlen front : ℕ} {ps : List (List UInt8)}
    (h : front + ps.flatten.length ≤ keptLen front (outlen - front) ps) : FitsTwice outlen front ps := by
  induction ps generalizing front with
  | nil => trivial
  | cons p ps ih =>
      rw [List.flatten_cons, List.length_append] at h
      rw [keptLen] at h
      split at h
      case isTrue hp =>
        refine ⟨hp.imp_right fun hlt => by omega, ih ?_⟩
        rw [← Nat.sub_add_eq] at h
        omega
      case isFalse hp =>
        have hpos := List.length_pos_of_ne_nil (not_or.mp hp).1
        omega

/-- The pieces of a text with its macros replaced. -/
def macroPieces (lines : List MacroLine) (data : CString) : List (List UInt8) := substPieces (definedValue lines) data.val

/-- Where the macros are found as they are defined, they are replaced as they
should be, cut at the capacity only, exactly when every piece fits as if all in
front of it stood there twice, or `data` has no more room than what is kept;
both texts are put back. -/
theorem httpSubstituteMacros_iff {lines : List MacroLine} {data : CString} (dataMaxLen : ℕ)
    (hfound : FoundWhereDefined lines data.val) :
    httpSubstituteMacros (macrosText lines) data dataMaxLen =
        ⟨data.val, (macrosText lines).val, (replaceMacros lines data.val).take (min maxStringLen dataMaxLen - 1)⟩ ↔
      FitsTwice (maxStringLen - 1) 0 (macroPieces lines data) ∨
        dataMaxLen ≤ keptLen 0 (maxStringLen - 1) (macroPieces lines data) + 1 := by
  have hloop := @httpSubstituteLoop_eq data.val (macrosText lines) 0 (maxStringLen - 1) (by decide) []
  rw [strAt_zero data, substPieces_congr data.val hfound] at hloop
  change _ = HttpSubstituted.mk _ _ (List.take (keptLen 0 _ (macroPieces lines data) - 0) _) at hloop
  have hle : keptLen 0 (maxStringLen - 1) (macroPieces lines data) ≤ 2046 :=
    keptLen_le (Nat.zero_le _) (by decide) _
  have hroom : 0 + (macroPieces lines data).flatten.length ≤ keptLen 0 (maxStringLen - 1) (macroPieces lines data) ↔
      FitsTwice (maxStringLen - 1) 0 (macroPieces lines data) :=
    ⟨fitsTwice_of_le_keptLen, fun h => (keptLen_of_fitsTwice (by decide) h).1.ge⟩
  rw [httpSubstituteMacros, hloop, ← flatten_substPieces, ← macroPieces, ← hroom]
  dsimp only
  rw [HttpSubstituted.mk.injEq, and_iff_right rfl, and_iff_right rfl, zbxVsnprintf, List.take_take]
  generalize keptLen 0 (maxStringLen - 1) (macroPieces lines data) = kept at hle
  generalize (macroPieces lines data).flatten = text
  simp only [maxStringLen]
  constructor
  · intro heq
    have hlen := congrArg List.length heq
    rw [List.length_take, List.length_take] at hlen
    omega
  · intro h
    by_cases hsmall : dataMaxLen ≤ kept + 1
    · congr 1
      omega
    · have hall := h.resolve_right hsmall
      rw [List.take_of_length_le (by omega), List.take_of_length_le (by omega)]

/-- A text with one `{` has one macro. -/
theorem token_unique {front name name' rest : List UInt8} (hfront : lbrace ∉ front)
    (hrest : lbrace ∉ name' ++ rbrace :: rest) (hname' : rbrace ∉ name') (hname : rbrace ∉ name)
    (h : lbrace :: (name ++ [rbrace]) <:+: front ++ lbrace :: (name' ++ rbrace :: rest)) : name = name' := by
  obtain ⟨s, t, heq⟩ := h
  rw [List.append_assoc, List.cons_append, List.append_assoc, List.singleton_append] at heq
  have hs : lbrace ∉ s := by
    have hcount := congrArg (List.count lbrace) heq
    rw [List.count_append, List.count_append, List.count_cons_self, List.count_cons_self,
      List.count_eq_zero.mpr hfront, List.count_eq_zero.mpr hrest] at hcount
    exact List.count_eq_zero.mp (by omega)
  have hopen := strchr_append_cons hs (name ++ rbrace :: t)
  rw [heq, strchr_append_cons hfront] at hopen
  have hclose := strchr_append_cons hname t
  rw [← (Prod.mk.inj (Option.some.inj hopen)).2, strchr_append_cons hname'] at hclose
  exact (Prod.mk.inj (Option.some.inj hclose)).1.symm

/-- `{user}=joe` -/
def userLine : MacroLine := ⟨bytes "user", bytes "joe", by decide, by decide, by decide⟩

theorem httpSubstituteMacros_user :
    httpSubstituteMacros (macrosText [userLine]) ⟨bytes "u=" ++ userLine.token, by decide⟩ maxStringLen =
      ⟨bytes "u=" ++ userLine.token, (macrosText [userLine]).val,
        (replaceMacros [userLine] (bytes "u=" ++ userLine.token)).take 2047⟩ := by
  have hfound : FoundWhereDefined [userLine] (bytes "u=" ++ userLine.token) := by
    intro name hname h
    rw [@token_unique (bytes "u=") name userLine.name [] (by decide) (by decide) (by decide) hname h]
    decide
  have hopen : strchr lbrace (bytes "u=" ++ userLine.token) = some (bytes "u=", bytes "user" ++ [rbrace]) := by decide
  have hpieces : macroPieces [userLine] ⟨bytes "u=" ++ userLine.token, by decide⟩ =
      [bytes "u=", bytes "joe", []] := by
    have hclose : strchr rbrace (bytes "user" ++ [rbrace]) = some (bytes "user", []) := by decide
    have hvalue : definedValue [userLine] (lbrace :: (bytes "user" ++ [rbrace])) = some (bytes "joe") := by decide
    exact (substPieces_value hopen hclose hvalue).trans (by rw [substPieces_of_not_mem rfl])
  exact (httpSubstituteMacros_iff maxStringLen hfound).mpr (.inl (by rw [hpieces]; decide))

/-- `{A}={B}=1` -/
def valueLine : MacroLine := ⟨bytes "A", lbrace :: bytes "B" ++ rbrace :: bytes "=1", by decide, by decide, by decide⟩

/-- `{B}=x` -/
def definingLine : MacroLine := ⟨bytes "B", bytes "x", by decide, by decide, by decide⟩

/-- `{B}` is found in the value of `{A}`, and replaced by what stands there
behind `=`. -/
theorem not_httpSubstituteMacros_value :
    ¬∀ (lines : List MacroLine) (data : CString) (dataMaxLen : ℕ),
      httpSubstituteMacros (macrosText lines) data dataMaxLen =
        ⟨data.val, (macrosText lines).val, (replaceMacros lines data.val).take (min maxStringLen dataMaxLen - 1)⟩ := by
  intro h
  have hresult := congrArg HttpSubstituted.strOut (h [valueLine, definingLine] ⟨definingLine.token, by decide⟩ 2048)
  have hopen : strchr lbrace definingLine.token = some ([], bytes "B" ++ [rbrace]) := by decide
  have hclose : strchr rbrace (bytes "B" ++ [rbrace]) = some (bytes "B", []) := by decide
  have hpieces (value : List UInt8 → Option (List UInt8)) (v : List UInt8)
      (hvalue : value (lbrace :: (bytes "B" ++ [rbrace])) = some v) :
      substPieces value definingLine.token = [[], v, []] := by
    rw [substPieces_value hopen hclose hvalue, substPieces_of_not_mem rfl]
  have hloop := @httpSubstituteLoop_eq definingLine.token (macrosText [valueLine, definingLine]) 0 2047 (by decide) []
  rw [strAt_zero ⟨definingLine.token, by decide⟩, hpieces _ (bytes "1") (by decide)] at hloop
  rw [← flatten_substPieces, hpieces _ (bytes "x") (by decide)] at hresult
  change zbxVsnprintf 2048 (httpSubstituteLoop definingLine.token _ 0 [] 2047).strOut = _ at hresult
  rw [hloop] at hresult
  revert hresult
  decide

end Zabbix
