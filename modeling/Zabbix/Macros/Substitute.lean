import Zabbix.Str

/-!
# Zabbix.Macros.Substitute

The macros of a message (`substitute_simple_macros` and `substitute_macros` of
`libs/zbxserver/expression.c`).

First the simple macros such as `{HOSTNAME}` are replaced by their values.  Then what stands in
braces is cut at the first colon, the last dot behind it, the first parenthesis behind that
and the first closing one, and a text of that form is replaced by the value of the function.

* `substituteMacros_iff` — the macros that are cut where they were put together.
-/

namespace Zabbix

open Ascii

/-! ## Simple macros -/

/-- The names of the macros that are replaced in messages, in the order in which they are
looked for. -/
def simpleMacroNames : List (List UInt8) :=
  [bytes "TRIGGER.NAME", bytes "TRIGGER.COMMENT", bytes "PROFILE.DEVICETYPE", bytes "PROFILE.NAME",
    bytes "PROFILE.OS", bytes "PROFILE.SERIALNO", bytes "PROFILE.TAG", bytes "PROFILE.MACADDRESS",
    bytes "PROFILE.HARDWARE", bytes "PROFILE.SOFTWARE", bytes "PROFILE.CONTACT", bytes "PROFILE.LOCATION",
    bytes "PROFILE.NOTES", bytes "HOSTNAME", bytes "ITEM.NAME", bytes "ITEM.LASTVALUE", bytes "TRIGGER.KEY",
    bytes "IPADDRESS", bytes "DATE", bytes "TIME", bytes "TRIGGER.STATUS", bytes "STATUS", bytes "TRIGGER.ID",
    bytes "TRIGGER.VALUE", bytes "TRIGGER.URL", bytes "EVENT.ID", bytes "EVENT.DATE", bytes "EVENT.TIME",
    bytes "EVENT.AGE", bytes "ESC.HISTORY", bytes "TRIGGER.SEVERITY", bytes "TRIGGER.NSEVERITY"]

/-- The name of the macro that a text begins with. -/
def simpleMacroAt (s : List UInt8) : Option (List UInt8) :=
  simpleMacroNames.find? fun name => (lbrace :: (name ++ [rbrace])).isPrefixOf s

/-- The loop of `substitute_simple_macros`; `skip` bytes are left of the macro that has been
replaced. -/
def simpleMacrosLoop (value : List UInt8 → List UInt8) : (skip : ℕ) → List UInt8 → List UInt8
  | _, [] => []
  | skip + 1, _ :: s => simpleMacrosLoop value skip s
  | 0, c :: s =>
      if c = lbrace then
        match simpleMacroAt (c :: s) with
        | some name => value name ++ simpleMacrosLoop value (name.length + 1) s
        | none => c :: simpleMacrosLoop value 0 s
      else c :: simpleMacrosLoop value 0 s

attribute [grind =] simpleMacrosLoop

/-- `substitute_simple_macros`, with the values that the macros have for an event. -/
def substituteSimpleMacros (value : List UInt8 → List UInt8) (data : List UInt8) : List UInt8 :=
  if lbrace ∈ data then simpleMacrosLoop value 0 data else data

/-! ## Function macros -/

/-- The arguments of `evaluate_function2`. -/
structure FunctionMacro where
  host : List UInt8
  key : List UInt8
  function : List UInt8
  parameter : List UInt8
deriving DecidableEq, Repr

/-- What stands in the braces of a macro. -/
def FunctionMacro.inner (m : FunctionMacro) : List UInt8 :=
  m.host ++ colon :: (m.key ++ dot :: (m.function ++ lparen :: (m.parameter ++ [rparen])))

/-- The text of a macro. -/
def FunctionMacro.text (m : FunctionMacro) : List UInt8 := lbrace :: (m.inner ++ [rbrace])

/-- How `substitute_macros` cuts what stands in braces; each part is cut to the size of its
variable. -/
def splitMacro (group : List UInt8) : Option FunctionMacro := do
  let (host, s) ← strchr colon group
  let (key, s) ← strrchr dot s
  let (function, s) ← strchr lparen s
  let (parameter, _) ← strchr rparen s
  return {
    host := zbxVsnprintf maxStringLen host
    key := zbxVsnprintf maxStringLen key
    function := zbxVsnprintf maxStringLen function
    parameter := zbxVsnprintf maxStringLen parameter }

/-- `STR_UNKNOWN_VARIABLE` -/
def strUnknownVariable : List UInt8 := bytes "*UNKNOWN*"

/-- What replaces a text in braces. -/
def replaceTo (evaluate : FunctionMacro → Option (List UInt8)) (group : List UInt8) : List UInt8 :=
  match splitMacro group with
  | some m => (evaluate m).getD strUnknownVariable
  | none => lbrace :: (group ++ [rbrace])

/-- The next text in braces: what stands in front of it, the text, and what follows. -/
def nextGroup (s : List UInt8) : Option (List UInt8 × List UInt8 × List UInt8) := do
  let (left, s) ← strchr lbrace s
  let (inner, rest) ← strchr rbrace s
  -- the brace next to the closing one
  match strrchr lbrace inner with
  | none => return (left, inner, rest)
  | some (front, group) => return (left ++ lbrace :: front, group, rest)

theorem length_nextGroup {s left group rest : List UInt8} (h : nextGroup s = some (left, group, rest)) :
    rest.length < s.length := by
  unfold nextGroup at h
  obtain ⟨⟨left', s'⟩, hopen, h⟩ := Option.bind_eq_some_iff.mp h
  obtain ⟨⟨inner, rest'⟩, hclose, h⟩ := Option.bind_eq_some_iff.mp h
  have hs := congrArg List.length (strchr_eq_some hopen)
  have hs' := congrArg List.length (strchr_eq_some hclose)
  have hrest : rest' = rest := by
    dsimp only at h
    split at h <;> cases h <;> rfl
  subst hrest
  simp only [List.length_append, List.length_cons] at hs hs'
  omega

/-- The loop of `substitute_macros`. -/
def macrosLoop (evaluate : FunctionMacro → Option (List UInt8)) (s : List UInt8) : List UInt8 :=
  match _h : nextGroup s with
  | none => s
  | some (left, group, rest) => left ++ (replaceTo evaluate group ++ macrosLoop evaluate rest)
termination_by s.length
decreasing_by exact length_nextGroup _h

attribute [grind =] macrosLoop

/-- `substitute_macros`, with the values of simple macros and of functions. -/
def substituteMacros (value : List UInt8 → List UInt8) (evaluate : FunctionMacro → Option (List UInt8))
    (data : List UInt8) : List UInt8 :=
  if data = [] then data else macrosLoop evaluate (substituteSimpleMacros value data)

/-! ## What is cut -/

/-- The parts of a macro whose text is cut into them again: a host without a colon, a function
without a dot and a parenthesis, a parameter without a dot and a closing parenthesis, no
braces, and each part shorter than its variable. -/
structure FunctionMacro.Separable (m : FunctionMacro) : Prop where
  host_colon : colon ∉ m.host
  function_dot : dot ∉ m.function
  function_lparen : lparen ∉ m.function
  parameter_dot : dot ∉ m.parameter
  parameter_rparen : rparen ∉ m.parameter
  inner_lbrace : lbrace ∉ m.inner
  inner_rbrace : rbrace ∉ m.inner
  host_length : m.host.length < maxStringLen
  key_length : m.key.length < maxStringLen
  function_length : m.function.length < maxStringLen
  parameter_length : m.parameter.length < maxStringLen

/-- The text of such a macro is cut into its parts. -/
theorem FunctionMacro.Separable.splitMacro_inner {m : FunctionMacro} (h : m.Separable) :
    splitMacro m.inner = some m := by
  have hdot : dot ∉ m.function ++ lparen :: (m.parameter ++ [rparen]) := by
    simp only [List.mem_append, List.mem_cons, List.not_mem_nil, or_false, not_or]
    exact ⟨h.function_dot, by decide, h.parameter_dot, by decide⟩
  have hcut : ∀ s : List UInt8, s.length < maxStringLen → zbxVsnprintf maxStringLen s = s :=
    fun s hs => zbxVsnprintf_of_lt hs
  simp only [splitMacro, FunctionMacro.inner, strchr_append_cons h.host_colon, strrchr_append_cons _ hdot,
    strchr_append_cons h.function_lparen, strchr_append_cons h.parameter_rparen, Option.bind_eq_bind,
    Option.bind_some, hcut _ h.host_length, hcut _ h.key_length, hcut _ h.function_length,
    hcut _ h.parameter_length]
  rfl

/-- What is cut has parts of this kind. -/
theorem separable_of_splitMacro {group : List UInt8} {m : FunctionMacro} (hl : lbrace ∉ group)
    (hr : rbrace ∉ group) (h : splitMacro group = some m) : m.Separable := by
  unfold splitMacro at h
  obtain ⟨⟨host, s⟩, hhost, h⟩ := Option.bind_eq_some_iff.mp h
  obtain ⟨⟨key, t⟩, hkey, h⟩ := Option.bind_eq_some_iff.mp h
  obtain ⟨⟨function, u⟩, hfunction, h⟩ := Option.bind_eq_some_iff.mp h
  obtain ⟨⟨parameter, v⟩, hparameter, h⟩ := Option.bind_eq_some_iff.mp h
  dsimp only at hkey hfunction hparameter h
  cases h
  obtain ⟨hs, hdot⟩ := strrchr_eq_some hkey
  have hgroup := strchr_eq_some hhost
  have ht := strchr_eq_some hfunction
  have hu := strchr_eq_some hparameter
  dsimp only at hgroup ht hu
  subst hu
  subst ht
  subst hs
  subst hgroup
  simp only [List.mem_append, List.mem_cons, not_or] at hdot
  have hcut : ∀ {c : UInt8} {s : List UInt8}, c ∉ s → c ∉ zbxVsnprintf maxStringLen s :=
    fun h hmem => h (List.mem_of_mem_take hmem)
  have hlen : ∀ s : List UInt8, (zbxVsnprintf maxStringLen s).length < maxStringLen := by
    intro s
    rw [zbxVsnprintf, List.length_take]
    exact (Nat.min_le_left _ _).trans_lt (by decide)
  have hinner : ∀ {c : UInt8}, c ∉ host ++ colon :: (key ++ dot :: (function ++ lparen :: (parameter ++ rparen :: v))) →
      c ∉ (FunctionMacro.mk (zbxVsnprintf maxStringLen host) (zbxVsnprintf maxStringLen key)
        (zbxVsnprintf maxStringLen function) (zbxVsnprintf maxStringLen parameter)).inner := by
    intro c hc
    simp only [FunctionMacro.inner, List.mem_append, List.mem_cons, List.not_mem_nil, or_false, not_or] at hc ⊢
    obtain ⟨hhost, hcolon, hkey, hdot, hfunction, hlparen, hparameter, hrparen, -⟩ := hc
    exact ⟨hcut hhost, hcolon, hcut hkey, hdot, hcut hfunction, hlparen, hcut hparameter, hrparen⟩
  exact {
    host_colon := hcut (not_mem_of_strchr hhost)
    function_dot := hcut hdot.1
    function_lparen := hcut (not_mem_of_strchr hfunction)
    parameter_dot := hcut hdot.2.2.1
    parameter_rparen := hcut (not_mem_of_strchr hparameter)
    inner_lbrace := hinner hl
    inner_rbrace := hinner hr
    host_length := hlen host
    key_length := hlen key
    function_length := hlen function
    parameter_length := hlen parameter }

/-- What stands between the braces that are found has none. -/
theorem nextGroup_eq_some {s left group rest : List UInt8} (h : nextGroup s = some (left, group, rest)) :
    lbrace ∉ group ∧ rbrace ∉ group := by
  unfold nextGroup at h
  obtain ⟨⟨left', s'⟩, hopen, h⟩ := Option.bind_eq_some_iff.mp h
  obtain ⟨⟨inner, rest'⟩, hclose, h⟩ := Option.bind_eq_some_iff.mp h
  have hinner := not_mem_of_strchr hclose
  dsimp only at h
  split at h
  · next hnone =>
      cases h
      exact ⟨strrchr_eq_none_iff.mp hnone, hinner⟩
  · next front group' hlast =>
      cases h
      obtain ⟨rfl, hgroup⟩ := strrchr_eq_some hlast
      exact ⟨hgroup, fun hmem => hinner (by simp [hmem])⟩

/-- A text in which no brace closes behind one that opens. -/
def Plain (s : List UInt8) : Prop := ∃ t u, s = t ++ u ∧ lbrace ∉ t ∧ rbrace ∉ u

/-- In such a text nothing is found. -/
theorem nextGroup_plain {s : List UInt8} (h : Plain s) : nextGroup s = none := by
  obtain ⟨t, u, rfl, ht, hu⟩ := h
  by_cases hopen : lbrace ∈ u
  · obtain ⟨u₁, u₂, rfl, hu₁⟩ := List.eq_append_cons_of_mem hopen
    have hclose : rbrace ∉ u₂ := fun hmem => hu (by simp [hmem])
    rw [nextGroup, ← List.append_assoc, strchr_append_cons (by simp [ht, hu₁])]
    simp [strchr_of_not_mem hclose]
  · rw [nextGroup, strchr_of_not_mem (by simp [ht, hopen])]
    rfl

/-- Behind such a text the next pair of braces is found. -/
theorem nextGroup_append {s group : List UInt8} (h : Plain s) (hl : lbrace ∉ group) (hr : rbrace ∉ group)
    (rest : List UInt8) : nextGroup (s ++ lbrace :: (group ++ rbrace :: rest)) = some (s, group, rest) := by
  obtain ⟨t, u, rfl, ht, hu⟩ := h
  by_cases hopen : lbrace ∈ u
  · obtain ⟨u₁, u₂, rfl, hu₁⟩ := List.eq_append_cons_of_mem hopen
    have hne : rbrace ≠ lbrace := by decide
    have hinner : rbrace ∉ u₂ ++ lbrace :: group := by
      simp only [List.mem_append, List.mem_cons, not_or] at hu ⊢
      exact ⟨hu.2.2, hne, hr⟩
    have hsplit : t ++ (u₁ ++ lbrace :: u₂) ++ lbrace :: (group ++ rbrace :: rest) =
        (t ++ u₁) ++ lbrace :: ((u₂ ++ lbrace :: group) ++ rbrace :: rest) := by simp
    rw [nextGroup, hsplit, strchr_append_cons (by simp [ht, hu₁])]
    simp only [Option.bind_eq_bind, Option.bind_some, strchr_append_cons hinner, strrchr_append_cons u₂ hl]
    simp
  · rw [nextGroup, strchr_append_cons (by simp [ht, hopen])]
    simp [strchr_append_cons hr, strrchr_eq_none_iff.mpr hl]

/-! ## The simple macros -/

/-- No name of a simple macro has a brace or a colon in it. -/
theorem not_mem_simpleMacroName {name : List UInt8} (h : name ∈ simpleMacroNames) :
    lbrace ∉ name ∧ rbrace ∉ name ∧ colon ∉ name := by
  have hall : simpleMacroNames.all (fun name => lbrace ∉ name ∧ rbrace ∉ name ∧ colon ∉ name) = true := by decide
  simpa using List.all_eq_true.mp hall name h

/-- No simple macro begins at a brace with another one, or a colon, in front of the closing
brace, or without a closing brace. -/
theorem simpleMacroAt_eq_none {s : List UInt8} (h : rbrace ∉ s ∨
      ∃ group rest, s = group ++ rbrace :: rest ∧ rbrace ∉ group ∧ (lbrace ∈ group ∨ colon ∈ group)) :
    simpleMacroAt (lbrace :: s) = none := by
  rw [simpleMacroAt, List.find?_eq_none]
  intro name hname hprefix
  obtain ⟨hl, hr, hc⟩ := not_mem_simpleMacroName hname
  obtain ⟨tail, htail⟩ := List.isPrefixOf_iff_prefix.mp hprefix
  have hs : s = name ++ rbrace :: tail := by simpa using htail.symm
  rcases h with h | ⟨group, rest, hgroup, hr', hinside⟩
  · exact h (by simp [hs])
  · have hsame : strchr rbrace s = some (name, tail) := by
      rw [hs]
      exact strchr_append_cons hr tail
    rw [hgroup, strchr_append_cons hr'] at hsame
    cases hsame
    exact hinside.elim hl hc

section

variable (value : List UInt8 → List UInt8)

/-- Bytes without an opening brace stay. -/
theorem simpleMacrosLoop_no_lbrace {s : List UInt8} (h : lbrace ∉ s) (t : List UInt8) :
    simpleMacrosLoop value 0 (s ++ t) = s ++ simpleMacrosLoop value 0 t := by
  induction s with
  | nil => rfl
  | cons c s ih =>
      rw [List.mem_cons, not_or] at h
      rw [List.cons_append, simpleMacrosLoop, if_neg (Ne.symm h.1), ih h.2]
      rfl

/-- A brace that no simple macro begins with stays. -/
theorem simpleMacrosLoop_lbrace {s : List UInt8} (h : simpleMacroAt (lbrace :: s) = none) :
    simpleMacrosLoop value 0 (lbrace :: s) = lbrace :: simpleMacrosLoop value 0 s := by
  rw [simpleMacrosLoop, if_pos rfl, h]

/-- Without a closing brace everything stays. -/
theorem simpleMacrosLoop_no_rbrace {s : List UInt8} (h : rbrace ∉ s) : simpleMacrosLoop value 0 s = s := by
  induction s with
  | nil => rfl
  | cons c s ih =>
      have hs : rbrace ∉ s := fun hmem => h (List.mem_cons_of_mem c hmem)
      by_cases hc : c = lbrace
      · subst hc
        rw [simpleMacrosLoop_lbrace value (simpleMacroAt_eq_none (.inl hs)), ih hs]
      · rw [simpleMacrosLoop, if_neg hc, ih hs]

/-- What stands in front of a function macro stays, and so does the macro. -/
theorem simpleMacrosLoop_group {s group : List UInt8} (hs : rbrace ∉ s) (hl : lbrace ∉ group)
    (hr : rbrace ∉ group) (hc : colon ∈ group) (rest : List UInt8) :
    simpleMacrosLoop value 0 (s ++ lbrace :: (group ++ rbrace :: rest)) =
      s ++ lbrace :: (group ++ rbrace :: simpleMacrosLoop value 0 rest) := by
  induction s with
  | nil =>
      have hnone := simpleMacroAt_eq_none (.inr ⟨group, rest, rfl, hr, .inr hc⟩)
      have hclose : simpleMacrosLoop value 0 (rbrace :: rest) = rbrace :: simpleMacrosLoop value 0 rest := by
        rw [simpleMacrosLoop, if_neg (by decide)]
      rw [List.nil_append, simpleMacrosLoop_lbrace value hnone, simpleMacrosLoop_no_lbrace value hl, hclose]
      rfl
  | cons c s ih =>
      have hs' : rbrace ∉ s := fun hmem => hs (List.mem_cons_of_mem c hmem)
      by_cases hcl : c = lbrace
      · subst hcl
        have hinside : rbrace ∉ s ++ lbrace :: group := by
          have hne : rbrace ≠ lbrace := by decide
          simp [hs', hne, hr]
        have hnone : simpleMacroAt (lbrace :: (s ++ lbrace :: (group ++ rbrace :: rest))) = none :=
          simpleMacroAt_eq_none (.inr ⟨s ++ lbrace :: group, rest, by simp, hinside, .inl (by simp)⟩)
        rw [List.cons_append, simpleMacrosLoop_lbrace value hnone, ih hs']
        rfl
      · rw [List.cons_append, simpleMacrosLoop, if_neg hcl, ih hs']
        rfl

/-- The check for a brace in front of the loop changes nothing. -/
theorem substituteSimpleMacros_eq (data : List UInt8) :
    substituteSimpleMacros value data = simpleMacrosLoop value 0 data := by
  unfold substituteSimpleMacros
  split
  · rfl
  · next h =>
      have hloop := simpleMacrosLoop_no_lbrace value h []
      simpa [simpleMacrosLoop] using hloop.symm

variable (evaluate : FunctionMacro → Option (List UInt8))

/-- An empty text is no exception. -/
theorem substituteMacros_eq (data : List UInt8) :
    substituteMacros value evaluate data = macrosLoop evaluate (simpleMacrosLoop value 0 data) := by
  unfold substituteMacros
  split
  · next h =>
      subst h
      rw [macrosLoop]
      rfl
  · rw [substituteSimpleMacros_eq]

/-- Where no braces are found the loop ends. -/
theorem macrosLoop_of_none {s : List UInt8} (h : nextGroup s = none) : macrosLoop evaluate s = s := by
  rw [macrosLoop]
  split
  · rfl
  · next h' =>
      rw [h] at h'
      cases h'

/-- A text in braces is replaced, and the loop goes on behind it. -/
theorem macrosLoop_of_some {s left group rest : List UInt8} (h : nextGroup s = some (left, group, rest)) :
    macrosLoop evaluate s = left ++ (replaceTo evaluate group ++ macrosLoop evaluate rest) := by
  rw [macrosLoop]
  split
  · next h' =>
      rw [h] at h'
      cases h'
  · next h' =>
      rw [h] at h'
      cases h'
      rfl

/-- Text outside of macros stays. -/
theorem substituteMacros_plain {s : List UInt8} (h : Plain s) : substituteMacros value evaluate s = s := by
  obtain ⟨t, u, rfl, ht, hu⟩ := h
  rw [substituteMacros_eq, simpleMacrosLoop_no_lbrace value ht, simpleMacrosLoop_no_rbrace value hu]
  exact macrosLoop_of_none evaluate (nextGroup_plain ⟨t, u, rfl, ht, hu⟩)

/-- A function macro behind such a text is replaced by the value of its function. -/
theorem substituteMacros_text {m : FunctionMacro} (hm : m.Separable) {s : List UInt8} (h : Plain s)
    (rest : List UInt8) :
    substituteMacros value evaluate (s ++ (m.text ++ rest)) =
      s ++ ((evaluate m).getD strUnknownVariable ++ substituteMacros value evaluate rest) := by
  have hsimple : simpleMacrosLoop value 0 (s ++ (m.text ++ rest)) =
      s ++ lbrace :: (m.inner ++ rbrace :: simpleMacrosLoop value 0 rest) := by
    obtain ⟨t, u, rfl, ht, hu⟩ := h
    have hcolon : colon ∈ m.inner := by simp [FunctionMacro.inner]
    have htext : t ++ u ++ (m.text ++ rest) = t ++ (u ++ lbrace :: (m.inner ++ rbrace :: rest)) := by
      simp [FunctionMacro.text]
    rw [htext, simpleMacrosLoop_no_lbrace value ht,
      simpleMacrosLoop_group value hu hm.inner_lbrace hm.inner_rbrace hcolon, List.append_assoc]
  rw [substituteMacros_eq, substituteMacros_eq, hsimple,
    macrosLoop_of_some evaluate (nextGroup_append h hm.inner_lbrace hm.inner_rbrace _), replaceTo,
    hm.splitMacro_inner]

end

/-! ## The macros that are cut right -/

/-- The functions that are evaluated are those of macros that are cut into their parts. -/
theorem macrosLoop_congr {f g : FunctionMacro → Option (List UInt8)} (h : ∀ m, m.Separable → f m = g m)
    (s : List UInt8) : macrosLoop f s = macrosLoop g s := by
  induction hn : s.length using Nat.strong_induction_on generalizing s with
  | _ n ih =>
  subst hn
  cases hgroup : nextGroup s with
  | none => rw [macrosLoop_of_none f hgroup, macrosLoop_of_none g hgroup]
  | some found =>
      obtain ⟨left, group, rest⟩ := found
      have hreplace : replaceTo f group = replaceTo g group := by
        unfold replaceTo
        cases hsplit : splitMacro group with
        | none => rfl
        | some m =>
            obtain ⟨hl, hr⟩ := nextGroup_eq_some hgroup
            simp only [h m (separable_of_splitMacro hl hr hsplit)]
      rw [macrosLoop_of_some f hgroup, macrosLoop_of_some g hgroup, hreplace,
        ih rest.length (length_nextGroup hgroup) rest rfl]

/-- What is asked of `substitute_macros` for a macro: it is replaced by the value that its
function has with exactly these arguments, what stands behind it is dealt with on its own,
and what stands in front of it, outside of macros, stays. -/
def CutRight (m : FunctionMacro) : Prop :=
  ∀ (value : List UInt8 → List UInt8) (evaluate : FunctionMacro → Option (List UInt8)) (front rest : CString),
    Plain front.val →
      substituteMacros value evaluate (front.val ++ (m.text ++ rest.val)) =
          front.val ++ ((evaluate m).getD strUnknownVariable ++ substituteMacros value evaluate rest.val) ∧
        substituteMacros value evaluate front.val = front.val

/-- A macro that is not separable is never evaluated, so that its value cannot come out. -/
theorem separable_of_cutRight {m : FunctionMacro} (h : CutRight m) : m.Separable := by
  by_contra hnot
  have hvalue : ∀ v : List UInt8, substituteMacros id (fun n => if n = m then some v else none) m.text = v := by
    intro v
    have hv := (h id (fun n => if n = m then some v else none) ⟨[], by simp⟩ ⟨[], by simp⟩
      ⟨[], [], rfl, by simp, by simp⟩).1
    simpa [substituteMacros] using hv
  have hsame : substituteMacros id (fun n => if n = m then some [plus] else none) m.text =
      substituteMacros id (fun n => if n = m then some [minus] else none) m.text := by
    rw [substituteMacros_eq, substituteMacros_eq]
    apply macrosLoop_congr
    intro n hn
    have hne : n ≠ m := by
      rintro rfl
      exact hnot hn
    simp only [if_neg hne]
  rw [hvalue, hvalue] at hsame
  exact absurd hsame (by decide)

/-- **Function macros**: the text of a macro is cut into the host, the key, the function and the
parameter that it was put together from, if and only if these are separable. -/
theorem substituteMacros_iff (host key function parameter : CString) :
    CutRight ⟨host.val, key.val, function.val, parameter.val⟩ ↔
      FunctionMacro.Separable ⟨host.val, key.val, function.val, parameter.val⟩ := by
  constructor
  · exact separable_of_cutRight
  · intro hm value evaluate front rest hfront
    exact ⟨substituteMacros_text value evaluate hm hfront rest.val, substituteMacros_plain value evaluate hfront⟩

example : FunctionMacro.Separable ⟨bytes "127.0.0.1", bytes "system[procload]", bytes "last", bytes "0"⟩ := by
  constructor <;> decide

/-- The dot of a parameter is taken for the one behind the key. -/
theorem substituteMacros_parameter_dot :
    ¬∀ host key function parameter : CString, rparen ∉ parameter.val → rbrace ∉ parameter.val →
      CutRight ⟨host.val, key.val, function.val, parameter.val⟩ := by
  intro h
  have hcut := h ⟨bytes "127.0.0.1", by decide⟩ ⟨bytes "log[/var/log/messages]", by decide⟩ ⟨bytes "str", by decide⟩
    ⟨bytes "sda1.failed", by decide⟩ (by decide) (by decide)
  exact (separable_of_cutRight hcut).parameter_dot (by decide)

end Zabbix
