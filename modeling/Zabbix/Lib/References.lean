import Zabbix.Lib.Ascii
import Mathlib.Tactic

/-!
# References

Texts with references, names in braces such as the `{functionid}` of an expression.  The name of a
reference has no brace in it, so that references do not overlap: a brace that opens and has another one
behind it before one that closes is text.

A text is read into its symbols, bytes and references; putting them together again gives the text
(`render_read`).  Other names in the places of the references, without braces as well, are read as they
were put there (`read_render`), whatever stands around them.
-/

namespace References

open Ascii

/-- A byte, or a name in braces. -/
inductive Symbol
  | text (c : UInt8)
  | reference (name : List UInt8)
deriving DecidableEq

/-- The name that the symbols begin with, up to the brace that closes it, and what is behind that. -/
def closes : List Symbol → Option (List UInt8 × List Symbol)
  | [] => none
  | .reference _ :: _ => none
  | .text c :: ss =>
      if c = rbrace then some ([], ss)
      else if c = lbrace then none
      else (closes ss).map fun p => (c :: p.1, p.2)

/-- A byte in front of symbols; one that opens a name makes a reference of it. -/
def push (c : UInt8) (ss : List Symbol) : List Symbol :=
  if c = lbrace then
    match closes ss with
    | some (name, rest) => .reference name :: rest
    | none => .text c :: ss
  else .text c :: ss

/-- The symbols of a text. -/
def read (s : List UInt8) : List Symbol := s.foldr push []

/-- A name in braces. -/
def braced (name : List UInt8) : List UInt8 := lbrace :: (name ++ [rbrace])

/-- The text of a symbol. -/
def Symbol.render : Symbol → List UInt8
  | .text c => [c]
  | .reference name => braced name

/-- The text of symbols. -/
def render (ss : List Symbol) : List UInt8 := ss.flatMap Symbol.render

/-- There is no brace in the name. -/
def Plain (name : List UInt8) : Prop := lbrace ∉ name ∧ rbrace ∉ name

/-- Symbols as they are read: names are without braces, and no brace that is text opens a name. -/
inductive Regular : List Symbol → Prop
  | nil : Regular []
  | text {c : UInt8} {ss : List Symbol} : (c = lbrace → closes ss = none) → Regular ss → Regular (.text c :: ss)
  | reference {name : List UInt8} {ss : List Symbol} :
      Plain name → Regular ss → Regular (.reference name :: ss)

@[simp] theorem read_nil : read [] = [] := rfl

@[simp] theorem read_cons (c : UInt8) (s : List UInt8) : read (c :: s) = push c (read s) := rfl

@[simp] theorem render_nil : render [] = [] := rfl

@[simp] theorem render_cons (a : Symbol) (ss : List Symbol) : render (a :: ss) = a.render ++ render ss := rfl

theorem push_of_ne {c : UInt8} (h : c ≠ lbrace) (ss : List Symbol) : push c ss = .text c :: ss := if_neg h

theorem plain_nil : Plain [] := ⟨List.not_mem_nil, List.not_mem_nil⟩

theorem plain_cons {c : UInt8} {name : List UInt8} :
    Plain (c :: name) ↔ (c ≠ lbrace ∧ c ≠ rbrace) ∧ Plain name := by
  simp only [Plain, List.mem_cons, not_or]
  exact ⟨fun h => ⟨⟨Ne.symm h.1.1, Ne.symm h.2.1⟩, h.1.2, h.2.2⟩,
    fun h => ⟨⟨Ne.symm h.1.1, h.2.1⟩, Ne.symm h.1.2, h.2.2⟩⟩

/-! ## reading -/

theorem closes_eq_some {ss : List Symbol} {name : List UInt8} {rest : List Symbol}
    (h : closes ss = some (name, rest)) : Plain name ∧ ss = name.map .text ++ .text rbrace :: rest := by
  induction ss generalizing name with
  | nil => cases h
  | cons a ss ih =>
      cases a with
      | reference _ => cases h
      | text c =>
          rw [closes] at h
          split at h
          · next hc =>
            obtain ⟨rfl, rfl⟩ := Prod.mk.inj (Option.some.inj h)
            exact ⟨plain_nil, by rw [hc]; rfl⟩
          · next hc =>
            split at h
            · cases h
            · next hc' =>
              obtain ⟨⟨name, _⟩, hrest, hp⟩ := Option.map_eq_some_iff.mp h
              obtain ⟨rfl, rfl⟩ := Prod.mk.inj hp
              obtain ⟨hplain, rfl⟩ := ih hrest
              exact ⟨plain_cons.mpr ⟨⟨hc', hc⟩, hplain⟩, rfl⟩

theorem closes_of_plain {name : List UInt8} (h : Plain name) (rest : List Symbol) :
    closes (name.map .text ++ .text rbrace :: rest) = some (name, rest) := by
  induction name with
  | nil => rfl
  | cons c name ih =>
      obtain ⟨⟨hopen, hclose⟩, hname⟩ := plain_cons.mp h
      rw [List.map_cons, List.cons_append, closes, if_neg hclose, if_neg hopen, ih hname]
      rfl

theorem render_map_text (name : List UInt8) (ss : List Symbol) : render (name.map .text ++ ss) = name ++ render ss := by
  induction name with
  | nil => rfl
  | cons c name ih => rw [List.map_cons, List.cons_append, render_cons, ih]; rfl

theorem render_push (c : UInt8) (ss : List Symbol) : render (push c ss) = c :: render ss := by
  rw [push]
  split
  · next hc =>
    split
    · next name rest h =>
      obtain ⟨-, rfl⟩ := closes_eq_some h
      simp [Symbol.render, braced, render_map_text, hc]
    · rfl
  · rfl

/-- What is read is put together again. -/
theorem render_read (s : List UInt8) : render (read s) = s := by
  induction s with
  | nil => rfl
  | cons c s ih => rw [read_cons, render_push, ih]

theorem read_injective {s t : List UInt8} (h : read s = read t) : s = t := by
  rw [← render_read s, h, render_read]

theorem Regular.of_append {ss rest : List Symbol} (h : Regular (ss ++ rest)) : Regular rest := by
  induction ss with
  | nil => exact h
  | cons a ss ih =>
      cases h with
      | text _ h => exact ih h
      | reference _ h => exact ih h

theorem regular_push (c : UInt8) {ss : List Symbol} (h : Regular ss) : Regular (push c ss) := by
  rw [push]
  split
  · split
    · next name rest hcloses =>
      obtain ⟨hplain, rfl⟩ := closes_eq_some hcloses
      rw [← List.singleton_append, ← List.append_assoc] at h
      exact .reference hplain h.of_append
    · next hcloses => exact .text (fun _ => hcloses) h
  · next hc => exact .text (fun h => absurd h hc) h

theorem regular_read (s : List UInt8) : Regular (read s) := by
  induction s with
  | nil => exact .nil
  | cons c s ih => exact regular_push c ih

theorem read_plain_append {name : List UInt8} (h : lbrace ∉ name) (s : List UInt8) :
    read (name ++ s) = name.map .text ++ read s := by
  induction name with
  | nil => rfl
  | cons c name ih =>
      obtain ⟨hc, hname⟩ := List.ne_and_not_mem_of_not_mem_cons h
      rw [List.cons_append, read_cons, ih hname, push_of_ne (Ne.symm hc)]
      rfl

/-- A name in braces is a reference, whatever stands behind it. -/
theorem read_braced {name : List UInt8} (h : Plain name) (s : List UInt8) :
    read (braced name ++ s) = .reference name :: read s := by
  have hrest : read (name ++ rbrace :: s) = name.map .text ++ .text rbrace :: read s := by
    rw [read_plain_append h.1, read_cons, push_of_ne (by decide)]
  rw [braced, List.cons_append, List.append_assoc, List.singleton_append, read_cons, hrest, push, if_pos rfl,
    closes_of_plain h]

/-- What is put together is read again. -/
theorem read_render {ss : List Symbol} (h : Regular ss) : read (render ss) = ss := by
  induction h with
  | nil => rfl
  | @text c ss hc _ ih =>
      rw [render_cons, Symbol.render, List.singleton_append, read_cons, ih, push]
      split
      · next hopen => rw [hc hopen]
      · rfl
  | @reference name ss hname _ ih => rw [render_cons, Symbol.render, read_braced hname, ih]

/-- A byte that opens nothing, or a reference as it is read. -/
def Symbol.IsPlain : Symbol → Prop
  | .text c => c ≠ lbrace
  | .reference name => Plain name

theorem regular_of_isPlain {ss : List Symbol} (h : ∀ a ∈ ss, a.IsPlain) : Regular ss := by
  induction ss with
  | nil => exact .nil
  | cons a ss ih =>
      obtain ⟨ha, hss⟩ := List.forall_mem_cons.mp h
      cases a with
      | text c => exact .text (fun hopen => absurd hopen ha) (ih hss)
      | reference name => exact .reference ha (ih hss)

theorem Regular.plain {ss : List Symbol} (h : Regular ss) {name : List UInt8} (hname : .reference name ∈ ss) :
    Plain name := by
  induction h with
  | nil => cases hname
  | text _ _ ih => exact ih (by simpa using hname)
  | reference hplain _ ih =>
      rcases List.mem_cons.mp hname with heq | hname
      · rwa [Symbol.reference.inj heq]
      · exact ih hname

/-! ## the beginning of a text -/

/-- What is left of a symbol that is cut off: nothing, or a reference that is not closed. -/
def CutOff (rest : List UInt8) : Prop := rest = [] ∨ ∃ name, Plain name ∧ rest = lbrace :: name

theorem Plain.take {name : List UInt8} (h : Plain name) (n : ℕ) : Plain (name.take n) :=
  ⟨fun hmem => h.1 (List.mem_of_mem_take hmem), fun hmem => h.2 (List.mem_of_mem_take hmem)⟩

/-- The beginning of a text is that of its symbols, and what is left of one more. -/
theorem take_render {ss : List Symbol} (h : ∀ a ∈ ss, a.IsPlain) (n : ℕ) :
    ∃ k rest, (render ss).take n = render (ss.take k) ++ rest ∧ CutOff rest ∧ (n < (render ss).length → k < ss.length) := by
  induction ss generalizing n with
  | nil => exact ⟨0, [], by simp, .inl rfl, by simp⟩
  | cons a ss ih =>
      obtain ⟨ha, hss⟩ := List.forall_mem_cons.mp h
      by_cases hwhole : a.render.length ≤ n
      · obtain ⟨k, rest, htake, hrest, hlt⟩ := ih hss (n - a.render.length)
        refine ⟨k + 1, rest, ?_, hrest, fun hn => ?_⟩
        · rw [render_cons, List.take_append, List.take_of_length_le hwhole, htake, List.take_succ_cons, render_cons,
            List.append_assoc]
        · rw [render_cons, List.length_append] at hn
          have hk := hlt (by omega)
          rw [List.length_cons]
          omega
      · refine ⟨0, a.render.take n, ?_, ?_, fun _ => by simp⟩
        · rw [render_cons, List.take_append_of_le_length (by omega)]
          simp
        · cases n with
          | zero => exact .inl rfl
          | succ n =>
              cases a with
              | text c => exact absurd (Nat.le_add_left 1 n) hwhole
              | reference name =>
                  rw [Symbol.render, braced, List.length_cons, List.length_append, List.length_singleton] at hwhole
                  refine .inr ⟨name.take n, Plain.take ha n, ?_⟩
                  rw [Symbol.render, braced, List.take_succ_cons, List.take_append_of_le_length (by omega)]

/-! ## other names -/

/-- Other names in the places of the references. -/
def Symbol.rename (f : List UInt8 → List UInt8) : Symbol → Symbol
  | .text c => .text c
  | .reference name => .reference (f name)

variable {f : List UInt8 → List UInt8}

theorem closes_map_rename (ss : List Symbol) :
    closes (ss.map (Symbol.rename f)) = (closes ss).map fun p => (p.1, p.2.map (Symbol.rename f)) := by
  induction ss with
  | nil => rfl
  | cons a ss ih =>
      cases a with
      | reference _ => rfl
      | text c =>
          rw [List.map_cons, Symbol.rename, closes, closes, ih]
          split
          · rfl
          · split
            · rfl
            · simp only [Option.map_map]
              rfl

theorem Regular.map_rename {ss : List Symbol} (h : Regular ss) (hf : ∀ name, Plain name → Plain (f name)) :
    Regular (ss.map (Symbol.rename f)) := by
  induction h with
  | nil => exact .nil
  | @text c ss hc _ ih =>
      refine .text (fun hopen => ?_) ih
      rw [closes_map_rename, hc hopen]
      rfl
  | reference hname _ ih => exact .reference (hf _ hname) ih

/-! ## where a reference stands -/

/-- A name in braces does not begin at a brace that is text. -/
theorem not_starts_of_closes {ss : List Symbol} (h : Regular ss) (hcloses : closes ss = none) {name : List UInt8}
    (hname : Plain name) : ¬name ++ [rbrace] <+: render ss := by
  rintro ⟨rest, hrest⟩
  have hread : ss = name.map .text ++ .text rbrace :: read rest := by
    rw [← read_render h, ← hrest, List.append_assoc, read_plain_append hname.1, List.singleton_append, read_cons,
      push_of_ne (by decide)]
  rw [hread, closes_of_plain hname] at hcloses
  cases hcloses

/-- One name in braces begins with another only if they are the same. -/
theorem eq_of_starts {name name' s : List UInt8} (h : Plain name) (h' : Plain name')
    (hstart : name ++ [rbrace] <+: name' ++ rbrace :: s) : name = name' := by
  induction name generalizing name' with
  | nil =>
      cases name' with
      | nil => rfl
      | cons c name' => exact absurd (List.cons_prefix_cons.mp hstart).1.symm (plain_cons.mp h').1.2
  | cons c name ih =>
      cases name' with
      | nil => exact absurd (List.cons_prefix_cons.mp hstart).1 (plain_cons.mp h).1.2
      | cons c' name' =>
          obtain ⟨rfl, hrest⟩ := List.cons_prefix_cons.mp hstart
          rw [ih (plain_cons.mp h).2 (plain_cons.mp h').2 hrest]

end References
