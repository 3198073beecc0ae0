import Zabbix.Lib.Ascii
import Mathlib.Data.List.Basic
import Mathlib.Tactic

/-!
# SqlLiteral

Quoted string literals of SQL, and SQL text as a sequence of them and of the
bytes between them.

A literal is a body between single quotes; a doubled quote stands for a quote,
and in a dialect with backslash escapes a backslash and the byte after it
stand for some bytes.  `Dialect.body` reads a literal body from just after the
opening quote and returns its value and what follows the closing quote;
`Dialect.lex` splits a text into tokens.

An encoding of bytes is an escaping of the dialect (`Escapes`) when each code
reads back as its byte in front of anything.  Then whole strings read back
(`body_flatMap`) and a text put together from tokens is read as those tokens
(`lex_render`): every literal ends at its own closing quote, whatever the
strings are.
-/

namespace SqlLiteral

open Ascii

/-- A dialect, by what a backslash followed by a byte stands for; `none` when
the backslash is an ordinary byte. -/
structure Dialect where
  unescape : Option (UInt8 → List UInt8)

variable (d : Dialect)

/-! ## literal bodies -/

/-- Read a literal body, from just after the opening quote: its value and what
follows the closing quote; `none` when the literal is never closed. -/
def Dialect.body : List UInt8 → Option (List UInt8 × List UInt8)
  | [] => none
  | c :: s =>
      if c = squote then
        match s with
        | [] => some ([], [])
        | c' :: s' =>
            if c' = squote then (body s').map fun r => (squote :: r.1, r.2)
            else some ([], c' :: s')
      else
        match d.unescape with
        | none => (body s).map fun r => (c :: r.1, r.2)
        | some unescape =>
            if c = backslash then
              match s with
              | [] => none
              | c' :: s' => (body s').map fun r => (unescape c' ++ r.1, r.2)
            else (body s).map fun r => (c :: r.1, r.2)

/-- An ordinary byte stands for itself. -/
theorem body_cons {c : UInt8} (hc : c ≠ squote) (hb : d.unescape = none ∨ c ≠ backslash)
    (s : List UInt8) : d.body (c :: s) = (d.body s).map fun r => (c :: r.1, r.2) := by
  rw [Dialect.body.eq_def]
  simp only [if_neg hc]
  rcases hb with hb | hb
  · simp only [hb]
  · simp only [if_neg hb]
    split <;> rfl

/-- A doubled quote stands for a quote. -/
theorem body_squote_squote (s : List UInt8) :
    d.body (squote :: squote :: s) = (d.body s).map fun r => (squote :: r.1, r.2) := by
  rw [Dialect.body.eq_def]
  simp only [if_true]

/-- A backslash and a byte stand for what the dialect says. -/
theorem body_backslash {unescape : UInt8 → List UInt8} (h : d.unescape = some unescape) (c : UInt8)
    (s : List UInt8) :
    d.body (backslash :: c :: s) = (d.body s).map fun r => (unescape c ++ r.1, r.2) := by
  rw [Dialect.body.eq_def]
  simp only [h, if_neg (by decide : backslash ≠ squote), if_true]

/-- What follows a literal is shorter than the literal with it. -/
theorem length_body_lt {s : List UInt8} {r : List UInt8 × List UInt8} (h : d.body s = some r) :
    r.2.length < s.length := by
  fun_induction Dialect.body d s generalizing r with
  | case1 => cases h
  | case2 => cases h; simp
  | case3 s' ih =>
      obtain ⟨q, hq, rfl⟩ := Option.map_eq_some_iff.mp h
      have := ih hq
      simp only [List.length_cons]
      omega
  | case4 => cases h; simp
  | case5 c s hc hd ih =>
      obtain ⟨q, hq, rfl⟩ := Option.map_eq_some_iff.mp h
      have := ih hq
      simp only [List.length_cons]
      omega
  | case6 => cases h
  | case7 unescape hd c' s' hc ih =>
      obtain ⟨q, hq, rfl⟩ := Option.map_eq_some_iff.mp h
      have := ih hq
      simp only [List.length_cons]
      omega
  | case8 c s hc unescape hd hb ih =>
      obtain ⟨q, hq, rfl⟩ := Option.map_eq_some_iff.mp h
      have := ih hq
      simp only [List.length_cons]
      omega

/-- The code of each byte reads back as that byte, in front of anything. -/
def Escapes (esc : UInt8 → List UInt8) : Prop :=
  ∀ c s, d.body (esc c ++ s) = (d.body s).map fun r => (c :: r.1, r.2)

/-- A literal of a string: its escaped bytes between quotes. -/
def quoted (esc : UInt8 → List UInt8) (s : List UInt8) : List UInt8 :=
  squote :: s.flatMap esc ++ [squote]

variable {d} {esc : UInt8 → List UInt8}

/-- The code of each byte reads as some text, in front of anything. -/
def StandFor (d : Dialect) (esc text : UInt8 → List UInt8) : Prop :=
  ∀ c s, d.body (esc c ++ s) = (d.body s).map fun r => (text c ++ r.1, r.2)

/-- A literal of codes stands for their texts. -/
theorem body_of_standFor {text : UInt8 → List UInt8} (h : StandFor d esc text) (s rest : List UInt8)
    (hrest : rest.head? ≠ some squote) : d.body (s.flatMap esc ++ squote :: rest) = some (s.flatMap text, rest) := by
  induction s with
  | nil =>
      cases rest with
      | nil => simp [Dialect.body]
      | cons c rest =>
          have hc : c ≠ squote := by simpa using hrest
          simp [Dialect.body, hc]
  | cons c s ih =>
      rw [List.flatMap_cons, List.append_assoc, h, ih]
      rfl

/-- **A literal closes at its own quote**: from its opening quote on, the
literal of `s` reads as `s`, whatever follows it, provided that this is not
another quote. -/
theorem body_flatMap (h : Escapes d esc) (s rest : List UInt8) (hrest : rest.head? ≠ some squote) :
    d.body (s.flatMap esc ++ squote :: rest) = some (s, rest) := by
  have hstand : StandFor d esc (fun c => [c]) := h
  rw [body_of_standFor hstand s rest hrest, List.flatMap_singleton' s]

/-- Every quote and every backslash stands in a pair behind a backslash. -/
inductive NoBare : List UInt8 → Prop
  | nil : NoBare []
  | plain {c : UInt8} {s : List UInt8} : c ≠ squote → c ≠ backslash → NoBare s → NoBare (c :: s)
  | pair {c : UInt8} {s : List UInt8} : c = squote ∨ c = backslash → NoBare s → NoBare (backslash :: c :: s)

/-! ## texts -/

/-- A token of SQL text: a byte outside literals, or a literal by its value. -/
inductive Token
  | byte (c : UInt8)
  | lit (s : List UInt8)
deriving DecidableEq

/-- Split a text into tokens; `none` when a literal is never closed. -/
def Dialect.lex (d : Dialect) : List UInt8 → Option (List Token)
  | [] => some []
  | c :: s =>
      if c = squote then
        match _h : d.body s with
        | none => none
        | some r => (lex d r.2).map (Token.lit r.1 :: ·)
      else (lex d s).map (Token.byte c :: ·)
termination_by s => s.length
decreasing_by
  · have := length_body_lt d ‹_›
    simp only [List.length_cons]
    omega
  · simp

/-- The text of a token. -/
def Token.text (esc : UInt8 → List UInt8) : Token → List UInt8
  | .byte c => [c]
  | .lit s => quoted esc s

/-- The text of a token sequence. -/
def render (esc : UInt8 → List UInt8) (ts : List Token) : List UInt8 := ts.flatMap (Token.text esc)

/-- No quote outside the literals, and no two literals side by side. -/
def Separated : List Token → Prop
  | [] => True
  | .byte c :: ts => c ≠ squote ∧ Separated ts
  | .lit _ :: ts => (∀ s, ts.head? ≠ some (.lit s)) ∧ Separated ts

/-- Plain text as tokens. -/
def plain (s : List UInt8) : List Token := s.map .byte

@[simp] theorem render_nil : render esc [] = [] := rfl

@[simp] theorem render_append (ts ts' : List Token) :
    render esc (ts ++ ts') = render esc ts ++ render esc ts' := by
  simp [render]

@[simp] theorem render_byte_cons (c : UInt8) (ts : List Token) :
    render esc (.byte c :: ts) = c :: render esc ts := rfl

@[simp] theorem render_lit_cons (s : List UInt8) (ts : List Token) :
    render esc (.lit s :: ts) = quoted esc s ++ render esc ts := rfl

@[simp] theorem render_plain (s : List UInt8) : render esc (plain s) = s := by
  induction s with
  | nil => rfl
  | cons c s ih => simpa [plain] using ih

theorem render_flatMap {α : Type} (f : α → List Token) (l : List α) :
    render esc (l.flatMap f) = l.flatMap fun a => render esc (f a) :=
  List.flatMap_assoc

/-- Token sequences with a byte between them go together. -/
theorem Separated.append_byte {ts ts' : List Token} {c : UInt8} (h : Separated ts)
    (h' : Separated (.byte c :: ts')) : Separated (ts ++ .byte c :: ts') := by
  induction ts with
  | nil => exact h'
  | cons t ts ih =>
      cases t with
      | byte b => exact ⟨h.1, ih h.2⟩
      | lit s =>
          refine ⟨?_, ih h.2⟩
          intro u
          cases ts with
          | nil => simp
          | cons t ts => exact h.1 u

/-- What may be put in front of any text: it does not end with a literal. -/
def Joins (ts : List Token) : Prop := ∀ ts', Separated ts' → Separated (ts ++ ts')

theorem Joins.separated {ts : List Token} (h : Joins ts) : Separated ts := by
  simpa using h [] trivial

theorem Joins.append {ts ts' : List Token} (h : Joins ts) (h' : Joins ts') : Joins (ts ++ ts') := by
  intro ts'' hs
  rw [List.append_assoc]
  exact h _ (h' _ hs)

theorem Joins.flatMap {α : Type} {f : α → List Token} {l : List α} (h : ∀ a ∈ l, Joins (f a)) :
    Joins (l.flatMap f) := by
  induction l with
  | nil => exact fun _ hs => hs
  | cons a l ih =>
      rw [List.flatMap_cons]
      exact (h a (List.mem_cons_self ..)).append (ih fun x hx => h x (List.mem_cons_of_mem _ hx))

theorem joins_plain {s : List UInt8} (h : squote ∉ s) : Joins (plain s) := by
  intro ts ht
  induction s with
  | nil => exact ht
  | cons c s ih =>
      rw [List.mem_cons, not_or] at h
      exact ⟨Ne.symm h.1, ih h.2⟩

/-- Plain text closes off what stands before it. -/
theorem Separated.joins_plain {ts : List Token} (h : Separated ts) {s : List UInt8} (hne : s ≠ [])
    (hs : squote ∉ s) : Joins (ts ++ plain s) := by
  intro ts' ht
  cases s with
  | nil => contradiction
  | cons c s =>
      rw [List.append_assoc]
      exact h.append_byte (SqlLiteral.joins_plain hs ts' ht)

/-- A literal with plain text behind it. -/
theorem joins_lit_plain (s : List UInt8) {t : List UInt8} (hne : t ≠ []) (ht : squote ∉ t) :
    Joins (.lit s :: plain t) :=
  have hs : Separated [.lit s] := ⟨by simp, trivial⟩
  hs.joins_plain hne ht

/-- The text after a literal does not go on with a quote. -/
theorem head?_render {ts : List Token} (h : Separated ts) (hl : ∀ s, ts.head? ≠ some (.lit s)) :
    (render esc ts).head? ≠ some squote := by
  cases ts with
  | nil => simp
  | cons t ts =>
      cases t with
      | byte c => simpa using h.1
      | lit s => simp at hl

/-- **Texts read back**: a separated token sequence is what its text is read
as. -/
theorem lex_render (hesc : Escapes d esc) {ts : List Token} (h : Separated ts) :
    d.lex (render esc ts) = some ts := by
  induction ts with
  | nil => simp [Dialect.lex]
  | cons t ts ih =>
      cases t with
      | byte c =>
          rw [render_byte_cons, Dialect.lex, if_neg h.1, ih h.2]
          rfl
      | lit s =>
          have hb : d.body (s.flatMap esc ++ squote :: render esc ts) = some (s, render esc ts) :=
            body_flatMap hesc s _ (head?_render h.2 h.1)
          rw [render_lit_cons, quoted, List.append_assoc, List.singleton_append, List.cons_append,
            Dialect.lex, if_pos rfl]
          split
          · next hn => rw [hb] at hn; cases hn
          · next r hr =>
              rw [hb, Option.some.injEq] at hr
              rw [← hr, ih h.2]
              rfl

/-- A literal body without quotes is never closed. -/
theorem body_eq_none {s : List UInt8} (h : squote ∉ s) : d.body s = none := by
  fun_induction Dialect.body d s with
  | case1 | case6 => rfl
  | case2 | case3 | case4 => exact absurd (List.mem_cons_self ..) h
  | case5 c s hc hd ih => rw [ih fun hm => h (List.mem_cons_of_mem _ hm), Option.map_none]
  | case7 unescape hd c' s' hc ih =>
      rw [ih fun hm => h (List.mem_cons_of_mem _ (List.mem_cons_of_mem _ hm)), Option.map_none]
  | case8 c s hc unescape hd hb ih => rw [ih fun hm => h (List.mem_cons_of_mem _ hm), Option.map_none]

/-- **An open literal is noticed**: a text whose last quote opens a literal has
no tokens. -/
theorem lex_render_open (hesc : Escapes d esc) {ts : List Token} (h : Separated (ts ++ [.lit []]))
    {s : List UInt8} (hs : squote ∉ s) : d.lex (render esc ts ++ squote :: s) = none := by
  induction ts with
  | nil =>
      rw [render_nil, List.nil_append, Dialect.lex, if_pos rfl]
      split
      · rfl
      · next r hr => rw [body_eq_none hs] at hr; cases hr
  | cons t ts ih =>
      cases t with
      | byte c =>
          rw [render_byte_cons, List.cons_append, Dialect.lex, if_neg h.1, ih h.2, Option.map_none]
      | lit u =>
          have hhead : (render esc ts ++ squote :: s).head? ≠ some squote := by
            cases ts with
            | nil => exact absurd rfl (h.1 [])
            | cons t ts =>
                cases t with
                | byte c => simpa using h.2.1
                | lit w => exact absurd rfl (h.1 w)
          have hb := body_flatMap hesc u _ hhead
          rw [render_lit_cons, quoted, List.append_assoc, List.append_assoc, List.singleton_append,
            List.cons_append, Dialect.lex, if_pos rfl]
          split
          · rfl
          · next r hr =>
              rw [hb, Option.some.injEq] at hr
              rw [← hr, ih h.2, Option.map_none]

end SqlLiteral
