import Zabbix.Lib.Ascii
import Mathlib.Tactic

/-!
# Braces

Texts with parts in braces, such as the macros of a template.  A text is cut
into its pieces, which are bytes outside of braces and what stands between a
brace and the one that closes it; putting the pieces together again gives the
text (`render_read`).  A rewriting of what the braces hold is a map over the
pieces.
-/

namespace Braces

open Ascii

/-- A byte, what stands between braces, or what follows a brace that is not closed. -/
inductive Piece
  | text (c : UInt8)
  | braced (s : List UInt8)
  | unclosed (s : List UInt8)
deriving DecidableEq, Repr

/-- The pieces of what is left, with `some` of what is behind an open brace. -/
def read : Option (List UInt8) → List UInt8 → List Piece
  | none, [] => []
  | some s, [] => [.unclosed s]
  | none, c :: t => if c = lbrace then read (some []) t else .text c :: read none t
  | some s, c :: t => if c = rbrace then .braced s :: read none t else read (some (s ++ [c])) t

attribute [grind =] read

/-- The pieces of a text. -/
def pieces (t : List UInt8) : List Piece := read none t

/-- The text of a piece. -/
def Piece.render : Piece → List UInt8
  | .text c => [c]
  | .braced s => lbrace :: (s ++ [rbrace])
  | .unclosed s => lbrace :: s

/-- The text of pieces. -/
def render (ps : List Piece) : List UInt8 := ps.flatMap Piece.render

@[simp] theorem render_nil : render [] = [] := rfl

@[simp] theorem render_cons (p : Piece) (ps : List Piece) : render (p :: ps) = p.render ++ render ps := rfl

/-- What stands before the rest when it is read. -/
def opened : Option (List UInt8) → List UInt8
  | none => []
  | some s => lbrace :: s

/-- Pieces as they are read: what is braced has no closing brace in it, and what
is not closed comes last. -/
inductive Regular : List Piece → Prop
  | nil : Regular []
  | text {c : UInt8} {ps : List Piece} : Regular ps → Regular (.text c :: ps)
  | braced {s : List UInt8} {ps : List Piece} : rbrace ∉ s → Regular ps → Regular (.braced s :: ps)
  | unclosed {s : List UInt8} : Regular [.unclosed s]

theorem regular_read (o : Option (List UInt8)) (t : List UInt8) (h : ∀ s, o = some s → rbrace ∉ s) :
    Regular (read o t) := by
  fun_induction read o t with
  | case1 => exact .nil
  | case2 s => exact .unclosed
  | case3 t ih => exact ih fun s hs => by obtain rfl := Option.some.inj hs; exact List.not_mem_nil
  | case4 c t hc ih => exact .text (ih h)
  | case5 s t ih => exact .braced (h s rfl) (ih fun s hs => nomatch hs)
  | case6 s c t hc ih =>
      refine ih fun s' hs => ?_
      obtain rfl := Option.some.inj hs
      have hs := h s rfl
      simp only [List.mem_append, List.mem_singleton, not_or]
      exact ⟨hs, fun h => hc h.symm⟩

theorem regular_pieces (t : List UInt8) : Regular (pieces t) := regular_read none t fun _ h => nomatch h

/-- What is braced has no closing brace in it. -/
theorem Regular.not_mem {ps : List Piece} (h : Regular ps) {u : List UInt8} (hu : .braced u ∈ ps) : rbrace ∉ u := by
  induction h with
  | nil => cases hu
  | text _ ih => exact ih (by simpa using hu)
  | @braced s ps hs _ ih =>
      rcases List.mem_cons.mp hu with heq | hu
      · rwa [Piece.braced.inj heq]
      · exact ih hu
  | unclosed => simp at hu

theorem pieces_append {w : List UInt8} (h : lbrace ∉ w) (t : List UInt8) :
    pieces (w ++ t) = w.map .text ++ pieces t := by
  induction w with
  | nil => rfl
  | cons c w ih =>
      obtain ⟨hc, hw⟩ := List.ne_and_not_mem_of_not_mem_cons h
      rw [List.cons_append, pieces, read, if_neg (Ne.symm hc)]
      exact congrArg (.text c :: ·) (ih hw)

theorem pieces_of_not_mem {w : List UInt8} (h : lbrace ∉ w) : pieces w = w.map .text := by
  have happend := pieces_append h []
  rwa [List.append_nil, show pieces [] = [] from rfl, List.append_nil] at happend

theorem read_some_append (s : List UInt8) {u : List UInt8} (h : rbrace ∉ u) (t : List UInt8) :
    read (some s) (u ++ t) = read (some (s ++ u)) t := by
  induction u generalizing s with
  | nil => rw [List.nil_append, List.append_nil]
  | cons c u ih =>
      obtain ⟨hc, hu⟩ := List.ne_and_not_mem_of_not_mem_cons h
      rw [List.cons_append, read, if_neg (Ne.symm hc), ih _ hu, List.append_assoc]
      rfl

/-- What stands between a brace and the first one that closes. -/
theorem pieces_braced {u : List UInt8} (h : rbrace ∉ u) (t : List UInt8) :
    pieces (lbrace :: (u ++ rbrace :: t)) = .braced u :: pieces t := by
  rw [pieces, read, if_pos rfl, read_some_append [] h, List.nil_append, read, if_pos rfl, pieces]

theorem pieces_unclosed {u : List UInt8} (h : rbrace ∉ u) : pieces (lbrace :: u) = [.unclosed u] := by
  have hread := read_some_append [] h []
  rw [List.append_nil, List.nil_append] at hread
  rw [pieces, read, if_pos rfl, hread, read]

/-- What is braced in front of a brace that closes, if nothing behind it is. -/
theorem mem_read_closed {u t : List UInt8} (w : List UInt8) (o : Option (List UInt8))
    (h : .braced u ∈ read o (w ++ rbrace :: t)) : u ⊆ o.getD [] ++ w ∨ .braced u ∈ pieces t := by
  induction w generalizing o with
  | nil =>
      cases o with
      | none =>
          rw [List.nil_append, read, if_neg (by decide)] at h
          exact .inr (by simpa [pieces] using h)
      | some s =>
          rw [List.nil_append, read, if_pos rfl, List.mem_cons] at h
          rcases h with heq | h
          · obtain rfl := Piece.braced.inj heq
            exact .inl (List.subset_append_left _ _)
          · exact .inr h
  | cons c w ih =>
      have htail : ∀ {s : List UInt8}, u ⊆ w → u ⊆ s ++ c :: w := fun hsub a ha =>
        List.mem_append_right _ (List.mem_cons_of_mem _ (hsub ha))
      cases o with
      | none =>
          rw [List.cons_append, read] at h
          split at h
          · exact (ih _ h).imp_left htail
          · exact (ih none (by simpa using h)).imp_left htail
      | some s =>
          rw [List.cons_append, read] at h
          split at h
          · rcases List.mem_cons.mp h with heq | h
            · obtain rfl := Piece.braced.inj heq
              exact .inl (List.subset_append_left _ _)
            · exact (ih none h).imp_left htail
          · exact (ih _ h).imp_left fun hsub => by simpa using hsub

theorem mem_pieces_closed {u w t : List UInt8} (h : .braced u ∈ pieces (lbrace :: (w ++ rbrace :: t))) :
    u ⊆ w ∨ .braced u ∈ pieces t := by
  rw [pieces, read, if_pos rfl] at h
  exact mem_read_closed w (some []) h

/-- Up to the closing brace two texts agree as a whole. -/
theorem take_braced_iff {a a' b b' : List UInt8} {n : ℕ} (ha : rbrace ∉ a) (ha' : rbrace ∉ a') :
    (a ++ rbrace :: b).take n = a' ++ rbrace :: b' ↔
      a = a' ∧ a.length < n ∧ b.take (n - (a.length + 1)) = b' := by
  induction a generalizing a' n with
  | nil =>
      cases n with
      | zero => simp
      | succ n =>
          cases a' with
          | nil => simp
          | cons c a' =>
              have hc : rbrace ≠ c := fun hc => ha' (hc ▸ List.mem_cons_self)
              simp [hc]
  | cons c a ih =>
      cases n with
      | zero => simp
      | succ n =>
          cases a' with
          | nil =>
              have hc : c ≠ rbrace := fun hc => ha (hc ▸ List.mem_cons_self)
              simp [hc]
          | cons c' a' =>
              have hrest := @ih a' n (fun h => ha (List.mem_cons_of_mem _ h))
                fun h => ha' (List.mem_cons_of_mem _ h)
              rw [List.cons_append, List.take_succ_cons, List.cons_append, List.cons.injEq, hrest,
                List.cons.injEq, List.length_cons, Nat.add_lt_add_iff_right, Nat.add_sub_add_right, and_assoc]

end Braces
