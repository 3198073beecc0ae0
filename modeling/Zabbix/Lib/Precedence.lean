import Mathlib.Data.List.Basic
import Mathlib.Tactic

/-!
# Precedence

Evaluation of flat operator expressions: a first operand and a list of
operators, each with the operand to its right.

The operators come in levels, from the lowest precedence to the highest.
`evalLeft` is the standard reading: split at every operator of the lowest
level, evaluate the segments at the levels above, and combine them from the
left.  `evalRight` combines them from the right, which is what an evaluator
does that splits at the first operator of the lowest level and recurs on both
sides (`evalRight_append_cons`).  The two agree when every operator either is
associative or does not repeat within a segment (`evalRight_eq`).
-/

namespace Precedence

variable {ω α β : Type} [DecidableEq ω]

/-! ## segments -/

/-- Split at the operator `op`: what stands before its first occurrence, and
the segments behind its occurrences, each with its first operand. -/
def segments (op : ω) : List (ω × α) → List (ω × α) × List (α × List (ω × α))
  | [] => ([], [])
  | (o, y) :: rest =>
      if o = op then ([], (y, (segments op rest).1) :: (segments op rest).2)
      else ((o, y) :: (segments op rest).1, (segments op rest).2)

@[simp] theorem segments_nil (op : ω) : segments (α := α) op [] = ([], []) := rfl

theorem segments_cons_self (op : ω) (y : α) (rest : List (ω × α)) :
    segments op ((op, y) :: rest) = ([], (y, (segments op rest).1) :: (segments op rest).2) := by
  rw [segments, if_pos rfl]

theorem segments_cons_of_ne {op o : ω} (h : o ≠ op) (y : α) (rest : List (ω × α)) :
    segments op ((o, y) :: rest) = ((o, y) :: (segments op rest).1, (segments op rest).2) := by
  rw [segments, if_neg h]

/-- Nothing before the operator changes. -/
theorem segments_append {op : ω} {before : List (ω × α)} (h : op ∉ before.map Prod.fst)
    (rest : List (ω × α)) :
    segments op (before ++ rest) = (before ++ (segments op rest).1, (segments op rest).2) := by
  induction before with
  | nil => rfl
  | cons p before ih =>
      obtain ⟨o, y⟩ := p
      rw [List.map_cons, List.mem_cons, not_or] at h
      rw [List.cons_append, segments_cons_of_ne (Ne.symm h.1), ih h.2]
      rfl

theorem segments_of_not_mem {op : ω} {rest : List (ω × α)} (h : op ∉ rest.map Prod.fst) :
    segments op rest = (rest, []) := by
  have hs := segments_append h []
  simpa using hs

/-! ## evaluation -/

/-- The standard reading, with operators of one level associating to the
left. -/
def evalLeft (f : ω → α → α → α) : List ω → α → List (ω × α) → α
  | [], v, _ => v
  | op :: ops, v, rest =>
      ((segments op rest).2.map fun s => evalLeft f ops s.1 s.2).foldl (f op)
        (evalLeft f ops v (segments op rest).1)

/-- Combine from the right. -/
def foldRight (f : β → β → β) : β → List β → β
  | v, [] => v
  | v, w :: ws => f v (foldRight f w ws)

/-- The reading with operators of one level associating to the right. -/
def evalRight (run : ω → β → β → β) (leaf : α → β) : List ω → α → List (ω × α) → β
  | [], v, _ => leaf v
  | op :: ops, v, rest =>
      foldRight (run op) (evalRight run leaf ops v (segments op rest).1)
        ((segments op rest).2.map fun s => evalRight run leaf ops s.1 s.2)

/-- A level without occurrences does nothing. -/
theorem evalRight_of_not_mem (run : ω → β → β → β) (leaf : α → β) {op : ω} (ops : List ω) (v : α)
    {rest : List (ω × α)} (h : op ∉ rest.map Prod.fst) :
    evalRight run leaf (op :: ops) v rest = evalRight run leaf ops v rest := by
  rw [evalRight, segments_of_not_mem h]
  rfl

/-- **Splitting at the first occurrence** is the right-associating reading. -/
theorem evalRight_append_cons (run : ω → β → β → β) (leaf : α → β) {op : ω} (ops : List ω) (v y : α)
    {before : List (ω × α)} (h : op ∉ before.map Prod.fst) (rest : List (ω × α)) :
    evalRight run leaf (op :: ops) v (before ++ (op, y) :: rest) =
      run op (evalRight run leaf ops v before) (evalRight run leaf (op :: ops) y rest) := by
  rw [evalRight, segments_append h, segments_cons_self]
  simp [foldRight, evalRight]

/-! ## where the two readings agree -/

/-- An operator that is not associative occurs at most once in each segment of
its level. -/
def Unchained (assoc : ω → Prop) : List ω → List (ω × α) → Prop
  | [], _ => True
  | op :: ops, rest =>
      (assoc op ∨ (segments op rest).2.length ≤ 1) ∧ Unchained assoc ops (segments op rest).1 ∧
        ∀ s ∈ (segments op rest).2, Unchained assoc ops s.2

/-- Every right operand of an operator, as the standard reading evaluates it,
is admissible for the operator. -/
def Admissible (f : ω → α → α → α) (ok : ω → α → Prop) : List ω → List (ω × α) → Prop
  | [], _ => True
  | op :: ops, rest =>
      (∀ s ∈ (segments op rest).2, ok op (evalLeft f ops s.1 s.2)) ∧
        Admissible f ok ops (segments op rest).1 ∧
        ∀ s ∈ (segments op rest).2, Admissible f ok ops s.2

/-- An associative operation may be combined from either side, and so may two
operands. -/
theorem foldRight_eq_foldl {f : α → α → α} {v : α} {ws : List α}
    (h : (∀ a b c, f (f a b) c = f a (f b c)) ∨ ws.length ≤ 1) :
    foldRight f v ws = ws.foldl f v := by
  induction ws generalizing v with
  | nil => rfl
  | cons w ws ih =>
      rcases h with h | hlen
      · have : Std.Associative f := ⟨h⟩
        rw [foldRight, ih (.inl h), List.foldl_cons, List.foldl_assoc]
      · rw [List.eq_nil_of_length_eq_zero (by simpa using hlen : ws.length = 0)]
        rfl

/-- An operation that succeeds on admissible operands succeeds from the
right. -/
theorem foldRight_some {f : α → α → α} {run : Option α → Option α → Option α} {ok : α → Prop}
    (hrun : ∀ a b, ok b → run (some a) (some b) = some (f a b)) (v : α) {ws : List α}
    (h : (∀ b, ok b) ∨ ws.length ≤ 1 ∧ ∀ w ∈ ws, ok w) :
    foldRight run (some v) (ws.map some) = some (foldRight f v ws) := by
  induction ws generalizing v with
  | nil => rfl
  | cons w ws ih =>
      rcases h with h | ⟨hlen, h⟩
      · rw [List.map_cons, foldRight, ih w (.inl h), hrun v _ (h _), foldRight]
      · rw [List.eq_nil_of_length_eq_zero (by simpa using hlen : ws.length = 0)]
        exact hrun v w (h w (List.mem_cons_self ..))

/-- **The readings agree** on expressions without chains of an operator that
is not associative, when all operands are admissible. -/
theorem evalRight_eq {f : ω → α → α → α} {run : ω → Option α → Option α → Option α}
    {assoc : ω → Prop} {ok : ω → α → Prop}
    (hassoc : ∀ op, assoc op → ∀ a b c, f op (f op a b) c = f op a (f op b c))
    (hok : ∀ op, assoc op → ∀ b, ok op b)
    (hrun : ∀ op a b, ok op b → run op (some a) (some b) = some (f op a b))
    (ops : List ω) (v : α) (rest : List (ω × α)) (hu : Unchained assoc ops rest)
    (ha : Admissible f ok ops rest) :
    evalRight run some ops v rest = some (evalLeft f ops v rest) := by
  induction ops generalizing v rest with
  | nil => rfl
  | cons op ops ih =>
      obtain ⟨hchain, hu0, hus⟩ := hu
      obtain ⟨hadm, ha0, has⟩ := ha
      have hsegs : ((segments op rest).2.map fun s => evalRight run some ops s.1 s.2) =
          ((segments op rest).2.map fun s => evalLeft f ops s.1 s.2).map some := by
        rw [List.map_map]
        exact List.map_congr_left fun s hs => ih s.1 s.2 (hus s hs) (has s hs)
      have hvals : ∀ w ∈ (segments op rest).2.map fun s => evalLeft f ops s.1 s.2, ok op w := by
        intro w hw
        obtain ⟨s, hs, rfl⟩ := List.mem_map.mp hw
        exact hadm s hs
      rw [evalRight, ih v _ hu0 ha0, hsegs, evalLeft]
      rcases hchain with hop | hlen
      · rw [foldRight_some (hrun op) _ (.inl (hok op hop)), foldRight_eq_foldl (.inl (hassoc op hop))]
      · rw [foldRight_some (hrun op) _ (.inr ⟨by simpa using hlen, hvals⟩),
          foldRight_eq_foldl (.inr (by simpa using hlen))]

/-! ## conditions by position -/

/-- The first occurrence of an operator. -/
theorem exists_first {op : ω} {rest : List (ω × α)} (h : op ∈ rest.map Prod.fst) :
    ∃ before y after, rest = before ++ (op, y) :: after ∧ op ∉ before.map Prod.fst := by
  induction rest with
  | nil => cases h
  | cons p rest ih =>
      obtain ⟨o, y⟩ := p
      by_cases ho : o = op
      · exact ⟨[], y, rest, by rw [ho]; rfl, by simp⟩
      · have hm : op ∈ rest.map Prod.fst := by
          rw [List.map_cons, List.mem_cons] at h
          exact h.resolve_left (Ne.symm ho)
        obtain ⟨before, y', after, rfl, hb⟩ := ih hm
        exact ⟨(o, y) :: before, y', after, rfl, by simpa [Ne.symm ho] using hb⟩

theorem segments_fst_initial (op : ω) (rest : List (ω × α)) : (segments op rest).1 <+: rest := by
  induction rest with
  | nil => exact List.nil_prefix
  | cons p rest ih =>
      obtain ⟨o, y⟩ := p
      by_cases ho : o = op
      · rw [ho, segments_cons_self]
        exact List.nil_prefix
      · rw [segments_cons_of_ne ho]
        exact List.cons_prefix_cons.mpr ⟨rfl, ih⟩

/-- What stands before the first occurrence is a part of the expression
without the operator. -/
theorem segments_fst (op : ω) (rest : List (ω × α)) :
    (segments op rest).1 <:+: rest ∧ op ∉ (segments op rest).1.map Prod.fst := by
  refine ⟨(segments_fst_initial op rest).isInfix, ?_⟩
  induction rest with
  | nil => simp
  | cons p rest ih =>
      obtain ⟨o, y⟩ := p
      by_cases ho : o = op
      · rw [ho, segments_cons_self]
        simp
      · rw [segments_cons_of_ne ho]
        simpa [Ne.symm ho] using ih

/-- So is each segment behind an occurrence. -/
theorem segments_snd (op : ω) {rest : List (ω × α)} {s : α × List (ω × α)}
    (h : s ∈ (segments op rest).2) :
    (op, s.1) ∈ rest ∧ s.2 <:+: rest ∧ op ∉ s.2.map Prod.fst := by
  induction rest with
  | nil => cases h
  | cons p rest ih =>
      obtain ⟨o, y⟩ := p
      by_cases ho : o = op
      · rw [ho, segments_cons_self] at h
        rcases List.mem_cons.mp h with rfl | hm
        · obtain ⟨hi, hn⟩ := segments_fst op rest
          exact ⟨by simp [ho], hi.trans (List.suffix_cons _ _).isInfix, hn⟩
        · obtain ⟨h1, h2, h3⟩ := ih hm
          exact ⟨List.mem_cons_of_mem _ h1, h2.trans (List.suffix_cons _ _).isInfix, h3⟩
      · rw [segments_cons_of_ne ho] at h
        obtain ⟨h1, h2, h3⟩ := ih h
        exact ⟨List.mem_cons_of_mem _ h1, h2.trans (List.suffix_cons _ _).isInfix, h3⟩

/-- Between two occurrences of `op` stands an operator of `lower`. -/
def Apart (lower : ω → Prop) (op : ω) (rest : List (ω × α)) : Prop :=
  ∀ a x b y c, rest = a ++ (op, x) :: (b ++ (op, y) :: c) → ∃ p ∈ b, lower p.1

omit [DecidableEq ω] in
theorem Apart.of_infix {lower : ω → Prop} {op : ω} {rest part : List (ω × α)}
    (h : Apart lower op rest) (hp : part <:+: rest) : Apart lower op part := by
  obtain ⟨u, v, rfl⟩ := hp
  rintro a x b y c rfl
  exact h (u ++ a) x b y (c ++ v) (by simp)

/-- When nothing lower occurs at all, the operator does not repeat. -/
theorem length_segments_le {lower : ω → Prop} {op : ω} {rest : List (ω × α)}
    (h : Apart lower op rest) (hlow : ∀ p ∈ rest, ¬lower p.1) : (segments op rest).2.length ≤ 1 := by
  by_cases h1 : op ∈ rest.map Prod.fst
  · obtain ⟨before, x, after, rfl, hb⟩ := exists_first h1
    by_cases h2 : op ∈ after.map Prod.fst
    · obtain ⟨between, y, rest, rfl, -⟩ := exists_first h2
      obtain ⟨p, hp, hl⟩ := h before x between y rest rfl
      exact absurd hl (hlow p (by simp [hp]))
    · rw [segments_append hb, segments_cons_self, segments_of_not_mem h2]
      simp
  · rw [segments_of_not_mem h1]
    simp

/-- An expression is unchained when every operator that is not associative is
kept apart by operators of lower precedence. -/
theorem unchained_of_apart {assoc : ω → Prop} {levels : List ω} (hnodup : levels.Nodup)
    {pre ops : List ω} (hlevels : levels = pre ++ ops) {rest : List (ω × α)}
    (hmem : ∀ p ∈ rest, p.1 ∈ ops)
    (h : ∀ op, assoc op ∨ Apart (fun o => levels.idxOf o < levels.idxOf op) op rest) :
    Unchained assoc ops rest := by
  induction ops generalizing pre rest with
  | nil => trivial
  | cons op ops ih =>
      have hlevels' : levels = (pre ++ [op]) ++ ops := by simp [hlevels]
      have hpart : ∀ part, part <:+: rest → op ∉ part.map Prod.fst → Unchained assoc ops part := by
        intro part hp hnot
        apply ih hlevels'
        · intro p hpart
          have hin := hmem p (hp.subset hpart)
          rw [List.mem_cons] at hin
          refine hin.resolve_left ?_
          rintro rfl
          exact hnot (List.mem_map_of_mem hpart)
        · intro o
          exact (h o).imp_right fun ha => ha.of_infix hp
      refine ⟨?_, hpart _ (segments_fst op rest).1 (segments_fst op rest).2, ?_⟩
      · refine (h op).imp_right fun ha => length_segments_le ha ?_
        intro p hp hlt
        have hin := hmem p hp
        rw [hlevels] at hlt hnodup
        have hpre : p.1 ∉ pre := fun hpre =>
          (List.nodup_append.mp hnodup).2.2 p.1 hpre p.1 hin rfl
        have hop : op ∉ pre := fun hpre =>
          (List.nodup_append.mp hnodup).2.2 op hpre op (List.mem_cons_self ..) rfl
        rw [List.idxOf_append_of_notMem hpre, List.idxOf_append_of_notMem hop,
          List.idxOf_cons_self] at hlt
        omega
      · intro s hs
        obtain ⟨-, h2, h3⟩ := segments_snd op hs
        exact hpart _ h2 h3

/-- When only the operator of the highest precedence restricts its operands,
these are single operands of the expression. -/
theorem admissible_of_last {f : ω → α → α → α} {ok : ω → α → Prop} {last : ω} {ops : List ω}
    (hops : ∀ op ∈ ops, ∀ b, ok op b) {rest : List (ω × α)} (h : ∀ y, (last, y) ∈ rest → ok last y) :
    Admissible f ok (ops ++ [last]) rest := by
  induction ops generalizing rest with
  | nil => exact ⟨fun s hs => h s.1 (segments_snd last hs).1, trivial, fun _ _ => trivial⟩
  | cons op ops ih =>
      have hpart : ∀ part, part <:+: rest → Admissible f ok (ops ++ [last]) part := fun part hp =>
        ih (fun o ho => hops o (List.mem_cons_of_mem _ ho)) fun y hy => h y (hp.subset hy)
      exact ⟨fun s _ => hops op (List.mem_cons_self ..) _, hpart _ (segments_fst op rest).1,
        fun s hs => hpart _ (segments_snd op hs).2.1⟩

end Precedence
