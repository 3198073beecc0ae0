import Mathlib.Data.Finset.Card
import Mathlib.Data.List.Basic
import Mathlib.Logic.Relation
import Mathlib.Tactic

/-!
# Propagate

Values that are computed from others, in a graph without cycles: `up a b` says
that the value of `b` is computed from that of `a`, and from others.

After a change of `a` something has to be computed anew, and some of it several
times, from values that are not final yet.  It is enough that behind each
computation there is a later one for everything above it (`Covers`): then all
values are right in the end (`right_of_covers`).  `Reaches` is what such an order
of computations is for: it takes in all that is above one node, and nothing else.

A climb that computes what is directly above, and then climbs from each of these
in turn, is of this kind (`Reaches.of_climbs`); it ends, because no way upwards
is longer than there are nodes (`exists_height`).
-/

namespace Propagate

variable {α σ : Type} (up : α → α → Prop)

/-- No way leads back to where it starts. -/
def Acyclic : Prop := ∀ a, ¬Relation.TransGen up a a

/-- Whatever is computed, all that is above it is computed later. -/
def Covers : List α → Prop
  | [] => True
  | a :: rest => (∀ b, up a b → b ∈ rest) ∧ Covers rest

/-- The nodes above one, in an order in which they can be computed. -/
structure Reaches (a : α) (nodes : List α) : Prop where
  covers : Covers up nodes
  direct : ∀ b, up a b → b ∈ nodes
  above : ∀ b ∈ nodes, Relation.TransGen up a b

/-- Computations one after the other. -/
inductive Steps (step : α → σ → σ → Prop) : List α → σ → σ → Prop
  | nil (s : σ) : Steps step [] s s
  | cons {a : α} {nodes : List α} {s s' t : σ} : step a s s' → Steps step nodes s' t → Steps step (a :: nodes) s t

variable {up} {step : α → σ → σ → Prop}

/-! ## orders -/

theorem Covers.append {nodes nodes' : List α} (h : Covers up nodes) (h' : Covers up nodes') :
    Covers up (nodes ++ nodes') := by
  induction nodes with
  | nil => exact h'
  | cons a rest ih => exact ⟨fun b hb => List.mem_append_left _ (h.1 b hb), ih h.2⟩

/-- Nodes with all that is above them behind. -/
theorem Covers.append_of_above {nodes nodes' : List α} (h : ∀ a ∈ nodes, ∀ b, up a b → b ∈ nodes')
    (h' : Covers up nodes') : Covers up (nodes ++ nodes') := by
  induction nodes with
  | nil => exact h'
  | cons a rest ih =>
      refine ⟨fun b hb => ?_, ih fun a ha => h a (List.mem_cons_of_mem _ ha)⟩
      exact List.mem_append_right _ (h a List.mem_cons_self b hb)

/-- What several climbs take in, from nodes one after the other. -/
inductive Climbs (up : α → α → Prop) : List α → List α → Prop
  | nil : Climbs up [] []
  | cons {a : α} {starts nodes nodes' : List α} :
      Reaches up a nodes → Climbs up starts nodes' → Climbs up (a :: starts) (nodes ++ nodes')

theorem Climbs.covers {starts nodes : List α} (h : Climbs up starts nodes) : Covers up nodes := by
  induction h with
  | nil => trivial
  | cons ha _ ih => exact ha.covers.append ih

theorem Climbs.direct {starts nodes : List α} (h : Climbs up starts nodes) {a b : α} (ha : a ∈ starts)
    (hb : up a b) : b ∈ nodes := by
  induction h with
  | nil => cases ha
  | cons hreach _ ih =>
      rcases List.mem_cons.mp ha with rfl | ha
      · exact List.mem_append_left _ (hreach.direct b hb)
      · exact List.mem_append_right _ (ih ha)

theorem Climbs.above {starts nodes : List α} (h : Climbs up starts nodes) {b : α} (hb : b ∈ nodes) :
    ∃ a ∈ starts, Relation.TransGen up a b := by
  induction h with
  | nil => cases hb
  | cons hreach _ ih =>
      rcases List.mem_append.mp hb with hb | hb
      · exact ⟨_, List.mem_cons_self, hreach.above b hb⟩
      · obtain ⟨a, ha, hab⟩ := ih hb
        exact ⟨a, List.mem_cons_of_mem _ ha, hab⟩

/-- **A climb**: what is directly above, and then what climbs from there take in. -/
theorem Reaches.of_climbs {a : α} {computed starts nodes : List α} (hcomputed : ∀ b, b ∈ computed ↔ up a b)
    (hstarts : ∀ b, b ∈ starts ↔ up a b) (h : Climbs up starts nodes) : Reaches up a (computed ++ nodes) where
  covers := Covers.append_of_above
    (fun b hb _ hc => h.direct ((hstarts b).mpr ((hcomputed b).mp hb)) hc) h.covers
  direct := fun b hb => List.mem_append_left _ ((hcomputed b).mpr hb)
  above := fun b hb => by
    rcases List.mem_append.mp hb with hb | hb
    · exact .single ((hcomputed b).mp hb)
    · obtain ⟨c, hc, hcb⟩ := h.above hb
      exact .head ((hstarts c).mp hc) hcb

/-! ## computations -/

theorem Steps.append {nodes nodes' : List α} {s t u : σ} (h : Steps step nodes s t) (h' : Steps step nodes' t u) :
    Steps step (nodes ++ nodes') s u := by
  induction h with
  | nil => exact h'
  | cons hstep _ ih => exact .cons hstep (ih h')

/-- What is kept by the computation of every one of the nodes. -/
theorem Steps.invariant {I : σ → Prop} {nodes : List α} {s t : σ} (h : Steps step nodes s t)
    (hstep : ∀ a ∈ nodes, ∀ s s', step a s s' → I s → I s') (hs : I s) : I t := by
  induction h with
  | nil => exact hs
  | cons ha _ ih =>
      exact ih (fun a hmem => hstep a (List.mem_cons_of_mem _ hmem)) (hstep _ List.mem_cons_self _ _ ha hs)

/-- What is so after the computation of a node, and is kept by that of the others. -/
theorem Steps.established {J : α → σ → Prop} {nodes : List α} {s t : σ} (h : Steps step nodes s t)
    (hself : ∀ a ∈ nodes, ∀ s s', step a s s' → J a s')
    (hkeep : ∀ a ∈ nodes, ∀ b ∈ nodes, ∀ s s', step b s s' → J a s → J a s') {a : α} (ha : a ∈ nodes) : J a t := by
  induction h with
  | nil => cases ha
  | @cons b nodes s s' t hstep hsteps ih =>
      by_cases hlater : a ∈ nodes
      · exact ih (fun a ha => hself a (List.mem_cons_of_mem _ ha))
          (fun a ha b hb => hkeep a (List.mem_cons_of_mem _ ha) b (List.mem_cons_of_mem _ hb)) hlater
      · obtain rfl : a = b := (List.mem_cons.mp ha).resolve_right hlater
        exact hsteps.invariant
          (fun b hb => hkeep a List.mem_cons_self b (List.mem_cons_of_mem _ hb))
          (hself a List.mem_cons_self s s' hstep)

/-- **The last computations see final values**: when a computation makes a value
right, and no other one wrong than those that are computed from it, all values
are right that have been before, and all that have been computed. -/
theorem right_of_covers {I : σ → Prop} (right : σ → α → Prop) (hinv : ∀ a s s', step a s s' → I s → I s')
    (hself : ∀ a s s', step a s s' → I s → right s' a)
    (hother : ∀ a b s s', step a s s' → I s → b ≠ a → ¬up a b → right s b → right s' b) {nodes : List α} {s t : σ}
    (hcovers : Covers up nodes) (h : Steps step nodes s t) (hs : I s) {b : α} (hb : b ∈ nodes ∨ right s b) :
    right t b := by
  induction h with
  | nil => exact hb.resolve_left List.not_mem_nil
  | @cons a nodes s s' t ha _ ih =>
      apply ih hcovers.2 (hinv a s s' ha hs)
      by_cases hlater : b ∈ nodes
      · exact .inl hlater
      · right
        by_cases hba : b = a
        · rw [hba]
          exact hself a s s' ha hs
        · have hright : right s b := hb.resolve_left fun hmem => hlater (List.mem_of_ne_of_mem hba hmem)
          exact hother a b s s' ha hs hba (fun hup => hlater (hcovers.1 b hup)) hright

/-! ## how high a climb goes -/

/-- **Heights**: they go down with every step upwards, and are not above the
number of nodes that have something below them. -/
theorem exists_height (h : Acyclic up) (nodes : Finset α) (hnodes : ∀ a b, up a b → b ∈ nodes) :
    ∃ height : α → ℕ, (∀ a, height a ≤ nodes.card) ∧ ∀ a b, up a b → height b < height a := by
  classical
  refine ⟨fun a => (nodes.filter (Relation.TransGen up a)).card, fun a => Finset.card_filter_le _ _, ?_⟩
  intro a b hab
  apply Finset.card_lt_card
  rw [Finset.ssubset_iff_of_subset]
  · refine ⟨b, ?_, ?_⟩
    · exact Finset.mem_filter.mpr ⟨hnodes a b hab, .single hab⟩
    · exact fun hmem => h b (Finset.mem_filter.mp hmem).2
  · intro c hc
    obtain ⟨hmem, hbc⟩ := Finset.mem_filter.mp hc
    exact Finset.mem_filter.mpr ⟨hmem, .head hab hbc⟩

/-- Numbers that go up with every step leave no way back. -/
theorem acyclic_of_lt (rank : α → ℕ) (h : ∀ a b, up a b → rank a < rank b) : Acyclic up := by
  have htrans {a b : α} (hab : Relation.TransGen up a b) : rank a < rank b := by
    induction hab with
    | single hup => exact h _ _ hup
    | tail _ hup ih => exact ih.trans (h _ _ hup)
  exact fun a haa => lt_irrefl _ (htrans haa)

end Propagate
