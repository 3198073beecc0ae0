import Mathlib.Data.List.Chain
import Zabbix.Lib.Propagate

/-!
# Forest

Graphs in which every node has one parent at most, and no way leads back to where
it starts.  `child a b` says that `b` is a child of `a`.

A node and one below it determine the child to go through (`hop_unique`), and
going through such children leads there, in no more steps than there are nodes
(`exists_route`).
-/

namespace Forest

open Propagate Relation

variable {α : Type} (child : α → α → Prop)

/-- One parent at most. -/
def OneParent : Prop := ∀ a b c, child a c → child b c → a = b

variable {child}

/-- Of two nodes above one, one is above the other. -/
theorem above_total (h : OneParent child) {a b c : α} (ha : ReflTransGen child a c) (hb : ReflTransGen child b c) :
    ReflTransGen child a b ∨ ReflTransGen child b a := by
  induction ha using ReflTransGen.head_induction_on with
  | refl => exact .inr hb
  | @head a d had hdc ih =>
      rcases ih with hdb | hbd
      · exact .inl (.head had hdb)
      · rcases ReflTransGen.cases_tail hbd with rfl | ⟨e, hbe, hed⟩
        · exact .inl (.single had)
        · obtain rfl := h a e d had hed
          exact .inr hbe

/-- **One child leads** to a node below. -/
theorem hop_unique (h : OneParent child) (hacyclic : Acyclic child) {a b c c' : α} (hc : child a c)
    (hcb : ReflTransGen child c b) (hc' : child a c') (hcb' : ReflTransGen child c' b) : c = c' := by
  -- A way from one child to the other comes back to the parent.
  have hback {d e : α} (hd : child a d) (he : child a e) (hde : ReflTransGen child d e) : d = e := by
    rcases ReflTransGen.cases_tail hde with rfl | ⟨f, hdf, hfe⟩
    · rfl
    · obtain rfl := h a f e he hfe
      exact absurd (TransGen.head' hd hdf) (hacyclic a)
  rcases above_total h hcb hcb' with hle | hle
  · exact hback hc hc' hle
  · exact (hback hc' hc hle).symm

/-- **Hops that go down towards a node reach it.** -/
theorem exists_route {hop : α → α → Prop} {b : α} {height : α → ℕ} (hheight : ∀ a c, child a c → height c < height a)
    (hhop : ∀ a, a ≠ b → ReflTransGen child a b → ∃ c, hop a c ∧ child a c ∧ ReflTransGen child c b) {a : α}
    (hab : ReflTransGen child a b) :
    ∃ route : List α, (a :: route).IsChain hop ∧ (a :: route).getLast? = some b ∧
      route.length ≤ height a := by
  by_cases heq : a = b
  · exact ⟨[], List.isChain_singleton a, congrArg some heq, Nat.zero_le _⟩
  · obtain ⟨c, hac, hchild, hcb⟩ := hhop a heq hab
    have hlt := hheight a c hchild
    obtain ⟨route, hchain, hlast, hlen⟩ := exists_route hheight hhop hcb
    refine ⟨c :: route, List.isChain_cons_cons.mpr ⟨hac, hchain⟩, ?_, ?_⟩
    · rwa [List.getLast?_cons_cons]
    · rw [List.length_cons]
      omega
termination_by height a

end Forest
