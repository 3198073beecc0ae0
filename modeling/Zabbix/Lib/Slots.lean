import Mathlib.Algebra.Order.Group.Unbundled.Int
import Mathlib.Data.Int.Interval
import Mathlib.Data.List.Perm.Basic
import Mathlib.Tactic

/-!
# Slots

A fixed number of slots for stamped entries.  An entry goes into the first slot
whose own entry is too old for it; when no slot is, the entry is lost.

* `reuse`: the slot taken, `reuse_eq_some` what stands in the slots then;
* `Retained`: what the slots hold after a run that lost nothing.  The slots are
  then as full as the recent part of the run is long (`Retained.exists_stale`),
  so whether the next entry is lost can be read off the run;
* `foldl_least`: the search for the oldest entry that qualifies.

The entries are of any type that has integer stamps.
-/

namespace Slots

variable {α : Type}

/-! ## taking a slot -/

/-- Put `x` into the first slot whose entry is stale. -/
def reuse (stale : α → Bool) (x : α) : List α → Option (List α)
  | [] => none
  | y :: rest => if stale y then some (x :: rest) else (reuse stale x rest).map (y :: ·)

theorem reuse_eq_none {stale : α → Bool} {x : α} {slots : List α} :
    reuse stale x slots = none ↔ ∀ y ∈ slots, stale y = false := by
  induction slots with
  | nil => simp [reuse]
  | cons y rest ih =>
      rw [reuse, List.forall_mem_cons, ← ih]
      cases stale y <;> simp

/-- One stale entry makes room, the others stay where they are. -/
theorem reuse_eq_some {stale : α → Bool} {x : α} {slots slots' : List α}
    (h : reuse stale x slots = some slots') :
    ∃ before y after, slots = before ++ y :: after ∧ stale y = true ∧ slots' = before ++ x :: after := by
  induction slots generalizing slots' with
  | nil => simp [reuse] at h
  | cons y rest ih =>
      rw [reuse] at h
      split at h
      · next hy =>
          rw [Option.some.injEq] at h
          exact ⟨[], y, rest, rfl, hy, h.symm⟩
      · obtain ⟨rest', hrest, rfl⟩ := Option.map_eq_some_iff.mp h
        obtain ⟨before, z, after, rfl, hz, rfl⟩ := ih hrest
        exact ⟨y :: before, z, after, rfl, hz, rfl⟩

@[simp] theorem length_reuse_getD (stale : α → Bool) (x : α) (slots : List α) :
    ((reuse stale x slots).getD slots).length = slots.length := by
  cases h : reuse stale x slots with
  | none => rfl
  | some slots' =>
      obtain ⟨before, y, after, rfl, -, rfl⟩ := reuse_eq_some h
      simp

/-! ## the search for the oldest entry -/

variable {stamp : α → ℤ}

/-- The entry found is the oldest of those that qualify, or the first guess when
none of them is older. -/
theorem foldl_least (p : α → Prop) [DecidablePred p] (slots : List α) (guess : α) :
    let found := slots.foldl (fun best y => if p y ∧ stamp y < stamp best then y else best) guess
    (found = guess ∨ (found ∈ slots ∧ p found)) ∧ stamp found ≤ stamp guess ∧
      ∀ y ∈ slots, p y → stamp found ≤ stamp y := by
  induction slots generalizing guess with
  | nil => simp
  | cons y rest ih =>
      obtain ⟨hfound, hle, hleast⟩ := ih (if p y ∧ stamp y < stamp guess then y else guess)
      simp only [List.foldl_cons, List.forall_mem_cons]
      by_cases hy : p y ∧ stamp y < stamp guess
      · rw [if_pos hy] at hfound hle hleast ⊢
        refine ⟨.inr ?_, by omega, fun _ => hle, hleast⟩
        rcases hfound with h | ⟨h, hp⟩
        · rw [h]
          exact ⟨List.mem_cons_self, hy.1⟩
        · exact ⟨List.mem_cons_of_mem _ h, hp⟩
      · rw [if_neg hy] at hfound hle hleast ⊢
        refine ⟨?_, hle, fun hp => ?_, hleast⟩
        · rcases hfound with h | ⟨h, hp⟩
          · exact .inl h
          · exact .inr ⟨List.mem_cons_of_mem _ h, hp⟩
        · have hge : stamp guess ≤ stamp y := by
            by_contra hlt
            exact hy ⟨hp, by omega⟩
          omega

/-- With an entry that qualifies and is older than the first guess, one is found. -/
theorem foldl_least_mem {p : α → Prop} [DecidablePred p] {slots : List α} {guess x : α}
    (hx : x ∈ slots) (hp : p x) (hlt : stamp x < stamp guess) :
    let found := slots.foldl (fun best y => if p y ∧ stamp y < stamp best then y else best) guess
    found ∈ slots ∧ p found ∧ ∀ y ∈ slots, p y → stamp found ≤ stamp y := by
  obtain ⟨hfound, -, hleast⟩ := @foldl_least α stamp p _ slots guess
  rcases hfound with h | ⟨hmem, hpf⟩
  · have hle := hleast x hx hp
    rw [h] at hle
    omega
  · exact ⟨hmem, hpf, hleast⟩

/-! ## what a run leaves in the slots -/

/-- The slots hold entries of the run, each once, and every one that is not older
than `age` when the last one came; the other slots are as they were at first. -/
structure Retained (stamp : α → ℤ) (age : ℤ) (blank : α) (run slots : List α) : Prop where
  old_blank : ∀ x ∈ run, stamp blank < stamp x - age
  held : ∀ y ∈ slots, y = blank ∨ y ∈ run
  once : slots.Pairwise fun y z => y = blank ∨ y ≠ z
  recent : ∀ y ∈ run, (∀ x ∈ run, stamp x - age ≤ stamp y) → y ∈ slots

variable {age : ℤ} {blank : α} {run slots : List α}

theorem Retained.init (stamp : α → ℤ) (age : ℤ) (blank : α) (cap : ℕ) :
    Retained stamp age blank [] (List.replicate cap blank) where
  old_blank := by simp
  held := fun y hy => .inl (List.eq_of_mem_replicate hy)
  once := by
    rw [List.pairwise_replicate]
    exact .inr (.inl rfl)
  recent := by simp

/-- **An entry that finds a slot is kept, with all that the slots kept before of
what is recent.** -/
theorem Retained.reuse (h : Retained stamp age blank run slots) {x : α}
    (hage : 0 ≤ age) (hlater : ∀ y ∈ run, stamp y < stamp x) {slots' : List α}
    (hslots : reuse (fun y => stamp y < stamp x - age) x slots = some slots') :
    Retained stamp age blank (run ++ [x]) slots' ∧ x ∈ slots' := by
  obtain ⟨before, y, after, rfl, hy, rfl⟩ := reuse_eq_some hslots
  rw [decide_eq_true_eq] at hy
  have hx : stamp blank < stamp x - age := by
    rcases h.held y (by simp) with rfl | hrun
    · exact hy
    · have := h.old_blank y hrun
      have := hlater y hrun
      omega
  have hnew : ∀ z ∈ before ++ y :: after, stamp z < stamp x := by
    intro z hz
    rcases h.held z hz with rfl | hrun
    · omega
    · exact hlater z hrun
  refine ⟨⟨?_, ?_, ?_, ?_⟩, by simp⟩
  · intro z hz
    rcases List.mem_append.mp hz with hz | hz
    · exact h.old_blank z hz
    · rw [List.mem_singleton.mp hz]
      exact hx
  · intro z hz
    simp only [List.mem_append, List.mem_cons, List.not_mem_nil, or_false] at hz ⊢
    rcases hz with hz | rfl | hz
    · have := h.held z (by simp [hz])
      tauto
    · exact .inr (.inr rfl)
    · have := h.held z (by simp [hz])
      tauto
  · have honce := h.once
    rw [List.pairwise_append, List.pairwise_cons] at honce ⊢
    obtain ⟨hbefore, ⟨-, hafter⟩, hacross⟩ := honce
    refine ⟨hbefore, ⟨?_, hafter⟩, ?_⟩
    · rintro z hz
      have := hnew z (by simp [hz])
      refine .inr ?_
      rintro rfl
      omega
    · intro w hw z hz
      rcases List.mem_cons.mp hz with rfl | hz
      · have := hnew w (by simp [hw])
        refine .inr ?_
        rintro rfl
        omega
      · exact hacross w hw z (List.mem_cons_of_mem _ hz)
  · intro z hz hrecent
    rcases List.mem_append.mp hz with hz | hz
    · have hkept := h.recent z hz fun w hw => hrecent w (List.mem_append_left _ hw)
      have hnow := hrecent x (by simp)
      have hne : z ≠ y := by
        rintro rfl
        omega
      simp only [List.mem_append, List.mem_cons] at hkept ⊢
      tauto
    · rw [List.mem_singleton.mp hz]
      simp

/-- The slots that are not stale hold the recent entries of the run. -/
theorem Retained.perm_recent (h : Retained stamp age blank run slots)
    (hsorted : run.Pairwise fun y z => stamp y < stamp z) {now : ℤ}
    (hlater : ∀ y ∈ run, stamp y < now) (hblank : stamp blank < now - age) :
    (slots.filter fun y => now - age ≤ stamp y).Perm (run.filter fun y => now - age ≤ stamp y) := by
  rw [List.perm_ext_iff_of_nodup]
  · intro y
    simp only [List.mem_filter, decide_eq_true_eq]
    constructor
    · rintro ⟨hy, hnow⟩
      rcases h.held y hy with rfl | hrun
      · omega
      · exact ⟨hrun, hnow⟩
    · rintro ⟨hy, hnow⟩
      refine ⟨h.recent y hy fun x hx => ?_, hnow⟩
      have := hlater x hx
      omega
  · rw [List.nodup_iff_pairwise_ne, List.pairwise_filter]
    refine h.once.imp fun hyz hy _ => ?_
    rcases hyz with rfl | hne
    · rw [decide_eq_true_eq] at hy
      omega
    · exact hne
  · refine List.Nodup.filter _ (hsorted.imp fun hlt => ?_)
    rintro rfl
    exact lt_irrefl _ hlt

/-- **Whether the next entry finds a slot can be read off the run**: the slots that
are not stale hold the recent entries of the run, each once. -/
theorem Retained.exists_stale (h : Retained stamp age blank run slots) (hage : 0 ≤ age)
    (hsorted : run.Pairwise fun y z => stamp y < stamp z) {now : ℤ}
    (hlater : ∀ y ∈ run, stamp y < now) :
    (∃ y ∈ slots, stamp y < now - age) ↔
      stamp blank < now - age ∧ (run.filter fun y => now - age ≤ stamp y).length < slots.length := by
  by_cases hblank : stamp blank < now - age
  · rw [← (h.perm_recent hsorted hlater hblank).length_eq, List.length_filter_lt_length_iff_exists]
    simp only [hblank, true_and, decide_eq_true_eq, not_le]
  · refine iff_of_false ?_ fun hboth => hblank hboth.1
    rintro ⟨y, hy, hstale⟩
    rcases h.held y hy with rfl | hrun
    · exact hblank hstale
    · have := h.old_blank y hrun
      omega

/-! ## consecutive stamps -/

/-- A stretch of `n` stamps holds fewer than `n` entries unless each of its stamps
is taken. -/
theorem length_filter_lt (hsorted : run.Pairwise fun y z => stamp y < stamp z) {start : ℤ} {n : ℕ}
    (hbefore : ∀ y ∈ run, stamp y < start + n) :
    (run.filter fun y => start ≤ stamp y).length < n ↔ ¬∀ k : ℕ, k < n → start + k ∈ run.map stamp := by
  set stamps := ((run.filter fun y => start ≤ stamp y).map stamp).toFinset with hstamps
  have hmem : ∀ i, i ∈ stamps ↔ start ≤ i ∧ i ∈ run.map stamp := by
    intro i
    simp only [hstamps, List.mem_toFinset, List.mem_map, List.mem_filter, decide_eq_true_eq]
    constructor
    · rintro ⟨y, ⟨hy, hle⟩, rfl⟩
      exact ⟨hle, y, hy, rfl⟩
    · rintro ⟨hle, y, hy, rfl⟩
      exact ⟨y, ⟨hy, hle⟩, rfl⟩
  have hcard : stamps.card = (run.filter fun y => start ≤ stamp y).length := by
    rw [hstamps, List.toFinset_card_of_nodup, List.length_map]
    have hsub : List.Pairwise (fun y z => stamp y < stamp z) (run.filter fun y => start ≤ stamp y) :=
      hsorted.sublist List.filter_sublist
    exact (List.pairwise_map.mpr hsub).imp fun hlt => ne_of_lt hlt
  have hsub : stamps ⊆ Finset.Ico start (start + n) := by
    intro i hi
    obtain ⟨hle, hi⟩ := (hmem i).mp hi
    obtain ⟨y, hy, rfl⟩ := List.mem_map.mp hi
    exact Finset.mem_Ico.mpr ⟨hle, hbefore y hy⟩
  have hico : (Finset.Ico start (start + n)).card = n := by simp
  rw [← hcard, ← not_le, not_iff_not]
  constructor
  · intro hle k hk
    have heq := Finset.eq_of_subset_of_card_le hsub (by omega)
    have hin : start + (k : ℤ) ∈ stamps := by
      rw [heq, Finset.mem_Ico]
      omega
    exact ((hmem _).mp hin).2
  · intro hall
    rw [← hico]
    refine Finset.card_le_card fun i hi => ?_
    rw [Finset.mem_Ico] at hi
    have hk := hall (i - start).toNat (by omega)
    rw [show start + ((i - start).toNat : ℤ) = i by omega] at hk
    exact (hmem i).mpr ⟨hi.1, hk⟩

end Slots
