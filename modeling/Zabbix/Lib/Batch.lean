import Mathlib.Data.List.Basic
import Mathlib.Data.List.Nodup
import Mathlib.Data.List.Perm.Basic
import Mathlib.Tactic

/-!
# Batch

Taking a bounded batch out of a queue.  `extract skip max taken queue` walks
the queue from the front, moves each element that is not skipped to the end
of `taken` while fewer than `max` are held, and keeps the others in place.

Whatever the skip test, nothing is lost or duplicated (`extract_perm`) and
what stays keeps its order (`extract_snd_sublist`).  Two tests are developed:

* `never` skips nothing: the batch is a prefix of the queue;
* `seen key` skips an element whose key is already in the batch: the batch
  holds the first element of each key (`firstBy`), up to the bound.

For both, the elements of one key leave in queue order (`keyOrdered_extract`).
-/

namespace Batch

variable {α : Type u} {β : Type v} {κ : Type w}

/-! ## the walk -/

/-- Walk the queue, moving the elements that are not skipped to the batch
while it holds fewer than `max`; the result is the batch and what stays. -/
def extract (skip : List α → α → Bool) (max : Nat) : List α → List α → List α × List α
  | taken, [] => (taken, [])
  | taken, x :: queue =>
      if taken.length < max then
        if skip taken x then
          ((extract skip max taken queue).1, x :: (extract skip max taken queue).2)
        else extract skip max (taken ++ [x]) queue
      else (taken, x :: queue)

@[simp] theorem extract_nil (skip : List α → α → Bool) (max : Nat) (taken : List α) :
    extract skip max taken [] = (taken, []) := rfl

theorem extract_cons (skip : List α → α → Bool) (max : Nat) (taken : List α) (x : α) (queue : List α) :
    extract skip max taken (x :: queue) =
      if taken.length < max then
        if skip taken x then
          ((extract skip max taken queue).1, x :: (extract skip max taken queue).2)
        else extract skip max (taken ++ [x]) queue
      else (taken, x :: queue) := rfl

/-- Nothing is lost and nothing is duplicated. -/
theorem extract_perm (skip : List α → α → Bool) (max : Nat) (taken queue : List α) :
    ((extract skip max taken queue).1 ++ (extract skip max taken queue).2).Perm
      (taken ++ queue) := by
  induction queue generalizing taken with
  | nil => simp
  | cons x queue ih =>
      rw [extract_cons]
      split_ifs with hlen hskip
      · have h := (ih taken).cons x
        exact (List.perm_middle.trans h).trans List.perm_middle.symm
      · have h := ih (taken ++ [x])
        rwa [List.append_assoc, List.singleton_append] at h
      · exact List.Perm.refl _

/-- What stays is the queue with some elements left out. -/
theorem extract_snd_sublist (skip : List α → α → Bool) (max : Nat) (taken queue : List α) :
    (extract skip max taken queue).2.Sublist queue := by
  induction queue generalizing taken with
  | nil => simp
  | cons x queue ih =>
      rw [extract_cons]
      split_ifs with hlen hskip
      · exact (ih taken).cons_cons x
      · exact (ih (taken ++ [x])).cons x
      · exact List.Sublist.refl _

/-- The walk commutes with a change of representation that the skip test
does not see. -/
theorem extract_map (f : α → β) (skip : List α → α → Bool) (skip' : List β → β → Bool)
    (hskip : ∀ taken x, skip' (taken.map f) (f x) = skip taken x) (max : Nat)
    (taken queue : List α) :
    extract skip' max (taken.map f) (queue.map f) =
      ((extract skip max taken queue).1.map f, (extract skip max taken queue).2.map f) := by
  induction queue generalizing taken with
  | nil => simp
  | cons x queue ih =>
      rw [List.map_cons, extract_cons, extract_cons, List.length_map, hskip]
      split_ifs with hlen hs
      · simp [ih taken]
      · have h := ih (taken ++ [x])
        simpa using h
      · simp

/-! ## the test that skips nothing -/

/-- The test that skips nothing. -/
def never (_ : List α) (_ : α) : Bool := false

/-- Without skipping the batch is filled from the front of the queue. -/
theorem extract_never (max : Nat) (taken queue : List α) :
    extract never max taken queue =
      (taken ++ queue.take (max - taken.length), queue.drop (max - taken.length)) := by
  induction queue generalizing taken with
  | nil => simp
  | cons x queue ih =>
      rw [extract_cons]
      split_ifs with hlen hs
      · simp [never] at hs
      · have hm : max - taken.length = (max - (taken ++ [x]).length) + 1 := by simp; omega
        rw [ih, hm]
        simp
      · have hz : max - taken.length = 0 := by omega
        simp [hz]

/-! ## the test that skips a key already taken -/

section Seen

variable [DecidableEq κ] (key : α → κ)

/-- The test that skips an element whose key the batch already holds. -/
def seen (taken : List α) (x : α) : Bool := taken.any fun y => key x = key y

/-- The first element of each key, in queue order. -/
def firstBy : List α → List α
  | [] => []
  | x :: queue => x :: (firstBy queue).filter (key · ≠ key x)

theorem seen_iff {taken : List α} {x : α} : seen key taken x = true ↔ key x ∈ taken.map key := by
  simp only [seen, List.any_eq_true, decide_eq_true_eq, List.mem_map]
  exact exists_congr fun y => and_congr_right fun _ => eq_comm

/-- The batch is the first element of each key not yet taken, up to the
bound. -/
theorem extract_seen_fst (max : Nat) (taken queue : List α) :
    (extract (seen key) max taken queue).1 =
      taken ++ ((firstBy key queue).filter fun x => key x ∉ taken.map key).take
        (max - taken.length) := by
  induction queue generalizing taken with
  | nil => simp [firstBy]
  | cons x queue ih =>
      rw [extract_cons]
      split_ifs with hlen hs
      · -- `x` has a key of the batch: neither `x` nor its key's later elements qualify
        have hx : key x ∈ taken.map key := (seen_iff key).mp hs
        dsimp only
        rw [ih taken, firstBy, List.filter_cons_of_neg (by simpa using hx), List.filter_filter]
        congr 2
        apply List.filter_congr
        intro y _
        by_cases hy : key y = key x
        · simp only [hy, hx]
          simp
        · simp [hy]
      · have hx : key x ∉ taken.map key := fun h => hs ((seen_iff key).mpr h)
        have hm : max - taken.length = (max - (taken ++ [x]).length) + 1 := by simp; omega
        rw [ih (taken ++ [x]), firstBy, List.filter_cons_of_pos (by simpa using hx), hm,
          List.take_succ_cons, List.filter_filter, List.append_assoc, List.singleton_append]
        congr 3
        apply List.filter_congr
        intro y _
        simp [not_or, Bool.and_comm]
      · have hz : max - taken.length = 0 := by omega
        simp [hz]

/-- The keys of a batch are pairwise distinct. -/
theorem nodup_extract_seen (max : Nat) (taken queue : List α) (h : (taken.map key).Nodup) :
    ((extract (seen key) max taken queue).1.map key).Nodup := by
  induction queue generalizing taken with
  | nil => simpa using h
  | cons x queue ih =>
      rw [extract_cons]
      split_ifs with hlen hs
      · exact ih taken h
      · have hx : key x ∉ taken.map key := fun hx => hs ((seen_iff key).mpr hx)
        apply ih
        rw [List.map_append, List.map_singleton]
        exact h.append (List.nodup_singleton _) (by simpa using hx)
      · exact h

/-- A key that the batch already holds is not touched again. -/
theorem filter_extract_of_mem (max : Nat) (k : κ) (taken queue : List α)
    (hk : k ∈ taken.map key) :
    (extract (seen key) max taken queue).1.filter (key · = k) = taken.filter (key · = k) ∧
      (extract (seen key) max taken queue).2.filter (key · = k) = queue.filter (key · = k) := by
  induction queue generalizing taken with
  | nil => simp
  | cons x queue ih =>
      rw [extract_cons]
      split_ifs with hlen hs
      · obtain ⟨h1, h2⟩ := ih taken hk
        exact ⟨h1, by simp [List.filter_cons, h2]⟩
      · have hx : key x ≠ k := fun he => hs ((seen_iff key).mpr (he ▸ hk))
        obtain ⟨h1, h2⟩ := ih (taken ++ [x]) (by simp [hk])
        exact ⟨by simp [h1, hx], by simp [h2, hx]⟩
      · exact ⟨rfl, rfl⟩

/-! ## order of the elements of one key -/

/-- The skip test lets the elements of one key leave in queue order. -/
def KeyOrdered (skip : List α → α → Bool) : Prop :=
  ∀ (max : Nat) (k : κ) (taken queue : List α),
    (extract skip max taken queue).1.filter (key · = k) ++
      (extract skip max taken queue).2.filter (key · = k) =
    taken.filter (key · = k) ++ queue.filter (key · = k)

theorem keyOrdered_never : KeyOrdered key (never : List α → α → Bool) := by
  intro max k taken queue
  rw [extract_never, ← List.filter_append, List.append_assoc, List.take_append_drop,
    List.filter_append]

theorem keyOrdered_seen : KeyOrdered key (seen key) := by
  intro max k taken queue
  induction queue generalizing taken with
  | nil => simp
  | cons x queue ih =>
      rw [extract_cons]
      split_ifs with hlen hs
      · by_cases hx : key x = k
        · -- the key is in the batch, so both filters are those of the arguments
          obtain ⟨h1, h2⟩ :=
            filter_extract_of_mem key max k taken queue (hx ▸ (seen_iff key).mp hs)
          simp [h1, h2, hx]
        · simpa [List.filter_cons, hx] using ih taken
      · rw [ih (taken ++ [x]), List.filter_append, List.append_assoc]
        exact congrArg _ (List.filter_append [x] queue).symm
      · rfl

end Seen

end Batch
