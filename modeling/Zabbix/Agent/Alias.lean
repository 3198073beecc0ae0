import Zabbix.Lib.Chain
import Zabbix.Lib.Upsert
import Zabbix.Agent.UserParameter

/-!
# Zabbix.Agent.Alias

The aliases of item keys (`libs/zbxcommon/alias.c`).

They are kept in a list, with new ones in front.  An alias that is defined again is put in front as well, but it is not
taken out from where it was: the list becomes a cycle.
-/

namespace Zabbix

open Chain

/-- `MAX_ALIAS_NAME` -/
def maxAliasName : ℕ := 120

/-- `ALIAS`, without the pointer to the next one. -/
structure Alias where
  name : CString
  value : CString
deriving DecidableEq

/-- `aliasList`, with what has been allocated: addresses from `free` on are not in use. -/
structure AliasList where
  heap : Heap Alias
  aliasList : Option ℕ
  free : ℕ

/-- No aliases. -/
def AliasList.empty : AliasList := ⟨fun _ => none, none, 0⟩

/-- What is stored for a name and a value. -/
def newAlias (name value : CString) : Alias := ⟨strlcpyString name (maxAliasName - 1), value⟩

/-- The loop for a name. -/
def AliasList.search (s : AliasList) (fuel : ℕ) (name : CString) : Option (Option (ℕ × Alias)) :=
  Chain.search s.heap (·.name = name) fuel s.aliasList

/-- The alias at an address gets its pointer to the head of the list, and becomes the head. -/
def AliasList.link (s : AliasList) (a : ℕ) (data : Alias) : AliasList :=
  { s with heap := Function.update s.heap a (some ⟨s.aliasList, data⟩), aliasList := some a }

/-- `add_alias`, with `fuel` rounds of its loop at most. -/
def addAlias (fuel : ℕ) (s : AliasList) (name value : CString) : Option AliasList :=
  (s.search fuel name).map fun
    | none => { s.link s.free (newAlias name value) with free := s.free + 1 }
    | some (a, _) => s.link a (newAlias name value)

/-- `alias_list_free`: what has been freed is not to be read again. -/
def aliasListFree : (fuel : ℕ) → (heap : Heap Alias) → (next : Option ℕ) → Option (Heap Alias)
  | 0, _, _ => none
  | _ + 1, heap, none => some heap
  | fuel + 1, heap, some curr =>
      match heap curr with
      | none => none
      | some n => aliasListFree fuel (Function.update heap curr none) n.next

/-- `alias_expand`: the string in the buffer of `exp_buf_len` bytes. -/
def AliasList.aliasExpand (s : AliasList) (fuel : ℕ) (orig : CString) (expBufLen : ℕ) : Option CString :=
  (s.search fuel orig).map fun
    | none => strlcpyString orig expBufLen
    | some (_, found) => strlcpyString found.value expBufLen

/-! ## what the list is for -/

/-- The value that has been given for a name last. -/
def givenLast (calls : List (CString × CString)) (name : CString) : Option CString :=
  (calls.reverse.find? (·.1 = name)).map Prod.snd

/-- The list ends and holds each name once, it is freed, and every name stands for the value given last, every other
string for itself. -/
structure AliasList.Maps (s : AliasList) (calls : List (CString × CString)) : Prop where
  ends : ∃ l, Segment s.heap s.aliasList l none ∧ (l.map fun x => x.2.name).Nodup
  added : ∀ name value, ∃ fuel, (addAlias fuel s name value).isSome
  freed : ∃ fuel, (aliasListFree fuel s.heap s.aliasList).isSome
  expanded : ∀ orig expBufLen, 0 < expBufLen → ∃ fuel,
    s.aliasExpand fuel orig expBufLen = some (strlcpyString ((givenLast calls orig).getD orig) expBufLen)

/-- The calls come to their end, and the list is what it is for. -/
def AliasesMap (calls : List (CString × CString)) : Prop :=
  ∃ fuel s, calls.foldlM (fun s call => addAlias fuel s call.1 call.2) AliasList.empty = some s ∧ s.Maps calls

variable {s s' : AliasList} {fuel : ℕ} {name value : CString} {calls : List (CString × CString)} {l : List (ℕ × Alias)}

/-- Nothing is stored where nothing has been allocated. -/
def AliasList.Fresh (s : AliasList) : Prop := ∀ a, s.free ≤ a → s.heap a = none

theorem addAlias_eq_some (h : addAlias fuel s name value = some s') :
    (∃ l, Segment s.heap s.aliasList l none ∧ (∀ x ∈ l, x.2.name ≠ name) ∧
      s' = { s.link s.free (newAlias name value) with free := s.free + 1 }) ∨
    ∃ a l, Segment s.heap s.aliasList l (some a) ∧ (∀ x ∈ l, x.1 ≠ a) ∧ s' = s.link a (newAlias name value) := by
  obtain ⟨found, hsearch, heq⟩ := Option.map_eq_some_iff.mp h
  cases found with
  | none =>
      obtain ⟨l, hl, hnot⟩ := search_eq_none hsearch
      exact .inl ⟨l, hl, fun x hx => by simpa using hnot x hx, heq.symm⟩
  | some x =>
      obtain ⟨l, hl, hnot⟩ := search_eq_some hsearch
      exact .inr ⟨x.1, l, hl, hnot, heq.symm⟩

theorem AliasList.Fresh.ne_free (hfresh : s.Fresh) {p q : Option ℕ} (hl : Segment s.heap p l q) :
    ∀ x ∈ l, x.1 ≠ s.free := by
  intro x hx heq
  obtain ⟨n, hn, -⟩ := hl.mem hx
  rw [hfresh _ heq.ge] at hn
  cases hn

theorem AliasList.Fresh.push (hfresh : s.Fresh) (data : Alias) :
    AliasList.Fresh { s.link s.free data with free := s.free + 1 } := by
  intro a ha
  have hne : a ≠ s.free := Nat.ne_of_gt ha
  exact (Function.update_of_ne hne _ _).trans (hfresh a (Nat.le_of_succ_le ha))

/-- The calls so far, stored one in front of the other. -/
def storedAliases (calls : List (CString × CString)) : List Alias :=
  (calls.map fun call => newAlias call.1 call.2).reverse

/-- **When the list has an end**, no call has found its name in it. -/
theorem aliases_of_segment (hrun : calls.foldlM (fun s call => addAlias fuel s call.1 call.2) AliasList.empty = some s)
    (hl : Segment s.heap s.aliasList l none) : s.Fresh ∧ l.map Prod.snd = storedAliases calls := by
  induction calls using List.reverseRecOn generalizing s l with
  | nil =>
      obtain rfl := Option.some.inj hrun
      cases hl
      exact ⟨fun _ _ => rfl, rfl⟩
  | append_singleton calls call ih =>
      rw [List.foldlM_append] at hrun
      obtain ⟨s₁, hrun₁, hadd⟩ := Option.bind_eq_some_iff.mp hrun
      have hadd : addAlias fuel s₁ call.1 call.2 = some s := by simpa using hadd
      rcases addAlias_eq_some hadd with ⟨l₁, hl₁, -, rfl⟩ | ⟨a, l₁, hl₁, hnot, rfl⟩
      · obtain ⟨hfresh, hstored⟩ := ih hrun₁ hl₁
        refine ⟨hfresh.push _, ?_⟩
        have hpush := segment_push hl₁ (hfresh.ne_free hl₁) (newAlias call.1 call.2)
        rw [hl.unique hpush, List.map_cons, hstored, storedAliases, storedAliases, List.map_append, List.reverse_append]
        rfl
      · exact absurd hl (not_segment_none_of_cycle (segment_relink hl₁ hnot _))

/-! ## what the names stand for -/

theorem aliasExpand_of_search {orig result : CString} {expBufLen : ℕ} (hl : Segment s.heap s.aliasList l none)
    (h : s.aliasExpand fuel orig expBufLen = some result) :
    result = strlcpyString (((l.map Prod.snd).find? (·.name = orig)).elim orig Alias.value) expBufLen := by
  obtain ⟨found, hsearch, rfl⟩ := Option.map_eq_some_iff.mp h
  rw [search_unique hl hsearch, List.find?_map]
  have hcomp : ((fun x : Alias => decide (x.name = orig)) ∘ Prod.snd : ℕ × Alias → Bool) =
      fun x => decide (x.2.name = orig) := rfl
  rw [hcomp]
  cases l.find? fun x => x.2.name = orig with
  | none => rfl
  | some x => rfl

theorem aliasExpand_of_segment (hl : Segment s.heap s.aliasList l none) (orig : CString) (expBufLen : ℕ) :
    ∃ fuel, s.aliasExpand fuel orig expBufLen =
      some (strlcpyString (((l.map Prod.snd).find? (·.name = orig)).elim orig Alias.value) expBufLen) := by
  have hsearch := @search_of_segment _ _ _ _ (·.name = orig) _ hl (Nat.lt_succ_self _)
  have hexpand : s.aliasExpand (l.length + 1) orig expBufLen = some _ := congrArg (Option.map _) hsearch
  exact ⟨_, hexpand.trans (congrArg some (aliasExpand_of_search hl hexpand))⟩

/-- A list is looked up like the names and values in it (`aliasExpand`). -/
theorem aliasExpand_of_entries (hl : Segment s.heap s.aliasList l none) (orig : CString) (expBufLen : ℕ) :
    ∃ fuel, s.aliasExpand fuel orig expBufLen =
      some (aliasExpand (l.map fun x => (x.2.name, x.2.value)) orig expBufLen) := by
  obtain ⟨fuel, hexpand⟩ := aliasExpand_of_segment hl orig expBufLen
  refine ⟨fuel, hexpand.trans (congrArg some ?_)⟩
  have hpairs : (l.map fun x => (x.2.name, x.2.value)) =
      (l.map Prod.snd).map fun x : Alias => (x.name, x.value) := by rw [List.map_map]; rfl
  rw [hpairs]
  generalize l.map Prod.snd = entries
  rw [aliasExpand, List.find?_map]
  have hcomp : ((fun a : CString × CString => decide (a.1 = orig)) ∘ fun x : Alias => (x.name, x.value)) =
      fun x => decide (x.name = orig) := rfl
  rw [hcomp]
  cases entries.find? fun x => x.name = orig with
  | none => rfl
  | some x => rfl

/-- A list is freed without reading what has been freed. -/
theorem aliasListFree_of_segment {heap : Heap Alias} {p : Option ℕ} (hl : Segment heap p l none) :
    (aliasListFree (l.length + 1) heap p).isSome := by
  induction l generalizing heap p with
  | nil =>
      cases hl
      rfl
  | cons x l ih =>
      have hne := hl.address_ne
      cases hl with
      | cons ha hrest =>
          rw [List.length_cons, aliasListFree, ha]
          exact ih (hrest.update hne none)

theorem newAlias_name_eq_iff {name value : CString} :
    (newAlias name value).name = name ↔ name.val.length ≤ maxAliasName - 2 := by
  have hval : (newAlias name value).name.val = name.val.take (maxAliasName - 2) := rfl
  constructor
  · intro h
    rw [h] at hval
    exact (List.take_eq_self_iff _).mp hval.symm
  · exact fun h => Subtype.ext (hval.trans (List.take_of_length_le h))

/-- A name that is cut is not cut again. -/
theorem newAlias_name_name (name value value' : CString) :
    (newAlias (newAlias name value).name value').name = (newAlias name value).name :=
  newAlias_name_eq_iff.mpr (List.length_take_le (maxAliasName - 2) name.val)

/-- Strings that are the same in every buffer are the same. -/
theorem eq_of_strlcpyString {x y : CString} (h : ∀ siz, 0 < siz → strlcpyString x siz = strlcpyString y siz) : x = y := by
  have hlong := congrArg Subtype.val (h (x.val.length + y.val.length + 1) (Nat.succ_pos _))
  change x.val.take (x.val.length + y.val.length) = y.val.take (x.val.length + y.val.length) at hlong
  rw [List.take_of_length_le (Nat.le_add_right _ _), List.take_of_length_le (Nat.le_add_left _ _)] at hlong
  exact Subtype.ext hlong

/-- Where names are whole, what is found first for a name is what has been given last. -/
theorem find?_storedAliases (h : ∀ call ∈ calls, call.1.val.length ≤ maxAliasName - 2) (orig : CString) :
    ((storedAliases calls).find? (·.name = orig)).elim orig Alias.value = (givenLast calls orig).getD orig := by
  rw [storedAliases, ← List.map_reverse, List.find?_map, givenLast]
  have hname : calls.reverse.find? ((fun x : Alias => decide (x.name = orig)) ∘ fun call => newAlias call.1 call.2) =
      calls.reverse.find? fun call => call.1 = orig := by
    refine List.find?_congr fun call hcall => ?_
    rw [Function.comp_apply, newAlias_name_eq_iff.mpr (h call (List.mem_reverse.mp hcall))]
  rw [hname]
  cases calls.reverse.find? fun call => call.1 = orig with
  | none => rfl
  | some call => rfl

/-- With names that are whole and not given twice, each call puts one in front. -/
theorem addAlias_run (hlen : ∀ call ∈ calls, call.1.val.length ≤ maxAliasName - 2) (hnames : (calls.map Prod.fst).Nodup)
    (hfuel : calls.length < fuel) :
    ∃ s l, calls.foldlM (fun s call => addAlias fuel s call.1 call.2) AliasList.empty = some s ∧
      Segment s.heap s.aliasList l none ∧ l.map Prod.snd = storedAliases calls ∧ s.Fresh := by
  induction calls using List.reverseRecOn with
  | nil => exact ⟨AliasList.empty, [], rfl, .nil none, rfl, fun _ _ => rfl⟩
  | append_singleton calls call ih =>
      rw [List.map_append, List.nodup_append] at hnames
      obtain ⟨hnodup, -, hdisjoint⟩ := hnames
      rw [List.length_append, List.length_singleton] at hfuel
      obtain ⟨s, l, hrun, hl, hstored, hfresh⟩ :=
        ih (fun call' hcall' => hlen call' (List.mem_append_left _ hcall')) hnodup (Nat.lt_of_succ_lt hfuel)
      have hlength : l.length = calls.length := by
        rw [← List.length_map (f := Prod.snd), hstored, storedAliases, List.length_reverse, List.length_map]
      have hnone : l.find? (fun x => x.2.name = call.1) = none := by
        rw [List.find?_eq_none]
        intro x hx
        have hmem : x.2 ∈ storedAliases calls := hstored ▸ List.mem_map_of_mem hx
        obtain ⟨call', hcall', heq⟩ := List.mem_map.mp (List.mem_reverse.mp hmem)
        rw [← heq, newAlias_name_eq_iff.mpr (hlen call' (List.mem_append_left _ hcall')), decide_eq_true_eq]
        exact hdisjoint _ (List.mem_map_of_mem hcall') _ (List.mem_map_of_mem (List.mem_singleton_self call))
      have hsearch : s.search fuel call.1 = some none := by
        rw [AliasList.search, search_of_segment hl (by omega), hnone]
      have hpush := segment_push hl (hfresh.ne_free hl) (newAlias call.1 call.2)
      refine ⟨_, _, ?_, hpush, ?_, hfresh.push _⟩
      · rw [List.foldlM_append, hrun]
        simp [addAlias, hsearch]
      · rw [List.map_cons, hstored, storedAliases, storedAliases, List.map_append, List.reverse_append]
        rfl

/-- The aliases are what they are for exactly when no name is given twice, and none is cut. -/
theorem aliasesMap_iff : AliasesMap calls ↔
    (∀ call ∈ calls, call.1.val.length ≤ maxAliasName - 2) ∧ (calls.map Prod.fst).Nodup := by
  constructor
  · rintro ⟨fuel, s, hrun, hmaps⟩
    obtain ⟨l, hl, hnodup⟩ := hmaps.ends
    obtain ⟨-, hstored⟩ := aliases_of_segment hrun hl
    have hnames : (calls.map fun call => (newAlias call.1 call.2).name).Nodup := by
      have hnames := List.nodup_reverse.mpr hnodup
      have hmap : (l.map fun x => x.2.name) = (l.map Prod.snd).map Alias.name := by rw [List.map_map]; rfl
      rw [hmap, hstored, storedAliases, ← List.map_reverse, List.reverse_reverse, List.map_map] at hnames
      exact hnames
    have hexpanded : ∀ orig, ((storedAliases calls).find? (·.name = orig)).elim orig Alias.value =
        (givenLast calls orig).getD orig := by
      intro orig
      refine eq_of_strlcpyString fun siz hsiz => ?_
      obtain ⟨fuel, hexpand⟩ := hmaps.expanded orig siz hsiz
      rw [← hstored, ← aliasExpand_of_search hl hexpand]
    have hcut : ∀ call ∈ calls, ∀ call' ∈ calls, (newAlias call.1 call.2).name = (newAlias call'.1 call'.2).name →
        call = call' := fun call hcall call' hcall' h => List.inj_on_of_nodup_map hnames hcall hcall' h
    have hfst : (calls.map Prod.fst).Nodup := by
      refine List.Nodup.of_map (fun name => (newAlias name name).name) ?_
      rwa [List.map_map]
    refine ⟨fun call hcall => ?_, hfst⟩
    by_contra hlong
    have hne : (newAlias call.1 call.2).name ≠ call.1 := fun h => hlong (newAlias_name_eq_iff.mp h)
    -- the name stands for itself, and what it is cut to for the value
    have hvalue : call.1 = call.2 := by
      have hlast : givenLast calls call.1 = some call.2 := by
        have hnodup : (calls.reverse.map Prod.fst).Nodup := by rwa [List.map_reverse, List.nodup_reverse]
        rw [givenLast, Upsert.find?_of_nodup hnodup (List.mem_reverse.mpr hcall)]
        rfl
      have hnone : (storedAliases calls).find? (·.name = call.1) = none := by
        rw [List.find?_eq_none]
        intro x hx heq
        obtain ⟨call', -, rfl⟩ := List.mem_map.mp (List.mem_reverse.mp hx)
        have heq : (newAlias call'.1 call'.2).name = call.1 := of_decide_eq_true heq
        exact hne (heq ▸ newAlias_name_name call'.1 call'.2 call.2)
      have hself := hexpanded call.1
      rwa [hnone, hlast] at hself
    have hcutvalue : call.2 = (newAlias call.1 call.2).name := by
      have hlast : givenLast calls (newAlias call.1 call.2).name = none := by
        rw [givenLast, Option.map_eq_none_iff, List.find?_eq_none]
        intro call' hcall' heq
        have heq : call'.1 = (newAlias call.1 call.2).name := of_decide_eq_true heq
        have hsame := hcut call' (List.mem_reverse.mp hcall') call hcall (by rw [heq, newAlias_name_name])
        exact hne (hsame ▸ heq.symm)
      have hfound : (storedAliases calls).find? (·.name = (newAlias call.1 call.2).name) =
          some (newAlias call.1 call.2) := by
        refine Upsert.find?_of_nodup ?_ (List.mem_reverse.mpr (List.mem_map_of_mem hcall))
        rw [storedAliases, List.map_reverse, List.nodup_reverse, List.map_map]
        exact hnames
      have hself := hexpanded (newAlias call.1 call.2).name
      rwa [hfound, hlast] at hself
    exact hne (hvalue.trans hcutvalue).symm
  · rintro ⟨hlen, hnames⟩
    obtain ⟨s, l, hrun, hl, hstored, -⟩ := addAlias_run hlen hnames (Nat.lt_succ_self calls.length)
    refine ⟨_, s, hrun, ⟨l, hl, ?_⟩, fun name value => ?_, ⟨_, aliasListFree_of_segment hl⟩, fun orig expBufLen _ => ?_⟩
    · have hmap : (l.map fun x => x.2.name) = (l.map Prod.snd).map Alias.name := by rw [List.map_map]; rfl
      have hname : calls.map (Alias.name ∘ fun call => newAlias call.1 call.2) = calls.map Prod.fst :=
        List.map_congr_left fun call hcall => newAlias_name_eq_iff.mpr (hlen call hcall)
      rwa [hmap, hstored, storedAliases, List.map_reverse, List.nodup_reverse, List.map_map, hname]
    · refine ⟨l.length + 1, ?_⟩
      rw [addAlias, AliasList.search, search_of_segment hl (Nat.lt_succ_self _)]
      rfl
    · obtain ⟨fuel, hexpand⟩ := aliasExpand_of_segment hl orig expBufLen
      rw [hstored, find?_storedAliases hlen] at hexpand
      exact ⟨fuel, hexpand⟩

/-- `load` is defined twice. -/
theorem not_aliasesMap_load :
    ¬AliasesMap [(literal "load", literal "system.cpu.load"), (literal "load", literal "system.cpu.load[,avg5]")] := by
  rintro ⟨fuel, s, hrun, hmaps⟩
  obtain ⟨l, hl, hnodup⟩ := hmaps.ends
  obtain ⟨-, hstored⟩ := aliases_of_segment hrun hl
  have hmap : (l.map fun x => x.2.name) = (l.map Prod.snd).map Alias.name := by rw [List.map_map]; rfl
  rw [hmap, hstored] at hnodup
  revert hnodup
  decide

end Zabbix
