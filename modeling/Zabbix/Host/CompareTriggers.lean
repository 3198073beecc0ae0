import Zabbix.Host.Tables
import Zabbix.Lib.References
import Zabbix.Lib.Printf
import Zabbix.Lib.Upsert
import Zabbix.Macros.TriggerConstants

/-!
# Zabbix.Host.CompareTriggers

The comparison of two triggers by their expressions (`DBcmp_triggers` of `libs/zbxdbhigh/host.c`).

The functions of the two are joined where they are the same function, with the same parameter, on items with
the same key, and for each pair the reference to the second is replaced by one to the first, in the expression
of the second trigger.  Only the first pair of a function of the second trigger finds a reference to replace.
-/

namespace Zabbix.Host

open Ascii Printf References

/-- `strcmp` -/
def strcmp : List UInt8 → List UInt8 → ℤ
  | [], [] => 0
  | [], _ :: _ => -1
  | _ :: _, [] => 1
  | a :: s, b :: t => if a = b then strcmp s t else if a < b then -1 else 1

theorem strcmp_eq_zero_iff {s t : List UInt8} : strcmp s t = 0 ↔ s = t := by
  induction s generalizing t with
  | nil => cases t <;> simp [strcmp]
  | cons a s ih =>
      cases t with
      | nil => simp [strcmp]
      | cons b t =>
          rw [strcmp, List.cons.injEq]
          split
          · next hab => rw [ih, and_iff_right hab]
          · next hab =>
            refine iff_of_false ?_ fun h => hab h.1
            split <;> decide

/-- The pairs of functions, of the two triggers, that are the same on items with the same key. -/
def HostDb.sameFunctions (db : HostDb) (triggerid1 triggerid2 : ℕ) : List (ℕ × ℕ) :=
  db.functions.flatMap fun f1 => db.functions.flatMap fun f2 => db.items.flatMap fun i1 => db.items.flatMap fun i2 =>
    if f1.function = f2.function ∧ f1.parameter = f2.parameter ∧ i1.key = i2.key ∧ i1.itemid = f1.itemid ∧
        i2.itemid = f2.itemid ∧ f1.triggerid = triggerid1 ∧ f2.triggerid = triggerid2
    then [(f1.functionid, f2.functionid)] else []

/-- `string_replace` of the reference to one function by that to another. -/
def replaceReference (replace : ℕ) (search : ℕ) (expr : List UInt8) : List UInt8 :=
  stringReplace lbrace (dec search ++ [rbrace]) (braced (dec replace)) expr

/-- `DBcmp_triggers`; the rows of the join come in some order. -/
def dbCmpTriggers (order : List (ℕ × ℕ) → List (ℕ × ℕ)) (db : HostDb) (triggerid1 triggerid2 : ℕ) : ℤ :=
  match db.triggers.find? (·.triggerid = triggerid1) with
  | none => 1
  | some trigger1 =>
      match db.triggers.find? (·.triggerid = triggerid2) with
      | none => 1
      | some trigger2 =>
          strcmp trigger1.expression
            ((order (db.sameFunctions triggerid1 triggerid2)).foldl (fun expr row => replaceReference row.1 row.2 expr)
              trigger2.expression)

/-! ## what an expression says -/

/-- A function with the key of its item. -/
structure Call where
  key : List UInt8
  function : List UInt8
  parameter : List UInt8
deriving DecidableEq

/-- A function of the tables, if its item is there. -/
def HostDb.call (db : HostDb) (f : Function) : Option Call :=
  (db.items.find? (·.itemid = f.itemid)).map fun item =>
    { key := item.key, function := f.function, parameter := f.parameter }

/-- A symbol of an expression; a reference to a function stands for the call. -/
def HostDb.meaning (db : HostDb) : Symbol → Symbol ⊕ Call
  | .text c => .inl (.text c)
  | .reference name =>
      match (db.functions.find? (dec ·.functionid = name)).bind db.call with
      | some call => .inr call
      | none => .inl (.reference name)

/-- An expression with the calls in the places of the references. -/
def HostDb.expanded (db : HostDb) (expression : List UInt8) : List (Symbol ⊕ Call) :=
  (read expression).map db.meaning

/-- There is a reference to the function in the expression. -/
def Refers (expression : List UInt8) (f : Function) : Prop := .reference (dec f.functionid) ∈ read expression

instance (expression : List UInt8) (f : Function) : Decidable (Refers expression f) :=
  inferInstanceAs (Decidable (_ ∈ _))

/-- Functions and items are found by their identifiers. -/
structure HostDb.FunctionKeys (db : HostDb) : Prop where
  functions : (db.functions.map Function.functionid).Nodup
  items : (db.items.map Item.itemid).Nodup

/-- The functions that the expression of a trigger refers to are its own. -/
def HostDb.Owns (db : HostDb) (triggerid : ℕ) (expression : List UInt8) : Prop :=
  ∀ f ∈ db.functions, Refers expression f → f.triggerid = triggerid

/-- Each function that the expression refers to is the only one of the trigger that makes its call. -/
def HostDb.Distinguished (db : HostDb) (triggerid : ℕ) (expression : List UInt8) : Prop :=
  ∀ f ∈ db.functions, Refers expression f → ∀ g ∈ db.functions, g.triggerid = triggerid →
    (db.call f).isSome → db.call g = db.call f → g = f

variable {db : HostDb} {triggerid1 triggerid2 : ℕ} {e1 e2 expr : List UInt8}

/-! ## one replacement -/

theorem plain_dec (n : ℕ) : References.Plain (dec n) :=
  ⟨fun h => absurd (digit_of_mem_dec h).2 (by decide), fun h => absurd (digit_of_mem_dec h).2 (by decide)⟩

/-- The names of references after the replacement of one. -/
def renamed (replace search : ℕ) (name : List UInt8) : List UInt8 := if name = dec search then dec replace else name

theorem plain_renamed (replace search : ℕ) {name : List UInt8} (h : References.Plain name) :
    References.Plain (renamed replace search name) := by
  rw [renamed]
  split
  · exact plain_dec replace
  · exact h

theorem replaceReference_cons {replace search : ℕ} {c : UInt8} {s : List UInt8} (hc : c ≠ lbrace) :
    replaceReference replace search (c :: s) = c :: replaceReference replace search s :=
  stringReplace_cons _ fun h => hc (List.cons_prefix_cons.mp h).1.symm

theorem replaceReference_render (replace search : ℕ) {ss : List Symbol} (h : Regular ss) :
    replaceReference replace search (render ss) = render (ss.map (Symbol.rename (renamed replace search))) := by
  induction h with
  | nil => exact stringReplace_nil _ _ _
  | @text c ss hc hss ih =>
      rw [render_cons, List.map_cons, render_cons, ← ih]
      by_cases hopen : c = lbrace
      · subst hopen
        refine stringReplace_cons _ fun hstart => ?_
        exact not_starts_of_closes hss (hc rfl) (plain_dec search) (List.cons_prefix_cons.mp hstart).2
      · exact replaceReference_cons hopen
  | @reference name ss hname _ ih =>
      rw [render_cons, List.map_cons, render_cons, ← ih, Symbol.rename, Symbol.render, Symbol.render, renamed]
      split
      · next hsearch =>
        rw [hsearch]
        exact stringReplace_append _ _ _ _
      · next hsearch =>
        rw [braced, List.cons_append, List.append_assoc, List.singleton_append]
        have hskip : replaceReference replace search (lbrace :: (name ++ rbrace :: render ss)) =
            lbrace :: replaceReference replace search (name ++ rbrace :: render ss) := by
          refine stringReplace_cons _ fun hstart => hsearch ?_
          exact (eq_of_starts (plain_dec search) hname (List.cons_prefix_cons.mp hstart).2).symm
        have hname' : replaceReference replace search (name ++ rbrace :: render ss) =
            name ++ replaceReference replace search (rbrace :: render ss) := stringReplace_of_not_mem _ _ hname.1 _
        rw [hskip, hname', replaceReference_cons (by decide), List.cons_append, List.append_assoc,
          List.singleton_append]

/-- A replacement gives other names to the references. -/
theorem read_replaceReference (replace search : ℕ) (expr : List UInt8) :
    read (replaceReference replace search expr) = (read expr).map (Symbol.rename (renamed replace search)) := by
  conv_lhs => rw [← render_read expr, replaceReference_render replace search (regular_read expr)]
  exact read_render ((regular_read expr).map_rename fun _ => plain_renamed replace search)

theorem reference_mem_replaceReference {replace search : ℕ} {name : List UInt8} :
    Symbol.reference name ∈ read (replaceReference replace search expr) ↔
      ∃ before, Symbol.reference before ∈ read expr ∧ renamed replace search before = name := by
  rw [read_replaceReference, List.mem_map]
  constructor
  · rintro ⟨a, ha, heq⟩
    cases a with
    | text c => cases heq
    | reference before => exact ⟨before, ha, Symbol.reference.inj heq⟩
  · rintro ⟨before, hbefore, rfl⟩
    exact ⟨_, hbefore, rfl⟩

/-! ## the pairs -/

theorem find?_functionid (hkey : (db.functions.map Function.functionid).Nodup) {f : Function} (hf : f ∈ db.functions) :
    db.functions.find? (dec ·.functionid = dec f.functionid) = some f := by
  have hnames : (db.functions.map (dec ∘ Function.functionid)).Nodup := by
    rw [← List.map_map]
    exact hkey.map dec_injective
  exact Upsert.find?_of_nodup hnames hf

theorem call_eq_some_iff (hkey : (db.items.map Item.itemid).Nodup) {f : Function} {c : Call} :
    db.call f = some c ↔
      ∃ item ∈ db.items, item.itemid = f.itemid ∧
        item.key = c.key ∧ f.function = c.function ∧ f.parameter = c.parameter := by
  rw [HostDb.call, Option.map_eq_some_iff]
  constructor
  · rintro ⟨item, hfound, rfl⟩
    exact ⟨item, List.mem_of_find?_eq_some hfound, by simpa using List.find?_some hfound, rfl, rfl, rfl⟩
  · rintro ⟨item, hitem, hid, hk, hf, hp⟩
    rw [← hid]
    exact ⟨item, Upsert.find?_of_nodup hkey hitem, by rw [hk, hf, hp]⟩

/-- The pairs are those of functions that make the same call. -/
theorem mem_sameFunctions (hkey : (db.items.map Item.itemid).Nodup) {row : ℕ × ℕ} :
    row ∈ db.sameFunctions triggerid1 triggerid2 ↔
      ∃ f ∈ db.functions, ∃ g ∈ db.functions, (f.triggerid = triggerid1 ∧ g.triggerid = triggerid2) ∧
        (∃ c, db.call f = some c ∧ db.call g = some c) ∧ row = (f.functionid, g.functionid) := by
  simp only [HostDb.sameFunctions, List.mem_flatMap, List.mem_ite_nil_right, List.mem_singleton]
  constructor
  · rintro ⟨f, hf, g, hg, i, hi, j, hj, ⟨hfunction, hparameter, hk, hif, hjg, htf, htg⟩, rfl⟩
    refine ⟨f, hf, g, hg, ⟨htf, htg⟩, ⟨⟨i.key, f.function, f.parameter⟩, ?_, ?_⟩, rfl⟩
    · exact (call_eq_some_iff hkey).mpr ⟨i, hi, hif, rfl, rfl, rfl⟩
    · exact (call_eq_some_iff hkey).mpr ⟨j, hj, hjg, hk.symm, hfunction.symm, hparameter.symm⟩
  · rintro ⟨f, hf, g, hg, ⟨htf, htg⟩, ⟨c, hcf, hcg⟩, rfl⟩
    obtain ⟨i, hi, hif, hik, hff, hfp⟩ := (call_eq_some_iff hkey).mp hcf
    obtain ⟨j, hj, hjg, hjk, hgf, hgp⟩ := (call_eq_some_iff hkey).mp hcg
    exact ⟨f, hf, g, hg, i, hi, j, hj,
      ⟨hff.trans hgf.symm, hfp.trans hgp.symm, hik.trans hjk.symm, hif, hjg, htf, htg⟩, rfl⟩

/-! ## the expression after the replacements -/

/-- The replacements, one after another. -/
def replaceAll (rows : List (ℕ × ℕ)) (expr : List UInt8) : List UInt8 :=
  rows.foldl (fun expr row => replaceReference row.1 row.2 expr) expr

@[simp] theorem replaceAll_nil (expr : List UInt8) : replaceAll [] expr = expr := rfl

theorem replaceAll_append (rows rows' : List (ℕ × ℕ)) (expr : List UInt8) :
    replaceAll (rows ++ rows') expr = replaceAll rows' (replaceAll rows expr) := List.foldl_append

theorem replaceAll_concat (rows : List (ℕ × ℕ)) (row : ℕ × ℕ) (expr : List UInt8) :
    replaceAll (rows ++ [row]) expr = replaceReference row.1 row.2 (replaceAll rows expr) :=
  replaceAll_append rows [row] expr

/-- The references that are left: those that a pair put in, and those of the expression that no pair replaces. -/
theorem reference_of_replaceAll (rows : List (ℕ × ℕ)) {name : List UInt8}
    (h : Symbol.reference name ∈ read (replaceAll rows expr)) :
    (∃ row ∈ rows, name = dec row.1) ∨
      Symbol.reference name ∈ read expr ∧ ∀ row ∈ rows, name ≠ dec row.2 := by
  induction rows using List.reverseRecOn generalizing name with
  | nil => exact .inr ⟨h, fun _ hrow => nomatch hrow⟩
  | append_singleton rows row ih =>
      rw [replaceAll_concat] at h
      obtain ⟨before, hbefore, rfl⟩ := reference_mem_replaceReference.mp h
      rw [renamed]
      split
      · exact .inl ⟨row, List.mem_append_right _ (List.mem_singleton_self row), rfl⟩
      · next hne =>
        rcases ih hbefore with ⟨row', hrow', hname⟩ | ⟨hmem, hrows⟩
        · exact .inl ⟨row', List.mem_append_left _ hrow', hname⟩
        · refine .inr ⟨hmem, fun row' hrow' => ?_⟩
          rcases List.mem_append.mp hrow' with hrow' | hrow'
          · exact hrows row' hrow'
          · rw [List.mem_singleton.mp hrow']
            exact hne

/-- The replacements give other names to the references. -/
theorem read_replaceAll (rows : List (ℕ × ℕ)) (expr : List UInt8) :
    read (replaceAll rows expr) =
      rows.foldl (fun ss row => ss.map (Symbol.rename (renamed row.1 row.2))) (read expr) := by
  induction rows generalizing expr with
  | nil => rfl
  | cons row rows ih =>
      rw [List.foldl_cons, ← read_replaceReference, ← ih]
      rfl

/-- What the reference to a function stands for. -/
theorem meaning_reference (hkey : (db.functions.map Function.functionid).Nodup) {f : Function}
    (hf : f ∈ db.functions) {c : Call} (hc : db.call f = some c) :
    db.meaning (.reference (dec f.functionid)) = .inr c := by
  rw [HostDb.meaning, find?_functionid hkey hf, Option.bind_some, hc]

/-- A symbol that stands for a call is the reference to a function that makes it. -/
theorem meaning_eq_inr {a : Symbol} {c : Call} (h : db.meaning a = .inr c) :
    ∃ f ∈ db.functions, db.call f = some c ∧ a = .reference (dec f.functionid) := by
  cases a with
  | text _ => cases h
  | reference name =>
      rw [HostDb.meaning] at h
      split at h
      · next call hcall =>
        obtain ⟨f, hfound, hf⟩ := Option.bind_eq_some_iff.mp hcall
        obtain rfl := Sum.inr.inj h
        have hname : dec f.functionid = name := by simpa using List.find?_some hfound
        exact ⟨f, List.mem_of_find?_eq_some hfound, hf, by rw [hname]⟩
      · cases h

/-- A symbol that stands for itself. -/
theorem meaning_eq_inl {a b : Symbol} (h : db.meaning a = .inl b) : a = b := by
  cases a with
  | text _ => exact Sum.inl.inj h
  | reference name =>
      rw [HostDb.meaning] at h
      split at h
      · cases h
      · exact Sum.inl.inj h

/-- A pair does not change what the expression says. -/
theorem expanded_replaceReference (hkeys : db.FunctionKeys) {row : ℕ × ℕ}
    (hrow : row ∈ db.sameFunctions triggerid1 triggerid2) (expr : List UInt8) :
    db.expanded (replaceReference row.1 row.2 expr) = db.expanded expr := by
  obtain ⟨f, hf, g, hg, -, ⟨c, hcf, hcg⟩, rfl⟩ := (mem_sameFunctions hkeys.items).mp hrow
  rw [HostDb.expanded, read_replaceReference, List.map_map]
  refine List.map_congr_left fun a _ => ?_
  cases a with
  | text c => rfl
  | reference name =>
      rw [Function.comp_apply, Symbol.rename, renamed]
      split
      · next hname => rw [hname, meaning_reference hkeys.functions hf hcf, meaning_reference hkeys.functions hg hcg]
      · rfl

theorem expanded_replaceAll (hkeys : db.FunctionKeys) {rows : List (ℕ × ℕ)}
    (hrows : ∀ row ∈ rows, row ∈ db.sameFunctions triggerid1 triggerid2) (expr : List UInt8) :
    db.expanded (replaceAll rows expr) = db.expanded expr := by
  induction rows generalizing expr with
  | nil => rfl
  | cons row rows ih =>
      obtain ⟨hrow, hrest⟩ := List.forall_mem_cons.mp hrows
      exact (ih hrest _).trans (expanded_replaceReference hkeys hrow expr)

/-! ## the comparison -/

/-- The database gives the rows of a join in an order of its own. -/
def Reorders (order : List (ℕ × ℕ) → List (ℕ × ℕ)) : Prop := ∀ rows, (order rows).Perm rows

theorem dbCmpTriggers_eq_zero_iff {trigger1 trigger2 : Trigger} (order : List (ℕ × ℕ) → List (ℕ × ℕ))
    (h1 : db.triggers.find? (·.triggerid = triggerid1) = some trigger1)
    (h2 : db.triggers.find? (·.triggerid = triggerid2) = some trigger2) :
    dbCmpTriggers order db triggerid1 triggerid2 = 0 ↔
      trigger1.expression = replaceAll (order (db.sameFunctions triggerid1 triggerid2)) trigger2.expression := by
  rw [dbCmpTriggers, h1, h2]
  exact strcmp_eq_zero_iff

theorem eq_of_map_eq {α β : Type} {f : α → β} {l l' : List α} (h : l.map f = l'.map f)
    (hinj : ∀ a ∈ l, ∀ b ∈ l', f a = f b → a = b) : l = l' := by
  induction l generalizing l' with
  | nil => exact (List.map_eq_nil_iff.mp h.symm).symm
  | cons a l ih =>
      cases l' with
      | nil => cases h
      | cons b l' =>
          obtain ⟨hab, hrest⟩ := List.cons.inj h
          rw [hinj a List.mem_cons_self b List.mem_cons_self hab,
            ih hrest fun a ha b hb => hinj a (List.mem_cons_of_mem _ ha) b (List.mem_cons_of_mem _ hb)]

/-- A function that a reference in the result is to is one of the first trigger, or there is none of the first
trigger that makes its call. -/
theorem own_of_replaceAll (hkeys : db.FunctionKeys) (howns : db.Owns triggerid2 e2) {rows : List (ℕ × ℕ)}
    (hrows : ∀ row, row ∈ rows ↔ row ∈ db.sameFunctions triggerid1 triggerid2) {f g : Function} (hf : f ∈ db.functions)
    (hf1 : f.triggerid = triggerid1) (hg : g ∈ db.functions) {c : Call} (hcf : db.call f = some c)
    (hcg : db.call g = some c) (h : Refers (replaceAll rows e2) g) : g.triggerid = triggerid1 := by
  rcases reference_of_replaceAll rows h with ⟨row, hrow, hname⟩ | ⟨hmem, hleft⟩
  · obtain ⟨g', hg', _, -, ⟨hg1, -⟩, -, rfl⟩ := (mem_sameFunctions hkeys.items).mp ((hrows row).mp hrow)
    rwa [List.inj_on_of_nodup_map hkeys.functions hg hg' (dec_injective hname)]
  · refine absurd rfl (hleft (f.functionid, g.functionid) ((hrows _).mpr ?_))
    exact (mem_sameFunctions hkeys.items).mpr ⟨f, hf, g, hg, ⟨hf1, howns g hg hmem⟩, ⟨c, hcf, hcg⟩, rfl⟩

/-- Where the functions of the first expression are told apart by their calls, the replacements give it. -/
theorem replaceAll_of_distinguished (hkeys : db.FunctionKeys) (howns1 : db.Owns triggerid1 e1)
    (howns2 : db.Owns triggerid2 e2) (hdistinguished : db.Distinguished triggerid1 e1)
    (hexpanded : db.expanded e1 = db.expanded e2) {rows : List (ℕ × ℕ)}
    (hrows : ∀ row, row ∈ rows ↔ row ∈ db.sameFunctions triggerid1 triggerid2) : e1 = replaceAll rows e2 := by
  have hsame : db.expanded e1 = db.expanded (replaceAll rows e2) := by
    rw [hexpanded, expanded_replaceAll hkeys fun row hrow => (hrows row).mp hrow]
  refine read_injective (eq_of_map_eq hsame fun a ha b hb hab => ?_)
  cases hmeaning : db.meaning a with
  | inl s => exact (meaning_eq_inl hmeaning).trans (meaning_eq_inl (hab.symm.trans hmeaning)).symm
  | inr c =>
      obtain ⟨f, hf, hcf, rfl⟩ := meaning_eq_inr hmeaning
      obtain ⟨g, hg, hcg, rfl⟩ := meaning_eq_inr (hab.symm.trans hmeaning)
      have hg1 := own_of_replaceAll hkeys howns2 hrows hf (howns1 f hf ha) hg hcf hcg hb
      rw [hdistinguished f hf ha g hg hg1 (by rw [hcf]; rfl) (hcg.trans hcf.symm)]

/-- Behind the pairs of one function, nothing but that function makes its call. -/
theorem only_of_replaceAll (hkeys : db.FunctionKeys) {c : Call} {g : Function} (hg : g ∈ db.functions)
    (hg1 : g.triggerid = triggerid1) (hcg : db.call g = some c) {rows : List (ℕ × ℕ)}
    (hrows : ∀ row, row ∈ rows ↔ row ∈ db.sameFunctions triggerid1 triggerid2 ∧ row.1 = g.functionid)
    (howns : ∀ f ∈ db.functions, db.call f = some c → Refers expr f → f.triggerid = triggerid2) {f : Function}
    (hf : f ∈ db.functions) (hcf : db.call f = some c) (h : Refers (replaceAll rows expr) f) : f = g := by
  rcases reference_of_replaceAll rows h with ⟨row, hrow, hname⟩ | ⟨hmem, hleft⟩
  · refine List.inj_on_of_nodup_map hkeys.functions hf hg (dec_injective ?_)
    rw [hname, ((hrows row).mp hrow).2]
  · refine absurd rfl (hleft (g.functionid, f.functionid) ((hrows _).mpr ⟨?_, rfl⟩))
    exact (mem_sameFunctions hkeys.items).mpr ⟨g, hg, f, hf, ⟨hg1, howns f hf hcf hmem⟩, ⟨c, hcg, hcf⟩, rfl⟩

/-- Where nothing but one function makes a call, it stays so, if the pairs do not replace that function. -/
theorem only_replaceAll (hkeys : db.FunctionKeys) {c : Call} {g : Function} {rows : List (ℕ × ℕ)}
    (hrows : ∀ row ∈ rows, row ∈ db.sameFunctions triggerid1 triggerid2 ∧ row.2 ≠ g.functionid)
    (honly : ∀ f ∈ db.functions, db.call f = some c → Refers expr f → f = g) :
    ∀ f ∈ db.functions, db.call f = some c → Refers (replaceAll rows expr) f → f = g := by
  induction rows generalizing expr with
  | nil => exact honly
  | cons row rows ih =>
      obtain ⟨hrow, hrest⟩ := List.forall_mem_cons.mp hrows
      refine ih hrest fun f hf hcf h => ?_
      obtain ⟨before, hbefore, hname⟩ := reference_mem_replaceReference.mp h
      rw [renamed] at hname
      split at hname
      · next hsearch =>
        obtain ⟨a, ha, b, hb, -, ⟨c', hca, hcb⟩, heq⟩ := (mem_sameFunctions hkeys.items).mp hrow.1
        rw [heq] at hname hsearch hrow
        have haf : a = f := List.inj_on_of_nodup_map hkeys.functions ha hf (dec_injective hname)
        have hcc : c' = c := Option.some.inj (hca.symm.trans (haf ▸ hcf))
        rw [hsearch] at hbefore
        exact absurd (congrArg Function.functionid (honly b hb (hcc ▸ hcb) hbefore)) hrow.2
      · rw [hname] at hbefore
        exact honly f hf hcf hbefore

/-- The pairs of one function come first, or those come first that are not. -/
def grouped (first : Bool) (functionid : ℕ) (rows : List (ℕ × ℕ)) : List (ℕ × ℕ) :=
  if first then rows.filter (·.1 = functionid) ++ rows.filter (·.1 ≠ functionid)
  else rows.filter (·.1 ≠ functionid) ++ rows.filter (·.1 = functionid)

theorem reorders_grouped (first : Bool) (functionid : ℕ) : Reorders (grouped first functionid) := by
  intro rows
  have hperm : (rows.filter (·.1 = functionid) ++ rows.filter (·.1 ≠ functionid)).Perm rows := by
    simpa using List.filter_append_perm (·.1 = functionid) rows
  rw [grouped]
  split
  · exact hperm
  · exact List.perm_append_comm.trans hperm

/-- There is an order in which nothing of what makes the call of a function of the first trigger is left, but that
function. -/
theorem exists_only (hkeys : db.FunctionKeys) (howns : db.Owns triggerid2 e2) {c : Call} {g : Function}
    (hg : g ∈ db.functions) (hg1 : g.triggerid = triggerid1) (hcg : db.call g = some c) :
    ∃ order, Reorders order ∧ ∀ f ∈ db.functions, db.call f = some c →
      Refers (replaceAll (order (db.sameFunctions triggerid1 triggerid2)) e2) f → f = g := by
  have hgroup : ∀ row, row ∈ (db.sameFunctions triggerid1 triggerid2).filter (·.1 = g.functionid) ↔
      row ∈ db.sameFunctions triggerid1 triggerid2 ∧ row.1 = g.functionid := by
    intro row
    rw [List.mem_filter, decide_eq_true_eq]
  by_cases htriggers : triggerid1 = triggerid2
  · -- what another pair puts in is replaced by one of the last pairs
    refine ⟨grouped false g.functionid, reorders_grouped _ _, fun f hf hcf h => ?_⟩
    rw [grouped, if_neg (by decide), replaceAll_append] at h
    refine only_of_replaceAll hkeys hg hg1 hcg hgroup (fun f hf _ h => ?_) hf hcf h
    rcases reference_of_replaceAll _ h with ⟨row, hrow, hname⟩ | ⟨hmem, -⟩
    · obtain ⟨a, ha, _, -, ⟨ha1, -⟩, -, rfl⟩ := (mem_sameFunctions hkeys.items).mp (List.mem_of_mem_filter hrow)
      rw [List.inj_on_of_nodup_map hkeys.functions hf ha (dec_injective hname), ha1, htriggers]
    · exact howns f hf hmem
  · -- what the first pairs put in is of the first trigger, and stays
    refine ⟨grouped true g.functionid, reorders_grouped _ _, ?_⟩
    rw [grouped, if_pos rfl, replaceAll_append]
    have hrest : ∀ row ∈ (db.sameFunctions triggerid1 triggerid2).filter (·.1 ≠ g.functionid),
        row ∈ db.sameFunctions triggerid1 triggerid2 ∧ row.2 ≠ g.functionid := by
      intro row hrow
      have hpair := List.mem_of_mem_filter hrow
      refine ⟨hpair, fun hid => htriggers ?_⟩
      obtain ⟨_, -, b, hb, ⟨-, hb2⟩, -, rfl⟩ := (mem_sameFunctions hkeys.items).mp hpair
      rw [← hg1, ← hb2, List.inj_on_of_nodup_map hkeys.functions hb hg hid]
    exact only_replaceAll hkeys hrest fun f hf hcf h =>
      only_of_replaceAll hkeys hg hg1 hcg hgroup (fun f hf _ => howns f hf) hf hcf h

/-- Triggers compare equal exactly when their expressions say the same, in whatever order the pairs come, if the
functions in the first of two such expressions are told apart by their calls: no other function of the trigger
makes the call of one of them. -/
theorem dbCmpTriggers_iff {trigger1 trigger2 : Trigger} (hkeys : db.FunctionKeys)
    (h1 : db.triggers.find? (·.triggerid = triggerid1) = some trigger1)
    (h2 : db.triggers.find? (·.triggerid = triggerid2) = some trigger2)
    (howns1 : db.Owns triggerid1 trigger1.expression) (howns2 : db.Owns triggerid2 trigger2.expression) :
    (∀ order, Reorders order → (dbCmpTriggers order db triggerid1 triggerid2 = 0 ↔
      db.expanded trigger1.expression = db.expanded trigger2.expression)) ↔
    (db.expanded trigger1.expression = db.expanded trigger2.expression →
      db.Distinguished triggerid1 trigger1.expression) := by
  constructor
  · intro hright hexpanded f hf hrefers g hg hg1 hcall hsame
    obtain ⟨c, hcf⟩ := Option.isSome_iff_exists.mp hcall
    obtain ⟨order, horder, honly⟩ := exists_only hkeys howns2 hg hg1 (hsame.trans hcf)
    have hzero := (dbCmpTriggers_eq_zero_iff order h1 h2).mp ((hright order horder).mpr hexpanded)
    exact (honly f hf hcf (hzero ▸ hrefers)).symm
  · intro hcondition order horder
    have hrows : ∀ row, row ∈ order (db.sameFunctions triggerid1 triggerid2) ↔
        row ∈ db.sameFunctions triggerid1 triggerid2 := fun row => (horder _).mem_iff
    rw [dbCmpTriggers_eq_zero_iff order h1 h2]
    constructor
    · intro heq
      rw [heq, expanded_replaceAll hkeys fun row hrow => (hrows row).mp hrow]
    · exact fun hexpanded =>
        replaceAll_of_distinguished hkeys howns1 howns2 (hcondition hexpanded) hexpanded hrows

/-- More than 0 by one function, and less than 5 by another. -/
def loadExpression (functionid1 functionid2 : ℕ) : List UInt8 :=
  braced (dec functionid1) ++ bytes ">0&" ++ braced (dec functionid2) ++ bytes "<5"

/-- The last value of the key `load`, as a trigger of a template and one of a host.  The second reference of each is
to a function with the identifier given. -/
def loadDb (functionid1 functionid2 : ℕ) : HostDb :=
  let trigger (triggerid : ℕ) (expression : List UInt8) : Trigger :=
    { triggerid, expression, description := bytes "Load", url := [], comments := [], status := 0, value := 0,
      priority := 0, depLevel := 0, templateid := 0, type := 0 }
  let last (functionid itemid triggerid : ℕ) : Function :=
    { functionid, itemid, triggerid, function := bytes "last", parameter := bytes "0" }
  { HostDb.empty with
    items := [⟨1, 10, bytes "load", 0⟩, ⟨2, 20, bytes "load", 0⟩]
    functions := [last 12 1 100, last functionid1 1 100, last 22 2 200, last functionid2 2 200].dedup
    triggers := [trigger 100 (loadExpression 12 functionid1), trigger 200 (loadExpression 22 functionid2)] }

/-- Both references of each are to one function. -/
theorem dbCmpTriggers_load : dbCmpTriggers id (loadDb 12 22) 100 200 = 0 := by
  refine ((dbCmpTriggers_iff ⟨by decide, by decide⟩ rfl rfl ?_ ?_).mpr ?_ id fun _ => .refl _).mpr ?_
  · unfold HostDb.Owns
    decide
  · unfold HostDb.Owns
    decide
  · unfold HostDb.Distinguished
    decide
  · decide

/-- The two references of each are to two functions, and both of the second come to be references to one. -/
theorem not_dbCmpTriggers_load :
    ¬(dbCmpTriggers id (loadDb 13 23) 100 200 = 0 ↔
      (loadDb 13 23).expanded (loadExpression 12 13) = (loadDb 13 23).expanded (loadExpression 22 23)) := by
  rw [dbCmpTriggers_eq_zero_iff id rfl rfl, id_eq]
  intro h
  have hread := congrArg read (h.mpr (by decide))
  rw [read_replaceAll] at hread
  revert hread
  decide

end Zabbix.Host
