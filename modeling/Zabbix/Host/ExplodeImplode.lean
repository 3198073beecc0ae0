import Zabbix.Host.Implode
import Mathlib.Data.List.Nodup

/-!
# Zabbix.Host.ExplodeImplode

A stored trigger expression that is exploded and imploded again (`DBexplode_exp` and `DBimplode_exp` of
`libs/zbxdbhigh/host.c`).

What comes back has other functions, each with the next identifier.  It is the same expression otherwise if every
function is taken apart as it was put together, and none is referred to twice (`implodesBack_iff`).
-/

namespace Zabbix.Host

open Ascii Printf References
open Braces (Piece pieces)

/-- The identifiers of the functions that symbols refer to, one for each reference. -/
def functionids (ss : List Symbol) : List ℕ :=
  ss.filterMap fun
    | .text _ => none
    | .reference name => if name = triggerValue then none else some (ofDec name)

/-- Other identifiers in the places of those of functions. -/
def renumber (σ : ℕ → ℕ) : Symbol → Symbol :=
  Symbol.rename fun name => if name = triggerValue then name else dec (σ (ofDec name))

variable {schema : Schema} (nodeid : ℕ) (c : IdColumn → Column schema) (triggerid : ℕ)

/-- One expression is the other up to the identifiers of the functions, which go over one by one into those of new
functions with the same item, name and parameter. -/
structure Corresponds (db db' : HostDb) (e e' : List UInt8) (σ : ℕ → ℕ) : Prop where
  injective : ∀ a ∈ functionids (read e), ∀ b ∈ functionids (read e), σ a = σ b → a = b
  text : read e' = (read e).map (renumber σ)
  functions : ∀ f ∈ db.functions, f.functionid ∈ functionids (read e) → ∃ g ∈ db'.functions, g ∉ db.functions ∧
    g = { f with functionid := σ f.functionid, triggerid := triggerid }

/-- Exploded and imploded again, with `functionid` in the variable, the expression comes back, and what has been read
is as it was. -/
def ImplodesBack (db : HostDb) (functionid : ℕ) (e : List UInt8) : Prop :=
  ∃ e' db',
    (dbExplodeExp db functionid e).1 = e ∧
    dbImplodeExp nodeid c triggerid db (dbExplodeExp db functionid e).2 =
      .ok ((dbExplodeExp db functionid e).2, e', db') ∧
    ∃ σ, Corresponds triggerid db db' e e' σ

/-- A function whose call is taken apart as it was put together, and stored as it was. -/
structure HostDb.Implodable (db : HostDb) (f : Function) (i : Item) (h : HostRow) : Prop where
  host : h.host ≠ [] ∧ colon ∉ h.host
  key : i.key ≠ []
  function : f.function ≠ [] ∧ dot ∉ f.function
  parameter : f.parameter ≠ [] ∧ lparen ∉ f.parameter
  braces : rbrace ∉ calledAs f i h
  returns : cr ∉ calledAs f i h
  functionLen : f.function.length ≤ functionFunctionLen
  parameterLen : f.parameter.length ≤ functionParameterLen
  item : db.itemNamed h.host i.key = some i.itemid

/-! ## the pieces of what is exploded -/

/-- What stands between the braces for a reference. -/
def callOf (db : HostDb) (name : List UInt8) : List UInt8 :=
  if name = triggerValue then name
  else
    match db.functionRow (ofDec name) with
    | some (h, i, f) => calledAs f i h
    | none => bytes "*ERROR*"

/-- The piece that a symbol comes to, if there is no brace in it. -/
def explodedPiece (db : HostDb) : Symbol → Piece
  | .text a => .text a
  | .reference name => .braced (callOf db name)

variable {nodeid c triggerid} {db : HostDb} {f : Function} {i : Item} {h : HostRow}

theorem explodeSymbol_reference (db : HostDb) (name : List UInt8) :
    db.explodeSymbol (.reference name) = braced (callOf db name) := by
  rw [HostDb.explodeSymbol, explodeText, callOf]
  split
  · rfl
  · cases db.functionRow (ofDec name) <;> rfl

theorem callOf_calls (hkeys : db.CallKeys) (hcalls : db.Calls f i h) :
    callOf db (dec f.functionid) = calledAs f i h := by
  rw [callOf, if_neg (dec_ne_triggerValue _), ofDec_dec, functionRow_eq hkeys hcalls]

theorem pieces_explode {ss : List Symbol} (hss : ∀ a ∈ ss, db.StoredSymbol a)
    (hbraces : ∀ name, .reference name ∈ ss → rbrace ∉ callOf db name) :
    pieces (ss.flatMap db.explodeSymbol) = ss.map (explodedPiece db) := by
  induction ss with
  | nil => rfl
  | cons a ss ih =>
      obtain ⟨ha, hrest⟩ := List.forall_mem_cons.mp hss
      have ih := ih hrest fun name hname => hbraces name (List.mem_cons_of_mem _ hname)
      rw [List.flatMap_cons, List.map_cons, ← ih]
      cases a with
      | text a =>
          have hplain : lbrace ∉ [a] := by simpa using Ne.symm ha.1
          exact Braces.pieces_append hplain _
      | reference name =>
          rw [explodeSymbol_reference, braced, List.cons_append, List.append_assoc, List.singleton_append]
          exact Braces.pieces_braced (hbraces name List.mem_cons_self) _

/-- Between braces stands nothing but what has been put in for a reference. -/
theorem mem_pieces_explode {ss : List Symbol} (hss : ∀ a ∈ ss, db.StoredSymbol a) {u : List UInt8}
    (hu : Piece.braced u ∈ pieces (ss.flatMap db.explodeSymbol)) :
    ∃ name, .reference name ∈ ss ∧ u ⊆ callOf db name := by
  induction ss with
  | nil => cases hu
  | cons a ss ih =>
      obtain ⟨ha, hrest⟩ := List.forall_mem_cons.mp hss
      rw [List.flatMap_cons] at hu
      have hbehind : Piece.braced u ∈ pieces (ss.flatMap db.explodeSymbol) →
          ∃ name, .reference name ∈ a :: ss ∧ u ⊆ callOf db name := fun hmem => by
        obtain ⟨name, hname, hsub⟩ := ih hrest hmem
        exact ⟨name, List.mem_cons_of_mem _ hname, hsub⟩
      cases a with
      | text a =>
          have hplain : lbrace ∉ [a] := by simpa using Ne.symm ha.1
          rw [HostDb.explodeSymbol, Braces.pieces_append hplain] at hu
          exact hbehind (by simpa using hu)
      | reference name =>
          rw [explodeSymbol_reference, braced, List.cons_append, List.append_assoc, List.singleton_append] at hu
          rcases Braces.mem_pieces_closed hu with hsub | hmem
          · exact ⟨name, List.mem_cons_self, hsub⟩
          · exact hbehind hmem

/-! ## what is imploded -/

/-- The symbols with new functions, whose identifiers go on from `n`. -/
def numbered : (n : ℕ) → List Symbol → List Symbol
  | _, [] => []
  | n, .text a :: ss => .text a :: numbered n ss
  | n, .reference name :: ss =>
      if name = triggerValue then .reference name :: numbered n ss
      else .reference (dec (n + 1)) :: numbered (n + 1) ss

variable (triggerid) in
/-- The new functions. -/
def newFunctions (db : HostDb) : (n : ℕ) → List Symbol → List Function
  | _, [] => []
  | n, .text _ :: ss => newFunctions db n ss
  | n, .reference name :: ss =>
      if name = triggerValue then newFunctions db n ss
      else
        match db.functionRow (ofDec name) with
        | some (_, _, f) => { f with functionid := n + 1, triggerid := triggerid } :: newFunctions db (n + 1) ss
        | none => newFunctions db (n + 1) ss

theorem mem_calledAs {a : UInt8} : a ∈ calledAs f i h ↔
    a ∈ h.host ∨ a = colon ∨ a ∈ i.key ∨ a = dot ∨ a ∈ f.function ∨ a = lparen ∨ a ∈ f.parameter ∨ a = rparen := by
  simp [calledAs, callText]

/-- A call is taken apart as it was put together. -/
theorem cutCall_callText {host key function parameter : List UInt8} (hhost : host ≠ [] ∧ colon ∉ host) (hkey : key ≠ [])
    (hfunction : function ≠ [] ∧ dot ∉ function) (hparameter : parameter ≠ [] ∧ lparen ∉ parameter) :
    cutCall (callText host key function parameter) = some ⟨host, key, function, parameter⟩ := by
  have hassoc : callText host key function parameter =
      host ++ colon :: ((key ++ dot :: function) ++ lparen :: (parameter ++ [rparen])) := by
    simp [callText]
  have harguments : lparen ∉ parameter ++ [rparen] := by
    simp only [List.mem_append, List.mem_singleton, not_or]
    exact ⟨hparameter.2, by decide⟩
  rw [hassoc, cutCall_eq hhost.2 harguments, strrchr_append_cons parameter List.not_mem_nil]
  dsimp only
  rw [strrchr_append_cons key hfunction.2]
  exact if_pos ⟨hhost.1, hkey, hfunction.1, hparameter.1⟩

theorem HostDb.Implodable.cutCall (himplodable : db.Implodable f i h) :
    cutCall (calledAs f i h) = some ⟨h.host, i.key, f.function, f.parameter⟩ :=
  cutCall_callText himplodable.host himplodable.key himplodable.function himplodable.parameter

variable (triggerid) in
/-- The next identifier is handed out behind a new function. -/
theorem lastId_insertFunction (hnot : db.NotBelow nodeid c .functions)
    (hlt : db.lastId nodeid c .functions < (c .functions).max nodeid) (itemid : ℕ) (function parameter : List UInt8) :
    let db' := (db.takeId nodeid c .functions).insertFunction (db.lastId nodeid c .functions + 1) itemid triggerid
      function parameter
    db'.NotBelow nodeid c .functions ∧ db'.lastId nodeid c .functions = db.lastId nodeid c .functions + 1 := by
  intro db'
  have hids : db'.ids .functions = some (db.lastId nodeid c .functions + 1) :=
    (takeId_ids : (db.takeId nodeid c .functions).ids .functions = _)
  have hcolumn : db'.column .functions = db.column .functions ++ [db.lastId nodeid c .functions + 1] :=
    List.map_append
  have hbelow : db'.NotBelow nodeid c .functions := by
    intro nextid hnext id hid hmax
    obtain rfl := Option.some.inj (hids.symm.trans hnext)
    rw [hcolumn] at hid
    rcases List.mem_append.mp hid with hid | hid
    · exact (le_lastId hnot hid hmax).trans (Nat.le_succ _)
    · exact (List.mem_singleton.mp hid).le
  refine ⟨hbelow, le_antisymm ?_ ?_⟩
  · rw [HostDb.lastId, hids]
    exact lastId_some_le ((min_le_lastId _ _).trans (Nat.le_succ _)) hlt _
  · exact le_lastId hbelow (by rw [hcolumn]; simp) hlt

theorem implodeText_triggerValue (db : HostDb) :
    implodeText nodeid c triggerid db triggerValue = .ok (braced triggerValue, db) := by
  have hcut : cutCall triggerValue = none := by decide
  have hliteral : literalText triggerValue = triggerValue := by decide
  rw [implodeText, hcut, hliteral]

/-- A function that is imploded has the next identifier, if there is one. -/
theorem implodeText_calls {db' : HostDb} (himplodable : db.Implodable f i h) (hitems : db'.items = db.items)
    (hhosts : db'.hosts = db.hosts) (hitem : i.itemid = f.itemid) :
    implodeText nodeid c triggerid db' (calledAs f i h) =
      if db'.lastId nodeid c .functions < (c .functions).max nodeid then
        .ok (braced (dec (db'.lastId nodeid c .functions + 1)),
          (db'.takeId nodeid c .functions).insertFunction (db'.lastId nodeid c .functions + 1) f.itemid triggerid
            f.function f.parameter)
      else .error .exit := by
  have hreturns := himplodable.returns
  simp only [mem_calledAs, not_or] at hreturns
  have hnamed : db'.itemNamed h.host i.key = some f.itemid := by
    rw [← hitem, ← himplodable.item, HostDb.itemNamed, HostDb.itemNamed, hitems, hhosts]
  rw [implodeText, himplodable.cutCall]
  dsimp only
  rw [implodeCall, kept_of_not_mem hreturns.1, kept_of_not_mem hreturns.2.2.1, hnamed]
  dsimp only
  rw [dbGetMaxid_eq]
  by_cases hlt : db'.lastId nodeid c .functions < (c .functions).max nodeid
  · rw [if_pos hlt, if_pos hlt]
  · rw [if_neg hlt, if_neg hlt]

theorem functionids_cons_triggerValue (ss : List Symbol) :
    functionids (.reference triggerValue :: ss) = functionids ss := by
  simp [functionids]

theorem functionids_cons_reference {name : List UInt8} (h : name ≠ triggerValue) (ss : List Symbol) :
    functionids (.reference name :: ss) = ofDec name :: functionids ss := by
  simp [functionids, h]

theorem functionids_cons_dec (n : ℕ) (ss : List Symbol) :
    functionids (.reference (dec n) :: ss) = n :: functionids ss := by
  rw [functionids_cons_reference (dec_ne_triggerValue n), ofDec_dec]

variable (triggerid) in
/-- The texts of a function that is imploded are stored as they are. -/
theorem insertFunction_implodable (himplodable : db.Implodable f i h) (db' : HostDb) (functionid : ℕ) :
    (db'.insertFunction functionid f.itemid triggerid f.function f.parameter).functions =
      db'.functions ++ [{ f with functionid := functionid, triggerid := triggerid }] := by
  have hreturns := himplodable.returns
  simp only [mem_calledAs, not_or] at hreturns
  rw [HostDb.insertFunction, kept_of_not_mem hreturns.2.2.2.2.1, kept_of_not_mem hreturns.2.2.2.2.2.2.1,
    List.take_of_length_le himplodable.functionLen, List.take_of_length_le himplodable.parameterLen]

/-- With an identifier for each function up to `last` there is a text and the functions are added; without, the
process exits. -/
def Yields (max last : ℕ) (result : Except HostStop (List UInt8 × HostDb)) (text : List UInt8)
    (functions : List Function) : Prop :=
  if last ≤ max then ∃ db', result = .ok (text, db') ∧ db'.functions = functions else result = .error .exit

theorem Yields.map {max last : ℕ} {result : Except HostStop (List UInt8 × HostDb)} {text : List UInt8}
    {functions : List Function} (h : Yields max last result text functions) (front : List UInt8) :
    Yields max last (result.map fun r => (front ++ r.1, r.2)) (front ++ text) functions := by
  rw [Yields] at h ⊢
  split
  · next hle =>
    rw [if_pos hle] at h
    obtain ⟨db', rfl, hfunctions⟩ := h
    exact ⟨db', rfl, hfunctions⟩
  · next hle =>
    rw [if_neg hle] at h
    rw [h]
    rfl

/-- **One symbol after the other**: the functions get the identifiers that follow, as long as there are any. -/
theorem implodePieces_run (hkeys : db.CallKeys) {ss : List Symbol} (hss : ∀ a ∈ ss, db.StoredSymbol a)
    (himplodable : ∀ f i h, db.Calls f i h → .reference (dec f.functionid) ∈ ss → db.Implodable f i h)
    {db' : HostDb} (hitems : db'.items = db.items) (hhosts : db'.hosts = db.hosts)
    (hnot : db'.NotBelow nodeid c .functions) :
    Yields ((c .functions).max nodeid) (db'.lastId nodeid c .functions + (functionids ss).length)
      (implodePieces nodeid c triggerid db' (ss.map (explodedPiece db)))
      (render (numbered (db'.lastId nodeid c .functions) ss))
      (db'.functions ++ newFunctions triggerid db (db'.lastId nodeid c .functions) ss) := by
  induction ss generalizing db' with
  | nil =>
      rw [Yields, functionids, List.filterMap_nil, List.length_nil, Nat.add_zero,
        if_pos (show db'.lastId nodeid c .functions ≤ _ from lastId_le_max _ _)]
      exact ⟨db', rfl, (List.append_nil _).symm⟩
  | cons a ss ih =>
      obtain ⟨ha, hrest⟩ := List.forall_mem_cons.mp hss
      have ih := @ih hrest fun f i h hcalls hmem => himplodable f i h hcalls (List.mem_cons_of_mem _ hmem)
      cases a with
      | text a => exact (ih hitems hhosts hnot).map [a]
      | reference name =>
          rcases ha with rfl | ⟨f, i, h, hcalls, rfl, -, -⟩
          · rw [functionids_cons_triggerValue, List.map_cons, explodedPiece, callOf, if_pos rfl, implodePieces,
              implodeText_triggerValue, numbered, if_pos rfl, newFunctions, if_pos rfl]
            exact (ih hitems hhosts hnot).map (braced triggerValue)
          · have hone := himplodable f i h hcalls List.mem_cons_self
            rw [functionids_cons_dec, List.length_cons, List.map_cons, explodedPiece, callOf_calls hkeys hcalls,
              implodePieces, implodeText_calls hone hitems hhosts hcalls.itemid, numbered,
              if_neg (dec_ne_triggerValue _), newFunctions, if_neg (dec_ne_triggerValue _), ofDec_dec,
              functionRow_eq hkeys hcalls]
            by_cases hlt : db'.lastId nodeid c .functions < (c .functions).max nodeid
            · obtain ⟨hnot', hlast⟩ := lastId_insertFunction triggerid hnot hlt f.itemid f.function f.parameter
              have hfunctions := insertFunction_implodable triggerid hone (db'.takeId nodeid c .functions)
                (db'.lastId nodeid c .functions + 1)
              rw [if_pos hlt]
              dsimp only
              generalize hnew : (db'.takeId nodeid c .functions).insertFunction (db'.lastId nodeid c .functions + 1)
                f.itemid triggerid f.function f.parameter = new at hnot' hlast hfunctions ⊢
              have hrun := (@ih new (hnew ▸ hitems) (hnew ▸ hhosts) hnot').map
                (braced (dec (db'.lastId nodeid c .functions + 1)))
              rw [hlast, hfunctions, List.append_assoc, Nat.add_right_comm] at hrun
              exact hrun
            · rw [if_neg hlt, Yields, if_neg (by omega)]

/-! ## the identifiers that come back -/

theorem functionids_numbered (n : ℕ) (ss : List Symbol) :
    functionids (numbered n ss) = List.range' (n + 1) (functionids ss).length := by
  induction ss generalizing n with
  | nil => rfl
  | cons a ss ih =>
      cases a with
      | text a => exact ih n
      | reference name =>
          rw [numbered]
          split
          · next hname => rw [hname, functionids_cons_triggerValue, functionids_cons_triggerValue, ih]
          · next hname =>
            rw [functionids_cons_dec, ih, functionids_cons_reference hname, List.length_cons, List.range'_succ]

theorem functionids_renumber (σ : ℕ → ℕ) (ss : List Symbol) :
    functionids (ss.map (renumber σ)) = (functionids ss).map σ := by
  induction ss with
  | nil => rfl
  | cons a ss ih =>
      cases a with
      | text a => exact ih
      | reference name =>
          rw [List.map_cons, renumber, Symbol.rename]
          by_cases hname : name = triggerValue
          · rw [if_pos hname, hname, functionids_cons_triggerValue, functionids_cons_triggerValue]
            exact ih
          · rw [if_neg hname, functionids_cons_dec, functionids_cons_reference hname, List.map_cons, ← ih]
            rfl

/-- The identifiers of a list in their places, from `n` on. -/
def nextIds (n : ℕ) (ids : List ℕ) (id : ℕ) : ℕ := n + 1 + ids.idxOf id

theorem not_mem_done {id : ℕ} {done ids : List ℕ} (h : (done ++ id :: ids).Nodup) : id ∉ done := fun hmem =>
  (List.nodup_append.mp h).2.2 id hmem id List.mem_cons_self rfl

/-- Where no function is referred to twice, a function has one identifier. -/
theorem numbered_eq (n : ℕ) (done : List ℕ) {ss : List Symbol} (hnodup : (done ++ functionids ss).Nodup) :
    numbered (n + done.length) ss = ss.map (renumber (nextIds n (done ++ functionids ss))) := by
  induction ss generalizing done with
  | nil => rfl
  | cons a ss ih =>
      cases a with
      | text a => exact congrArg _ (ih done hnodup)
      | reference name =>
          rw [numbered, List.map_cons, renumber, Symbol.rename]
          by_cases hname : name = triggerValue
          · rw [hname, functionids_cons_triggerValue] at hnodup ⊢
            rw [if_pos rfl, if_pos rfl]
            exact congrArg _ (ih done hnodup)
          · have hids := functionids_cons_reference hname ss
            rw [hids] at hnodup
            have hnot := not_mem_done hnodup
            rw [List.append_cons] at hnodup
            have hindex : nextIds n (done ++ functionids (.reference name :: ss)) (ofDec name) = n + done.length + 1 := by
              rw [nextIds, hids, List.idxOf_append_of_notMem hnot, List.idxOf_cons_self]
              omega
            have ih := ih (done ++ [ofDec name]) hnodup
            rw [List.length_append, List.length_singleton, ← List.append_cons, ← hids] at ih
            rw [if_neg hname, if_neg hname, hindex]
            exact congrArg _ ih

variable (triggerid) in
/-- The new functions are those of the references. -/
theorem mem_newFunctions (hkeys : db.CallKeys) (n : ℕ) (done : List ℕ) {ss : List Symbol}
    (hss : ∀ a ∈ ss, db.StoredSymbol a) (hnodup : (done ++ functionids ss).Nodup) (hf : f ∈ db.functions)
    (hmem : f.functionid ∈ functionids ss) :
    { f with functionid := nextIds n (done ++ functionids ss) f.functionid, triggerid := triggerid } ∈
      newFunctions triggerid db (n + done.length) ss := by
  induction ss generalizing done with
  | nil => cases hmem
  | cons a ss ih =>
      obtain ⟨ha, hrest⟩ := List.forall_mem_cons.mp hss
      cases a with
      | text a => exact ih done hrest hnodup hmem
      | reference name =>
          rcases ha with rfl | ⟨g, i, h, hcalls, rfl, -, -⟩
          · rw [functionids_cons_triggerValue] at hnodup hmem ⊢
            rw [newFunctions, if_pos rfl]
            exact ih done hrest hnodup hmem
          · rw [functionids_cons_dec] at hnodup hmem ⊢
            rw [newFunctions, if_neg (dec_ne_triggerValue _), ofDec_dec, functionRow_eq hkeys hcalls]
            have hnot := not_mem_done hnodup
            rw [List.append_cons] at hnodup
            rcases List.mem_cons.mp hmem with heq | hmem
            · obtain rfl := List.inj_on_of_nodup_map hkeys.functions hf hcalls.function heq
              rw [nextIds, List.idxOf_append_of_notMem hnot, List.idxOf_cons_self]
              rw [Nat.add_zero, Nat.add_right_comm]
              exact List.mem_cons_self
            · have ih := ih (done ++ [g.functionid]) hrest hnodup hmem
              rw [List.length_append, List.length_singleton, ← List.append_cons] at ih
              exact List.mem_cons_of_mem _ ih

theorem mem_functionids {ss : List Symbol} (hss : ∀ a ∈ ss, db.StoredSymbol a) {n : ℕ} :
    n ∈ functionids ss ↔ .reference (dec n) ∈ ss := by
  rw [functionids, List.mem_filterMap]
  constructor
  · rintro ⟨a, ha, heq⟩
    cases a with
    | text a => cases heq
    | reference name =>
        dsimp only at heq
        split at heq
        · cases heq
        · next hname =>
          obtain rfl := Option.some.inj heq
          rcases hss _ ha with h | ⟨f, -, -, -, rfl, -⟩
          · exact absurd h hname
          · rwa [ofDec_dec]
  · intro hmem
    refine ⟨_, hmem, ?_⟩
    dsimp only
    rw [if_neg (dec_ne_triggerValue n), ofDec_dec]

/-- What comes back is read as it has been written. -/
theorem read_numbered (n : ℕ) {ss : List Symbol} (hss : ∀ a ∈ ss, db.StoredSymbol a) :
    read (render (numbered n ss)) = numbered n ss := by
  refine read_render ?_
  induction ss generalizing n with
  | nil => exact .nil
  | cons a ss ih =>
      obtain ⟨ha, hrest⟩ := List.forall_mem_cons.mp hss
      cases a with
      | text a => exact .text (fun hopen => absurd hopen ha.1) (ih n hrest)
      | reference name =>
          rw [numbered]
          split
          · exact .reference ha.plain.1 (ih n hrest)
          · exact .reference (plain_dec _) (ih (n + 1) hrest)

/-! ## what is not taken apart -/

theorem literalText_of_cutCall {s : List UInt8} {parts : CallParts} (h : cutCall s = some parts) :
    literalText s = s := by
  rw [cutCall] at h
  rw [literalText]
  split at h
  · cases h
  · next host rest hcolon =>
    split at h
    · cases h
    · next front arguments hparen =>
      refine if_neg fun hdot => ?_
      split at h
      · cases h
      · rw [strrchr_eq_none_iff.mpr hdot.2] at h
        cases h

/-- What the parts of a call are. -/
theorem cutCall_eq_some {s : List UInt8} {parts : CallParts} (h : cutCall s = some parts) :
    ((parts.host ≠ [] ∧ colon ∉ parts.host) ∧ parts.key ≠ [] ∧ (parts.function ≠ [] ∧ dot ∉ parts.function) ∧
      parts.parameter ≠ [] ∧ lparen ∉ parts.parameter) ∧
    parts.host ⊆ s ∧ parts.key ⊆ s ∧ parts.function ⊆ s ∧ parts.parameter ⊆ s := by
  rw [cutCall] at h
  split at h
  · cases h
  · next host rest hcolon =>
    split at h
    · cases h
    · next front arguments hparen =>
      split at h
      · cases h
      · next parameter tail hclose =>
        split at h
        · cases h
        · next key function hdot =>
          split at h
          · next hne =>
            obtain rfl := Option.some.inj h
            obtain rfl := strchr_eq_some hcolon
            have hhost := not_mem_of_strchr hcolon
            obtain ⟨rfl, harguments⟩ := strrchr_eq_some hparen
            obtain ⟨rfl, -⟩ := strrchr_eq_some hclose
            obtain ⟨rfl, hfunction⟩ := strrchr_eq_some hdot
            refine ⟨⟨⟨hne.1, hhost⟩, hne.2.1, ⟨hne.2.2.1, hfunction⟩, hne.2.2.2, fun hmem => harguments ?_⟩, ?_⟩
            · exact List.mem_append_left _ hmem
            · refine ⟨fun a ha => ?_, fun a ha => ?_, fun a ha => ?_, fun a ha => ?_⟩ <;> simp [ha]
          · cases h

/-- Where a function that has been inserted comes from. -/
theorem implodeText_ok {s : List UInt8} {r : List UInt8 × HostDb} (h : implodeText nodeid c triggerid db s = .ok r) :
    (r.2.items = db.items ∧ r.2.hosts = db.hosts) ∧ ∀ g ∈ r.2.functions, g ∉ db.functions →
      ∃ parts, cutCall s = some parts ∧ db.itemNamed (kept parts.host) (kept parts.key) = some g.itemid ∧
        g.function = (kept parts.function).take functionFunctionLen ∧
        g.parameter = (kept parts.parameter).take functionParameterLen := by
  rw [implodeText] at h
  split at h
  · obtain rfl := Except.ok.inj h
    exact ⟨⟨rfl, rfl⟩, fun g hg hnot => absurd hg hnot⟩
  · next parts hparts =>
    rw [implodeCall] at h
    split at h
    · obtain rfl := Except.ok.inj h
      exact ⟨⟨rfl, rfl⟩, fun g hg hnot => absurd hg hnot⟩
    · next itemid hitemid =>
      rw [dbGetMaxid_eq] at h
      by_cases hlt : db.lastId nodeid c .functions < (c .functions).max nodeid
      · rw [if_pos hlt] at h
        obtain rfl := Except.ok.inj h
        refine ⟨⟨rfl, rfl⟩, fun g hg hnot => ⟨parts, hparts, ?_⟩⟩
        rcases List.mem_append.mp hg with hg | hg
        · exact absurd hg hnot
        · rw [List.mem_singleton.mp hg]
          exact ⟨hitemid, rfl, rfl⟩
      · rw [if_neg hlt] at h
        cases h

theorem implodePieces_ok {ps : List Piece} {r : List UInt8 × HostDb} (h : implodePieces nodeid c triggerid db ps = .ok r)
    {g : Function} (hg : g ∈ r.2.functions) (hnot : g ∉ db.functions) :
    ∃ u parts, .braced u ∈ ps ∧ cutCall u = some parts ∧
      db.itemNamed (kept parts.host) (kept parts.key) = some g.itemid ∧
      g.function = (kept parts.function).take functionFunctionLen ∧
      g.parameter = (kept parts.parameter).take functionParameterLen := by
  induction ps generalizing db r with
  | nil =>
      obtain rfl := Except.ok.inj h
      exact absurd hg hnot
  | cons p ps ih =>
      cases p with
      | text a =>
          rw [implodePieces] at h
          obtain ⟨r', hrun, rfl⟩ := Outcome.map_eq_ok.mp h
          obtain ⟨u, parts, hu, hrest⟩ := ih hrun hg hnot
          exact ⟨u, parts, List.mem_cons_of_mem _ hu, hrest⟩
      | unclosed s =>
          rw [implodePieces] at h
          obtain ⟨r', hrun, rfl⟩ := Outcome.map_eq_ok.mp h
          obtain ⟨u, parts, hu, hrest⟩ := ih hrun hg hnot
          exact ⟨u, parts, List.mem_cons_of_mem _ hu, hrest⟩
      | braced s =>
          rw [implodePieces] at h
          split at h
          · cases h
          · next text db' htext =>
            obtain ⟨r', hrun, rfl⟩ := Outcome.map_eq_ok.mp h
            obtain ⟨⟨hitems, hhosts⟩, hnew⟩ := implodeText_ok htext
            by_cases hold : g ∈ db'.functions
            · obtain ⟨parts, hcut, hrest⟩ := hnew g hold hnot
              exact ⟨s, parts, List.mem_cons_self, hcut, hrest⟩
            · obtain ⟨u, parts, hu, hcut, hnamed, hrest⟩ := ih hrun hg hold
              refine ⟨u, parts, List.mem_cons_of_mem _ hu, hcut, ?_, hrest⟩
              rw [← hnamed, HostDb.itemNamed, HostDb.itemNamed, hitems, hhosts]

/-! ## there and back -/

theorem itemNamed_eq_some {host key : List UInt8} {itemid : ℕ} (h : db.itemNamed host key = some itemid) :
    ∃ i ∈ db.items, ∃ h ∈ db.hosts, h.hostid = i.hostid ∧ h.host = host ∧ i.key = key ∧ i.itemid = itemid := by
  obtain ⟨i, hi, h⟩ := List.exists_of_findSome?_eq_some h
  obtain ⟨h', hh', h⟩ := List.exists_of_findSome?_eq_some h
  obtain ⟨⟨hid, hhost, hkey⟩, heq⟩ := Option.ite_none_right_eq_some.mp h
  exact ⟨i, hi, h', hh', hid, hhost, hkey, Option.some.inj heq⟩

theorem not_mem_exploded (hkeys : db.CallKeys) {ss : List Symbol} (hss : ∀ a ∈ ss, db.StoredSymbol a) :
    0 ∉ ss.flatMap db.explodeSymbol := by
  intro hmem
  obtain ⟨a, ha, hmem⟩ := List.mem_flatMap.mp hmem
  cases a with
  | text a => exact (hss _ ha).2.2 (List.mem_singleton.mp hmem).symm
  | reference name =>
      rw [explodeSymbol_reference] at hmem
      have hcall : 0 ∈ callOf db name := by
        simpa [braced, show (0 : UInt8) ≠ lbrace by decide, show (0 : UInt8) ≠ rbrace by decide] using hmem
      rcases hss _ ha with rfl | ⟨f, i, h, hcalls, rfl, -, hnul⟩
      · rw [callOf, if_pos rfl] at hcall
        revert hcall
        decide
      · exact hnul (callOf_calls hkeys hcalls ▸ hcall)

/-- What has been put in for a call has no returns in its texts. -/
theorem returns_of_inserted (hkeys : db.CallKeys) (hcalls : db.Calls f i h) {parts : CallParts}
    (hnamed : db.itemNamed (kept parts.host) (kept parts.key) = some f.itemid)
    (hfunction : f.function = (kept parts.function).take functionFunctionLen)
    (hparameter : f.parameter = (kept parts.parameter).take functionParameterLen) : cr ∉ calledAs f i h := by
  obtain ⟨i', hi', h', hh', hid, hhost, hkey, hitemid⟩ := itemNamed_eq_some hnamed
  obtain rfl := List.inj_on_of_nodup_map hkeys.items hi' hcalls.item (hitemid.trans hcalls.itemid.symm)
  obtain rfl := List.inj_on_of_nodup_map hkeys.hosts hh' hcalls.host (hid.trans hcalls.hostid.symm)
  have hkept := cr_not_mem_kept
  rw [mem_calledAs, hhost, hkey, hfunction, hparameter]
  simp only [not_or]
  exact ⟨hkept _, by decide, hkept _, by decide, fun hmem => hkept _ (List.mem_of_mem_take hmem), by decide,
    fun hmem => hkept _ (List.mem_of_mem_take hmem), by decide⟩

/-- Where a function comes from that has been put in for a call, the call is taken apart as it was put together. -/
theorem implodable_of_inserted (hkeys : db.CallKeys) (hcalls : db.Calls f i h) {u : List UInt8} {parts : CallParts}
    (hu : rbrace ∉ u) (hreturns : cr ∉ u) (hcut : cutCall u = some parts)
    (hnamed : db.itemNamed (kept parts.host) (kept parts.key) = some f.itemid)
    (hfunction : f.function = (kept parts.function).take functionFunctionLen)
    (hparameter : f.parameter = (kept parts.parameter).take functionParameterLen) : db.Implodable f i h := by
  obtain ⟨⟨⟨hhostne, hcolon⟩, hkeyne, ⟨hfunctionne, hdot⟩, hparameterne, hparen⟩, hhostsub, hkeysub, hfunctionsub,
    hparametersub⟩ := cutCall_eq_some hcut
  rw [kept_of_not_mem fun hmem => hreturns (hhostsub hmem), kept_of_not_mem fun hmem => hreturns (hkeysub hmem)] at hnamed
  rw [kept_of_not_mem fun hmem => hreturns (hfunctionsub hmem)] at hfunction
  rw [kept_of_not_mem fun hmem => hreturns (hparametersub hmem)] at hparameter
  obtain ⟨i', hi', h', hh', hid, hhost, hkey, hitemid⟩ := itemNamed_eq_some hnamed
  obtain rfl := List.inj_on_of_nodup_map hkeys.items hi' hcalls.item (hitemid.trans hcalls.itemid.symm)
  obtain rfl := List.inj_on_of_nodup_map hkeys.hosts hh' hcalls.host (hid.trans hcalls.hostid.symm)
  have hsub : ∀ a ∈ calledAs f i' h', a ∈ u ∨ a ∈ [colon, dot, lparen, rparen] := by
    intro a ha
    rw [mem_calledAs, hhost, hkey, hfunction, hparameter] at ha
    rcases ha with ha | ha | ha | ha | ha | ha | ha | ha
    · exact .inl (hhostsub ha)
    · simp [ha]
    · exact .inl (hkeysub ha)
    · simp [ha]
    · exact .inl (hfunctionsub (List.mem_of_mem_take ha))
    · simp [ha]
    · exact .inl (hparametersub (List.mem_of_mem_take ha))
    · simp [ha]
  exact {
    host := by rw [hhost]; exact ⟨hhostne, hcolon⟩
    key := by rw [hkey]; exact hkeyne
    function := by
      rw [hfunction]
      exact ⟨by simpa [functionFunctionLen] using hfunctionne, fun hmem => hdot (List.mem_of_mem_take hmem)⟩
    parameter := by
      rw [hparameter]
      exact ⟨by simpa [functionParameterLen] using hparameterne, fun hmem => hparen (List.mem_of_mem_take hmem)⟩
    braces := fun hmem => (hsub _ hmem).elim hu (by decide)
    returns := fun hmem => (hsub _ hmem).elim hreturns (by decide)
    functionLen := by rw [hfunction]; exact List.length_take_le _ _
    parameterLen := by rw [hparameter]; exact List.length_take_le _ _
    item := by rw [hhost, hkey, hnamed, hcalls.itemid] }

/-- What is returned for an expression whose calls are all taken apart. -/
theorem dbImplodeExp_run (hkeys : db.CallKeys) {ss : List Symbol} (hss : ∀ a ∈ ss, db.StoredSymbol a)
    (himplodable : ∀ f i h, db.Calls f i h → .reference (dec f.functionid) ∈ ss → db.Implodable f i h)
    (hnot : db.NotBelow nodeid c .functions) :
    Yields ((c .functions).max nodeid) (db.lastId nodeid c .functions + (functionids ss).length)
      ((dbImplodeExp nodeid c triggerid db (ss.flatMap db.explodeSymbol)).map fun r => r.2)
      (render (numbered (db.lastId nodeid c .functions) ss))
      (db.functions ++ newFunctions triggerid db (db.lastId nodeid c .functions) ss) ∧
    ∀ r, dbImplodeExp nodeid c triggerid db (ss.flatMap db.explodeSymbol) = .ok r →
      r.1 = ss.flatMap db.explodeSymbol := by
  have hcalls : ∀ name, .reference name ∈ ss → rbrace ∉ callOf db name ∧
      literalText (callOf db name) = callOf db name := by
    intro name hname
    rcases hss _ hname with rfl | ⟨f, i, h, hcalls, rfl, -, -⟩
    · rw [callOf, if_pos rfl]
      exact ⟨plain_triggerValue.2, by decide⟩
    · have hone := himplodable f i h hcalls hname
      rw [callOf_calls hkeys hcalls]
      exact ⟨hone.braces, literalText_of_cutCall hone.cutCall⟩
  have hpieces := pieces_explode hss fun name hname => (hcalls name hname).1
  obtain ⟨m', hrun, hsame⟩ := @dbImplodeExp_eq _ nodeid c triggerid db _ (not_mem_exploded hkeys hss)
  rw [hpieces] at hrun hsame
  constructor
  · have hyields := @implodePieces_run _ nodeid c triggerid db hkeys ss hss himplodable db rfl rfl hnot
    rw [hrun]
    cases hresult : implodePieces nodeid c triggerid db (ss.map (explodedPiece db)) with
    | error e => rwa [hresult] at hyields
    | ok r => rwa [hresult] at hyields
  · intro r hr
    rw [hrun] at hr
    obtain ⟨r', -, rfl⟩ := Outcome.map_eq_ok.mp hr
    refine hsame fun u hu => ?_
    obtain ⟨a, ha, hpiece⟩ := List.mem_map.mp hu
    cases a with
    | text a => cases hpiece
    | reference name =>
        obtain rfl := Piece.braced.inj hpiece
        exact (hcalls name ha).2

theorem nul_not_mem_stored {e : List UInt8} (hstored : db.Stored e) : 0 ∉ e := by
  rw [← render_read e]
  intro hmem
  obtain ⟨a, ha, hmem⟩ := List.mem_flatMap.mp hmem
  cases a with
  | text a => exact (hstored _ ha).2.2 (List.mem_singleton.mp hmem).symm
  | reference name =>
      have hname : 0 ∈ name := by
        simpa [Symbol.render, braced, show (0 : UInt8) ≠ lbrace by decide, show (0 : UInt8) ≠ rbrace by decide] using hmem
      rcases hstored _ ha with rfl | ⟨f, i, h, hcalls, rfl, -, -⟩
      · revert hname
        decide
      · exact absurd (digit_of_mem_dec hname).1 (by decide)

/-- What comes back as it should has been taken apart as it was put together. -/
theorem implodable_of_corresponds (hkeys : db.CallKeys) {e : List UInt8} (hstored : db.Stored e) {E e' : List UInt8}
    {db' : HostDb} {σ : ℕ → ℕ}
    (hrun : dbImplodeExp nodeid c triggerid db ((read e).flatMap db.explodeSymbol) = .ok (E, e', db'))
    (hσ : Corresponds triggerid db db' e e' σ) :
    ∀ f i h, db.Calls f i h → f.functionid ∈ functionids (read e) → db.Implodable f i h := by
  obtain ⟨m', hpieces, -⟩ := @dbImplodeExp_eq _ nodeid c triggerid db _ (not_mem_exploded hkeys hstored)
  rw [hrun] at hpieces
  obtain ⟨r, hpieces, heq⟩ := Outcome.map_eq_ok.mp hpieces.symm
  obtain ⟨-, rfl⟩ : m' = E ∧ r = (e', db') := by simpa using heq
  have hinserted : ∀ f i h, db.Calls f i h → f.functionid ∈ functionids (read e) → ∃ u parts,
      .braced u ∈ pieces ((read e).flatMap db.explodeSymbol) ∧ cutCall u = some parts ∧
      db.itemNamed (kept parts.host) (kept parts.key) = some f.itemid ∧
      f.function = (kept parts.function).take functionFunctionLen ∧
      f.parameter = (kept parts.parameter).take functionParameterLen := by
    intro f i h hcalls hmem
    obtain ⟨g, hg, hnot, rfl⟩ := hσ.functions f hcalls.function hmem
    have hplaced := implodePieces_ok hpieces hg hnot
    exact hplaced
  intro f i h hcalls hmem
  obtain ⟨u, parts, hu, hcut, hnamed, hfunction, hparameter⟩ := hinserted f i h hcalls hmem
  refine implodable_of_inserted hkeys hcalls ((Braces.regular_pieces _).not_mem hu) ?_ hcut hnamed hfunction hparameter
  obtain ⟨name, hname, hsub⟩ := mem_pieces_explode hstored hu
  refine fun hcr => ?_
  have hcall := hsub hcr
  rcases hstored _ hname with rfl | ⟨f', i', h', hcalls', rfl, -, -⟩
  · rw [callOf, if_pos rfl] at hcall
    revert hcall
    decide
  · obtain ⟨-, parts', -, -, hnamed', hfunction', hparameter'⟩ :=
      hinserted f' i' h' hcalls' ((mem_functionids hstored).mpr hname)
    rw [callOf_calls hkeys hcalls'] at hcall
    exact returns_of_inserted hkeys hcalls' hnamed' hfunction' hparameter' hcall

theorem ImplodesBack.implodable (hkeys : db.CallKeys) {e : List UInt8} (hstored : db.Stored e) {functionid : ℕ}
    (hback : ImplodesBack nodeid c triggerid db functionid e) :
    ∀ f i h, db.Calls f i h → f.functionid ∈ functionids (read e) → db.Implodable f i h := by
  obtain ⟨e', db', -, hrun, σ, hσ⟩ := hback
  rw [dbExplodeExp_eq db functionid (nul_not_mem_stored hstored), explode_stored hstored] at hrun
  exact implodable_of_corresponds hkeys hstored hrun hσ

/-- A stored expression comes back, up to the identifiers of its functions, exactly when every function that it refers
to is taken apart as it was put together, none is referred to twice, and there are identifiers for all of them. -/
theorem implodesBack_iff (hkeys : db.CallKeys) (hnot : db.NotBelow nodeid c .functions) {e : List UInt8}
    (hstored : db.Stored e) (functionid : ℕ) :
    ImplodesBack nodeid c triggerid db functionid e ↔
      (∀ f i h, db.Calls f i h → f.functionid ∈ functionids (read e) → db.Implodable f i h) ∧
        (functionids (read e)).Nodup ∧
        db.lastId nodeid c .functions + (functionids (read e)).length ≤ (c .functions).max nodeid := by
  have hexplode := (dbExplodeExp_eq db functionid (nul_not_mem_stored hstored)).trans
    (congrArg (Prod.mk e) (explode_stored hstored functionid))
  constructor
  · intro hback
    have himplodable := hback.implodable hkeys hstored
    rw [ImplodesBack, hexplode] at hback
    obtain ⟨e', db', -, hrun, σ, hσ⟩ := hback
    obtain ⟨hyields, -⟩ := @dbImplodeExp_run _ nodeid c triggerid db hkeys (read e) hstored
      (fun f i h hcalls hmem => himplodable f i h hcalls ((mem_functionids hstored).mpr hmem)) hnot
    rw [hrun, Yields] at hyields
    split at hyields
    · next hle =>
      obtain ⟨db'', heq, -⟩ := hyields
      obtain ⟨rfl, -⟩ := Prod.mk.inj (Except.ok.inj heq)
      have hids := congrArg functionids ((read_numbered _ hstored).symm.trans hσ.text)
      rw [functionids_numbered, functionids_renumber] at hids
      exact ⟨himplodable, List.Nodup.of_map σ (hids ▸ List.nodup_range'), hle⟩
    · cases hyields
  · rintro ⟨himplodable, hnodup, hle⟩
    rw [ImplodesBack, hexplode]
    obtain ⟨hyields, hsame⟩ := @dbImplodeExp_run _ nodeid c triggerid db hkeys (read e) hstored
      (fun f i h hcalls hmem => himplodable f i h hcalls ((mem_functionids hstored).mpr hmem)) hnot
    rw [Yields, if_pos hle] at hyields
    obtain ⟨db', hrun, hfunctions⟩ := hyields
    obtain ⟨⟨E, e', db''⟩, hok, heq⟩ := Outcome.map_eq_ok.mp hrun
    obtain ⟨rfl, rfl⟩ := Prod.mk.inj heq
    obtain rfl : E = _ := hsame _ hok
    have hnumbered := numbered_eq (db.lastId nodeid c .functions) [] hnodup
    refine ⟨_, db'', rfl, hok, nextIds (db.lastId nodeid c .functions) (functionids (read e)), ?_, ?_, ?_⟩
    · intro a ha b _ hab
      rw [nextIds, nextIds, Nat.add_left_cancel_iff] at hab
      exact (List.idxOf_inj ha).mp hab
    · rw [read_numbered _ hstored]
      exact hnumbered
    · intro f hf hmem
      have hnew := mem_newFunctions triggerid hkeys (db.lastId nodeid c .functions) [] hstored hnodup hf hmem
      refine ⟨_, ?_, fun hold => ?_, rfl⟩
      · rw [hfunctions]
        exact List.mem_append_right _ hnew
      · have hindex := List.idxOf_lt_length_of_mem hmem
        have hmax : nextIds (db.lastId nodeid c .functions) (functionids (read e)) f.functionid ≤
            (c .functions).max nodeid := by
          rw [nextIds]
          omega
        have hlast : nextIds (db.lastId nodeid c .functions) (functionids (read e)) f.functionid ≤
            db.lastId nodeid c .functions := le_lastId hnot (List.mem_map_of_mem hold) hmax
        rw [nextIds] at hlast
        omega

/-- A function with a parameter, on an item of a host. -/
def loadCallDb (parameter : List UInt8) : HostDb :=
  { HostDb.empty with
    hosts := [⟨10, bytes "web", 0⟩]
    items := [⟨1, 10, bytes "load[,avg1]", 0⟩]
    functions := [⟨12, 1, 100, bytes "last", parameter⟩] }

/-- `{12}>{TRIGGER.VALUE}` -/
def loadCallExpression : List UInt8 := braced (dec 12) ++ bytes ">" ++ braced triggerValue

theorem read_loadCallExpression :
    read loadCallExpression = [.reference (dec 12), .text greater, .reference triggerValue] := by
  decide

theorem stored_loadCallExpression {parameter : List UInt8} (h : 0 ∉ parameter) :
    (loadCallDb parameter).Stored loadCallExpression := by
  rw [HostDb.Stored, read_loadCallExpression]
  simp only [List.forall_mem_cons, List.not_mem_nil, false_imp_iff, implies_true, and_true]
  refine ⟨.inr ⟨_, _, _, ⟨List.mem_singleton_self _, List.mem_singleton_self _, List.mem_singleton_self _, rfl, rfl⟩,
    rfl, (by decide : 12 < 2 ^ 64), ?_⟩, (by decide : greater ≠ lbrace ∧ greater ≠ rbrace ∧ greater ≠ 0), .inl rfl⟩
  rw [mem_calledAs]
  simp only [h, false_or]
  decide

theorem keys_loadCallDb (parameter : List UInt8) : (loadCallDb parameter).CallKeys :=
  { functions := List.nodup_singleton _
    items := List.nodup_singleton _
    hosts := List.nodup_singleton _ }

/-- A function with a parameter comes back. -/
theorem implodesBack_load : ImplodesBack 0 idColumn 100 (loadCallDb (bytes "0")) 0 loadCallExpression := by
  refine (implodesBack_iff (keys_loadCallDb _) (fun _ h => nomatch h)
    (stored_loadCallExpression (nul_not_mem_bytes _ (by decide))) 0).mpr ⟨?_, ?_, ?_⟩
  · rintro f i h ⟨hf, hi, hh, -, -⟩ -
    obtain rfl := List.mem_singleton.mp hf
    obtain rfl := List.mem_singleton.mp hi
    obtain rfl := List.mem_singleton.mp hh
    constructor <;> decide
  · rw [read_loadCallExpression]
    decide
  · rw [read_loadCallExpression]
    decide

/-- A function with an empty parameter does not, nor does one with a parenthesis in it. -/
theorem not_implodesBack_load : ¬ImplodesBack 0 idColumn 100 (loadCallDb []) 0 loadCallExpression ∧
    ¬ImplodesBack 0 idColumn 100 (loadCallDb (bytes "(0)")) 0 loadCallExpression := by
  have hcalls : ∀ parameter, (loadCallDb parameter).Calls ⟨12, 1, 100, bytes "last", parameter⟩
      ⟨1, 10, bytes "load[,avg1]", 0⟩ ⟨10, bytes "web", 0⟩ := fun _ =>
    ⟨List.mem_singleton_self _, List.mem_singleton_self _, List.mem_singleton_self _, rfl, rfl⟩
  have hmem : 12 ∈ functionids (read loadCallExpression) := by
    rw [read_loadCallExpression]
    decide
  constructor
  · intro hback
    exact (hback.implodable (keys_loadCallDb _) (stored_loadCallExpression List.not_mem_nil) _ _ _ (hcalls _)
      hmem).parameter.1 rfl
  · intro hback
    refine (hback.implodable (keys_loadCallDb _) (stored_loadCallExpression ?_) _ _ _ (hcalls _)
      hmem).parameter.2 (by decide)
    exact nul_not_mem_bytes _ (by decide)

end Zabbix.Host
