import Zabbix.Host.ExplodeImplode

/-!
# Zabbix.Host.ImplodeExplode

A trigger expression in the normal mode that is imploded, stored, and exploded again (`DBimplode_exp` and
`DBexplode_exp` of `libs/zbxdbhigh/host.c`).

Calls for which there is no item are gone, and so is what does not fit into the columns.

* `implodePieces_shortened` — the expression that is stored, and the functions;
* `explode_kept` — what the beginning of it that is stored is exploded into.
-/

namespace Zabbix.Host

open Ascii Printf References
open Braces (Piece pieces)

/-! ## expressions in the normal mode -/

/-- A byte that is no brace, or a reference to `TRIGGER.VALUE` or a call. -/
def NormalSymbol : Symbol → Prop
  | .text a => a ≠ lbrace ∧ a ≠ rbrace ∧ a ≠ 0
  | .reference name => 0 ∉ name ∧ (name = triggerValue ∨ (cutCall name).isSome)

/-- An expression in the normal mode. -/
def Normal (e : List UInt8) : Prop := ∀ a ∈ read e, NormalSymbol a

/-- The parts of a call, with the item that it is for, if there is one. -/
def HostDb.calledItem (db : HostDb) (name : List UInt8) : Option (CallParts × ℕ) :=
  (cutCall name).bind fun parts => (db.itemNamed (kept parts.host) (kept parts.key)).map (Prod.mk parts)

/-- The symbols that are stored, with functions whose identifiers go on from `n`. -/
def shortened (db : HostDb) : (n : ℕ) → List Symbol → List Symbol
  | _, [] => []
  | n, .text a :: ss => .text a :: shortened db n ss
  | n, .reference name :: ss =>
      if name = triggerValue then .reference name :: shortened db n ss
      else
        match db.calledItem name with
        | none => shortened db n ss
        | some _ => .reference (dec (n + 1)) :: shortened db (n + 1) ss

/-- The function that is added for a call. -/
def calledFunction (triggerid n : ℕ) (call : CallParts × ℕ) : Function where
  functionid := n + 1
  itemid := call.2
  triggerid := triggerid
  function := (kept call.1.function).take functionFunctionLen
  parameter := (kept call.1.parameter).take functionParameterLen

/-- The functions that are added. -/
def called (db : HostDb) (triggerid : ℕ) : (n : ℕ) → List Symbol → List Function
  | _, [] => []
  | n, .text _ :: ss => called db triggerid n ss
  | n, .reference name :: ss =>
      if name = triggerValue then called db triggerid n ss
      else
        match db.calledItem name with
        | none => called db triggerid n ss
        | some call => calledFunction triggerid n call :: called db triggerid (n + 1) ss

/-- A call as the columns and the tables have it. -/
def storedCall (parts : CallParts) : List UInt8 :=
  callText (kept parts.host) (kept parts.key) ((kept parts.function).take functionFunctionLen)
    ((kept parts.parameter).take functionParameterLen)

/-- What becomes of a symbol, if it does not go. -/
def HostDb.stays (db : HostDb) : Symbol → Option Symbol
  | .text a => if a = cr then none else some (.text a)
  | .reference name =>
      if name = triggerValue then some (.reference name)
      else (db.calledItem name).map fun call => .reference (storedCall call.1)

/-- A symbol that is stored as it is: no carriage return, and a call of an item that there is, whose texts fit. -/
def HostDb.Storable (db : HostDb) : Symbol → Prop
  | .text a => a ≠ cr
  | .reference name => name = triggerValue ∨ ∃ parts, cutCall name = some parts ∧
      (db.itemNamed parts.host parts.key).isSome ∧ cr ∉ name ∧
      name = callText parts.host parts.key parts.function parts.parameter ∧
      parts.function.length ≤ functionFunctionLen ∧ parts.parameter.length ≤ functionParameterLen

variable {schema : Schema} {nodeid : ℕ} {c : IdColumn → Column schema} {triggerid : ℕ} {db db' : HostDb}

/-! ## imploding -/

/-- The piece that a symbol is read as. -/
def normalPiece : Symbol → Piece
  | .text a => .text a
  | .reference name => .braced name

theorem pieces_render {ss : List Symbol} (hss : ∀ a ∈ ss, a.IsPlain) : pieces (render ss) = ss.map normalPiece := by
  induction ss with
  | nil => rfl
  | cons a ss ih =>
      obtain ⟨ha, hrest⟩ := List.forall_mem_cons.mp hss
      rw [render_cons, List.map_cons, ← ih hrest]
      cases a with
      | text a =>
          have hplain : lbrace ∉ [a] := by simpa using Ne.symm ha
          exact Braces.pieces_append hplain _
      | reference name =>
          rw [Symbol.render, braced, List.cons_append, List.append_assoc, List.singleton_append]
          exact Braces.pieces_braced ha.2 _

theorem Normal.isPlain {e : List UInt8} (h : Normal e) : ∀ a ∈ read e, a.IsPlain := by
  intro a ha
  cases a with
  | text a => exact (h _ ha).1
  | reference name => exact (regular_read e).plain ha

/-- The tables with more functions. -/
def HostDb.addFunctions (db : HostDb) (functions : List Function) (ids : IdColumn → Option ℕ) : HostDb :=
  { db with functions := db.functions ++ functions, ids := ids }

variable (nodeid c) in
/-- With an identifier for each function up to `last` there is a text and the functions are added; without, the
process exits. -/
def Implodes (last : ℕ) (result : Except HostStop (List UInt8 × HostDb)) (text : List UInt8) (db : HostDb)
    (functions : List Function) : Prop :=
  if last ≤ (c .functions).max nodeid then
    ∃ ids, result = .ok (text, db.addFunctions functions ids) ∧
      (db.addFunctions functions ids).NotBelow nodeid c .functions
  else result = .error .exit

theorem Implodes.map {last : ℕ} {result : Except HostStop (List UInt8 × HostDb)} {text : List UInt8}
    {functions : List Function} (h : Implodes nodeid c last result text db functions) (front : List UInt8) :
    Implodes nodeid c last (result.map fun r => (front ++ r.1, r.2)) (front ++ text) db functions := by
  rw [Implodes] at h ⊢
  split
  · next hle =>
    rw [if_pos hle] at h
    obtain ⟨ids, rfl, hnot⟩ := h
    exact ⟨ids, rfl, hnot⟩
  · next hle =>
    rw [if_neg hle] at h
    rw [h]
    rfl

theorem addFunctions_nil : db.addFunctions [] db.ids = db := by
  rw [HostDb.addFunctions, List.append_nil]

theorem insertFunction_takeId (itemid : ℕ) (parts : CallParts) :
    (db.takeId nodeid c .functions).insertFunction (db.lastId nodeid c .functions + 1) itemid triggerid parts.function
        parts.parameter =
      db.addFunctions [calledFunction triggerid (db.lastId nodeid c .functions) (parts, itemid)]
        (db.takeId nodeid c .functions).ids := rfl

/-- Where there is an item, the function is added with the next identifier, if there is one. -/
theorem implodeText_called {name : List UInt8} {parts : CallParts} {itemid : ℕ} (hitems : db'.items = db.items)
    (hhosts : db'.hosts = db.hosts) (h : db.calledItem name = some (parts, itemid)) :
    implodeText nodeid c triggerid db' name =
      if db'.lastId nodeid c .functions < (c .functions).max nodeid then
        .ok (braced (dec (db'.lastId nodeid c .functions + 1)),
          db'.addFunctions [calledFunction triggerid (db'.lastId nodeid c .functions) (parts, itemid)]
            (db'.takeId nodeid c .functions).ids)
      else .error .exit := by
  obtain ⟨parts, hparts, hitem⟩ := Option.bind_eq_some_iff.mp h
  obtain ⟨itemid, hnamed, heq⟩ := Option.map_eq_some_iff.mp hitem
  obtain ⟨rfl, rfl⟩ := Prod.mk.inj heq
  have hnamed' : db'.itemNamed (kept parts.host) (kept parts.key) = some itemid := by
    rw [← hnamed, HostDb.itemNamed, HostDb.itemNamed, hitems, hhosts]
  rw [implodeText, hparts]
  dsimp only
  rw [implodeCall, hnamed']
  dsimp only
  rw [dbGetMaxid_eq]
  by_cases hlt : db'.lastId nodeid c .functions < (c .functions).max nodeid
  · rw [if_pos hlt, if_pos hlt]
    rfl
  · rw [if_neg hlt, if_neg hlt]

/-- Where there is none, nothing is put in. -/
theorem implodeText_missing {name : List UInt8} (hitems : db'.items = db.items) (hhosts : db'.hosts = db.hosts)
    (hcall : (cutCall name).isSome) (h : db.calledItem name = none) :
    implodeText nodeid c triggerid db' name = .ok ([], db') := by
  obtain ⟨parts, hparts⟩ := Option.isSome_iff_exists.mp hcall
  have hnamed : db'.itemNamed (kept parts.host) (kept parts.key) = none := by
    rw [HostDb.calledItem, hparts, Option.bind_some, Option.map_eq_none_iff] at h
    rw [← h, HostDb.itemNamed, HostDb.itemNamed, hitems, hhosts]
  rw [implodeText, hparts]
  dsimp only
  rw [implodeCall, hnamed]

variable (triggerid) in
/-- **One symbol after the other**: the functions get the identifiers that follow, as long as there are any. -/
theorem implodePieces_shortened {ss : List Symbol} (hss : ∀ a ∈ ss, NormalSymbol a) (hitems : db'.items = db.items)
    (hhosts : db'.hosts = db.hosts) (hnot : db'.NotBelow nodeid c .functions) :
    Implodes nodeid c (db'.lastId nodeid c .functions + (called db triggerid (db'.lastId nodeid c .functions) ss).length)
      (implodePieces nodeid c triggerid db' (ss.map normalPiece))
      (render (shortened db (db'.lastId nodeid c .functions) ss)) db'
      (called db triggerid (db'.lastId nodeid c .functions) ss) := by
  induction ss generalizing db' with
  | nil =>
      rw [Implodes, called, List.length_nil, Nat.add_zero,
        if_pos (show db'.lastId nodeid c .functions ≤ _ from lastId_le_max _ _)]
      exact ⟨db'.ids, by rw [addFunctions_nil]; rfl, by rwa [addFunctions_nil]⟩
  | cons a ss ih =>
      obtain ⟨ha, hrest⟩ := List.forall_mem_cons.mp hss
      cases a with
      | text a => exact (ih hrest hitems hhosts hnot).map [a]
      | reference name =>
          rw [List.map_cons, normalPiece, implodePieces, shortened, called]
          by_cases hname : name = triggerValue
          · rw [if_pos hname, if_pos hname, hname, implodeText_triggerValue]
            exact (ih hrest hitems hhosts hnot).map (braced triggerValue)
          · rw [if_neg hname, if_neg hname]
            cases hcalled : db.calledItem name with
            | none =>
                rw [implodeText_missing hitems hhosts (ha.2.resolve_left hname) hcalled]
                exact (ih hrest hitems hhosts hnot).map []
            | some call =>
                obtain ⟨parts, itemid⟩ := call
                rw [implodeText_called hitems hhosts hcalled]
                dsimp only
                rw [List.length_cons]
                by_cases hlt : db'.lastId nodeid c .functions < (c .functions).max nodeid
                · obtain ⟨hnot', hlast⟩ := lastId_insertFunction triggerid hnot hlt itemid parts.function parts.parameter
                  rw [insertFunction_takeId] at hnot' hlast
                  have hrun := (@ih (db'.addFunctions _ _) hrest hitems hhosts hnot').map
                    (braced (dec (db'.lastId nodeid c .functions + 1)))
                  rw [hlast] at hrun
                  rw [if_pos hlt, Nat.add_comm _ 1, ← Nat.add_assoc]
                  rw [Implodes] at hrun ⊢
                  split
                  · next hle =>
                    rw [if_pos hle] at hrun
                    obtain ⟨ids, hok, hnot''⟩ := hrun
                    have happend : (db'.addFunctions [calledFunction triggerid (db'.lastId nodeid c .functions)
                          (parts, itemid)] (db'.takeId nodeid c .functions).ids).addFunctions
                          (called db triggerid (db'.lastId nodeid c .functions + 1) ss) ids =
                        db'.addFunctions (calledFunction triggerid (db'.lastId nodeid c .functions) (parts, itemid) ::
                          called db triggerid (db'.lastId nodeid c .functions + 1) ss) ids := by
                      simp only [HostDb.addFunctions, List.append_assoc, List.singleton_append]
                    rw [happend] at hok hnot''
                    exact ⟨ids, hok, hnot''⟩
                  · next hle => rwa [if_neg hle] at hrun
                · rw [if_neg hlt, Implodes, if_neg (by omega)]

/-! ## exploding -/

theorem not_mem_storedCall {name : List UInt8} {parts : CallParts} (hcut : cutCall name = some parts) {a : UInt8}
    (ha : a ∉ name) (hmarks : a ∉ [colon, dot, lparen, rparen]) : a ∉ storedCall parts := by
  obtain ⟨-, hhost, hkey, hfunction, hparameter⟩ := cutCall_eq_some hcut
  have hkept : ∀ s, s ⊆ name → a ∉ kept s := fun s hs hmem => ha (hs (List.mem_of_mem_filter hmem))
  have hhost := hkept _ hhost
  have hkey := hkept _ hkey
  have hfunction : a ∉ (kept parts.function).take functionFunctionLen :=
    fun hmem => hkept _ hfunction (List.mem_of_mem_take hmem)
  have hparameter : a ∉ (kept parts.parameter).take functionParameterLen :=
    fun hmem => hkept _ hparameter (List.mem_of_mem_take hmem)
  simp only [List.mem_cons, List.not_mem_nil, or_false, not_or] at hmarks
  simp [storedCall, callText, hhost, hkey, hfunction, hparameter, hmarks]

variable {ss : List Symbol} {n : ℕ}

/-- What is added for a call is a call of its item. -/
theorem calls_calledFunction (hitems : db'.items = db.items) (hhosts : db'.hosts = db.hosts) {name : List UInt8}
    {call : CallParts × ℕ} (hcall : db.calledItem name = some call)
    (hmem : calledFunction triggerid n call ∈ db'.functions) :
    ∃ i h, db'.Calls (calledFunction triggerid n call) i h ∧ cutCall name = some call.1 ∧
      calledAs (calledFunction triggerid n call) i h = storedCall call.1 := by
  obtain ⟨parts, hparts, hitem⟩ := Option.bind_eq_some_iff.mp hcall
  obtain ⟨itemid, hnamed, rfl⟩ := Option.map_eq_some_iff.mp hitem
  obtain ⟨i, hi, h, hh, hid, hhost, hkey, hitemid⟩ := itemNamed_eq_some hnamed
  refine ⟨i, h, ⟨hmem, hitems ▸ hi, hhosts ▸ hh, hitemid, hid⟩, hparts, ?_⟩
  rw [calledAs, hhost, hkey]
  rfl

/-- The symbols that are stored, without carriage returns, are exploded into what stays. -/
theorem explode_shortened (hkeys : db'.CallKeys) (hitems : db'.items = db.items) (hhosts : db'.hosts = db.hosts)
    (hss : ∀ a ∈ ss, NormalSymbol a)
    (hcalled : ∀ g ∈ called db triggerid n ss, g ∈ db'.functions ∧ g.functionid < 2 ^ 64) :
    (∀ a ∈ (shortened db n ss).filter (· ≠ .text cr), db'.StoredSymbol a) ∧
      ((shortened db n ss).filter (· ≠ .text cr)).map db'.explodeSymbol = (ss.filterMap db.stays).map Symbol.render := by
  induction ss generalizing n with
  | nil => exact ⟨fun a ha => (List.not_mem_nil ha).elim, rfl⟩
  | cons a ss ih =>
      obtain ⟨ha, hrest⟩ := List.forall_mem_cons.mp hss
      cases a with
      | text a =>
          obtain ⟨hstored, hmap⟩ := ih hrest hcalled
          rw [shortened, List.filterMap_cons, HostDb.stays]
          by_cases hcr : a = cr
          · rw [if_pos hcr, hcr, List.filter_cons_of_neg (by simp)]
            exact ⟨hstored, hmap⟩
          · rw [if_neg hcr, List.filter_cons_of_pos (by simpa using hcr), List.map_cons, List.map_cons, hmap]
            exact ⟨List.forall_mem_cons.mpr ⟨ha, hstored⟩, rfl⟩
      | reference name =>
          rw [shortened, List.filterMap_cons, HostDb.stays]
          by_cases hname : name = triggerValue
          · rw [called, if_pos hname] at hcalled
            obtain ⟨hstored, hmap⟩ := ih hrest hcalled
            rw [if_pos hname, if_pos hname, List.filter_cons_of_pos (by simp), List.map_cons, List.map_cons, hmap]
            refine ⟨List.forall_mem_cons.mpr ⟨.inl hname, hstored⟩, ?_⟩
            rw [hname, explodeSymbol_reference, callOf, if_pos rfl, Symbol.render]
          · rw [called, if_neg hname] at hcalled
            rw [if_neg hname, if_neg hname]
            cases hcall : db.calledItem name with
            | none =>
                rw [hcall] at hcalled
                exact ih hrest hcalled
            | some call =>
                rw [hcall] at hcalled
                obtain ⟨⟨hmem, hlt⟩, hcalled⟩ := List.forall_mem_cons.mp hcalled
                obtain ⟨hstored, hmap⟩ := ih hrest hcalled
                obtain ⟨i, h, hcalls, hcut, htext⟩ := calls_calledFunction hitems hhosts hcall hmem
                rw [Option.map_some, List.filter_cons_of_pos (by simp), List.map_cons, List.map_cons, hmap]
                have hnul := not_mem_storedCall hcut ha.1 (by decide)
                refine ⟨List.forall_mem_cons.mpr ⟨.inr ⟨_, i, h, hcalls, rfl, hlt, htext ▸ hnul⟩, hstored⟩, ?_⟩
                rw [Symbol.render, ← htext]
                exact congrArg (· :: _) (explodeSymbol_calls hkeys hcalls)

theorem kept_append (s t : List UInt8) : kept (s ++ t) = kept s ++ kept t := List.filter_append ..

theorem cr_not_mem_dec (n : ℕ) : cr ∉ dec n := fun h => absurd (digit_of_mem_dec h).1 (by decide)

theorem cr_not_mem_braced {name : List UInt8} (h : cr ∉ name) : cr ∉ braced name := by
  simp [braced, h, show cr ≠ lbrace by decide, show cr ≠ rbrace by decide]

/-- Escaping drops the carriage returns between the references. -/
theorem kept_shortened (n : ℕ) (ss : List Symbol) :
    kept (render (shortened db n ss)) = render ((shortened db n ss).filter (· ≠ .text cr)) := by
  have hreference : ∀ name ss', cr ∉ name → kept (render ss') = render (ss'.filter (· ≠ .text cr)) →
      kept (render (.reference name :: ss')) = render ((Symbol.reference name :: ss').filter (· ≠ .text cr)) := by
    intro name ss' hname ih
    rw [List.filter_cons_of_pos (by simp), render_cons, render_cons, kept_append, ih, Symbol.render,
      kept_of_not_mem (cr_not_mem_braced hname)]
  induction ss generalizing n with
  | nil => rfl
  | cons a ss ih =>
      cases a with
      | text a =>
          rw [shortened, render_cons, kept_append, ih]
          by_cases hcr : a = cr
          · rw [hcr, List.filter_cons_of_neg (by simp)]
            rfl
          · rw [List.filter_cons_of_pos (by simpa using hcr), render_cons, Symbol.render,
              kept_of_not_mem (by simpa using Ne.symm hcr)]
      | reference name =>
          rw [shortened]
          split
          · next hname => exact hreference name _ (hname ▸ by decide) (ih n)
          · split
            · exact ih n
            · exact hreference _ _ (cr_not_mem_dec _) (ih (n + 1))

theorem HostDb.StoredSymbol.isPlain {a : Symbol} (h : db.StoredSymbol a) : a.IsPlain := by
  cases a with
  | text a => exact h.1
  | reference name => exact h.plain.1

/-- **What is stored of an expression** is exploded into the beginning of what stays of it, and into all of that if it
fits. -/
theorem explode_kept (hkeys : db'.CallKeys) (hitems : db'.items = db.items) (hhosts : db'.hosts = db.hosts)
    (hss : ∀ a ∈ ss, NormalSymbol a)
    (hcalled : ∀ g ∈ called db triggerid n ss, g ∈ db'.functions ∧ g.functionid < 2 ^ 64) (len : ℕ) :
    ∃ k, (∀ functionid, (dbExplodeExp db' functionid ((kept (render (shortened db n ss))).take len)).2 =
        render ((ss.filterMap db.stays).take k)) ∧
      ((kept (render (shortened db n ss))).length ≤ len → k = (ss.filterMap db.stays).length) ∧
      (len < (kept (render (shortened db n ss))).length → k < (ss.filterMap db.stays).length) := by
  obtain ⟨hstored, hmap⟩ := explode_shortened hkeys hitems hhosts hss hcalled
  rw [kept_shortened]
  generalize (shortened db n ss).filter (· ≠ .text cr) = zs at hstored hmap ⊢
  have hlength : zs.length = (ss.filterMap db.stays).length := by
    rw [← List.length_map (f := db'.explodeSymbol), hmap, List.length_map]
  have hplain : ∀ a ∈ zs, a.IsPlain := fun a ha => (hstored a ha).isPlain
  have hnul : 0 ∉ render zs := by
    refine @nul_not_mem_stored db' _ ?_
    rwa [HostDb.Stored, read_render (regular_of_isPlain hplain)]
  have hbegins : ∀ k, (zs.take k).flatMap db'.explodeSymbol = render ((ss.filterMap db.stays).take k) := by
    intro k
    rw [render, List.flatMap_def, List.flatMap_def, List.map_take, List.map_take, hmap]
  have hexplode : ∀ k rest, (render zs).take len = render (zs.take k) ++ rest → CutOff rest → ∀ functionid,
      (dbExplodeExp db' functionid ((render zs).take len)).2 = render ((ss.filterMap db.stays).take k) := by
    intro k rest htake hrest functionid
    obtain ⟨functionid', happend⟩ := explodeFrom_render_append functionid
      (fun a ha => hstored a (List.mem_of_mem_take (i := k) ha)) rest
    rw [dbExplodeExp_eq db' functionid fun hmem => hnul (List.mem_of_mem_take hmem), htake, happend,
      explodeFrom_cutOff functionid' hrest, List.append_nil, hbegins]
  by_cases hle : (render zs).length ≤ len
  · refine ⟨zs.length, hexplode _ [] ?_ (.inl rfl), fun _ => hlength, fun hlt => absurd hle (by omega)⟩
    rw [List.take_of_length_le hle, List.take_length, List.append_nil]
  · obtain ⟨k, rest, htake, hrest, hlt⟩ := take_render hplain len
    refine ⟨k, hexplode k rest htake hrest, fun h => absurd h hle, fun h => ?_⟩
    rw [← hlength]
    exact hlt h

/-! ## what comes back -/

/-- What stays as it is can be stored as it is. -/
theorem stays_eq_self_iff {a : Symbol} : db.stays a = some a ↔ db.Storable a := by
  cases a with
  | text a => simp [HostDb.stays, HostDb.Storable]
  | reference name =>
      rw [HostDb.stays, HostDb.Storable]
      by_cases hname : name = triggerValue
      · simp [hname]
      · rw [if_neg hname, or_iff_right hname, Option.map_eq_some_iff]
        constructor
        · rintro ⟨call, hcall, hstored⟩
          obtain ⟨parts, hparts, hitem⟩ := Option.bind_eq_some_iff.mp hcall
          obtain ⟨itemid, hnamed, rfl⟩ := Option.map_eq_some_iff.mp hitem
          obtain ⟨⟨hhost, hkey, hfunction, hparameter⟩, hsubhost, hsubkey, hsubfunction, hsubparameter⟩ :=
            cutCall_eq_some hparts
          have hstored : storedCall parts = name := Symbol.reference.inj hstored
          have hkept := cr_not_mem_kept
          have hcr : cr ∉ name := by
            have hfunction : cr ∉ (kept parts.function).take functionFunctionLen :=
              fun hmem => hkept _ (List.mem_of_mem_take hmem)
            have hparameter : cr ∉ (kept parts.parameter).take functionParameterLen :=
              fun hmem => hkept _ (List.mem_of_mem_take hmem)
            rw [← hstored]
            simp [storedCall, callText, hkept, hfunction, hparameter, show cr ≠ colon by decide,
              show cr ≠ dot by decide, show cr ≠ lparen by decide, show cr ≠ rparen by decide]
          rw [storedCall, kept_of_not_mem fun hmem => hcr (hsubhost hmem), kept_of_not_mem fun hmem => hcr (hsubkey hmem),
            kept_of_not_mem fun hmem => hcr (hsubfunction hmem),
            kept_of_not_mem fun hmem => hcr (hsubparameter hmem)] at hstored
          rw [kept_of_not_mem fun hmem => hcr (hsubhost hmem),
            kept_of_not_mem fun hmem => hcr (hsubkey hmem)] at hnamed
          have hcut : cutCall name = some ⟨parts.host, parts.key, parts.function.take functionFunctionLen,
              parts.parameter.take functionParameterLen⟩ := by
            rw [← hstored]
            refine cutCall_callText hhost hkey ?_ ?_
            · exact ⟨by simpa [functionFunctionLen] using hfunction.1, fun hmem => hfunction.2 (List.mem_of_mem_take hmem)⟩
            · exact ⟨by simpa [functionParameterLen] using hparameter.1,
                fun hmem => hparameter.2 (List.mem_of_mem_take hmem)⟩
          have hparts' := congrArg (Option.map fun p => (p.function, p.parameter)) (hparts.symm.trans hcut)
          obtain ⟨hfunctionlen, hparameterlen⟩ := Prod.mk.inj (Option.some.inj hparts')
          dsimp only at hfunctionlen hparameterlen
          refine ⟨parts, hparts, by rw [hnamed]; rfl, hcr, ?_, ?_, ?_⟩
          · rw [← hfunctionlen, ← hparameterlen] at hstored
            exact hstored.symm
          · rw [hfunctionlen]
            exact List.length_take_le _ _
          · rw [hparameterlen]
            exact List.length_take_le _ _
        · rintro ⟨parts, hparts, hitem, hcr, htext, hfunctionlen, hparameterlen⟩
          obtain ⟨itemid, hnamed⟩ := Option.isSome_iff_exists.mp hitem
          obtain ⟨-, hsubhost, hsubkey, hsubfunction, hsubparameter⟩ := cutCall_eq_some hparts
          refine ⟨(parts, itemid), ?_, congrArg Symbol.reference ?_⟩
          · rw [HostDb.calledItem, hparts, Option.bind_some, kept_of_not_mem fun hmem => hcr (hsubhost hmem),
              kept_of_not_mem fun hmem => hcr (hsubkey hmem), hnamed, Option.map_some]
          · rw [storedCall, kept_of_not_mem fun hmem => hcr (hsubhost hmem),
              kept_of_not_mem fun hmem => hcr (hsubkey hmem), kept_of_not_mem fun hmem => hcr (hsubfunction hmem),
              kept_of_not_mem fun hmem => hcr (hsubparameter hmem), List.take_of_length_le hfunctionlen,
              List.take_of_length_le hparameterlen, ← htext]

/-- What stays is read as it is put together. -/
theorem isPlain_of_stays {a b : Symbol} (ha : a.IsPlain) (h : db.stays a = some b) : b.IsPlain := by
  cases a with
  | text a =>
      obtain ⟨-, rfl⟩ : a ≠ cr ∧ Symbol.text a = b := by simpa [HostDb.stays] using h
      exact ha
  | reference name =>
      rw [HostDb.stays] at h
      split at h
      · obtain rfl := Option.some.inj h
        exact ha
      · obtain ⟨call, hcall, rfl⟩ := Option.map_eq_some_iff.mp h
        obtain ⟨parts, hparts, hitem⟩ := Option.bind_eq_some_iff.mp hcall
        obtain ⟨itemid, -, rfl⟩ := Option.map_eq_some_iff.mp hitem
        exact ⟨not_mem_storedCall hparts ha.1 (by decide), not_mem_storedCall hparts ha.2 (by decide)⟩

/-- As many values as there are elements are those of all of them. -/
theorem eq_of_filterMap_take {α β : Type} {l : List α} {l' : List β} {f : α → Option β} {k : ℕ}
    (h : (l.filterMap f).take k = l') (hlen : l'.length = l.length) :
    l.map f = l'.map some ∧ (l.filterMap f).length ≤ k := by
  have hlength := congrArg List.length h
  have hle := List.length_filterMap_le f l
  rw [List.length_take] at hlength
  have hk : (l.filterMap f).length ≤ k := by omega
  rw [List.take_of_length_le hk] at h
  have hsome := List.filterMap_length_eq_length.mp (show (l.filterMap f).length = l.length by omega)
  refine ⟨?_, hk⟩
  rw [← h, List.map_filterMap_some_eq_filter_map_isSome, List.filter_eq_self.mpr]
  intro b hb
  obtain ⟨a, ha, rfl⟩ := List.mem_map.mp hb
  exact hsome a ha

/-- The calls of an expression. -/
def callNames (ss : List Symbol) : List (List UInt8) :=
  ss.filterMap fun
    | .text _ => none
    | .reference name => if name = triggerValue then none else some name

theorem callNames_triggerValue (ss : List Symbol) : callNames (.reference triggerValue :: ss) = callNames ss := by
  simp [callNames]

theorem callNames_reference {name : List UInt8} (h : name ≠ triggerValue) (ss : List Symbol) :
    callNames (.reference name :: ss) = name :: callNames ss := by
  simp [callNames, h]

theorem calledItem_of_storable {name : List UInt8} (h : db.Storable (.reference name)) (hname : name ≠ triggerValue) :
    (db.calledItem name).isSome := by
  have hstays := stays_eq_self_iff.mpr h
  rw [HostDb.stays, if_neg hname, Option.map_eq_some_iff] at hstays
  obtain ⟨call, hcall, -⟩ := hstays
  rw [hcall]
  rfl

/-- Where there is an item for each call, none goes. -/
theorem shortened_of_storable (h : ∀ a ∈ ss, db.Storable a) (n : ℕ) :
    shortened db n ss = numbered n ss ∧ (called db triggerid n ss).length = (callNames ss).length := by
  induction ss generalizing n with
  | nil => exact ⟨rfl, rfl⟩
  | cons a ss ih =>
      obtain ⟨ha, hrest⟩ := List.forall_mem_cons.mp h
      cases a with
      | text a => exact ⟨congrArg _ (ih hrest n).1, (ih hrest n).2⟩
      | reference name =>
          rw [shortened, numbered, called]
          by_cases hname : name = triggerValue
          · rw [if_pos hname, if_pos hname, if_pos hname, hname, callNames_triggerValue]
            exact ⟨congrArg _ (ih hrest n).1, (ih hrest n).2⟩
          · obtain ⟨call, hcall⟩ := Option.isSome_iff_exists.mp (calledItem_of_storable ha hname)
            rw [if_neg hname, if_neg hname, if_neg hname, hcall, callNames_reference hname]
            exact ⟨congrArg _ (ih hrest (n + 1)).1, congrArg (· + 1) (ih hrest (n + 1)).2⟩

theorem text_mem_numbered {a : UInt8} (h : .text a ∈ numbered n ss) : .text a ∈ ss := by
  induction ss generalizing n with
  | nil => cases h
  | cons b ss ih =>
      cases b with
      | text b =>
          rcases List.mem_cons.mp h with heq | h
          · rw [heq]
            exact List.mem_cons_self
          · exact List.mem_cons_of_mem _ (ih h)
      | reference name =>
          rw [numbered] at h
          split at h
          · exact List.mem_cons_of_mem _ (ih (by simpa using h))
          · exact List.mem_cons_of_mem _ (ih (by simpa using h))

/-- An expression is exploded into what it was exactly when each symbol is stored as it is and all of them fit. -/
theorem explode_kept_iff {e : List UInt8} (hkeys : db'.CallKeys) (hitems : db'.items = db.items)
    (hhosts : db'.hosts = db.hosts) (he : Normal e)
    (hcalled : ∀ g ∈ called db triggerid n (read e), g ∈ db'.functions ∧ g.functionid < 2 ^ 64) (len functionid : ℕ) :
    (dbExplodeExp db' functionid ((kept (render (shortened db n (read e)))).take len)).2 = e ↔
      (∀ a ∈ read e, db.Storable a) ∧ (render (numbered n (read e))).length ≤ len := by
  obtain ⟨k, hexplode, hall, hsome⟩ := explode_kept hkeys hitems hhosts he hcalled len
  rw [hexplode]
  have hstorable : (∀ a ∈ read e, db.Storable a) →
      kept (render (shortened db n (read e))) = render (numbered n (read e)) := by
    intro h
    rw [kept_shortened, (@shortened_of_storable triggerid db (read e) h n).1]
    refine congrArg render (List.filter_eq_self.mpr fun a ha => decide_eq_true fun hcr => ?_)
    exact h _ (text_mem_numbered (hcr ▸ ha)) rfl
  constructor
  · intro h
    have hread := congrArg read h
    rw [read_render (regular_of_isPlain ?_)] at hread
    · obtain ⟨hstays, hk⟩ := eq_of_filterMap_take hread rfl
      have hstored := fun a ha => stays_eq_self_iff.mp (List.map_inj_left.mp hstays a ha)
      refine ⟨hstored, ?_⟩
      rw [← hstorable hstored]
      by_contra hlt
      have := hsome (by omega)
      omega
    · intro b hb
      obtain ⟨a, ha, hab⟩ := List.mem_filterMap.mp (List.mem_of_mem_take hb)
      exact isPlain_of_stays (he.isPlain a ha) hab
  · rintro ⟨hstored, hlen⟩
    have hmap : (read e).filterMap db.stays = read e := by
      rw [List.filterMap_eq_map_iff_forall_eq_some.mpr fun a ha => stays_eq_self_iff.mpr (hstored a ha)]
      exact List.map_id _
    rw [hall (by rwa [hstorable hstored]), List.take_length, hmap, render_read]

end Zabbix.Host
