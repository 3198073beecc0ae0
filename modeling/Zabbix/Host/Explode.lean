import Zabbix.Host.CompareTriggers
import Zabbix.Lib.Buffer
import Zabbix.Atoi

/-!
# Zabbix.Host.Explode

Trigger expressions in the mode that they are stored in, as `{11}=1`, are exploded into the normal one, as
`{hostX:keyY.functionZ(parameterN)}=1` (`DBexplode_exp` of `libs/zbxdbhigh/host.c`).

The loop cuts the identifier out of the expression in place, and puts back what was there.

* `dbExplodeExp_eq` — the expression is left as it was, and what is returned is what the loop over bytes gives;
* `explode_stored` — the text of an expression that is well formed, symbol by symbol.
-/

namespace Zabbix.Host

open Ascii Buffer Printf References

/-- `TRIGGER.VALUE` -/
def triggerValue : List UInt8 := bytes "TRIGGER.VALUE"

/-- The select for the function of a reference: its host, item and row. -/
def HostDb.functionRow (db : HostDb) (functionid : ℕ) : Option (HostRow × Item × Function) :=
  db.items.findSome? fun i => db.functions.findSome? fun f => db.hosts.findSome? fun h =>
    if f.functionid = functionid ∧ i.itemid = f.itemid ∧ h.hostid = i.hostid then some (h, i, f) else none

/-- `%s:%s.%s(%s)` -/
def callText (host key function parameter : List UInt8) : List UInt8 :=
  host ++ colon :: (key ++ dot :: (function ++ lparen :: (parameter ++ [rparen])))

/-- The text that is put in for what stands between braces, with `functionid` as it is read. -/
def explodeText (db : HostDb) (functionid : ℕ) (name : List UInt8) : List UInt8 :=
  if name = triggerValue then braced name
  else
    match db.functionRow functionid with
    | some (h, i, f) => braced (callText h.host i.key f.function f.parameter)
    | none => braced (bytes "*ERROR*")

/-- `functionid` behind a reference. -/
def readFunctionid (functionid : ℕ) (name : List UInt8) : ℕ :=
  if name = triggerValue then functionid else (zbxStr2uint64 name).elim functionid UInt64.toNat

/-- The loop of `DBexplode_exp`, from the character `c` on; `state` is `p_functionid` with its length, in the state
`EXP_FUNCTIONID`. -/
def explodeLoop (db : HostDb) (m : List UInt8) (c functionid : ℕ) (state : Option (ℕ × ℕ)) (exp : List UInt8) :
    List UInt8 × List UInt8 :=
  if _h : byteAt m c = 0 then (m, exp)
  else if byteAt m c = lbrace then explodeLoop db m (c + 1) functionid (some (c + 1, 0)) exp
  else
    match state with
    | some (p, len) =>
        if byteAt m c = rbrace ∧ 0 < len then
          let tmpChr := byteAt m (p + len)
          let cut := m.set (p + len) 0
          let name := strAt cut p
          let functionid := readFunctionid functionid name
          explodeLoop db (cut.set (p + len) tmpChr) (c + 1) functionid none (exp ++ explodeText db functionid name)
        else explodeLoop db m (c + 1) functionid (some (p, len + 1)) exp
    | none => explodeLoop db m (c + 1) functionid none (exp ++ [byteAt m c])
termination_by m.length - c
decreasing_by
  all_goals
    have := lt_length_of_byteAt _h
    try simp only [List.length_set]
    omega

/-- `DBexplode_exp`: the short expression afterwards, and what is returned, with nothing for NULL.  `functionid` is in
the variable before anything is read into it. -/
def dbExplodeExp (db : HostDb) (functionid : ℕ) (shortExpression : List UInt8) : List UInt8 × List UInt8 :=
  explodeLoop db shortExpression 0 functionid none []

/-! ## without a buffer -/

/-- The loop over the bytes, with what stands behind a brace that is open. -/
def explodeFrom (db : HostDb) : (functionid : ℕ) → Option (List UInt8) → List UInt8 → List UInt8
  | _, _, [] => []
  | functionid, state, c :: s =>
      if c = lbrace then explodeFrom db functionid (some []) s
      else
        match state with
        | some name =>
            if c = rbrace ∧ name ≠ [] then
              let functionid := readFunctionid functionid name
              explodeText db functionid name ++ explodeFrom db functionid none s
            else explodeFrom db functionid (some (name ++ [c])) s
        | none => c :: explodeFrom db functionid none s

attribute [grind =] explodeFrom

section
variable (db : HostDb) (functionid : ℕ)

theorem explodeFrom_open (state : Option (List UInt8)) (s : List UInt8) :
    explodeFrom db functionid state (lbrace :: s) = explodeFrom db functionid (some []) s := by
  cases state <;> rw [explodeFrom, if_pos rfl]

theorem explodeFrom_byte {c : UInt8} (hc : c ≠ lbrace) (s : List UInt8) :
    explodeFrom db functionid none (c :: s) = c :: explodeFrom db functionid none s := by
  rw [explodeFrom, if_neg hc]

theorem explodeFrom_close {name : List UInt8} (h : name ≠ []) (s : List UInt8) :
    explodeFrom db functionid (some name) (rbrace :: s) =
      explodeText db (readFunctionid functionid name) name ++
        explodeFrom db (readFunctionid functionid name) none s := by
  rw [explodeFrom, if_neg (by decide), if_pos ⟨rfl, h⟩]

theorem explodeFrom_name {c : UInt8} (hc : c ≠ lbrace) {name : List UInt8} (h : ¬(c = rbrace ∧ name ≠ []))
    (s : List UInt8) :
    explodeFrom db functionid (some name) (c :: s) = explodeFrom db functionid (some (name ++ [c])) s := by
  rw [explodeFrom, if_neg hc, if_neg h]

end

/-- The name that is open stands in front of the character. -/
def Opens (m : List UInt8) (c : ℕ) : Option (ℕ × ℕ) → Option (List UInt8) → Prop
  | none, none => True
  | some (p, len), some name => p + len = c ∧ name.length = len ∧ strAt m p = name ++ strAt m c
  | _, _ => False

theorem opens_none (m : List UInt8) (c : ℕ) : Opens m c none none := trivial

theorem opens_brace (m : List UInt8) (c : ℕ) : Opens m c (some (c, 0)) (some []) := ⟨rfl, rfl, rfl⟩

theorem byteAt_strAt {m : List UInt8} {c : ℕ} (h : byteAt m c ≠ 0) : strAt m c = byteAt m c :: strAt m (c + 1) := by
  cases hs : strAt m c with
  | nil => exact absurd (strAt_eq_nil_iff.mp hs) h
  | cons a s =>
      have hfront : strAt m c = [] ++ a :: s := hs
      have hat : byteAt m c = a := byteAt_of_strAt hfront
      have hbehind : strAt m (c + 1) = s := strAt_behind hfront
      rw [hat, hbehind]

/-- One more character of the name. -/
theorem Opens.next {m : List UInt8} {c p len : ℕ} {name : List UInt8} (h : Opens m c (some (p, len)) (some name))
    (hc : byteAt m c ≠ 0) : Opens m (c + 1) (some (p, len + 1)) (some (name ++ [byteAt m c])) := by
  obtain ⟨rfl, hlen, htext⟩ := h
  refine ⟨rfl, ?_, ?_⟩
  · rw [List.length_append, hlen, List.length_singleton]
  · rw [htext, byteAt_strAt hc, List.append_assoc]
    rfl

/-- The name is cut out. -/
theorem Opens.cut {m : List UInt8} {c p len : ℕ} {name : List UInt8} (h : Opens m c (some (p, len)) (some name))
    (hc : byteAt m c ≠ 0) : strAt (m.set (p + len) 0) p = name := by
  obtain ⟨rfl, rfl, htext⟩ := h
  rw [byteAt_strAt hc] at htext
  exact strAt_set htext

theorem explodeLoop_eq (db : HostDb) (m : List UInt8) (c functionid : ℕ) {state : Option (ℕ × ℕ)}
    {name : Option (List UInt8)} (h : Opens m c state name) (exp : List UInt8) :
    explodeLoop db m c functionid state exp = (m, exp ++ explodeFrom db functionid name (strAt m c)) := by
  induction hn : m.length - c using Nat.strong_induction_on generalizing c functionid state name exp with
  | _ n ih =>
      rw [explodeLoop.eq_def]
      by_cases hend : byteAt m c = 0
      · rw [dif_pos hend, strAt_eq_nil_iff.mpr hend, explodeFrom, List.append_nil]
      · have hlt := lt_length_of_byteAt hend
        have hnext : m.length - (c + 1) < n := by omega
        rw [dif_neg hend, byteAt_strAt hend]
        by_cases hopen : byteAt m c = lbrace
        · rw [if_pos hopen, hopen, explodeFrom_open]
          exact ih _ hnext (c + 1) functionid (opens_brace m _) exp rfl
        · rw [if_neg hopen]
          cases state with
          | none =>
              cases name with
              | some _ => exact h.elim
              | none =>
                  refine (ih _ hnext (c + 1) functionid (opens_none m _) (exp ++ [byteAt m c]) rfl).trans ?_
                  rw [explodeFrom_byte db functionid hopen, List.append_assoc]
                  rfl
          | some state =>
              obtain ⟨p, len⟩ := state
              cases name with
              | none => exact h.elim
              | some name =>
                  have hpos : 0 < len ↔ name ≠ [] := by rw [← h.2.1, List.length_pos_iff]
                  dsimp only
                  by_cases hclose : byteAt m c = rbrace ∧ 0 < len
                  · rw [if_pos hclose, hclose.1, explodeFrom_close db functionid (hpos.mp hclose.2), h.cut hend,
                      set_put_back rfl, ← List.append_assoc]
                    exact ih _ hnext (c + 1) _ (opens_none m _) _ rfl
                  · rw [if_neg hclose, explodeFrom_name db functionid hopen fun hp => hclose ⟨hp.1, hpos.mpr hp.2⟩]
                    exact ih _ hnext (c + 1) functionid (h.next hend) exp rfl

/-- The short expression is left as it was. -/
theorem dbExplodeExp_eq (db : HostDb) (functionid : ℕ) {e : List UInt8} (h : 0 ∉ e) :
    dbExplodeExp db functionid e = (e, explodeFrom db functionid none e) := by
  have htext : strAt e 0 = e := List.takeWhile_eq_self_iff.mpr fun a ha => decide_eq_true fun h0 => h (h0 ▸ ha)
  rw [dbExplodeExp, explodeLoop_eq db e 0 functionid (opens_none e 0), htext, List.nil_append]

/-! ## expressions that are well formed -/

/-- A function with its item and the host of that. -/
structure HostDb.Calls (db : HostDb) (f : Function) (i : Item) (h : HostRow) : Prop where
  function : f ∈ db.functions
  item : i ∈ db.items
  host : h ∈ db.hosts
  itemid : i.itemid = f.itemid
  hostid : h.hostid = i.hostid

/-- Hosts are found by their identifiers as well. -/
structure HostDb.CallKeys (db : HostDb) : Prop extends db.FunctionKeys where
  hosts : (db.hosts.map HostRow.hostid).Nodup

/-- `%s:%s.%s(%s)` of a function. -/
def calledAs (f : Function) (i : Item) (h : HostRow) : List UInt8 := callText h.host i.key f.function f.parameter

/-- A byte that is no brace, or a reference to `TRIGGER.VALUE` or to a function that is there. -/
def HostDb.StoredSymbol (db : HostDb) : Symbol → Prop
  | .text c => c ≠ lbrace ∧ c ≠ rbrace ∧ c ≠ 0
  | .reference name => name = triggerValue ∨
      ∃ f i h, db.Calls f i h ∧ name = dec f.functionid ∧ f.functionid < 2 ^ 64 ∧ 0 ∉ calledAs f i h

/-- An expression as it is stored, whose references exist. -/
def HostDb.Stored (db : HostDb) (e : List UInt8) : Prop := ∀ a ∈ read e, db.StoredSymbol a

/-- What is put in for a symbol. -/
def HostDb.explodeSymbol (db : HostDb) : Symbol → List UInt8
  | .text c => [c]
  | .reference name => explodeText db (ofDec name) name

variable {db : HostDb} {f : Function} {i : Item} {h : HostRow}

theorem functionRow_eq (hkeys : db.CallKeys) (hcalls : db.Calls f i h) :
    db.functionRow f.functionid = some (h, i, f) := by
  have hsome : (db.functionRow f.functionid).isSome := by
    simp only [HostDb.functionRow, List.findSome?_isSome_iff]
    refine ⟨i, hcalls.item, f, hcalls.function, h, hcalls.host, ?_⟩
    rw [if_pos ⟨rfl, hcalls.itemid, hcalls.hostid⟩]
    rfl
  obtain ⟨row, hrow⟩ := Option.isSome_iff_exists.mp hsome
  obtain ⟨i', hi', hi⟩ := List.exists_of_findSome?_eq_some hrow
  obtain ⟨f', hf', hf⟩ := List.exists_of_findSome?_eq_some hi
  obtain ⟨h', hh', hh⟩ := List.exists_of_findSome?_eq_some hf
  obtain ⟨⟨hfid, hiid, hhid⟩, heq⟩ := Option.ite_none_right_eq_some.mp hh
  obtain rfl := List.inj_on_of_nodup_map hkeys.functions hf' hcalls.function hfid
  obtain rfl := List.inj_on_of_nodup_map hkeys.items hi' hcalls.item (hiid.trans hcalls.itemid.symm)
  obtain rfl := List.inj_on_of_nodup_map hkeys.hosts hh' hcalls.host (hhid.trans hcalls.hostid.symm)
  rw [hrow, ← heq]

theorem dec_ne_triggerValue (n : ℕ) : dec n ≠ triggerValue := fun h =>
  absurd (digit_of_mem_dec (h ▸ (by decide : (84 : UInt8) ∈ triggerValue))) (by decide)

theorem plain_triggerValue : References.Plain triggerValue := by
  unfold References.Plain
  decide

theorem HostDb.StoredSymbol.plain {name : List UInt8} (h : db.StoredSymbol (.reference name)) :
    References.Plain name ∧ name ≠ [] := by
  rcases h with rfl | ⟨f, -, -, -, rfl, -⟩
  · exact ⟨plain_triggerValue, by decide⟩
  · exact ⟨plain_dec _, dec_ne_nil _⟩

/-- `functionid` is what the reference names. -/
theorem HostDb.StoredSymbol.explodeText {name : List UInt8} (h : db.StoredSymbol (.reference name)) (functionid : ℕ) :
    explodeText db (readFunctionid functionid name) name = explodeText db (ofDec name) name := by
  rcases h with rfl | ⟨f, -, -, -, rfl, hlt, -⟩
  · rfl
  · have hread : zbxStr2uint64 (dec f.functionid) = some (UInt64.ofNat f.functionid) := by
      have hid := zbxStr2uint64_ui64 (UInt64.ofNat f.functionid)
      rwa [ui64, UInt64.toNat_ofNat_of_lt' hlt] at hid
    rw [readFunctionid, if_neg (dec_ne_triggerValue _), hread, Option.elim_some, UInt64.toNat_ofNat_of_lt' hlt,
      ofDec_dec]

theorem explodeFrom_plain (functionid : ℕ) {name : List UInt8} (h : References.Plain name) (opened s : List UInt8) :
    explodeFrom db functionid (some opened) (name ++ s) = explodeFrom db functionid (some (opened ++ name)) s := by
  induction name generalizing opened with
  | nil => rw [List.nil_append, List.append_nil]
  | cons c name ih =>
      obtain ⟨⟨hopen, hclose⟩, hname⟩ := plain_cons.mp h
      rw [List.cons_append, explodeFrom_name db functionid hopen fun hp => hclose hp.1, ih hname, List.append_assoc]
      rfl

/-- The symbols one by one; what `functionid` is behind them depends on the last reference. -/
theorem explodeFrom_render_append (functionid : ℕ) {ss : List Symbol} (h : ∀ a ∈ ss, db.StoredSymbol a)
    (s : List UInt8) : ∃ functionid', explodeFrom db functionid none (render ss ++ s) =
      ss.flatMap db.explodeSymbol ++ explodeFrom db functionid' none s := by
  induction ss generalizing functionid with
  | nil => exact ⟨functionid, rfl⟩
  | cons a ss ih =>
      obtain ⟨ha, hss⟩ := List.forall_mem_cons.mp h
      rw [render_cons, List.flatMap_cons]
      cases a with
      | text c =>
          obtain ⟨functionid', ih⟩ := ih functionid hss
          refine ⟨functionid', ?_⟩
          rw [Symbol.render, List.append_assoc, List.singleton_append, explodeFrom_byte db functionid ha.1, ih]
          rfl
      | reference name =>
          obtain ⟨hplain, hne⟩ := ha.plain
          obtain ⟨functionid', ih⟩ := ih (readFunctionid functionid name) hss
          refine ⟨functionid', ?_⟩
          rw [Symbol.render, braced, List.cons_append, List.cons_append, List.append_assoc, List.append_assoc,
            explodeFrom_open, explodeFrom_plain _ hplain, List.nil_append, List.singleton_append,
            explodeFrom_close db functionid hne, ha.explodeText, ih, HostDb.explodeSymbol, List.append_assoc]

theorem explodeFrom_render (functionid : ℕ) {ss : List Symbol} (h : ∀ a ∈ ss, db.StoredSymbol a) :
    explodeFrom db functionid none (render ss) = ss.flatMap db.explodeSymbol := by
  obtain ⟨_, hrender⟩ := explodeFrom_render_append functionid h []
  simpa [explodeFrom] using hrender

/-- A reference that is cut off is left out. -/
theorem explodeFrom_cutOff (functionid : ℕ) {rest : List UInt8} (h : CutOff rest) :
    explodeFrom db functionid none rest = [] := by
  rcases h with rfl | ⟨name, hname, rfl⟩
  · rfl
  · have hopened := @explodeFrom_plain db functionid name hname [] []
    rw [List.append_nil] at hopened
    rw [explodeFrom_open, hopened, explodeFrom]

/-- The symbols of a stored expression one by one. -/
theorem explode_stored {e : List UInt8} (h : db.Stored e) (functionid : ℕ) :
    explodeFrom db functionid none e = (read e).flatMap db.explodeSymbol := by
  conv_lhs => rw [← render_read e]
  exact explodeFrom_render functionid h

/-- A reference to a function is put in as the call. -/
theorem explodeSymbol_calls (hkeys : db.CallKeys) (hcalls : db.Calls f i h) :
    db.explodeSymbol (.reference (dec f.functionid)) = braced (calledAs f i h) := by
  rw [HostDb.explodeSymbol, explodeText, if_neg (dec_ne_triggerValue _), ofDec_dec, functionRow_eq hkeys hcalls,
    calledAs]

end Zabbix.Host
