import Zabbix.Host.Explode
import Zabbix.Lib.Braces
import Zabbix.DbEscape

/-!
# Zabbix.Host.Implode

Trigger expressions in the normal mode, as `{hostX:keyY.functionZ(parameterN)}=1`, are imploded into the one that
they are stored in, as `{11}=1` (`DBimplode_exp` of `libs/zbxdbhigh/host.c`).

What stands between a brace and the first one that closes is taken apart by the first colon, the last parenthesis
that opens, the last one that closes behind it, and the last dot in front of it.  Where one of the four parts is
missing or empty, the text stays; where there is no item, nothing does.  The parts are cut out in place; without a dot,
the parenthesis that opens stays cut off.

* `implodeLoop_eq` — what is returned is what the pieces of the text give (`implodePieces`), and the text is left as it
  was unless a parenthesis stays cut off.
-/

namespace Zabbix.Host

open Ascii Buffer Printf References Outcome
open Braces (Piece pieces)

/-- `FUNCTION_FUNCTION_LEN` -/
def functionFunctionLen : ℕ := 12

/-- `FUNCTION_PARAMETER_LEN` -/
def functionParameterLen : ℕ := 255

/-- The select for the item of a host by their names. -/
def HostDb.itemNamed (db : HostDb) (host key : List UInt8) : Option ℕ :=
  db.items.findSome? fun i => db.hosts.findSome? fun h =>
    if h.hostid = i.hostid ∧ h.host = host ∧ i.key = key then some i.itemid else none

/-- The insert of a function; of its texts the database has what escaping keeps. -/
def HostDb.insertFunction (db : HostDb) (functionid itemid triggerid : ℕ) (function parameter : List UInt8) : HostDb :=
  { db with
    functions := db.functions ++
      [{ functionid, itemid, triggerid
         function := (kept function).take functionFunctionLen
         parameter := (kept parameter).take functionParameterLen }] }

/-- Where the parts of a call stand. -/
structure CallCut where
  host : ℕ
  hostLen : ℕ
  key : ℕ
  keyLen : ℕ
  function : ℕ
  functionLen : ℕ
  parameter : ℕ
  parameterLen : ℕ

/-- The parts of the call at `host`, if all are there and none is empty. -/
def cutCallAt (m : List UInt8) (host : ℕ) : List UInt8 × Option CallCut :=
  match find m host colon with
  | none => (m, none)
  | some p =>
      let hostLen := p - host
      match findLast m (p + 1) lparen with
      | none => (m, none)
      | some paren =>
          let parameter := paren + 1
          match findLast m parameter rparen with
          | none => (m, none)
          | some p =>
              let parameterLen := p - parameter
              let m := m.set paren 0
              let key := host + hostLen + 1
              match findLast m key dot with
              -- the parenthesis is not put back
              | none => (m, none)
              | some p =>
                  let keyLen := p - key
                  let function := p + 1
                  let functionLen := paren - function
                  let m := m.set paren lparen
                  if hostLen ≠ 0 ∧ keyLen ≠ 0 ∧ functionLen ≠ 0 ∧ parameterLen ≠ 0 then
                    (m, some ⟨host, hostLen, key, keyLen, function, functionLen, parameter, parameterLen⟩)
                  else (m, none)

/-- A part is cut out, and the character `c` behind it is put back. -/
def cutOut (m : List UInt8) (p len : ℕ) (c : UInt8) : List UInt8 × List UInt8 :=
  let cut := m.set (p + len) 0
  (strAt cut p, cut.set (p + len) c)

variable {schema : Schema} (nodeid : ℕ) (c : IdColumn → Column schema) (triggerid : ℕ)

/-- What is put in for a call. -/
def implodeCallAt (m : List UInt8) (a : CallCut) (db : HostDb) : Except HostStop (List UInt8 × List UInt8 × HostDb) :=
  let (host, m) := cutOut m a.host a.hostLen colon
  let (key, m) := cutOut m a.key a.keyLen dot
  match db.itemNamed (kept host) (kept key) with
  | none => .ok (m, [], db)
  | some itemid =>
      match dbGetMaxid nodeid c .functions db with
      | .error e => .error e
      | .ok (functionid, db) =>
          let (function, m) := cutOut m a.function a.functionLen lparen
          let (parameter, m) := cutOut m a.parameter a.parameterLen rparen
          .ok (m, braced (dec functionid), db.insertFunction functionid itemid triggerid function parameter)

/-- What is put in for the text at an address. -/
def implodeTextAt (m : List UInt8) (simpleStart : ℕ) (db : HostDb) :
    Except HostStop (List UInt8 × List UInt8 × HostDb) :=
  match cutCallAt m simpleStart with
  | (m, some a) => implodeCallAt nodeid c triggerid m a db
  | (m, none) => .ok (m, braced (strAt m simpleStart), db)

theorem length_cutCallAt (m : List UInt8) (host : ℕ) : (cutCallAt m host).1.length = m.length := by
  rw [cutCallAt]
  split
  · rfl
  · dsimp only
    split
    · rfl
    · split
      · rfl
      · split
        · rw [List.length_set]
        · split <;> rw [List.length_set, List.length_set]

theorem length_implodeTextAt {m : List UInt8} {simpleStart : ℕ} {db : HostDb} {r : List UInt8 × List UInt8 × HostDb}
    (h : implodeTextAt nodeid c triggerid m simpleStart db = .ok r) : r.1.length = m.length := by
  have hlen := length_cutCallAt m simpleStart
  rw [implodeTextAt] at h
  split at h
  · next m' a hcut =>
    rw [hcut] at hlen
    rw [implodeCallAt] at h
    simp only [cutOut] at h
    split at h
    · obtain rfl := Except.ok.inj h
      simpa using hlen
    · split at h
      · cases h
      · obtain rfl := Except.ok.inj h
        simpa using hlen
  · next m' hcut =>
    rw [hcut] at hlen
    obtain rfl := Except.ok.inj h
    exact hlen

/-- The loop of `DBimplode_exp`, with what has been written. -/
def implodeLoop (m : List UInt8) (pos : ℕ) (exp : List UInt8) (db : HostDb) :
    Except HostStop (List UInt8 × List UInt8 × HostDb) :=
  if _h : byteAt m pos = 0 then .ok (m, exp ++ strAt m pos, db)
  else
    match _hstart : find m pos lbrace with
    | none => .ok (m, exp ++ strAt m pos, db)
    | some simpleStart =>
        match _hend : find m simpleStart rbrace with
        | none => .ok (m, exp ++ strAt m pos, db)
        | some simpleEnd =>
            let front := cutOut m pos (simpleStart - pos) lbrace
            match _hcall : implodeTextAt nodeid c triggerid (front.2.set simpleEnd 0) (simpleStart + 1) db with
            | .error e => .error e
            | .ok (m, text, db) =>
                implodeLoop (m.set simpleEnd rbrace) (simpleEnd + 1) (exp ++ front.1 ++ text) db
termination_by m.length - pos
decreasing_by
  have hlen := length_implodeTextAt nodeid c triggerid _hcall
  have hpos := lt_length_of_byteAt _h
  have hle := (find_spec _hstart).1
  have hle' := (find_spec _hend).1
  simp only [front, cutOut, List.length_set] at hlen ⊢
  omega

/-- `DBimplode_exp`: the expression afterwards, and what is returned, with nothing for NULL. -/
def dbImplodeExp (db : HostDb) (expression : List UInt8) : Except HostStop (List UInt8 × List UInt8 × HostDb) :=
  implodeLoop nodeid c triggerid expression 0 [] db

/-! ## without a buffer -/

/-- The parts of a call. -/
structure CallParts where
  host : List UInt8
  key : List UInt8
  function : List UInt8
  parameter : List UInt8
deriving DecidableEq

/-- The parts of the call, if all are there and none is empty. -/
def cutCall (s : List UInt8) : Option CallParts :=
  match strchr colon s with
  | none => none
  | some (host, rest) =>
      match strrchr lparen rest with
      | none => none
      | some (front, arguments) =>
          match strrchr rparen arguments with
          | none => none
          | some (parameter, _) =>
              match strrchr dot front with
              | none => none
              | some (key, function) =>
                  if host ≠ [] ∧ key ≠ [] ∧ function ≠ [] ∧ parameter ≠ [] then
                    some ⟨host, key, function, parameter⟩
                  else none

/-- The text that stays where there is no call: up to a parenthesis that is not put back. -/
def literalText (s : List UInt8) : List UInt8 :=
  match strchr colon s with
  | none => s
  | some (host, rest) =>
      match strrchr lparen rest with
      | none => s
      | some (front, arguments) => if rparen ∈ arguments ∧ dot ∉ front then host ++ colon :: front else s

/-- What is put in for a call that has been taken apart. -/
def implodeCall (db : HostDb) (parts : CallParts) : Except HostStop (List UInt8 × HostDb) :=
  match db.itemNamed (kept parts.host) (kept parts.key) with
  | none => .ok ([], db)
  | some itemid =>
      match dbGetMaxid nodeid c .functions db with
      | .error e => .error e
      | .ok (functionid, db) =>
          .ok (braced (dec functionid), db.insertFunction functionid itemid triggerid parts.function parts.parameter)

/-- What is put in for the text between braces. -/
def implodeText (db : HostDb) (s : List UInt8) : Except HostStop (List UInt8 × HostDb) :=
  match cutCall s with
  | none => .ok (braced (literalText s), db)
  | some parts => implodeCall nodeid c triggerid db parts

/-- What is returned for the pieces of an expression. -/
def implodePieces (db : HostDb) : List Piece → Except HostStop (List UInt8 × HostDb)
  | [] => .ok ([], db)
  | .text a :: ps => (implodePieces db ps).map fun r => (a :: r.1, r.2)
  | .unclosed s :: ps => (implodePieces db ps).map fun r => (lbrace :: s ++ r.1, r.2)
  | .braced s :: ps =>
      match implodeText nodeid c triggerid db s with
      | .error e => .error e
      | .ok (text, db) => (implodePieces db ps).map fun r => (text ++ r.1, r.2)

/-- The parts stand where the cut says. -/
structure CallCut.Reads (m : List UInt8) (a : CallCut) (parts : CallParts) : Prop where
  host : ∃ t, strAt m a.host = parts.host ++ colon :: t
  hostLen : a.hostLen = parts.host.length
  key : ∃ t, strAt m a.key = parts.key ++ dot :: t
  keyLen : a.keyLen = parts.key.length
  function : ∃ t, strAt m a.function = parts.function ++ lparen :: t
  functionLen : a.functionLen = parts.function.length
  parameter : ∃ t, strAt m a.parameter = parts.parameter ++ rparen :: t
  parameterLen : a.parameterLen = parts.parameter.length

/-- No call is found; what is left of the text is what stays. -/
structure Uncut (m : List UInt8) (host : ℕ) (m' : List UInt8) : Prop where
  parts : cutCall (strAt m host) = none
  text : strAt m' host = literalText (strAt m host)
  whole : literalText (strAt m host) = strAt m host → m' = m
  behind : ∀ q, host + (strAt m host).length < q → strAt m' q = strAt m q

theorem cutOut_eq {m : List UInt8} {p len : ℕ} {front t : List UInt8} {c : UInt8} (h : strAt m p = front ++ c :: t)
    (hlen : len = front.length) : cutOut m p len c = (front, m) := by
  subst hlen
  rw [cutOut, strAt_set h, set_put_back (byteAt_of_strAt h)]

theorem Uncut.same {m : List UInt8} {host : ℕ} (hparts : cutCall (strAt m host) = none)
    (hwhole : literalText (strAt m host) = strAt m host) : Uncut m host m :=
  ⟨hparts, hwhole.symm, fun _ => rfl, fun _ _ => rfl⟩

section
variable {host rest front arguments : List UInt8}

theorem cutCall_of_strrchr (hhost : colon ∉ host) (h : lparen ∉ rest) : cutCall (host ++ colon :: rest) = none := by
  rw [cutCall, strchr_append_cons hhost]
  dsimp only
  rw [strrchr_eq_none_iff.mpr h]

theorem literalText_of_strrchr (hhost : colon ∉ host) (h : lparen ∉ rest) :
    literalText (host ++ colon :: rest) = host ++ colon :: rest := by
  rw [literalText, strchr_append_cons hhost]
  dsimp only
  rw [strrchr_eq_none_iff.mpr h]

theorem cutCall_eq (hhost : colon ∉ host) (harguments : lparen ∉ arguments) :
    cutCall (host ++ colon :: (front ++ lparen :: arguments)) =
      match strrchr rparen arguments with
      | none => none
      | some (parameter, _) =>
          match strrchr dot front with
          | none => none
          | some (key, function) =>
              if host ≠ [] ∧ key ≠ [] ∧ function ≠ [] ∧ parameter ≠ [] then some ⟨host, key, function, parameter⟩
              else none := by
  rw [cutCall, strchr_append_cons hhost]
  dsimp only
  rw [strrchr_append_cons front harguments]

theorem literalText_eq (hhost : colon ∉ host) (harguments : lparen ∉ arguments) :
    literalText (host ++ colon :: (front ++ lparen :: arguments)) =
      if rparen ∈ arguments ∧ dot ∉ front then host ++ colon :: front
      else host ++ colon :: (front ++ lparen :: arguments) := by
  rw [literalText, strchr_append_cons hhost]
  dsimp only
  rw [strrchr_append_cons front harguments]

end

/-- The parts of a call by the lengths of what stands in front. -/
theorem reads_of_strAt {m : List UInt8} {host : ℕ} {hostText key function parameter tail : List UInt8}
    (h : strAt m host =
      hostText ++ colon :: ((key ++ dot :: function) ++ lparen :: (parameter ++ rparen :: tail))) :
    CallCut.Reads m
      { host := host
        hostLen := hostText.length
        key := host + hostText.length + 1
        keyLen := key.length
        function := host + hostText.length + 1 + key.length + 1
        functionLen := function.length
        parameter := host + hostText.length + 1 + (key ++ dot :: function).length + 1
        parameterLen := parameter.length }
      ⟨hostText, key, function, parameter⟩ := by
  have hrest := strAt_behind h
  have hkey : strAt m (host + hostText.length + 1) =
      key ++ dot :: (function ++ lparen :: (parameter ++ rparen :: tail)) := by
    rw [hrest, List.append_assoc, List.cons_append]
  exact {
    host := ⟨_, h⟩
    hostLen := rfl
    key := ⟨_, hkey⟩
    keyLen := rfl
    function := ⟨_, strAt_behind hkey⟩
    functionLen := rfl
    parameter := ⟨_, strAt_behind hrest⟩
    parameterLen := rfl }

theorem cutCallAt_spec (m : List UInt8) (host : ℕ) :
    (∃ a parts, cutCallAt m host = (m, some a) ∧ cutCall (strAt m host) = some parts ∧ a.Reads m parts) ∨
      ∃ m', cutCallAt m host = (m', none) ∧ Uncut m host m' := by
  rw [cutCallAt]
  cases hcolon : find m host colon with
  | none =>
      have hstrchr := strchr_of_not_mem (find_eq_none hcolon)
      exact .inr ⟨m, rfl, .same (by rw [cutCall, hstrchr]) (by rw [literalText, hstrchr])⟩
  | some p =>
      obtain ⟨hostText, rest, htext, hnot, rfl⟩ := strAt_of_find (by decide) hcolon
      have hrest := strAt_behind htext
      dsimp only
      cases hparen : findLast m (host + hostText.length + 1) lparen with
      | none =>
          have hmem : lparen ∉ rest := hrest ▸ findLast_eq_none hparen
          refine .inr ⟨m, rfl, .same ?_ ?_⟩
          · rw [htext, cutCall_of_strrchr hnot hmem]
          · rw [htext, literalText_of_strrchr hnot hmem]
      | some paren =>
          obtain ⟨front, arguments, hfront, hnotfront, rfl⟩ := strAt_of_findLast hparen
          have harguments := strAt_behind hfront
          obtain rfl : rest = front ++ lparen :: arguments := hrest.symm.trans hfront
          dsimp only
          cases hclose : findLast m (host + hostText.length + 1 + front.length + 1) rparen with
          | none =>
              have hmem : rparen ∉ arguments := harguments ▸ findLast_eq_none hclose
              refine .inr ⟨m, rfl, .same ?_ ?_⟩
              · rw [htext, cutCall_eq hnot hnotfront, strrchr_eq_none_iff.mpr hmem]
              · rw [htext, literalText_eq hnot hnotfront, if_neg fun h => hmem h.1]
          | some q =>
              obtain ⟨parameter, tail, hparameter, hnottail, rfl⟩ := strAt_of_findLast hclose
              obtain rfl : arguments = parameter ++ rparen :: tail := harguments.symm.trans hparameter
              have hcut := strAt_set hfront
              have hkey : host + (host + hostText.length - host) + 1 = host + hostText.length + 1 := by omega
              dsimp only
              rw [hkey]
              cases hdot : findLast (m.set (host + hostText.length + 1 + front.length) 0) (host + hostText.length + 1)
                  dot with
              | none =>
                  have hmem : dot ∉ front := hcut ▸ findLast_eq_none hdot
                  have hliteral : literalText (strAt m host) = hostText ++ colon :: front := by
                    rw [htext, literalText_eq hnot hnotfront, if_pos ⟨by simp, hmem⟩]
                  refine .inr ⟨_, rfl, ?_, ?_, fun h => ?_, fun q hq => ?_⟩
                  · rw [htext, cutCall_eq hnot hnotfront, strrchr_append_cons parameter hnottail]
                    dsimp only
                    rw [strrchr_eq_none_iff.mpr hmem]
                  · rw [hliteral, strAt_set_behind htext rfl]
                  · have hlen := congrArg List.length (hliteral.symm.trans (h.trans htext))
                    simp at hlen
                  · refine strAt_set_of_lt ?_ 0
                    rw [htext] at hq
                    simp at hq
                    omega
              | some e =>
                  obtain ⟨key, function, hkeytext, hnotfunction, rfl⟩ := strAt_of_findLast hdot
                  obtain rfl : front = key ++ dot :: function := hcut.symm.trans hkeytext
                  have hreads := reads_of_strAt htext
                  have hparts : cutCall (strAt m host) =
                      if hostText ≠ [] ∧ key ≠ [] ∧ function ≠ [] ∧ parameter ≠ [] then
                        some ⟨hostText, key, function, parameter⟩ else none := by
                    rw [htext, cutCall_eq hnot hnotfront, strrchr_append_cons parameter hnottail]
                    dsimp only
                    rw [strrchr_append_cons key hnotfunction]
                  have hfunctionLen : host + hostText.length + 1 + (key ++ dot :: function).length -
                      (host + hostText.length + 1 + key.length + 1) = function.length := by
                    rw [List.length_append, List.length_cons]
                    omega
                  dsimp only
                  rw [set_put_back (byteAt_of_strAt hfront), Nat.add_sub_cancel_left, Nat.add_sub_cancel_left,
                    Nat.add_sub_cancel_left, hfunctionLen]
                  simp only [ne_eq, List.length_eq_zero_iff]
                  by_cases hne : hostText ≠ [] ∧ key ≠ [] ∧ function ≠ [] ∧ parameter ≠ []
                  · rw [if_pos hne]
                    exact .inl ⟨_, _, rfl, hparts.trans (if_pos hne), hreads⟩
                  · rw [if_neg hne]
                    refine .inr ⟨m, rfl, .same (hparts.trans (if_neg hne)) ?_⟩
                    rw [htext, literalText_eq hnot hnotfront, if_neg fun h => h.2 (by simp)]

section
variable {nodeid c triggerid}

theorem implodeCallAt_eq {m : List UInt8} {a : CallCut} {parts : CallParts} (h : a.Reads m parts) (db : HostDb) :
    implodeCallAt nodeid c triggerid m a db =
      (implodeCall nodeid c triggerid db parts).map fun r => (m, r.1, r.2) := by
  obtain ⟨_, hhost⟩ := h.host
  obtain ⟨_, hkey⟩ := h.key
  obtain ⟨_, hfunction⟩ := h.function
  obtain ⟨_, hparameter⟩ := h.parameter
  rw [implodeCallAt, implodeCall, cutOut_eq hhost h.hostLen]
  dsimp only
  rw [cutOut_eq hkey h.keyLen]
  dsimp only
  cases db.itemNamed (kept parts.host) (kept parts.key) with
  | none => rfl
  | some itemid =>
      dsimp only
      cases dbGetMaxid nodeid c .functions db with
      | error e => rfl
      | ok r =>
          dsimp only
          rw [cutOut_eq hfunction h.functionLen]
          dsimp only
          rw [cutOut_eq hparameter h.parameterLen]
          rfl

/-- What is put in is what the text gives, and what stands behind it is left as it was. -/
theorem implodeTextAt_eq (m : List UInt8) (host : ℕ) (db : HostDb) :
    ∃ m', implodeTextAt nodeid c triggerid m host db =
        (implodeText nodeid c triggerid db (strAt m host)).map (fun r => (m', r.1, r.2)) ∧
      (literalText (strAt m host) = strAt m host → m' = m) ∧
      ∀ q, host + (strAt m host).length < q → strAt m' q = strAt m q := by
  rcases cutCallAt_spec m host with ⟨a, parts, hcut, hparts, hreads⟩ | ⟨m', hcut, huncut⟩
  · refine ⟨m, ?_, fun _ => rfl, fun _ _ => rfl⟩
    rw [implodeTextAt, hcut, implodeText, hparts]
    exact implodeCallAt_eq hreads db
  · refine ⟨m', ?_, huncut.whole, huncut.behind⟩
    rw [implodeTextAt, hcut, implodeText, huncut.parts]
    dsimp only
    rw [huncut.text]
    rfl

theorem implodePieces_text (db : HostDb) (w : List UInt8) (ps : List Piece) :
    implodePieces nodeid c triggerid db (w.map .text ++ ps) =
      (implodePieces nodeid c triggerid db ps).map fun r => (w ++ r.1, r.2) := by
  induction w with
  | nil =>
      rw [List.map_nil, List.nil_append]
      cases implodePieces nodeid c triggerid db ps <;> rfl
  | cons a w ih =>
      rw [List.map_cons, List.cons_append, implodePieces, ih]
      cases implodePieces nodeid c triggerid db ps <;> rfl

/-- Without a brace that is closed, the rest is written as it is. -/
theorem implodePieces_rest (db : HostDb) {s : List UInt8}
    (h : ∀ w t, s = w ++ lbrace :: t → lbrace ∉ w → rbrace ∉ t) :
    implodePieces nodeid c triggerid db (pieces s) = .ok (s, db) := by
  by_cases hmem : lbrace ∈ s
  · obtain ⟨w, t, rfl, hw⟩ := List.eq_append_cons_of_mem hmem
    rw [Braces.pieces_append hw, Braces.pieces_unclosed (h w t rfl hw), implodePieces_text, implodePieces, implodePieces]
    simp [Except.map]
  · have htext := @implodePieces_text _ nodeid c triggerid db s []
    rw [List.append_nil, implodePieces] at htext
    rw [Braces.pieces_of_not_mem hmem, htext]
    simp [Except.map]

/-- Where braces are found, what is between them is put in. -/
theorem implodeLoop_found {m : List UInt8} {pos simpleStart simpleEnd : ℕ} {db : HostDb} (exp : List UInt8)
    (hnul : byteAt m pos ≠ 0) (hstart : find m pos lbrace = some simpleStart)
    (hend : find m simpleStart rbrace = some simpleEnd) :
    implodeLoop nodeid c triggerid m pos exp db =
      match implodeTextAt nodeid c triggerid ((cutOut m pos (simpleStart - pos) lbrace).2.set simpleEnd 0)
          (simpleStart + 1) db with
      | .error e => .error e
      | .ok (m', text, db) =>
          implodeLoop nodeid c triggerid (m'.set simpleEnd rbrace) (simpleEnd + 1)
            (exp ++ (cutOut m pos (simpleStart - pos) lbrace).1 ++ text) db := by
  rw [implodeLoop, dif_neg hnul]
  split
  · next h => rw [hstart] at h; cases h
  · next p h =>
    obtain rfl := Option.some.inj (hstart.symm.trans h)
    split
    · next h => rw [hend] at h; cases h
    · next q h =>
      obtain rfl := Option.some.inj (hend.symm.trans h)
      dsimp only
      split
      · next h => rw [h]
      · next h => rw [h]

/-- Where none are found, the rest is written. -/
theorem implodeLoop_rest {m : List UInt8} {pos : ℕ} {db : HostDb} (exp : List UInt8)
    (h : ∀ simpleStart, find m pos lbrace = some simpleStart → find m simpleStart rbrace = none) :
    implodeLoop nodeid c triggerid m pos exp db = .ok (m, exp ++ strAt m pos, db) := by
  rw [implodeLoop]
  split
  · rfl
  · split
    · rfl
    · next simpleStart hstart =>
      split
      · rfl
      · next hend => rw [h simpleStart hstart] at hend; cases hend

/-- What the loop returns, and that it leaves the expression as it was, if no parenthesis stays cut off. -/
theorem implodeLoop_eq (m : List UInt8) (pos : ℕ) (exp : List UInt8) (db : HostDb) :
    ∃ m', implodeLoop nodeid c triggerid m pos exp db =
        (implodePieces nodeid c triggerid db (pieces (strAt m pos))).map (fun r => (m', exp ++ r.1, r.2)) ∧
      ((∀ u, Piece.braced u ∈ pieces (strAt m pos) → literalText u = u) → m' = m) := by
  induction hn : (strAt m pos).length using Nat.strong_induction_on generalizing m pos exp db with
  | _ n ih =>
      by_cases hfound : ∃ simpleStart simpleEnd, find m pos lbrace = some simpleStart ∧
          find m simpleStart rbrace = some simpleEnd
      · obtain ⟨simpleStart, simpleEnd, hstart, hend⟩ := hfound
        obtain ⟨w, t, htext, hw, rfl⟩ := strAt_of_find (by decide) hstart
        obtain ⟨front, rest, hfront, hnot, rfl⟩ := strAt_of_find (by decide) hend
        rw [strAt_add htext] at hfront
        cases front with
        | nil => exact absurd (List.cons.inj hfront).1 (by decide)
        | cons a u =>
            obtain ⟨rfl, ht⟩ := List.cons.inj hfront
            obtain rfl : t = u ++ rbrace :: rest := ht
            have hnul : byteAt m pos ≠ 0 := fun h => by
              rw [strAt_eq_nil_iff.mpr h] at htext
              simp at htext
            have hu : rbrace ∉ u := fun hmem => hnot (List.mem_cons_of_mem _ hmem)
            have hcall := strAt_behind htext
            have haddress : pos + w.length + (lbrace :: u).length = pos + w.length + 1 + u.length := by
              rw [List.length_cons]
              omega
            have hpieces : pieces (strAt m pos) = w.map .text ++ .braced u :: pieces rest := by
              rw [htext, Braces.pieces_append hw]
              exact congrArg _ (Braces.pieces_braced hu rest)
            obtain ⟨m', htextAt, hwhole, hbehind⟩ := @implodeTextAt_eq _ nodeid c triggerid
              (m.set (pos + w.length + 1 + u.length) 0) (pos + w.length + 1) db
            rw [strAt_set hcall] at htextAt hwhole hbehind
            rw [implodeLoop_found exp hnul hstart hend, cutOut_eq htext (Nat.add_sub_cancel_left pos w.length),
              haddress, hpieces, implodePieces_text, implodePieces]
            dsimp only
            rw [htextAt]
            cases implodeText nodeid c triggerid db u with
            | error e => exact ⟨m, rfl, fun _ => rfl⟩
            | ok r =>
                have hrest : strAt (m'.set (pos + w.length + 1 + u.length) rbrace) (pos + w.length + 1 + u.length + 1) =
                    rest := by
                  rw [strAt_set_of_lt (Nat.lt_succ_self _), hbehind _ (Nat.lt_succ_self _),
                    strAt_set_of_lt (Nat.lt_succ_self _), strAt_behind hcall]
                have hlt : rest.length < n := by
                  rw [← hn, htext]
                  simp only [List.length_append, List.length_cons]
                  omega
                obtain ⟨m'', hloop, hsame⟩ := ih _ hlt (m'.set (pos + w.length + 1 + u.length) rbrace)
                  (pos + w.length + 1 + u.length + 1) (exp ++ w ++ r.1) r.2 (by rw [hrest])
                rw [hrest] at hloop hsame
                refine ⟨m'', hloop.trans ?_, fun h => ?_⟩
                · dsimp only [Except.map]
                  cases implodePieces nodeid c triggerid r.2 (pieces rest) with
                  | error e => rfl
                  | ok rest => simp
                · rw [hsame fun u' hu' => h u' (by simp [hu']), hwhole (h u (by simp)),
                    set_put_back (byteAt_of_strAt hcall)]
      · have hnone : ∀ simpleStart, find m pos lbrace = some simpleStart → find m simpleStart rbrace = none := by
          intro simpleStart hstart
          cases hend : find m simpleStart rbrace with
          | none => rfl
          | some simpleEnd => exact absurd ⟨_, _, hstart, hend⟩ hfound
        refine ⟨m, ?_, fun _ => rfl⟩
        rw [implodeLoop_rest exp hnone, implodePieces_rest db fun w t hw hnot => ?_]
        · rfl
        · have hstart : ∃ simpleStart, find m pos lbrace = some simpleStart := by
            refine Option.ne_none_iff_exists'.mp fun h => find_eq_none h ?_
            simp [hw]
          obtain ⟨simpleStart, hstart⟩ := hstart
          have hclose := find_eq_none (hnone simpleStart hstart)
          obtain ⟨w', t', htext, hw', rfl⟩ := strAt_of_find (by decide) hstart
          rw [strAt_add htext] at hclose
          have hboth := strchr_append_cons hnot t
          rw [← hw, htext, strchr_append_cons hw'] at hboth
          obtain ⟨-, rfl⟩ := Prod.mk.inj (Option.some.inj hboth)
          exact fun hmem => hclose (List.mem_cons_of_mem _ hmem)

/-- What `DBimplode_exp` returns for an expression without NULs. -/
theorem dbImplodeExp_eq (db : HostDb) {expression : List UInt8} (h : 0 ∉ expression) :
    ∃ m', dbImplodeExp nodeid c triggerid db expression =
        (implodePieces nodeid c triggerid db (pieces expression)).map (fun r => (m', r.1, r.2)) ∧
      ((∀ u, Piece.braced u ∈ pieces expression → literalText u = u) → m' = expression) := by
  have htext : strAt expression 0 = expression :=
    List.takeWhile_eq_self_iff.mpr fun a ha => decide_eq_true fun h0 => h (h0 ▸ ha)
  obtain ⟨m', hloop, hsame⟩ := @implodeLoop_eq _ nodeid c triggerid expression 0 [] db
  rw [htext] at hloop hsame
  exact ⟨m', hloop, hsame⟩

end

end Zabbix.Host
