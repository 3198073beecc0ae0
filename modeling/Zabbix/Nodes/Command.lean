import Zabbix.Atoi
import Zabbix.Lib.Forest
import Zabbix.Nodes.Field
import Zabbix.Str

/-!
# Zabbix.Nodes.Command

Commands that go from node to node (`zabbix_server/trapper/nodecommand.c`).  A
node executes a command that is for itself, and sends one for a slave node on to
the next node on the way, which it looks for in the table of the nodes: among its
own slaves, each of which may be the one or have it below itself.

The search ends in a table without cycles, and finds the slave to go through
(`getNextPointToNode_spec`), so that a command comes to its node.
-/

namespace Zabbix

open Ascii Printf Propagate Forest Relation

/-- A row of `nodes`. -/
structure NodeRow where
  nodeid : Int32
  masterid : Int32
deriving DecidableEq

/-- `select nodeid from nodes where masterid=%d` -/
def slaveNodes (nodes : List NodeRow) (masterid : Int32) : List Int32 :=
  (nodes.filter fun row => row.masterid = masterid).map NodeRow.nodeid

/-- The loop of `get_next_point_to_node` over the rows, with the nested call as an
argument. -/
def nextPointLoop (call : Int32 → Option (Option Int32)) (slaveNodeid : Int32) :
    List Int32 → Option (Option Int32)
  | [] => some none
  | id :: rows =>
      if id = slaveNodeid then some (some id)
      else
        match call id with
        | none => none
        | some (some _) => some (some id)
        | some none => nextPointLoop call slaveNodeid rows

/-- `get_next_point_to_node`: the node that it returns in `nodeid`, if it succeeds;
`none` when more than `fuel` calls are nested. -/
def getNextPointToNode (nodes : List NodeRow) : (fuel : ℕ) → (currentNodeid slaveNodeid : Int32) →
    Option (Option Int32)
  | 0, _, _ => none
  | fuel + 1, currentNodeid, slaveNodeid =>
      nextPointLoop (fun id => getNextPointToNode nodes fuel id slaveNodeid) slaveNodeid
        (slaveNodes nodes currentNodeid)

/-- The fields of a command. -/
structure NodeCommand where
  nodeid : Int32
  hostid : Option UInt64
  command : List UInt8
deriving DecidableEq

/-- How `node_process_command` takes the fields from `data`; the host is the one that
is found in the variable when the field is no number. -/
def nodeCommandFields (data : List UInt8) : Except NullPointer NodeCommand := do
  let (_, r, tmp) ← zbxGetNextField (some data) [] zbxDmDelimiter
  let (nodeid, r, tmp) ← zbxGetNextField r tmp zbxDmDelimiter
  let (hostid, r, tmp) ← zbxGetNextField r tmp zbxDmDelimiter
  let (command, _, _) ← zbxGetNextField r tmp zbxDmDelimiter
  pure { nodeid := atoi nodeid, hostid := zbxStr2uint64 hostid, command := command }

/-- What `node_process_command` does: `execute_script`, `send_script` to another
node, or an answer of its own. -/
inductive NodeAction
  | executeScript (hostid : Option UInt64) (command : List UInt8)
  | sendScript (nodeid : Int32) (data : List UInt8)
  | answer (result : List UInt8)
deriving DecidableEq

/-- "%d%cNODE %d: Node [%d] is unknown" -/
def nodeUnknown (configNodeid nodeid : Int32) : List UInt8 :=
  zbxVsnprintf 128 (d32 (-1) ++ [zbxDmDelimiter] ++ bytes "NODE " ++ d32 configNodeid ++ bytes ": Node [" ++
    d32 nodeid ++ bytes "] is unknown")

/-- `node_process_command` -/
def nodeProcessCommand (nodes : List NodeRow) (fuel : ℕ) (configNodeid : Int32) (data : List UInt8) :
    Except NullPointer (Option NodeAction) := do
  let c ← nodeCommandFields data
  if c.nodeid = configNodeid then pure (some (.executeScript c.hostid c.command))
  else
    pure ((getNextPointToNode nodes fuel configNodeid c.nodeid).map fun found =>
      match found with
      | some next => .sendScript next data
      | none => .answer (nodeUnknown configNodeid c.nodeid))

/-! ## the tree of the nodes -/

/-- A node and one of its slaves. -/
def Slave (nodes : List NodeRow) (masterid nodeid : Int32) : Prop := ⟨nodeid, masterid⟩ ∈ nodes

/-- The links to the masters form a forest. -/
structure NodeForest (nodes : List NodeRow) : Prop where
  /-- the primary key -/
  nodeids : (nodes.map NodeRow.nodeid).Nodup
  acyclic : Acyclic (Slave nodes)

/-- One node sends a command on to another. -/
def Sends (nodes : List NodeRow) (fuel : ℕ) (data : List UInt8) (nodeid next : Int32) : Prop :=
  nodeProcessCommand nodes fuel nodeid data = .ok (some (.sendScript next data))

variable {nodes : List NodeRow}

theorem mem_slaveNodes {masterid nodeid : Int32} :
    nodeid ∈ slaveNodes nodes masterid ↔ Slave nodes masterid nodeid := by
  rw [slaveNodes, List.mem_map, Slave]
  constructor
  · rintro ⟨row, hrow, rfl⟩
    obtain ⟨hmem, hmaster⟩ := List.mem_filter.mp hrow
    rw [← of_decide_eq_true hmaster]
    exact hmem
  · exact fun h => ⟨_, List.mem_filter.mpr ⟨h, by simp⟩, rfl⟩

theorem NodeForest.oneParent (h : NodeForest nodes) : OneParent (Slave nodes) := by
  intro a b c ha hb
  exact congrArg NodeRow.masterid (List.inj_on_of_nodup_map h.nodeids ha hb rfl)

/-- No chain of slaves is longer than the table. -/
theorem NodeForest.exists_height (h : NodeForest nodes) :
    ∃ height : Int32 → ℕ, (∀ a, height a ≤ nodes.length) ∧ ∀ a b, Slave nodes a b → height b < height a := by
  obtain ⟨height, hle, hlt⟩ := Propagate.exists_height h.acyclic (nodes.map NodeRow.nodeid).toFinset
    fun a b hab => List.mem_toFinset.mpr (List.mem_map.mpr ⟨_, hab, rfl⟩)
  refine ⟨height, fun a => (hle a).trans ?_, hlt⟩
  exact (List.toFinset_card_le _).trans_eq (List.length_map _)

/-! ## the search -/

/-- What is found among the rows is the first that is the slave or has it below. -/
def Finds (nodes : List NodeRow) (rows : List Int32) (slaveNodeid : Int32) (found : Option Int32) : Prop :=
  (∀ id, found = some id → id ∈ rows ∧ ReflTransGen (Slave nodes) id slaveNodeid) ∧
    (found = none → ∀ id ∈ rows, ¬ReflTransGen (Slave nodes) id slaveNodeid)

theorem nextPointLoop_spec {call : Int32 → Option (Option Int32)} {slaveNodeid : Int32} {rows : List Int32}
    (hcall : ∀ id ∈ rows, ∃ found, call id = some found ∧
      (found.isSome = true ↔ TransGen (Slave nodes) id slaveNodeid)) :
    ∃ found, nextPointLoop call slaveNodeid rows = some found ∧ Finds nodes rows slaveNodeid found := by
  induction rows with
  | nil => exact ⟨none, rfl, by simp, by simp⟩
  | cons id rows ih =>
      obtain ⟨⟨nested, hnested, hbelow⟩, hrows⟩ := List.forall_mem_cons.mp hcall
      rw [nextPointLoop]
      by_cases heq : id = slaveNodeid
      · refine ⟨some id, if_pos heq, ?_, by simp⟩
        rintro _ ⟨⟩
        exact ⟨List.mem_cons_self, heq ▸ .refl⟩
      · rw [if_neg heq, hnested]
        cases nested with
        | some x =>
            refine ⟨some id, rfl, ?_, by simp⟩
            rintro _ ⟨⟩
            exact ⟨List.mem_cons_self, (hbelow.mp rfl).to_reflTransGen⟩
        | none =>
            obtain ⟨found, hfound, hsome, hnone⟩ := ih hrows
            refine ⟨found, hfound, fun x hx => ⟨List.mem_cons_of_mem _ (hsome x hx).1, (hsome x hx).2⟩, ?_⟩
            intro h
            refine List.forall_mem_cons.mpr ⟨fun hid => ?_, hnone h⟩
            rcases reflTransGen_iff_eq_or_transGen.mp hid with h | h
            · exact heq h.symm
            · exact absurd (hbelow.mpr h) (by simp)

/-- **The search ends, and finds the slave to go through**, with more calls than the
node is high. -/
theorem getNextPointToNode_finds {height : Int32 → ℕ} (hheight : ∀ a b, Slave nodes a b → height b < height a)
    (slaveNodeid : Int32) {fuel : ℕ} {currentNodeid : Int32} (hfuel : height currentNodeid < fuel) :
    ∃ found, getNextPointToNode nodes fuel currentNodeid slaveNodeid = some found ∧
      Finds nodes (slaveNodes nodes currentNodeid) slaveNodeid found := by
  induction fuel generalizing currentNodeid with
  | zero => exact absurd hfuel (Nat.not_lt_zero _)
  | succ fuel ih =>
      refine nextPointLoop_spec fun id hid => ?_
      have hslave := mem_slaveNodes.mp hid
      obtain ⟨found, hfound, hsome, hnone⟩ := @ih id (by have := hheight _ _ hslave; omega)
      refine ⟨found, hfound, fun h => ?_, fun h => ?_⟩
      · obtain ⟨next, rfl⟩ := Option.isSome_iff_exists.mp h
        obtain ⟨hnext, hbelow⟩ := hsome next rfl
        exact TransGen.head' (mem_slaveNodes.mp hnext) hbelow
      · obtain ⟨next, hnext, hbelow⟩ := TransGen.head'_iff.mp h
        cases found with
        | some _ => rfl
        | none => exact absurd hbelow (hnone rfl next (mem_slaveNodes.mpr hnext))

/-- What the search returns in a forest. -/
theorem getNextPointToNode_spec (hforest : NodeForest nodes) {fuel : ℕ} (hfuel : nodes.length < fuel)
    (currentNodeid slaveNodeid : Int32) :
    ∃ found, getNextPointToNode nodes fuel currentNodeid slaveNodeid = some found ∧
      (found.isSome = true ↔ TransGen (Slave nodes) currentNodeid slaveNodeid) ∧
      ∀ next, found = some next ↔
        Slave nodes currentNodeid next ∧ ReflTransGen (Slave nodes) next slaveNodeid := by
  obtain ⟨height, hle, hheight⟩ := hforest.exists_height
  obtain ⟨found, hfound, hsome, hnone⟩ := getNextPointToNode_finds hheight slaveNodeid
    (Nat.lt_of_le_of_lt (hle currentNodeid) hfuel)
  have hsome' : ∀ next, found = some next →
      Slave nodes currentNodeid next ∧ ReflTransGen (Slave nodes) next slaveNodeid := fun next h =>
    ⟨mem_slaveNodes.mp (hsome next h).1, (hsome next h).2⟩
  have hnext : ∀ next, Slave nodes currentNodeid next → ReflTransGen (Slave nodes) next slaveNodeid →
      found = some next := by
    intro next hslave hbelow
    cases found with
    | none => exact absurd hbelow (hnone rfl next (mem_slaveNodes.mpr hslave))
    | some other =>
        obtain ⟨hother, hother'⟩ := hsome' other rfl
        rw [hop_unique hforest.oneParent hforest.acyclic hother hother' hslave hbelow]
  refine ⟨found, hfound, ⟨fun h => ?_, fun h => ?_⟩, fun next => ⟨hsome' next, fun h => hnext next h.1 h.2⟩⟩
  · obtain ⟨next, rfl⟩ := Option.isSome_iff_exists.mp h
    obtain ⟨hslave, hbelow⟩ := hsome' next rfl
    exact TransGen.head' hslave hbelow
  · obtain ⟨next, hslave, hbelow⟩ := TransGen.head'_iff.mp h
    exact Option.isSome_iff_exists.mpr ⟨next, hnext next hslave hbelow⟩

/-! ## the way of a command -/

/-- A node above the one that a command is for sends it to the slave on the way. -/
theorem exists_sends (hforest : NodeForest nodes) {fuel : ℕ} (hfuel : nodes.length < fuel) {data : List UInt8}
    {c : NodeCommand} (hc : nodeCommandFields data = .ok c) {nodeid : Int32} (hne : nodeid ≠ c.nodeid)
    (habove : ReflTransGen (Slave nodes) nodeid c.nodeid) :
    ∃ next, Sends nodes fuel data nodeid next ∧ Slave nodes nodeid next ∧
      ReflTransGen (Slave nodes) next c.nodeid := by
  obtain ⟨found, hfound, hsome, hnext⟩ := getNextPointToNode_spec hforest hfuel nodeid c.nodeid
  have htrans : TransGen (Slave nodes) nodeid c.nodeid :=
    (reflTransGen_iff_eq_or_transGen.mp habove).resolve_left fun h => hne h.symm
  obtain ⟨next, rfl⟩ := Option.isSome_iff_exists.mp (hsome.mpr htrans)
  refine ⟨next, ?_, (hnext next).mp rfl⟩
  rw [Sends, nodeProcessCommand, hc, Outcome.ok_bind, if_neg (Ne.symm hne), hfound]
  rfl

/-- **Commands come to their nodes**: in every table of nodes whose links to the
masters form a forest the search ends, succeeds exactly for a slave below the node,
and then returns the only child that is this slave or has it below; and a command
that any node above receives is handed on, unchanged, from node to node, in no more
steps than there are nodes, to the node that executes it. -/
theorem node_commands_routed (hforest : NodeForest nodes) {fuel : ℕ} (hfuel : nodes.length < fuel) :
    (∀ currentNodeid slaveNodeid,
      ∃ found, getNextPointToNode nodes fuel currentNodeid slaveNodeid = some found ∧
        (found.isSome = true ↔ TransGen (Slave nodes) currentNodeid slaveNodeid) ∧
        ∀ next, found = some next ↔
          Slave nodes currentNodeid next ∧ ReflTransGen (Slave nodes) next slaveNodeid) ∧
      ∀ data c nodeid, nodeCommandFields data = .ok c → ReflTransGen (Slave nodes) nodeid c.nodeid →
        ∃ route : List Int32, (nodeid :: route).IsChain (Sends nodes fuel data) ∧
          (nodeid :: route).getLast? = some c.nodeid ∧ route.length ≤ nodes.length ∧
          nodeProcessCommand nodes fuel c.nodeid data = .ok (some (.executeScript c.hostid c.command)) := by
  refine ⟨getNextPointToNode_spec hforest hfuel, fun data c nodeid hc habove => ?_⟩
  obtain ⟨height, hle, hheight⟩ := hforest.exists_height
  obtain ⟨route, hchain, hlast, hlen⟩ := exists_route hheight
    (fun a hne habove => exists_sends hforest hfuel hc hne habove) habove
  refine ⟨route, hchain, hlast, hlen.trans (hle nodeid), ?_⟩
  rw [nodeProcessCommand, hc, Outcome.ok_bind, if_pos rfl]
  rfl

/-- Two slaves of a master, the second with a slave of its own. -/
theorem node_commands_routed_four :
    ∃ route : List Int32,
      (1 :: route).IsChain (Sends [⟨1, 0⟩, ⟨2, 1⟩, ⟨3, 1⟩, ⟨4, 3⟩] 5
        (bytes "Command" ++ [zbxDmDelimiter, 52, zbxDmDelimiter, 53, zbxDmDelimiter])) ∧
        (1 :: route).getLast? = some 4 := by
  have hacyclic : Acyclic (Slave [⟨1, 0⟩, ⟨2, 1⟩, ⟨3, 1⟩, ⟨4, 3⟩]) := by
    refine acyclic_of_lt (fun id => id.toNatClampNeg) fun a b hab => ?_
    simp only [Slave, List.mem_cons, NodeRow.mk.injEq, List.not_mem_nil, or_false] at hab
    rcases hab with ⟨rfl, rfl⟩ | ⟨rfl, rfl⟩ | ⟨rfl, rfl⟩ | ⟨rfl, rfl⟩ <;> decide
  obtain ⟨route, hchain, hlast, -⟩ := (@node_commands_routed [⟨1, 0⟩, ⟨2, 1⟩, ⟨3, 1⟩, ⟨4, 3⟩] ⟨by decide, hacyclic⟩ 5
    (by decide)).2 (bytes "Command" ++ [zbxDmDelimiter, 52, zbxDmDelimiter, 53, zbxDmDelimiter])
    ⟨4, some 5, []⟩ 1 (by decide) (.tail (b := 3) (.single (by simp [Slave])) (by simp [Slave]))
  exact ⟨route, hchain, hlast⟩

end Zabbix
