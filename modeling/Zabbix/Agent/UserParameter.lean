import Zabbix.Lib.Run
import Zabbix.Lib.Upsert
import Zabbix.Params.ReplaceParam

/-!
# Zabbix.Agent.UserParameter

The user parameters of the agent: `add_user_parameter`, `parse_command` and `process` of
`libs/zbxsysinfo/sysinfo.c`.

The table of commands begins with the metrics of the agent.  A user parameter is stored under
the text in front of the bracket of its key, and `process` takes the first metric stored under
that text.  The definition that a new one replaces is looked for under the whole key, though:
with `[*]` in it there is none.

* `registered_iff` — when every base key has one definition, and `process` uses the last.
-/

namespace Zabbix

open Ascii Upsert

/-! ## The commands -/

/-- The `function` of a metric. -/
inductive MetricFunction
  /-- `EXECUTE_STR`, of the user parameters. -/
  | executeStr
  /-- A function of the tables `parameters_common`, `parameters_specific` and `parameters_simple`. -/
  | builtin (index : ℕ)
deriving DecidableEq

/-- `ZBX_METRIC`; of `flags` there is `CF_USEUPARAM` only. -/
structure ZbxMetric where
  key : CString
  useUparam : Bool
  function : MetricFunction
  mainParam : Option CString
  testParam : Option CString
deriving DecidableEq

/-- What `parse_command` returns, with the command and the parameters. -/
inductive ParsedCommand
  | error
  | withoutParams (cmd : CString)
  | withParams (cmd param : CString)
deriving DecidableEq

/-- `parse_command` -/
def parseCommand (command : CString) (cmdMaxLen paramMaxLen : ℕ) : ParsedCommand :=
  let localstr := strlcpyString command maxStringLen
  match strchr lbracket localstr.val, strrchr rbracket localstr.val with
  | none, none => .withoutParams (strlcpyString localstr cmdMaxLen)
  | some (pl, _), some (pr, _) =>
      if pr.length < pl.length then .error
      else
        .withParams (strlcpyString (localstr.between 0 pl.length) cmdMaxLen)
          (strlcpyString (localstr.between (pl.length + 1) pr.length) paramMaxLen)
  | _, _ => .error

/-- The metric of a user parameter. -/
def userMetric (key : CString) (useUparam : Bool) (command : CString) : ZbxMetric :=
  { key, useUparam, function := .executeStr, mainParam := some command, testParam := none }

/-- A call of `add_user_parameter`. -/
structure UserParameter where
  key : CString
  command : CString
deriving DecidableEq

/-- The text in front of the bracket and the flags, or `none` where `add_user_parameter` fails. -/
def UserParameter.parsed (u : UserParameter) : Option (CString × Bool) :=
  match parseCommand u.key maxStringLen maxStringLen with
  | .error => none
  | .withoutParams usrCmd => some (usrCmd, false)
  | .withParams usrCmd usrParam => if usrParam ≠ literal "*" then none else some (usrCmd, true)

/-- The `commands` after `add_user_parameter`. -/
def addUserParameter (commands : List ZbxMetric) (u : UserParameter) : List ZbxMetric :=
  match u.parsed with
  | none => commands
  | some (usrCmd, flag) =>
      upsert (fun m => m.key = u.key) (fun m => userMetric m.key flag u.command) (userMetric usrCmd flag u.command)
        commands

/-! ## `process` -/

/-- The flags of `process`. -/
structure ProcessFlags where
  /-- `PROCESS_TEST` -/
  test : Bool
  /-- `PROCESS_USE_TEST_PARAM` -/
  useTestParam : Bool
deriving DecidableEq

/-- `alias_expand`: the list of aliases gives names and values. -/
def aliasExpand (aliases : List (CString × CString)) (orig : CString) (expBufLen : ℕ) : CString :=
  match aliases.find? fun a => a.1 = orig with
  | some (_, value) => strlcpyString value expBufLen
  | none => strlcpyString orig expBufLen

/-- The bytes that `process` cuts off the end of a command. -/
def isCommandBlank (c : UInt8) : Bool := c = cr || c = newline || c = space

/-- The command without the blanks at its end; the first byte stays. -/
def trimCommand (command : CString) : CString :=
  command.between 0 (match command.val with
    | [] => 0
    | _ :: s => (s.rdropWhile isCommandBlank).length + 1)

/-- The search of `process`. -/
def findMetric (commands : List ZbxMetric) (usrCmd : CString) : Option ZbxMetric :=
  commands.find? fun m => m.key = usrCmd

/-- The call of the function of a metric. -/
structure MetricCall where
  function : MetricFunction
  command : CString
  param : List UInt8
deriving DecidableEq

/-- The parameters that the function of a metric gets for those of the key. -/
def ZbxMetric.param (m : ZbxMetric) (flags : ProcessFlags) (usrParam : CString) : List UInt8 :=
  let usrParam :=
    if m.useUparam then
      match m.testParam with
      | some testParam =>
          if flags.test ∧ flags.useTestParam then strlcpyString testParam maxStringLen else usrParam
      | none => usrParam
    else CString.empty
  match m.mainParam with
  | some mainParam =>
      if m.useUparam then replaceParam mainParam usrParam maxStringLen
      else zbxVsnprintf maxStringLen mainParam.val
  | none => zbxVsnprintf maxStringLen usrParam.val

/-- The command of `process`, taken apart. -/
def commandOf (aliases : List (CString × CString)) (inCommand : CString) : Option (CString × CString) :=
  match parseCommand (trimCommand (aliasExpand aliases inCommand maxStringLen)) maxStringLen maxStringLen with
  | .error => none
  | .withoutParams usrCmd => some (usrCmd, CString.empty)
  | .withParams usrCmd usrParam => some (usrCmd, usrParam)

/-- `process`: the call that it makes, or `none` for `NOTSUPPORTED`. -/
def process (aliases : List (CString × CString)) (commands : List ZbxMetric) (inCommand : CString)
    (flags : ProcessFlags) : Option MetricCall := do
  let (usrCmd, usrParam) ← commandOf aliases inCommand
  let m ← findMetric commands usrCmd
  some ⟨m.function, trimCommand (aliasExpand aliases inCommand maxStringLen), m.param flags usrParam⟩

/-! ## Definitions -/

/-- The flags and the command of the last definition given for a base key. -/
def lastDefinition (calls : List UserParameter) (base : CString) : Option (Bool × CString) :=
  calls.foldl (fun last u =>
    match u.parsed with
    | some (usrCmd, flag) => if usrCmd = base then some (flag, u.command) else last
    | none => last) none

/-- Every base key stands at most once among the user parameters; it is found, and `process`
calls `EXECUTE_STR` with the flags and the command, of the last definition. -/
structure ParametersRegistered (commands : List ZbxMetric) (calls : List UserParameter) : Prop where
  once : ∀ base, (commands.countP fun m => m.function = .executeStr ∧ m.key = base) ≤ 1
  found : ∀ base flag command, lastDefinition calls base = some (flag, command) →
    findMetric commands base = some (userMetric base flag command)
  called : ∀ aliases inCommand flags usrCmd usrParam flag command,
    commandOf aliases inCommand = some (usrCmd, usrParam) → lastDefinition calls usrCmd = some (flag, command) →
      process aliases commands inCommand flags =
        some ⟨.executeStr, trimCommand (aliasExpand aliases inCommand maxStringLen),
          (userMetric usrCmd flag command).param flags usrParam⟩

/-- A call of `add_user_parameter` that fails, has the base key for its key, or defines a base
key that is not in the table. -/
def Replaceable (commands : List ZbxMetric) (u : UserParameter) : Prop :=
  ∀ usrCmd flag, u.parsed = some (usrCmd, flag) → u.key = usrCmd ∨ ∀ m ∈ commands, m.key ≠ usrCmd

/-- A key has no bracket, and is shorter than the buffers. -/
def PlainKey (key : CString) : Prop := lbracket ∉ key.val ∧ key.val.length < maxStringLen

/-- A metric of the agent: its function is not that of user parameters, and its key is plain. -/
def ZbxMetric.IsBuiltin (m : ZbxMetric) : Prop := m.function ≠ .executeStr ∧ PlainKey m.key

/-! ## The base key -/

/-- A command without parameters is its key, as long as that is short. -/
theorem parseCommand_withoutParams {command cmd : CString}
    (h : parseCommand command maxStringLen maxStringLen = .withoutParams cmd) :
    PlainKey cmd ∧ (command.val.length < maxStringLen → command = cmd) := by
  rw [parseCommand] at h
  split at h
  · next hl hr =>
      cases h
      have hmem := strchr_eq_none_iff.mp hl
      refine ⟨⟨fun hc => hmem (List.mem_of_mem_take hc), ?_⟩, fun hlen => Subtype.ext ?_⟩
      · simp only [strlcpyString, List.length_take, maxStringLen]
        omega
      · simp only [strlcpyString]
        rw [List.take_take, List.take_of_length_le (by omega)]
  · split at h <;> cases h
  · cases h

/-- The command in front of the parameters ends at the first bracket of the key. -/
theorem parseCommand_withParams {command cmd param : CString}
    (h : parseCommand command maxStringLen maxStringLen = .withParams cmd param) :
    PlainKey cmd ∧ lbracket ∈ command.val := by
  rw [parseCommand] at h
  split at h
  · cases h
  · next pl sl pr sr hl hr =>
      split at h
      · cases h
      · cases h
        have hfront := not_mem_of_strchr hl
        have hsplit := strchr_eq_some hl
        refine ⟨⟨fun hc => ?_, ?_⟩, ?_⟩
        · have hc' := List.mem_of_mem_drop (List.mem_of_mem_take hc)
          rw [hsplit, List.take_left] at hc'
          exact hfront hc'
        · simp only [strlcpyString, CString.between, List.length_take, maxStringLen]
          omega
        · apply List.mem_of_mem_take (i := maxStringLen - 1)
          change lbracket ∈ (strlcpyString command maxStringLen).val
          rw [hsplit]
          simp
  · cases h

/-- A base key is plain, and the key itself unless that is none. -/
theorem parsed_spec {u : UserParameter} {usrCmd : CString} {flag : Bool} (h : u.parsed = some (usrCmd, flag)) :
    PlainKey usrCmd ∧ (u.key = usrCmd ∨ ¬PlainKey u.key) := by
  rw [UserParameter.parsed] at h
  split at h
  · cases h
  · next cmd hcmd =>
      cases h
      obtain ⟨hplain, hkey⟩ := parseCommand_withoutParams hcmd
      refine ⟨hplain, ?_⟩
      by_cases hlen : u.key.val.length < maxStringLen
      · exact .inl (hkey hlen)
      · exact .inr fun h => hlen h.2
  · next cmd param hcmd =>
      obtain ⟨hplain, hbracket⟩ := parseCommand_withParams hcmd
      split at h
      · cases h
      · cases h
        exact ⟨hplain, .inr fun h => h.1 hbracket⟩

/-! ## Steps -/

theorem lastDefinition_append (calls : List UserParameter) (u : UserParameter) (base : CString) :
    lastDefinition (calls ++ [u]) base =
      match u.parsed with
      | some (usrCmd, flag) => if usrCmd = base then some (flag, u.command) else lastDefinition calls base
      | none => lastDefinition calls base := by
  rw [lastDefinition, List.foldl_append]
  rfl

/-- What `process` does with the metric that it finds. -/
theorem process_of_found {aliases : List (CString × CString)} {commands : List ZbxMetric}
    {inCommand usrCmd usrParam : CString} {m : ZbxMetric}
    (hcommand : commandOf aliases inCommand = some (usrCmd, usrParam))
    (hfound : findMetric commands usrCmd = some m) (flags : ProcessFlags) :
    process aliases commands inCommand flags =
      some ⟨m.function, trimCommand (aliasExpand aliases inCommand maxStringLen), m.param flags usrParam⟩ := by
  simp [process, hcommand, hfound]

/-- What holds of the table as long as no definition is missed. -/
structure TableInvariant (commands : List ZbxMetric) (calls : List UserParameter) : Prop where
  plain : ∀ m ∈ commands, PlainKey m.key
  once : ∀ base, (commands.countP fun m => m.function = .executeStr ∧ m.key = base) ≤ 1
  found : ∀ base flag command, lastDefinition calls base = some (flag, command) →
    findMetric commands base = some (userMetric base flag command)
  undefined : ∀ m ∈ commands, m.function = .executeStr → lastDefinition calls m.key ≠ none

theorem TableInvariant.registered {commands : List ZbxMetric} {calls : List UserParameter}
    (h : TableInvariant commands calls) : ParametersRegistered commands calls where
  once := h.once
  found := h.found
  called := by
    intro aliases inCommand flags usrCmd usrParam flag command hcommand hlast
    exact process_of_found hcommand (h.found usrCmd flag command hlast) flags

/-- The metrics of the agent, before any user parameter. -/
theorem tableInvariant_builtin {builtin : List ZbxMetric} (h : ∀ m ∈ builtin, m.IsBuiltin) :
    TableInvariant builtin [] where
  plain := fun m hm => (h m hm).2
  once := by
    intro base
    rw [List.countP_eq_zero.mpr (by
      intro m hm
      simp [(h m hm).1])]
    exact Nat.zero_le 1
  found := fun _ _ _ hlast => by cases hlast
  undefined := fun m hm huser => absurd huser (h m hm).1

/-- A call that misses no definition stores its metric under the base key. -/
theorem addUserParameter_of_replaceable {commands : List ZbxMetric} {u : UserParameter} {usrCmd : CString}
    {flag : Bool} (hplain : ∀ m ∈ commands, PlainKey m.key) (hparsed : u.parsed = some (usrCmd, flag))
    (h : Replaceable commands u) :
    addUserParameter commands u =
      upsert (fun m => m.key = usrCmd) (fun _ => userMetric usrCmd flag u.command)
        (userMetric usrCmd flag u.command) commands := by
  rw [addUserParameter, hparsed]
  dsimp only
  rcases (parsed_spec hparsed).2 with hkey | hkey
  · rw [hkey]
    rcases forall_not_or_first (fun m : ZbxMetric => m.key = usrCmd) commands with
      hnone | ⟨l₁, m, l₂, rfl, hfront, hm⟩
    · rw [upsert_of_forall_not hnone, upsert_of_forall_not hnone]
    · rw [upsert_append_cons hfront hm, upsert_append_cons hfront hm, hm]
  · have hmissed : ∀ m ∈ commands, ¬m.key = u.key := fun m hm heq => hkey (heq ▸ hplain m hm)
    have hnew : ∀ m ∈ commands, ¬m.key = usrCmd := by
      rcases h usrCmd flag hparsed with heq | hnew
      · exact heq ▸ hmissed
      · exact hnew
    rw [upsert_of_forall_not hmissed, upsert_of_forall_not hnew]

/-- A call that misses one appends its metric. -/
theorem addUserParameter_of_not_replaceable {commands : List ZbxMetric} {u : UserParameter}
    (hplain : ∀ m ∈ commands, PlainKey m.key) (h : ¬Replaceable commands u) :
    ∃ usrCmd flag, u.parsed = some (usrCmd, flag) ∧ (∃ m ∈ commands, m.key = usrCmd) ∧
      addUserParameter commands u = commands ++ [userMetric usrCmd flag u.command] := by
  simp only [Replaceable, not_forall, not_or, not_not, exists_prop] at h
  obtain ⟨usrCmd, flag, hparsed, hkey, m, hm, hbase⟩ := h
  have hmissed : ∀ m ∈ commands, ¬m.key = u.key :=
    fun m hm heq => (parsed_spec hparsed).2.resolve_left hkey (heq ▸ hplain m hm)
  refine ⟨usrCmd, flag, hparsed, ⟨m, hm, hbase⟩, ?_⟩
  rw [addUserParameter, hparsed]
  exact upsert_of_forall_not hmissed

/-- A stored definition is the first one under its base key, and the only one of a user
parameter. -/
theorem TableInvariant.upsert {commands : List ZbxMetric} {calls : List UserParameter} {u : UserParameter}
    {usrCmd : CString} {flag : Bool} (h : TableInvariant commands calls) (hparsed : u.parsed = some (usrCmd, flag)) :
    TableInvariant
      (upsert (fun m => m.key = usrCmd) (fun _ => userMetric usrCmd flag u.command)
        (userMetric usrCmd flag u.command) commands) (calls ++ [u]) where
  plain := by
    intro m hm
    rcases mem_upsert hm with hm | rfl | ⟨-, -, -, rfl⟩
    · exact h.plain m hm
    · exact (parsed_spec hparsed).1
    · exact (parsed_spec hparsed).1
  once := by
    intro base
    by_cases hbase : base = usrCmd
    · subst hbase
      cases hfirst : commands.find? (fun m => m.key = base) with
      | none =>
          have hnone : ∀ m ∈ commands, ¬m.key = base := by simpa using hfirst
          rw [countP_upsert_of_none hnone (by simp [userMetric]), List.countP_eq_zero.mpr]
          simpa using fun m hm _ => hnone m hm
      | some m =>
          have hkey : m.key = base := by simpa using List.find?_some hfirst
          rw [countP_upsert_of_first hfirst (by simp [userMetric])]
          by_cases huser : m.function = .executeStr
          · simpa [huser, hkey] using h.once base
          · -- the metric of the agent is the first one, so no user parameter stands behind it
            have hlast : lastDefinition calls base = none := by
              by_contra hdef
              obtain ⟨⟨flag', command⟩, hdef⟩ := Option.ne_none_iff_exists'.mp hdef
              have hfound := h.found base flag' command hdef
              rw [findMetric, hfirst] at hfound
              cases hfound
              exact huser rfl
            have hzero : ∀ m ∈ commands, ¬(m.function = .executeStr ∧ m.key = base) :=
              fun m hm hc => h.undefined m hm hc.1 (hc.2 ▸ hlast)
            rw [List.countP_eq_zero.mpr (by simpa using hzero)]
            simp [huser]
    · rw [countP_upsert_of_not]
      · exact h.once base
      · intro m hm
        simp [hm, Ne.symm hbase]
      · simp [userMetric, Ne.symm hbase]
      · simp [userMetric, Ne.symm hbase]
  found := by
    intro base flag' command hlast
    rw [lastDefinition_append, hparsed] at hlast
    dsimp only at hlast
    by_cases hbase : usrCmd = base
    · rw [if_pos hbase] at hlast
      cases hlast
      subst hbase
      exact find?_upsert_self (fun _ _ _ => rfl) rfl
    · rw [if_neg hbase] at hlast
      rw [findMetric, find?_upsert_of_not]
      · exact h.found base flag' command hlast
      · intro m hm
        simp [hm, hbase]
      · simp [userMetric, hbase]
      · simp [userMetric, hbase]
  undefined := by
    intro m hm huser
    rw [lastDefinition_append, hparsed]
    dsimp only
    split
    · exact Option.some_ne_none _
    · next hbase =>
        rcases mem_upsert hm with hm | rfl | ⟨-, -, -, rfl⟩
        · exact h.undefined m hm huser
        · exact absurd rfl hbase
        · exact absurd rfl hbase

/-- **A call that misses no definition** keeps the table in order. -/
theorem TableInvariant.step {commands : List ZbxMetric} {calls : List UserParameter} {u : UserParameter}
    (h : TableInvariant commands calls) (hu : Replaceable commands u) :
    TableInvariant (addUserParameter commands u) (calls ++ [u]) := by
  cases hparsed : u.parsed with
  | none =>
      have hlast : lastDefinition (calls ++ [u]) = lastDefinition calls := by
        funext base
        rw [lastDefinition_append, hparsed]
      rw [addUserParameter, hparsed]
      exact ⟨h.plain, h.once, hlast ▸ h.found, hlast ▸ h.undefined⟩
  | some p =>
      rw [addUserParameter_of_replaceable h.plain hparsed hu]
      exact h.upsert hparsed

/-- A call that misses a definition leaves two, or one that is not found. -/
theorem TableInvariant.not_registered {commands : List ZbxMetric} {calls : List UserParameter} {u : UserParameter}
    (h : TableInvariant commands calls) (hu : ¬Replaceable commands u) :
    ¬ParametersRegistered (addUserParameter commands u) (calls ++ [u]) := by
  obtain ⟨usrCmd, flag, hparsed, ⟨m, hm, hkey⟩, hadd⟩ := addUserParameter_of_not_replaceable h.plain hu
  intro hreg
  have hlast : lastDefinition (calls ++ [u]) usrCmd = some (flag, u.command) := by
    rw [lastDefinition_append, hparsed]
    exact if_pos rfl
  have hfound := hreg.found usrCmd flag u.command hlast
  have honce := hreg.once usrCmd
  rw [hadd] at hfound honce
  cases hfirst : commands.find? (fun m => m.key = usrCmd) with
  | none => exact absurd hkey (by simpa using List.find?_eq_none.mp hfirst m hm)
  | some first =>
      rw [findMetric, List.find?_append, hfirst, Option.some_or] at hfound
      obtain rfl := Option.some.inj hfound
      have hcount : 0 < commands.countP (fun m => m.function = .executeStr ∧ m.key = usrCmd) :=
        List.countP_pos_iff.mpr ⟨_, List.mem_of_find?_eq_some hfirst, by simp [userMetric]⟩
      rw [List.countP_append, List.countP_singleton, if_pos (by simp [userMetric])] at honce
      omega

/-! ## Runs -/

/-- **User parameters are registered exactly as long as no definition is missed**: from the
metrics of the agent on, every base key has one definition and `process` uses the last, in every
state of a run, just when every call fails, has its base key for its key, or defines a base key
that is not in the table. -/
theorem registered_iff {builtin : List ZbxMetric} (hbuiltin : ∀ m ∈ builtin, m.IsBuiltin)
    (calls : List UserParameter) :
    (∀ before, before <+: calls → ParametersRegistered (Run.run addUserParameter builtin before) before) ↔
      Run.Along addUserParameter Replaceable builtin calls := by
  have hrun : ∀ calls, Run.Along addUserParameter Replaceable builtin calls →
      TableInvariant (Run.run addUserParameter builtin calls) calls := by
    intro calls
    induction calls using List.reverseRecOn with
    | nil => exact fun _ => tableInvariant_builtin hbuiltin
    | append_singleton calls u ih =>
        intro halong
        obtain ⟨hcalls, hu, -⟩ := Run.along_append.mp halong
        rw [Run.run_append]
        exact (ih hcalls).step hu
  constructor
  · induction calls using List.reverseRecOn with
    | nil => exact fun _ => trivial
    | append_singleton calls u ih =>
        intro h
        have hcalls := ih fun before hbefore => h before (hbefore.trans (List.prefix_append calls [u]))
        refine Run.along_append.mpr ⟨hcalls, ?_, trivial⟩
        by_contra hu
        apply (hrun calls hcalls).not_registered hu
        have hreg := h _ List.prefix_rfl
        rwa [Run.run_append] at hreg
  · intro halong before hbefore
    obtain ⟨rest, rfl⟩ := hbefore
    exact (hrun before (Run.along_append.mp halong).1).registered

/-- Two metrics of `parameters_common`. -/
def commonMetrics : List ZbxMetric :=
  [⟨literal "agent.ping", false, .builtin 0, none, none⟩,
    ⟨literal "system.run", true, .builtin 3, none, some (literal "echo test")⟩]

/-- A parameter of each kind, and a new definition of the one without parameters. -/
def redefinition : List UserParameter :=
  [⟨literal "a", literal "date"⟩, ⟨literal "b[*]", literal "echo $1"⟩, ⟨literal "a", literal "who"⟩]

theorem registered_redefinition :
    (∀ m ∈ commonMetrics, m.IsBuiltin) ∧
      ∀ before, before <+: redefinition →
        ParametersRegistered (Run.run addUserParameter commonMetrics before) before := by
  have hbuiltin : ∀ m ∈ commonMetrics, m.IsBuiltin := by
    simp only [commonMetrics, ZbxMetric.IsBuiltin, PlainKey]
    decide
  refine ⟨hbuiltin, (registered_iff hbuiltin _).mpr ⟨?_, ?_, ?_, trivial⟩⟩
  · intro usrCmd flag h
    rw [show UserParameter.parsed ⟨literal "a", literal "date"⟩ = some (literal "a", false) by decide] at h
    cases h
    exact .inl rfl
  · intro usrCmd flag h
    rw [show UserParameter.parsed ⟨literal "b[*]", literal "echo $1"⟩ = some (literal "b", true) by decide] at h
    cases h
    exact .inr (by decide)
  · intro usrCmd flag h
    rw [show UserParameter.parsed ⟨literal "a", literal "who"⟩ = some (literal "a", false) by decide] at h
    cases h
    exact .inl rfl

/-- A parameter with `[*]` that is defined a second time. -/
def definedTwice : List UserParameter :=
  [⟨literal "a[*]", literal "echo $1"⟩, ⟨literal "a[*]", literal "echo $2"⟩]

/-- It stands in the table twice, and `process` uses the first definition. -/
theorem not_registered_twice :
    ¬ParametersRegistered (Run.run addUserParameter commonMetrics definedTwice) definedTwice ∧
      findMetric (Run.run addUserParameter commonMetrics definedTwice) (literal "a") =
        some (userMetric (literal "a") true (literal "echo $1")) := by
  refine ⟨fun h => ?_, by decide⟩
  exact absurd (h.once (literal "a")) (by decide)

end Zabbix
