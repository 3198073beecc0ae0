import Zabbix.Actions.Conditions
import Zabbix.Lib.CInt

/-!
# Zabbix.Actions.Escalation

One step of an escalation (`execute_operations` of `zabbix_server/escalator/escalator.c`): the
operations of the step whose conditions match are carried out, and the time of the next step
is set.

The database returns the operations in no order of its own.  The delay to the next step is
kept in a variable in which 0 stands for the action's own period and for no period so far
(`minPeriod`).

* `executeOperations_order_iff` — when the time of the next step does not depend on the order.
-/

namespace Zabbix

namespace Escalator

open CInt

/-! ## The tables -/

/-- A row of `users`. -/
structure User where
  userid : ℕ
  type : ℤ

/-- A row of `usrgrp`. -/
structure UserGroup where
  usrgrpid : ℕ
  usersStatus : ℤ

/-- A row of `users_groups`. -/
structure GroupMember where
  usrgrpid : ℕ
  userid : ℕ

/-- A row of `rights`. -/
structure GroupRight where
  groupid : ℕ
  id : ℕ
  permission : ℤ

/-- A row of `hosts_groups`. -/
structure HostGroup where
  hostid : ℕ
  groupid : ℕ

/-- A row of `operations`, with its rows of `opconditions` by ascending type. -/
structure Operation where
  operationid : ℕ
  actionid : ℕ
  operationtype : ℤ
  object : ℤ
  objectid : ℕ
  defaultMsg : ℤ
  shortdata : CString
  longdata : CString
  escPeriod : ℤ
  evaltype : ℤ
  escStepFrom : ℤ
  escStepTo : ℤ
  conditions : List Condition
  escPeriod_inRange : InRange escPeriod

/-- The tables that the step of an escalation reads; the hosts of a trigger are joined from
`items` and `functions`. -/
structure Tables where
  users : List User
  usrgrp : List UserGroup
  usersGroups : List GroupMember
  rights : List GroupRight
  hostsGroups : List HostGroup
  triggerHosts : ℕ → List ℕ
  operations : List Operation

/-- `DB_ACTION` -/
structure Action where
  actionid : ℕ
  escPeriod : ℤ
  shortdata : CString
  longdata : CString
  recoveryMsg : ℤ
  escPeriod_inRange : InRange escPeriod

/-- `zbx_escalation_status_t` -/
inductive Status
  | active
  | recovery
  | sleep
  | completed
deriving DecidableEq, Repr

/-- What the step changes of `DB_ESCALATION`. -/
structure Escalation where
  escStep : ℤ
  status : Status
  nextcheck : ℤ
deriving DecidableEq, Repr

/-- The event of the step, as the other parts of the server see it: the trigger that it is
of, whether it meets a condition, and what it puts in the place of macros. -/
structure Event where
  objectid : ℕ
  checkActionCondition : Condition → Bool
  substituteMacros : CString → CString

/-! ## Messages -/

/-- `GROUP_STATUS_ACTIVE` -/
def groupStatusActive : ℤ := 0

/-- `GROUP_STATUS_DISABLED` -/
def groupStatusDisabled : ℤ := 1

/-- `USER_TYPE_SUPER_ADMIN` -/
def userTypeSuperAdmin : ℤ := 3

/-- `PERM_DENY` -/
def permDeny : ℤ := 0

/-- `PERM_READ_ONLY` -/
def permReadOnly : ℤ := 2

/-- `PERM_MAX` -/
def permMax : ℤ := 3

/-- `check_perm2system` -/
def checkPerm2system (db : Tables) (userid : ℕ) : Bool :=
  ¬0 < (db.usersGroups.filter fun ug => ug.userid = userid ∧
    db.usrgrp.any fun g => g.usrgrpid = ug.usrgrpid ∧ g.usersStatus = groupStatusDisabled).length

/-- The permissions that the groups of a user have on the groups of a host. -/
def hostPermissions (db : Tables) (userid hostid : ℕ) : List ℤ :=
  (db.rights.filter fun r =>
    (db.hostsGroups.any fun hg => r.id = hg.groupid ∧ hg.hostid = hostid) ∧
      db.usersGroups.any fun ug => r.groupid = ug.usrgrpid ∧ ug.userid = userid).map (·.permission)

/-- `get_host_permision` -/
def getHostPermision (db : Tables) (userid hostid : ℕ) : ℤ :=
  match db.users.find? (·.userid = userid) with
  | none => permDeny
  | some user =>
      if user.type = -1 then permDeny
      else if user.type = userTypeSuperAdmin then permMax
      else
        match (hostPermissions db userid hostid).min? with
        | none => permDeny
        | some perm => perm

/-- `get_trigger_permision` -/
def getTriggerPermision (db : Tables) (userid triggerid : ℕ) : ℤ :=
  ((db.triggerHosts triggerid).map (getHostPermision db userid)).foldl max permDeny

/-- `ZBX_USER_MSG` -/
structure UserMsg where
  userid : ℕ
  subject : CString
  message : CString

/-- Two messages that `add_user_msg` takes for the same. -/
def UserMsg.same (m n : UserMsg) : Bool :=
  m.userid = n.userid ∧ m.subject.val = n.subject.val ∧ m.message.val = n.message.val

/-- `add_user_msg` -/
def addUserMsg (db : Tables) (triggerid : ℕ) (msg : UserMsg) (userMsg : List UserMsg) : List UserMsg :=
  if ¬checkPerm2system db msg.userid then userMsg
  else if getTriggerPermision db msg.userid triggerid < permReadOnly then userMsg
  else if userMsg.any (·.same msg) then userMsg
  else msg :: userMsg

/-- `OPERATION_OBJECT_USER` -/
def operationObjectUser : ℤ := 0

/-- `OPERATION_OBJECT_GROUP` -/
def operationObjectGroup : ℤ := 1

/-- `add_object_msg` -/
def addObjectMsg (db : Tables) (triggerid : ℕ) (operation : Operation) (userMsg : List UserMsg)
    (subject message : CString) : List UserMsg :=
  if operation.object = operationObjectUser then
    addUserMsg db triggerid ⟨operation.objectid, subject, message⟩ userMsg
  else if operation.object = operationObjectGroup then
    let members := db.usersGroups.filter fun ug => ug.usrgrpid = operation.objectid ∧
      db.usrgrp.any fun g => g.usrgrpid = ug.usrgrpid ∧ g.usersStatus = groupStatusActive
    members.foldl (fun userMsg ug => addUserMsg db triggerid ⟨ug.userid, subject, message⟩ userMsg) userMsg
  else userMsg

/-! ## The operations of a step -/

/-- `OPERATION_TYPE_MESSAGE` -/
def operationTypeMessage : ℤ := 0

/-- `OPERATION_TYPE_COMMAND` -/
def operationTypeCommand : ℤ := 1

/-- Whether the step selects an operation. -/
def Operation.applies (op : Operation) (action : Action) (escStep : ℤ) : Bool :=
  op.actionid = action.actionid ∧
    (op.operationtype = operationTypeMessage ∨ op.operationtype = operationTypeCommand) ∧
    (action.escPeriod = 0 ∨ op.escStepFrom ≤ escStep ∧ (op.escStepTo = 0 ∨ escStep ≤ op.escStepTo))

/-- The operations that the step selects, in the order of the table. -/
def applicable (db : Tables) (action : Action) (escStep : ℤ) : List Operation :=
  db.operations.filter (·.applies action escStep)

/-- The variables of `execute_operations`, and the commands that it has handed to
`add_command_alert`. -/
structure Run where
  escPeriod : ℤ
  operations : Bool
  userMsg : List UserMsg
  commands : List CString

/-- `if (0 == esc_period || esc_period > operation.esc_period) esc_period = operation.esc_period` -/
def minPeriod (escPeriod period : ℤ) : ℤ :=
  if escPeriod = 0 ∨ period < escPeriod then period else escPeriod

/-- Whether the conditions of an operation match the event. -/
def Operation.matched (op : Operation) (event : Event) : Bool :=
  checkOperationConditions event.checkActionCondition op.evaltype op.conditions

/-- One round of the loop over the operations. -/
def executeOperation (db : Tables) (event : Event) (action : Action) (r : Run) (op : Operation) : Run :=
  if op.matched event then
    let shortdata := event.substituteMacros op.shortdata
    let longdata := event.substituteMacros op.longdata
    let escPeriod := minPeriod r.escPeriod op.escPeriod
    if op.operationtype = operationTypeMessage then
      let subject := if op.defaultMsg = 0 then shortdata else action.shortdata
      let message := if op.defaultMsg = 0 then longdata else action.longdata
      { r with
        escPeriod := escPeriod
        operations := true
        userMsg := addObjectMsg db event.objectid op r.userMsg subject message }
    else if op.operationtype = operationTypeCommand then
      { r with escPeriod := escPeriod, operations := true, commands := r.commands ++ [longdata] }
    else { r with escPeriod := escPeriod, operations := true }
  else { r with operations := true }

/-- What a step of an escalation leaves: the escalation, and what it has handed to
`add_message_alert` and to `add_command_alert`. -/
structure Outcome where
  escalation : Escalation
  messages : List UserMsg
  commands : List CString

/-- The status of an escalation that has nothing left to do. -/
def Action.finished (action : Action) : Status := if action.recoveryMsg = 1 then .sleep else .completed

/-- `execute_operations`, at the time `now`. -/
def executeOperations (db : Tables) (now : ℤ) (event : Event) (action : Action) (escalation : Escalation) : Outcome :=
  let escStep := if action.escPeriod = 0 then escalation.escStep else escalation.escStep + 1
  let r := (applicable db action escStep).foldl (executeOperation db event action) ⟨0, false, [], []⟩
  let escalation := { escalation with escStep := escStep }
  if action.escPeriod = 0 then
    ⟨{ escalation with status := action.finished }, r.userMsg, r.commands⟩
  else
    let operations := r.operations ||
      db.operations.any fun op => op.actionid = action.actionid ∧ escStep < op.escStepFrom
    if operations then
      let escPeriod := if r.escPeriod ≠ 0 then r.escPeriod else action.escPeriod
      ⟨{ escalation with nextcheck := cast (now + escPeriod) }, r.userMsg, r.commands⟩
    else ⟨{ escalation with status := action.finished }, r.userMsg, r.commands⟩

/-! ## The period -/

/-- The periods of the operations that are carried out, in turn. -/
def periods (event : Event) (ops : List Operation) : List ℤ :=
  (ops.filter (·.matched event)).map (·.escPeriod)

/-- The loop folds the periods. -/
theorem escPeriod_foldl (db : Tables) (event : Event) (action : Action) (ops : List Operation) (r : Run) :
    (ops.foldl (executeOperation db event action) r).escPeriod =
      (periods event ops).foldl minPeriod r.escPeriod := by
  induction ops generalizing r with
  | nil => rfl
  | cons op ops ih =>
      rw [List.foldl_cons, ih]
      have hstep : (executeOperation db event action r op).escPeriod =
          if op.matched event then minPeriod r.escPeriod op.escPeriod else r.escPeriod := by
        unfold executeOperation
        split_ifs <;> rfl
      rw [hstep]
      by_cases hop : op.matched event = true <;> simp [periods, hop]

/-- The loop takes note of every operation. -/
theorem operations_foldl (db : Tables) (event : Event) (action : Action) (ops : List Operation) (r : Run) :
    (ops.foldl (executeOperation db event action) r).operations = (r.operations || !ops.isEmpty) := by
  induction ops generalizing r with
  | nil => simp
  | cons op ops ih =>
      have hstep : (executeOperation db event action r op).operations = true := by
        unfold executeOperation
        split_ifs <;> rfl
      simp [ih, hstep]

/-- A least period that is not 0 is what the fold yields, if it is below 0 or no period is
0: nothing then takes its place. -/
theorem foldl_minPeriod_of_least {m e : ℤ} {ps : List ℤ} (hmem : m ∈ e :: ps) (hle : ∀ p ∈ e :: ps, m ≤ p)
    (h : m < 0 ∨ 0 ∉ e :: ps) : ps.foldl minPeriod e = m := by
  induction ps generalizing e with
  | nil => exact (List.mem_singleton.mp hmem).symm
  | cons p ps ih =>
      have hp := hle p (by simp)
      have he := hle e (by simp)
      rw [List.foldl_cons]
      apply ih <;> grind [minPeriod]

/-- Starting from no period, the fold yields the least one, if it is below 0 or none is 0. -/
theorem foldl_minPeriod_zero {m : ℤ} {ps : List ℤ} (hmem : m ∈ ps) (hle : ∀ p ∈ ps, m ≤ p)
    (h : m < 0 ∨ 0 ∉ ps) : ps.foldl minPeriod 0 = m := by
  cases ps with
  | nil => cases hmem
  | cons p ps =>
      have hfirst : minPeriod 0 p = p := if_pos (.inl rfl)
      rw [List.foldl_cons, hfirst]
      exact foldl_minPeriod_of_least hmem hle h

/-- The fold yields one of the periods, or what it has started from. -/
theorem foldl_minPeriod_mem (e : ℤ) (ps : List ℤ) : ps.foldl minPeriod e ∈ e :: ps := by
  induction ps generalizing e with
  | nil => simp
  | cons p ps ih =>
      have hstep := ih (minPeriod e p)
      rw [List.foldl_cons]
      grind [minPeriod]

/-- Where no period is below 0, neither is what the fold yields. -/
theorem foldl_minPeriod_nonneg {e : ℤ} {ps : List ℤ} (he : 0 ≤ e) (hps : ∀ p ∈ ps, 0 ≤ p) :
    0 ≤ ps.foldl minPeriod e := by
  rcases List.mem_cons.mp (foldl_minPeriod_mem e ps) with h | h
  · rwa [h]
  · exact hps _ h

/-- The period after which the next step is due. -/
def nextPeriod (action : Action) (ps : List ℤ) : ℤ :=
  if ps.foldl minPeriod 0 ≠ 0 then ps.foldl minPeriod 0 else action.escPeriod

/-- The order of the periods does not matter: no period is 0, or one is below it, or those
that are not 0 are the one that 0 stands for. -/
def OrderFree (action : Action) (ps : List ℤ) : Prop :=
  0 ∉ ps ∨ (∃ p ∈ ps, p < 0) ∨ ∀ p ∈ ps, p = 0 ∨ p = action.escPeriod

/-- Without a 0 among the periods, or with one below it, the fold yields the least. -/
theorem foldl_minPeriod_perm {ps qs : List ℤ} (hperm : qs.Perm ps) (h : 0 ∉ ps ∨ ∃ p ∈ ps, p < 0) :
    qs.foldl minPeriod 0 = ps.foldl minPeriod 0 := by
  by_cases hnil : ps = []
  · subst hnil
    rw [hperm.eq_nil]
  obtain ⟨m, hmem, hle⟩ : ∃ m ∈ ps, ∀ p ∈ ps, m ≤ p := by
    obtain ⟨m, hm⟩ := Option.isSome_iff_exists.mp (List.isSome_min?_of_ne_nil hnil)
    exact ⟨m, List.min?_mem hm, fun p hp => (List.le_min?_iff hm).mp le_rfl p hp⟩
  have hleast : m < 0 ∨ 0 ∉ ps := by
    rcases h with h | ⟨p, hp, hneg⟩
    · exact .inr h
    · exact .inl ((hle p hp).trans_lt hneg)
  rw [foldl_minPeriod_zero hmem hle hleast,
    foldl_minPeriod_zero (hperm.mem_iff.mpr hmem) (fun p hp => hle p (hperm.mem_iff.mp hp))
      (hleast.imp_right fun h0 h => h0 (hperm.mem_iff.mp h))]

/-- Where 0 stands for the other periods, every order yields them. -/
theorem nextPeriod_of_default {action : Action} {ps : List ℤ} (h : ∀ p ∈ ps, p = 0 ∨ p = action.escPeriod) :
    nextPeriod action ps = action.escPeriod := by
  unfold nextPeriod
  split
  · next hne =>
      rcases List.mem_cons.mp (foldl_minPeriod_mem 0 ps) with h0 | hmem
      · exact absurd h0 hne
      · exact (h _ hmem).resolve_left hne
  · rfl

/-- With a 0 in front of it, the last period is what counts; with a 0 at the end, none is. -/
theorem nextPeriod_last {action : Action} {ps : List ℤ} (hps : ∀ p ∈ ps, 0 ≤ p) {p : ℤ} (hp : 0 < p) :
    nextPeriod action (ps ++ [0, p]) = p ∧ nextPeriod action (ps ++ [p, 0]) = action.escPeriod := by
  have hnonneg := foldl_minPeriod_nonneg le_rfl hps
  unfold nextPeriod
  simp only [List.foldl_append, List.foldl_cons, List.foldl_nil]
  grind [minPeriod]

/-- **The order of the periods**: they all lead to the same delay exactly in these cases. -/
theorem nextPeriod_perm_iff (action : Action) (ps : List ℤ) :
    (∀ qs : List ℤ, qs.Perm ps → nextPeriod action qs = nextPeriod action ps) ↔ OrderFree action ps := by
  constructor
  · intro h
    by_contra hnot
    obtain ⟨hzero, hneg, p, hp, hp0, hdefault⟩ : 0 ∈ ps ∧ (∀ p ∈ ps, 0 ≤ p) ∧
        ∃ p ∈ ps, p ≠ 0 ∧ p ≠ action.escPeriod := by
      simpa [OrderFree, not_or] using hnot
    have hperm : ps.Perm (((ps.erase 0).erase p) ++ [0, p]) := by
      have hp' : p ∈ ps.erase 0 := (List.mem_erase_of_ne hp0).mpr hp
      have hcons := (List.perm_cons_erase hzero).trans ((List.perm_cons_erase hp').cons 0)
      exact hcons.trans (List.perm_append_comm : ([0, p] ++ (ps.erase 0).erase p).Perm _)
    have hrest : ∀ q ∈ (ps.erase 0).erase p, 0 ≤ q := fun q hq =>
      hneg q (List.mem_of_mem_erase (List.mem_of_mem_erase hq))
    obtain ⟨hlast, hzeroLast⟩ := @nextPeriod_last action _ hrest p (lt_of_le_of_ne (hneg p hp) hp0.symm)
    have hswap : (((ps.erase 0).erase p) ++ [p, 0]).Perm ps :=
      ((List.Perm.swap 0 p []).append_left _).trans hperm.symm
    rw [h _ hperm.symm] at hlast
    rw [h _ hswap] at hzeroLast
    exact hdefault (hlast.symm.trans hzeroLast)
  · intro h qs hqs
    rcases h with hzero | hneg | hdefault
    · unfold nextPeriod
      rw [foldl_minPeriod_perm hqs (.inl hzero)]
    · unfold nextPeriod
      rw [foldl_minPeriod_perm hqs (.inr hneg)]
    · rw [nextPeriod_of_default hdefault, nextPeriod_of_default fun p hp => hdefault p (hqs.mem_iff.mp hp)]

/-! ## The next step -/

/-- The time of the next step. -/
theorem executeOperations_nextcheck (db : Tables) (now : ℤ) (event : Event) (action : Action)
    (escalation : Escalation) (hperiod : action.escPeriod ≠ 0) :
    (executeOperations db now event action escalation).escalation.nextcheck =
      if applicable db action (escalation.escStep + 1) ≠ [] ∨
          ∃ op ∈ db.operations, op.actionid = action.actionid ∧ escalation.escStep + 1 < op.escStepFrom then
        cast (now + nextPeriod action (periods event (applicable db action (escalation.escStep + 1))))
      else escalation.nextcheck := by
  unfold executeOperations
  simp only [if_neg hperiod, operations_foldl, escPeriod_foldl, nextPeriod]
  by_cases happ : applicable db action (escalation.escStep + 1) = []
  · by_cases hlater : ∃ op ∈ db.operations, op.actionid = action.actionid ∧ escalation.escStep + 1 < op.escStepFrom
    · simp [happ, hlater]
    · simp [happ, hlater]
  · simp [happ]

/-- Two delays that an `int` holds lead to two times. -/
theorem cast_add_inj {now p q : ℤ} (hp : InRange p) (hq : InRange q) :
    cast (now + p) = cast (now + q) ↔ p = q := by
  constructor
  · intro h
    have hdp : (2 ^ 32 : ℤ) ∣ cast (now + p) - (now + p) := Int.dvd_bmod_sub_self
    have hdq : (2 ^ 32 : ℤ) ∣ cast (now + q) - (now + q) := Int.dvd_bmod_sub_self
    obtain ⟨hplo, hphi⟩ := hp
    obtain ⟨hqlo, hqhi⟩ := hq
    rw [h] at hdp
    omega
  · rintro rfl
    rfl

/-- The delay is one that an `int` holds. -/
theorem inRange_nextPeriod (event : Event) (action : Action) (ops : List Operation) :
    InRange (nextPeriod action (periods event ops)) := by
  unfold nextPeriod
  split
  · next hne =>
      rcases List.mem_cons.mp (foldl_minPeriod_mem 0 (periods event ops)) with h0 | hmem
      · exact absurd h0 hne
      · obtain ⟨op, -, hop⟩ := List.mem_map.mp hmem
        rw [← hop]
        exact op.escPeriod_inRange
  · exact action.escPeriod_inRange

/-- Every order of what a table selects is one of the table. -/
theorem exists_perm_filter_map {α β : Type} (p : α → Bool) (f : α → β) {l : List α} {ys : List β}
    (h : ys.Perm ((l.filter p).map f)) : ∃ l' : List α, l'.Perm l ∧ (l'.filter p).map f = ys := by
  have hmap : List.Forall₂ (fun y x => y = f x) ((l.filter p).map f) (l.filter p) :=
    List.forall₂_map_left_iff.mpr (List.forall₂_same.mpr fun x _ => rfl)
  obtain ⟨xs, hys, hxs⟩ := List.perm_comp_forall₂ h hmap
  have hall : ∀ x ∈ xs, p x = true := fun x hx => (List.mem_filter.mp (hxs.mem_iff.mp hx)).2
  refine ⟨xs ++ l.filter (!p ·), ?_, ?_⟩
  · exact (hxs.append_right _).trans (List.filter_append_perm p l)
  · rw [List.filter_append, List.filter_eq_self.mpr hall, List.filter_filter]
    simp only [Bool.and_not_self, List.filter_false, List.append_nil]
    exact (List.forall₂_eq_eq_eq ▸ List.forall₂_map_right_iff.mpr hys : ys = xs.map f).symm

/-- What the step carries out, as one selection from the table. -/
theorem periods_applicable (db : Tables) (event : Event) (action : Action) (escStep : ℤ) :
    periods event (applicable db action escStep) =
      (db.operations.filter fun op => op.matched event && op.applies action escStep).map (·.escPeriod) := by
  rw [periods, applicable, List.filter_filter]

/-- **The order of the operations**: the time of the next step is the same for every order in
which the database returns them exactly if the action has no period of its own or the periods
of the operations that the step carries out are free of the order. -/
theorem executeOperations_order_iff (db : Tables) (now : ℤ) (event : Event) (action : Action)
    (escalation : Escalation) :
    (∀ operations : List Operation, operations.Perm db.operations →
      (executeOperations { db with operations := operations } now event action escalation).escalation.nextcheck =
        (executeOperations db now event action escalation).escalation.nextcheck) ↔
    action.escPeriod = 0 ∨
      OrderFree action (periods event (applicable db action (escalation.escStep + 1))) := by
  by_cases hperiod : action.escPeriod = 0
  · simp [hperiod, executeOperations]
  have happ : ∀ operations : List Operation, operations.Perm db.operations →
      (applicable { db with operations := operations } action (escalation.escStep + 1)).Perm
        (applicable db action (escalation.escStep + 1)) := fun operations hperm => hperm.filter _
  have hdue : ∀ operations : List Operation, operations.Perm db.operations →
      ((applicable { db with operations := operations } action (escalation.escStep + 1) ≠ [] ∨
          ∃ op ∈ operations, op.actionid = action.actionid ∧ escalation.escStep + 1 < op.escStepFrom) ↔
        (applicable db action (escalation.escStep + 1) ≠ [] ∨
          ∃ op ∈ db.operations, op.actionid = action.actionid ∧ escalation.escStep + 1 < op.escStepFrom)) := by
    intro operations hperm
    have hnil := (happ operations hperm).length_eq
    refine or_congr ?_ ⟨?_, ?_⟩
    · rw [← List.length_pos_iff_ne_nil, ← List.length_pos_iff_ne_nil, hnil]
    · rintro ⟨op, hop, hlater⟩
      exact ⟨op, hperm.mem_iff.mp hop, hlater⟩
    · rintro ⟨op, hop, hlater⟩
      exact ⟨op, hperm.mem_iff.mpr hop, hlater⟩
  rw [or_iff_right hperiod, ← nextPeriod_perm_iff]
  constructor
  · intro h qs hqs
    by_cases hnone : applicable db action (escalation.escStep + 1) = []
    · rw [hnone] at hqs ⊢
      rw [hqs.eq_nil]
      rfl
    rw [periods_applicable] at hqs
    obtain ⟨operations, hperm, hqs'⟩ := exists_perm_filter_map _ _ hqs
    have hnext := h operations hperm
    rw [executeOperations_nextcheck _ now event action escalation hperiod,
      executeOperations_nextcheck db now event action escalation hperiod,
      if_pos ((hdue operations hperm).mpr (.inl hnone)), if_pos (.inl hnone),
      cast_add_inj (inRange_nextPeriod ..) (inRange_nextPeriod ..), periods_applicable, hqs'] at hnext
    exact hnext
  · intro h operations hperm
    rw [executeOperations_nextcheck _ now event action escalation hperiod,
      executeOperations_nextcheck db now event action escalation hperiod]
    have hsame := h (periods event (applicable { db with operations := operations } action (escalation.escStep + 1)))
      (((happ operations hperm).filter _).map _)
    rw [hsame, if_congr (hdue operations hperm) rfl rfl]

/-- An operation of every step, which sends the message of the action to the user 1. -/
def sendDefault (operationid : ℕ) (escPeriod : ℤ) (h : InRange escPeriod) : Operation where
  operationid := operationid
  actionid := 7
  operationtype := operationTypeMessage
  object := operationObjectUser
  objectid := 1
  defaultMsg := 1
  shortdata := CString.empty
  longdata := CString.empty
  escPeriod := escPeriod
  evaltype := actionEvalTypeAndOr
  escStepFrom := 1
  escStepTo := 0
  conditions := []
  escPeriod_inRange := h

/-- An action whose steps take an hour, with an operation that leaves it at that and one
whose step takes a minute. -/
theorem executeOperations_order_matters :
    ¬∀ (db : Tables) (now : ℤ) (event : Event) (action : Action) (escalation : Escalation)
      (operations : List Operation), operations.Perm db.operations →
        (executeOperations { db with operations := operations } now event action escalation).escalation.nextcheck =
          (executeOperations db now event action escalation).escalation.nextcheck := by
  intro h
  have hsame := h
    { users := [], usrgrp := [], usersGroups := [], rights := [], hostsGroups := [], triggerHosts := fun _ => []
      operations := [sendDefault 1 0 (by decide), sendDefault 2 60 (by decide)] }
    1700000000 ⟨13, fun _ => true, id⟩ ⟨7, 3600, ⟨[], by simp⟩, ⟨[], by simp⟩, 0, by decide⟩ ⟨0, .active, 0⟩
    [sendDefault 2 60 (by decide), sendDefault 1 0 (by decide)] (List.Perm.swap ..)
  revert hsame
  decide

end Escalator

end Zabbix
