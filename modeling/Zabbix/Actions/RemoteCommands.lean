import Zabbix.Lib.Buffer
import Zabbix.Str

/-!
# Zabbix.Actions.RemoteCommands

The remote commands of an operation: `get_next_command` and `op_run_commands`
of `zabbix_server/operations.c`.  The list is one text, which the scanner cuts
in place: the name of a host or group ends at the first `:` or `#`, its command
at the end of the line.

A line break ends a command only, not a name.  So what stands on a line without
`:` and `#` becomes the beginning of the name on the next line that has one;
`remoteCommands_eq_iff` says which texts are read as their lines say.
-/

namespace Zabbix

open Ascii Buffer

/-! ## the scanner -/

/-- `CMD_ALIAS` and `CMD_REM_COMMAND` -/
inductive CmdState
  | cmdAlias
  | cmdRemCommand

/-- The variables of the loop; `command` is an address, `NULL` before a
separator has been found. -/
structure CommandScan where
  buffer : List UInt8
  state : CmdState
  isGroup : Bool
  command : Option ℕ

/-- The loop's body on the character at `i`, without the test for the end of the
text; `true` is the `break` behind a command. -/
def CommandScan.visit (s : CommandScan) (i : ℕ) : CommandScan × Bool :=
  match s.state with
  | .cmdAlias =>
      if byteAt s.buffer i = hash then (⟨s.buffer.set i nul, .cmdRemCommand, true, some (i + 1)⟩, false)
      else if byteAt s.buffer i = colon then (⟨s.buffer.set i nul, .cmdRemCommand, false, some (i + 1)⟩, false)
      else (s, false)
  | .cmdRemCommand =>
      if byteAt s.buffer i = cr then ({ s with buffer := s.buffer.set i nul }, false)
      else if byteAt s.buffer i = newline then ({ s with buffer := s.buffer.set i nul }, true)
      else (s, false)

/-- The loop from the address `i` up to `stop`, with the list that is left; it
begins at `list`. -/
def scanCommand (list stop i : ℕ) (s : CommandScan) : CommandScan × ℕ :=
  if i < stop then
    match s.visit i with
    | (s, true) => (s, i + 1)
    | (s, false) => if byteAt s.buffer (i + 1) = nul then (s, i + 1) else scanCommand list stop (i + 1) s
  else (s, list)
termination_by stop - i

/-- `get_next_command`: what the loop leaves, and the new `*command_list`; the
name is the string at the old one.  `none` at the end of the list. -/
def getNextCommand (buffer : List UInt8) (list : ℕ) : Option (CommandScan × ℕ) :=
  if byteAt buffer list = nul then none
  else some (scanCommand list (list + (strAt buffer list).length) list ⟨buffer, .cmdAlias, false, none⟩)

/-- What is run, and on which host or group. -/
structure RemoteCommand where
  aliasName : List UInt8
  isGroup : Bool
  command : List UInt8
  deriving DecidableEq

/-- The test of `op_run_commands` on what it has been given. -/
def RemoteCommand.of? (aliasName : List UInt8) (isGroup : Bool) (command : List UInt8) : Option RemoteCommand :=
  if aliasName ≠ [] ∧ command ≠ [] then some ⟨aliasName, isGroup, command⟩ else none

/-- The command that a scan of the list at `list` has found. -/
def CommandScan.remoteCommand? (s : CommandScan) (list : ℕ) : Option RemoteCommand :=
  s.command.bind fun command => RemoteCommand.of? (strAt s.buffer list) s.isGroup (strAt s.buffer command)

theorem length_visit (s : CommandScan) (i : ℕ) : (s.visit i).1.buffer.length = s.buffer.length := by
  unfold CommandScan.visit
  repeat' split
  all_goals first | rfl | exact List.length_set

theorem byteAt_visit (s : CommandScan) {i j : ℕ} (h : i < j) : byteAt (s.visit i).1.buffer j = byteAt s.buffer j := by
  unfold CommandScan.visit byteAt
  repeat' split
  all_goals first | rfl | rw [List.getElem?_set_ne (by omega)]

/-- The list that is left begins behind where the loop has begun. -/
theorem scanCommand_spec {list stop i : ℕ} {s : CommandScan} (hi : i < stop) (hstop : byteAt s.buffer stop = nul) :
    (scanCommand list stop i s).1.buffer.length = s.buffer.length ∧ i < (scanCommand list stop i s).2 := by
  have hlength := length_visit s i
  fun_induction scanCommand list stop i s with
  | case1 i s _ s' hvisit =>
      rw [hvisit] at hlength
      exact ⟨hlength, Nat.lt_succ_self i⟩
  | case2 i s _ s' hvisit _ =>
      rw [hvisit] at hlength
      exact ⟨hlength, Nat.lt_succ_self i⟩
  | case3 i s _ s' hvisit hnext ih =>
      have hbyte := byteAt_visit s hi
      rw [hvisit] at hlength hbyte
      rw [hstop] at hbyte
      have hlt : i + 1 < stop := by
        refine lt_of_le_of_ne hi fun heq => hnext ?_
        rw [heq, hbyte]
      obtain ⟨hlen, hnext⟩ := ih hlt hbyte (length_visit s' (i + 1))
      exact ⟨hlen.trans hlength, by omega⟩
  | case4 i s hnot => exact absurd hi hnot

theorem getNextCommand_spec {buffer : List UInt8} {list next : ℕ} {s : CommandScan}
    (h : getNextCommand buffer list = some (s, next)) :
    s.buffer.length = buffer.length ∧ list < next ∧ list < buffer.length := by
  rw [getNextCommand] at h
  split at h
  case isTrue => cases h
  case isFalse hne =>
    have hpos := List.length_pos_of_ne_nil (mt strAt_eq_nil_iff.mp hne)
    have hstop : byteAt buffer (list + (strAt buffer list).length) = nul := by
      rw [byteAt_add le_rfl, List.getElem?_eq_none le_rfl]
      rfl
    have hspec := @scanCommand_spec list (list + (strAt buffer list).length) list ⟨buffer, .cmdAlias, false, none⟩
      (by omega) hstop
    rw [Option.some.inj h] at hspec
    exact ⟨hspec.1, hspec.2, lt_length_of_byteAt hne⟩

/-- The loop of `op_run_commands`: the commands that pass its test. -/
def remoteCommands (buffer : List UInt8) (list : ℕ) : List RemoteCommand :=
  match _h : getNextCommand buffer list with
  | none => []
  | some (s, next) => (s.remoteCommand? list).toList ++ remoteCommands s.buffer next
termination_by buffer.length - list
decreasing_by
  have hspec := getNextCommand_spec _h
  omega

/-- The calls of `run_remote_command` for a command, where `groupHosts` selects
the hosts of a group. -/
def RemoteCommand.calls (groupHosts : List UInt8 → List (List UInt8)) (r : RemoteCommand) :
    List (List UInt8 × List UInt8) :=
  if r.isGroup then (groupHosts r.aliasName).map fun host => (host, r.command) else [(r.aliasName, r.command)]

/-- `op_run_commands`: hosts and commands, in the order of the calls. -/
def opRunCommands (groupHosts : List UInt8 → List (List UInt8)) (cmdList : CString) : List (List UInt8 × List UInt8) :=
  (remoteCommands cmdList.val 0).flatMap (RemoteCommand.calls groupHosts)

/-! ## one scan -/

section Scan

variable {front rest behind : List UInt8} {list stop : ℕ} {isGroup : Bool} {command : Option ℕ}

theorem byteAt_front (front rest : List UInt8) : byteAt (front ++ rest) front.length = rest.headD nul := by
  rw [byteAt, List.getElem?_append_right le_rfl, Nat.sub_self]
  cases rest <;> rfl

theorem set_front (front rest : List UInt8) (c d : UInt8) :
    (front ++ c :: rest).set front.length d = front ++ d :: rest := by
  rw [List.set_append_right _ _ le_rfl, Nat.sub_self, List.set_cons_zero]

/-- The loop on a character that does not end it. -/
theorem scanCommand_step {s : CommandScan} {i : ℕ} (hi : i < stop) (hvisit : (s.visit i).2 = false)
    (hnext : byteAt (s.visit i).1.buffer (i + 1) ≠ nul) :
    scanCommand list stop i s = scanCommand list stop (i + 1) (s.visit i).1 := by
  rw [scanCommand, if_pos hi]
  split
  case h_1 s' hs => rw [hs] at hvisit; cases hvisit
  case h_2 s' hs => rw [hs] at hnext; rw [if_neg hnext, hs]

/-- The loop on the last character. -/
theorem scanCommand_last {s : CommandScan} {i : ℕ} (hi : i < stop) (hnext : byteAt (s.visit i).1.buffer (i + 1) = nul) :
    scanCommand list stop i s = ((s.visit i).1, i + 1) := by
  rw [scanCommand, if_pos hi]
  split
  case h_1 s' hs => rw [hs]
  case h_2 s' hs => rw [hs] at hnext ⊢; rw [if_pos hnext]

/-- The loop on the line break behind a command. -/
theorem scanCommand_newline {s : CommandScan} {i : ℕ} (hi : i < stop) (hvisit : (s.visit i).2 = true) :
    scanCommand list stop i s = ((s.visit i).1, i + 1) := by
  rw [scanCommand, if_pos hi]
  split
  case h_1 s' hs => rw [hs]
  case h_2 s' hs => rw [hs] at hvisit; cases hvisit

/-- `#` and `:` -/
def isSeparator (c : UInt8) : Bool := c == hash || c == colon

theorem visit_alias_of_not (h : isSeparator (rest.headD nul) = false) :
    CommandScan.visit ⟨front ++ rest, .cmdAlias, isGroup, command⟩ front.length =
      (⟨front ++ rest, .cmdAlias, isGroup, command⟩, false) := by
  rw [isSeparator, Bool.or_eq_false_iff, beq_eq_false_iff_ne, beq_eq_false_iff_ne] at h
  simp only [CommandScan.visit, byteAt_front]
  rw [if_neg h.1, if_neg h.2]

theorem visit_alias_separator {c : UInt8} (h : isSeparator c = true) :
    CommandScan.visit ⟨front ++ c :: rest, .cmdAlias, isGroup, command⟩ front.length =
      (⟨front ++ nul :: rest, .cmdRemCommand, c == hash, some (front.length + 1)⟩, false) := by
  simp only [CommandScan.visit, byteAt_front, List.headD_cons, set_front]
  by_cases hhash : c = hash
  · rw [if_pos hhash, hhash]; rfl
  · rw [isSeparator, beq_eq_false_iff_ne.mpr hhash, Bool.false_or] at h
    rw [if_neg hhash, if_pos (beq_iff_eq.mp h), beq_eq_false_iff_ne.mpr hhash]

/-- What becomes of a character of a command. -/
def cutCr (c : UInt8) : UInt8 := if c = cr then nul else c

theorem visit_remCommand {c : UInt8} (h : c ≠ newline) :
    CommandScan.visit ⟨front ++ c :: rest, .cmdRemCommand, isGroup, command⟩ front.length =
      (⟨front ++ cutCr c :: rest, .cmdRemCommand, isGroup, command⟩, false) := by
  simp only [CommandScan.visit, byteAt_front, List.headD_cons, set_front, cutCr]
  by_cases hcr : c = cr
  · rw [if_pos hcr, if_pos hcr]
  · rw [if_neg hcr, if_neg h, if_neg hcr]

theorem visit_newline :
    CommandScan.visit ⟨front ++ newline :: rest, .cmdRemCommand, isGroup, command⟩ front.length =
      (⟨front ++ nul :: rest, .cmdRemCommand, isGroup, command⟩, true) := by
  simp only [CommandScan.visit, byteAt_front, List.headD_cons, set_front]
  rfl

/-- What the next character is, seen from the one at `front.length`. -/
theorem byteAt_front_succ (front : List UInt8) (c : UInt8) (rest : List UInt8) :
    byteAt (front ++ c :: rest) (front.length + 1) = rest.headD nul := by
  have h := byteAt_front (front ++ [c]) rest
  rwa [List.append_assoc, List.length_append] at h

/-- The loop goes over the characters of a name, while more follow. -/
theorem scanCommand_name {a : List UInt8} (ha : ∀ c ∈ a, isSeparator c = false) (hnul : nul ∉ a)
    (hrest : rest.headD nul ≠ nul) (hstop : front.length + a.length ≤ stop) :
    scanCommand list stop front.length ⟨front ++ (a ++ rest), .cmdAlias, isGroup, command⟩ =
      scanCommand list stop (front.length + a.length) ⟨front ++ (a ++ rest), .cmdAlias, isGroup, command⟩ := by
  induction a generalizing front with
  | nil => rfl
  | cons c a ih =>
      have hnext : (a ++ rest).headD nul ≠ nul := by
        cases a with
        | nil => exact hrest
        | cons d a => exact fun h => hnul (h ▸ List.mem_cons_of_mem _ List.mem_cons_self)
      have hvisit := @visit_alias_of_not front (c :: (a ++ rest)) isGroup command (ha c List.mem_cons_self)
      rw [List.length_cons] at hstop ⊢
      have htail := @ih (front ++ [c]) (fun d hd => ha d (List.mem_cons_of_mem _ hd))
        (fun h => hnul (List.mem_cons_of_mem _ h)) (by rw [List.length_append, List.length_singleton]; omega)
      rw [List.cons_append, scanCommand_step (by omega) (by rw [hvisit])
        (by rw [hvisit]; exact (byteAt_front_succ front c _).trans_ne hnext), hvisit]
      simpa [Nat.add_assoc, Nat.add_comm 1] using htail

/-- The loop goes over the characters of a command, while more follow. -/
theorem scanCommand_command {l : List UInt8} (hl : newline ∉ l) (hnul : nul ∉ l)
    (hrest : rest.headD nul ≠ nul) (hstop : front.length + l.length ≤ stop) :
    scanCommand list stop front.length ⟨front ++ (l ++ rest), .cmdRemCommand, isGroup, command⟩ =
      scanCommand list stop (front.length + l.length)
        ⟨front ++ (l.map cutCr ++ rest), .cmdRemCommand, isGroup, command⟩ := by
  induction l generalizing front with
  | nil => rfl
  | cons c l ih =>
      have hnext : (l ++ rest).headD nul ≠ nul := by
        cases l with
        | nil => exact hrest
        | cons d l => exact fun h => hnul (h ▸ List.mem_cons_of_mem _ List.mem_cons_self)
      have hvisit := @visit_remCommand front (l ++ rest) isGroup command c fun h => hl (h ▸ List.mem_cons_self)
      rw [List.length_cons] at hstop ⊢
      have htail := @ih (front ++ [cutCr c]) (fun h => hl (List.mem_cons_of_mem _ h))
        (fun h => hnul (List.mem_cons_of_mem _ h)) (by rw [List.length_append, List.length_singleton]; omega)
      rw [List.cons_append, scanCommand_step (by omega) (by rw [hvisit])
        (by rw [hvisit]; exact (byteAt_front_succ front _ _).trans_ne hnext), hvisit]
      simpa [Nat.add_assoc, Nat.add_comm 1] using htail

/-- The loop on a text without separator gives no command, and takes all of it. -/
theorem scanCommand_no_separator {text : List UInt8} (hne : text ≠ []) (htext : ∀ c ∈ text, isSeparator c = false)
    (hnul : nul ∉ text) :
    scanCommand list (front.length + text.length) front.length ⟨front ++ text, .cmdAlias, isGroup, command⟩ =
      (⟨front ++ text, .cmdAlias, isGroup, command⟩, front.length + text.length) := by
  obtain ⟨a, c, rfl⟩ := List.eq_nil_or_concat' text |>.resolve_left hne
  have hlast : c ∈ a ++ [c] := List.mem_append_right _ (List.mem_singleton_self c)
  have hvisit := @visit_alias_of_not (front ++ a) [c] isGroup command (htext c hlast)
  rw [List.append_assoc, List.length_append] at hvisit
  have hnext := byteAt_front_succ (front ++ a) c []
  rw [List.append_assoc, List.length_append] at hnext
  have hne : ([c] : List UInt8).headD nul ≠ nul := fun h => hnul (h ▸ hlast)
  rw [scanCommand_name (fun d hd => htext d (List.mem_append_left _ hd)) (fun h => hnul (List.mem_append_left _ h))
    hne (by simp), scanCommand_last (by simp) (by rw [hvisit]; exact hnext), hvisit]
  simp [Nat.add_assoc]

/-- The loop goes on to the separator, and stops there at the end of the text. -/
theorem scanCommand_separator {a : List UInt8} {c : UInt8} (ha : ∀ c ∈ a, isSeparator c = false) (hnul : nul ∉ a)
    (hc : isSeparator c = true) (hstop : front.length + a.length < stop) :
    scanCommand list stop front.length ⟨front ++ (a ++ c :: rest), .cmdAlias, isGroup, command⟩ =
      let s : CommandScan :=
        ⟨front ++ (a ++ nul :: rest), .cmdRemCommand, c == hash, some (front.length + a.length + 1)⟩
      if rest.headD nul = nul then (s, front.length + a.length + 1)
      else scanCommand list stop (front.length + a.length + 1) s := by
  have hne : (c :: rest).headD nul ≠ nul := by
    rintro (rfl : c = nul)
    cases hc
  have hvisit := @visit_alias_separator (front ++ a) rest isGroup command c hc
  rw [List.append_assoc, List.append_assoc, List.length_append] at hvisit
  have hnext := byteAt_front_succ (front ++ a) nul rest
  rw [List.append_assoc, List.length_append] at hnext
  rw [scanCommand_name ha hnul hne hstop.le]
  split
  case isTrue hend => rw [scanCommand_last hstop (by rw [hvisit]; exact hnext.trans hend), hvisit]
  case isFalse hmore =>
    rw [scanCommand_step hstop (by rw [hvisit]) (by rw [hvisit]; exact hnext.trans_ne hmore), hvisit]

/-- On a line with a separator and a line break, the command is what stands
between them. -/
theorem scanCommand_line {a l : List UInt8} {c : UInt8} (ha : ∀ c ∈ a, isSeparator c = false) (hnula : nul ∉ a)
    (hc : isSeparator c = true) (hl : newline ∉ l) (hnull : nul ∉ l)
    (hstop : front.length + a.length + 1 + l.length < stop) :
    scanCommand list stop front.length ⟨front ++ (a ++ c :: (l ++ newline :: rest)), .cmdAlias, isGroup, command⟩ =
      (⟨front ++ (a ++ nul :: (l.map cutCr ++ nul :: rest)), .cmdRemCommand, c == hash,
        some (front.length + a.length + 1)⟩, front.length + a.length + 1 + l.length + 1) := by
  have hmore : (l ++ newline :: rest).headD nul ≠ nul := by
    cases l with
    | nil => exact (by decide : newline ≠ nul)
    | cons d l => exact fun h => hnull (h ▸ List.mem_cons_self)
  rw [scanCommand_separator ha hnula hc (by omega), if_neg hmore]
  have hbreak : (newline :: rest).headD nul ≠ nul := (by decide : newline ≠ nul)
  have hcommand := @scanCommand_command (front ++ (a ++ [nul])) (newline :: rest) list stop (c == Ascii.hash)
    (some (front.length + a.length + 1)) l hl hnull hbreak (by simp; omega)
  have hvisit := @visit_newline (front ++ (a ++ nul :: l.map cutCr)) rest (c == Ascii.hash)
    (some (front.length + a.length + 1))
  have hlen : (front ++ (a ++ nul :: l.map cutCr)).length = front.length + a.length + 1 + l.length := by
    simp only [List.length_append, List.length_cons, List.length_map]
    omega
  rw [hlen] at hvisit
  simp only [List.append_assoc, List.cons_append, List.nil_append, List.length_append, List.length_cons,
    List.length_nil, Nat.zero_add, ← Nat.add_assoc] at hcommand hvisit
  rw [hcommand, scanCommand_newline hstop (by rw [hvisit]), hvisit]

/-- On the last line the command is all that follows the separator. -/
theorem scanCommand_last_line {a l : List UInt8} {c : UInt8} (ha : ∀ c ∈ a, isSeparator c = false) (hnula : nul ∉ a)
    (hc : isSeparator c = true) (hl : newline ∉ l) (hnull : nul ∉ l) :
    scanCommand list (front.length + a.length + 1 + l.length) front.length
        ⟨front ++ (a ++ c :: l), .cmdAlias, isGroup, command⟩ =
      (⟨front ++ (a ++ nul :: l.map cutCr), .cmdRemCommand, c == hash, some (front.length + a.length + 1)⟩,
        front.length + a.length + 1 + l.length) := by
  rw [scanCommand_separator ha hnula hc (by omega)]
  rcases List.eq_nil_or_concat' l with rfl | ⟨l, d, rfl⟩
  · exact if_pos rfl
  · have hd : d ∈ l ++ [d] := List.mem_append_right _ (List.mem_singleton_self d)
    have hmore : (l ++ [d]).headD nul ≠ nul := by
      cases l with
      | nil => exact fun h => hnull (h ▸ hd)
      | cons e l => exact fun h => hnull (h ▸ List.mem_cons_self)
    have hlast : ([d] : List UInt8).headD nul ≠ nul := fun h => hnull (h ▸ hd)
    rw [if_neg hmore]
    have hcommand := @scanCommand_command (front ++ (a ++ [nul])) [d] list
      (front.length + a.length + 1 + (l ++ [d]).length) (c == Ascii.hash)
      (some (front.length + a.length + 1)) l (fun h => hl (List.mem_append_left _ h))
      (fun h => hnull (List.mem_append_left _ h)) hlast (by simp; omega)
    have hvisit := @visit_remCommand (front ++ (a ++ nul :: l.map cutCr)) [] (c == Ascii.hash)
      (some (front.length + a.length + 1)) d fun h => hl (h ▸ hd)
    have hnext := byteAt_front_succ (front ++ (a ++ nul :: l.map cutCr)) (cutCr d) []
    have hlen : (front ++ (a ++ nul :: l.map cutCr)).length = front.length + a.length + 1 + l.length := by
      simp only [List.length_append, List.length_cons, List.length_map]
      omega
    rw [hlen] at hvisit hnext
    simp only [List.append_assoc, List.cons_append, List.nil_append, List.length_append, List.length_cons,
      List.length_nil, Nat.zero_add, ← Nat.add_assoc, List.map_append, List.map_cons, List.map_nil] at hcommand hvisit hnext ⊢
    rw [hcommand, scanCommand_last (by omega) (by rw [hvisit]; exact hnext), hvisit]

end Scan

/-! ## the commands of a text -/

theorem strAt_front (front rest : List UInt8) : strAt (front ++ rest) front.length = rest.takeWhile (· ≠ 0) := by
  rw [strAt, List.drop_left]

theorem takeWhile_of_nul {a rest : List UInt8} (h : nul ∉ a) (hrest : rest.headD nul = nul) :
    (a ++ rest).takeWhile (· ≠ 0) = a := by
  have hall : ∀ c ∈ a, decide (c ≠ 0) = true := fun c hc => decide_eq_true (ne_of_mem_of_not_mem hc h)
  rw [List.takeWhile_append_of_pos hall]
  match rest, hrest with
  | [], _ => exact List.append_nil a
  | _ :: rest, rfl => exact List.append_nil a

/-- The string of a command ends where a CR has been. -/
theorem takeWhile_map_cutCr {l rest : List UInt8} (h : nul ∉ l) (hrest : rest.headD nul = nul) :
    (l.map cutCr ++ rest).takeWhile (· ≠ 0) = l.takeWhile (· ≠ cr) := by
  induction l with
  | nil => exact takeWhile_of_nul List.not_mem_nil hrest
  | cons c l ih =>
      rw [List.mem_cons, not_or] at h
      rw [List.map_cons, List.cons_append, List.takeWhile_cons, List.takeWhile_cons, ih h.2, cutCr]
      by_cases hcr : c = cr
      · rw [if_pos hcr, hcr]; rfl
      · rw [if_neg hcr, if_pos (decide_eq_true (Ne.symm h.1)), if_pos (decide_eq_true hcr)]

section Commands

variable {front a l rest : List UInt8} {c : UInt8}

theorem remoteCommands_nil (front : List UInt8) : remoteCommands front front.length = [] := by
  have hnul : byteAt front front.length = nul := by
    have h := byteAt_front front []
    rwa [List.append_nil] at h
  rw [remoteCommands.eq_def, getNextCommand, if_pos hnul]

/-- What a scan finds and leaves is what the loop goes on with. -/
theorem remoteCommands_eq {text : List UInt8} (hne : text ≠ []) (hnul : nul ∉ text) {s : CommandScan} {next : ℕ}
    (h : scanCommand front.length (front.length + text.length) front.length ⟨front ++ text, .cmdAlias, false, none⟩ =
      (s, next)) :
    remoteCommands (front ++ text) front.length =
      (s.remoteCommand? front.length).toList ++ remoteCommands s.buffer next := by
  have htext : text.headD nul ≠ nul := by
    cases text with
    | nil => exact absurd rfl hne
    | cons d text => exact fun h => hnul (h ▸ List.mem_cons_self)
  have hstr : strAt (front ++ text) front.length = text := by
    have htake := @takeWhile_of_nul text [] hnul rfl
    rwa [List.append_nil, ← strAt_front front] at htake
  have hget : getNextCommand (front ++ text) front.length = some (s, next) := by
    rw [getNextCommand, if_neg (by rwa [byteAt_front]), hstr, h]
  rw [remoteCommands.eq_def]
  split
  case h_1 hnone => cases hget.symm.trans hnone
  case h_2 s' next' hsome => cases hget.symm.trans hsome; rfl

/-- A text without separator is the name of no command. -/
theorem remoteCommands_name (ha : ∀ c ∈ a, isSeparator c = false) (hnul : nul ∉ a) :
    remoteCommands (front ++ a) front.length = [] := by
  by_cases hne : a = []
  · rw [hne, List.append_nil, remoteCommands_nil]
  · rw [remoteCommands_eq hne hnul (scanCommand_no_separator hne ha hnul), ← List.length_append, remoteCommands_nil]
    rfl

theorem remoteCommand?_eq (hnula : nul ∉ a) (hnull : nul ∉ l) (hrest : rest.headD nul = nul) (isGroup : Bool) :
    CommandScan.remoteCommand? ⟨front ++ (a ++ nul :: (l.map cutCr ++ rest)), .cmdRemCommand, isGroup,
        some (front.length + a.length + 1)⟩ front.length =
      RemoteCommand.of? a isGroup (l.takeWhile (· ≠ cr)) := by
  have hcommand := strAt_front (front ++ (a ++ [nul])) (l.map cutCr ++ rest)
  rw [takeWhile_map_cutCr hnull hrest] at hcommand
  simp only [List.append_assoc, List.cons_append, List.nil_append, List.length_append, List.length_cons,
    List.length_nil, Nat.zero_add, ← Nat.add_assoc] at hcommand
  have hname := strAt_front front (a ++ nul :: (l.map cutCr ++ rest))
  rw [takeWhile_of_nul hnula rfl] at hname
  exact congrArg₂ (fun x y => RemoteCommand.of? x isGroup y) hname hcommand

/-- The command of the last line. -/
theorem remoteCommands_last (ha : ∀ c ∈ a, isSeparator c = false) (hc : isSeparator c = true) (hl : newline ∉ l)
    (hnul : nul ∉ a ++ c :: l) :
    remoteCommands (front ++ (a ++ c :: l)) front.length =
      (RemoteCommand.of? a (c == Ascii.hash) (l.takeWhile (· ≠ cr))).toList := by
  have hnula : nul ∉ a := fun h => hnul (List.mem_append_left _ h)
  have hnull : nul ∉ l := fun h => hnul (List.mem_append_right _ (List.mem_cons_of_mem _ h))
  have hscan := @scanCommand_last_line front front.length false none a l c ha hnula hc hl hnull
  have hend : front.length + a.length + 1 + l.length = (front ++ (a ++ nul :: l.map cutCr)).length := by
    simp only [List.length_append, List.length_cons, List.length_map]
    omega
  have hcommand := @remoteCommand?_eq front a l [] hnula hnull rfl (c == Ascii.hash)
  rw [List.append_nil] at hcommand
  rw [remoteCommands_eq (by simp) hnul (by rw [← hscan]; simp [Nat.add_assoc, Nat.add_comm 1]), hcommand, hend,
    remoteCommands_nil, List.append_nil]

/-- The command of a line, and those of the text behind it. -/
theorem remoteCommands_line (ha : ∀ c ∈ a, isSeparator c = false) (hc : isSeparator c = true) (hl : newline ∉ l)
    (hnul : nul ∉ a ++ c :: (l ++ newline :: rest)) :
    ∃ front' : List UInt8, remoteCommands (front ++ (a ++ c :: (l ++ newline :: rest))) front.length =
      (RemoteCommand.of? a (c == Ascii.hash) (l.takeWhile (· ≠ cr))).toList ++
        remoteCommands (front' ++ rest) front'.length := by
  have hnula : nul ∉ a := fun h => hnul (List.mem_append_left _ h)
  have hnull : nul ∉ l := fun h =>
    hnul (List.mem_append_right _ (List.mem_cons_of_mem _ (List.mem_append_left _ h)))
  have hscan := @scanCommand_line front rest front.length
    (front.length + (a ++ c :: (l ++ newline :: rest)).length) false none a l c ha hnula hc hl hnull (by simp; omega)
  refine ⟨front ++ (a ++ nul :: (l.map cutCr ++ [nul])), ?_⟩
  have hend : front.length + a.length + 1 + l.length + 1 =
      (front ++ (a ++ nul :: (l.map cutCr ++ [nul]))).length := by
    simp only [List.length_append, List.length_cons, List.length_map, List.length_nil]
    omega
  rw [remoteCommands_eq (by simp) hnul hscan, remoteCommand?_eq hnula hnull rfl, hend]
  simp only [List.append_assoc, List.cons_append, List.nil_append]

end Commands

/-! ## the lines of a text -/

/-- A line, and whether a line break follows it. -/
structure CommandLine where
  chars : List UInt8
  ended : Bool

theorem length_lt_of_strchr {c : UInt8} {s a b : List UInt8} (h : strchr c s = some (a, b)) : b.length < s.length := by
  have hs := congrArg List.length (strchr_eq_some h)
  rw [List.length_append, List.length_cons] at hs
  dsimp only at hs
  omega

def textLines (text : List UInt8) : List CommandLine :=
  match _h : strchr newline text with
  | none => [⟨text, false⟩]
  | some (line, text') => ⟨line, true⟩ :: textLines text'
termination_by text.length
decreasing_by exact length_lt_of_strchr _h

/-- A CR in front of the line break belongs to it. -/
def stripCr (ended : Bool) (l : List UInt8) : List UInt8 :=
  if ended = true ∧ l.getLast? = some cr then l.dropLast else l

def CommandLine.content (line : CommandLine) : List UInt8 := stripCr line.ended line.chars

/-- The line at its first separator. -/
def CommandLine.parts? (line : CommandLine) : Option (List UInt8 × UInt8 × List UInt8) :=
  match line.content.dropWhile (!isSeparator ·) with
  | [] => none
  | c :: command => some (line.content.takeWhile (!isSeparator ·), c, command)

/-- What a line of the form `host:command` or `group#command` asks for. -/
def CommandLine.remoteCommand? (line : CommandLine) : Option RemoteCommand :=
  line.parts?.bind fun p => RemoteCommand.of? p.1 (p.2.1 == Ascii.hash) p.2.2

/-- `line` does not suffer from the one in front of it, because that has a
separator, or because it has no command itself. -/
def Separate (before line : CommandLine) : Prop :=
  before.parts? = none → ∀ p ∈ line.parts?, p.2.2.takeWhile (· ≠ cr) = []

theorem takeWhile_stripCr (ended : Bool) (l : List UInt8) :
    (stripCr ended l).takeWhile (· ≠ cr) = l.takeWhile (· ≠ cr) := by
  rw [stripCr]
  split
  case isFalse => rfl
  case isTrue h =>
    obtain ⟨l', rfl⟩ := List.getLast?_eq_some_iff.mp h.2
    rw [List.dropLast_concat, List.takeWhile_append]
    split
    · next hlen =>
        have hself := (List.takeWhile_sublist (p := (decide <| · ≠ cr))).eq_of_length hlen
        exact hself.trans (List.append_nil l').symm
    · rfl

theorem stripCr_append {ended : Bool} {a l : List UInt8} {c : UInt8} (hc : c ≠ cr) :
    stripCr ended (a ++ c :: l) = a ++ c :: stripCr ended l := by
  rw [stripCr, stripCr]
  rcases List.eq_nil_or_concat' l with rfl | ⟨l, d, rfl⟩
  · simp [hc]
  · have hlast : (a ++ c :: (l ++ [d])).getLast? = (l ++ [d]).getLast? := by
      rw [← List.cons_append, ← List.append_assoc, List.getLast?_concat, List.getLast?_concat]
    rw [hlast]
    split
    · rw [← List.cons_append, ← List.append_assoc, List.dropLast_concat, List.dropLast_concat]
    · rfl

theorem parts?_of_separator {ended : Bool} {a l : List UInt8} {c : UInt8} (ha : ∀ c ∈ a, isSeparator c = false)
    (hc : isSeparator c = true) : CommandLine.parts? ⟨a ++ c :: l, ended⟩ = some (a, c, stripCr ended l) := by
  have hne : c ≠ cr := by
    rintro rfl
    cases hc
  have hall : ∀ d ∈ a, (!isSeparator d) = true := fun d hd => by rw [ha d hd]; rfl
  rw [CommandLine.parts?, CommandLine.content, stripCr_append hne, List.dropWhile_append_of_pos hall,
    List.takeWhile_append_of_pos hall, List.dropWhile_cons_of_neg (by rw [hc]; decide),
    List.takeWhile_cons_of_neg (by rw [hc]; decide), List.append_nil]

theorem parts?_of_name {ended : Bool} {a : List UInt8} (ha : ∀ c ∈ a, isSeparator c = false) :
    CommandLine.parts? ⟨a, ended⟩ = none := by
  have hmem : ∀ c ∈ stripCr ended a, (!isSeparator c) = true := by
    intro c hc
    rw [stripCr] at hc
    split at hc
    · rw [ha c (List.mem_of_mem_dropLast hc)]; rfl
    · rw [ha c hc]; rfl
  rw [CommandLine.parts?, CommandLine.content, List.dropWhile_eq_nil_iff.mpr hmem]

/-! ## the lists that are read line by line -/

theorem RemoteCommand.of?_eq_some {a k : List UInt8} {isGroup : Bool} {r : RemoteCommand} :
    of? a isGroup k = some r ↔ (a ≠ [] ∧ k ≠ []) ∧ ⟨a, isGroup, k⟩ = r := by
  rw [of?]
  split
  case isTrue h => rw [Option.some_inj, and_iff_right h]
  case isFalse h => exact ⟨nofun, fun h' => absurd h'.1 h⟩

theorem RemoteCommand.of?_eq_none {a k : List UInt8} {isGroup : Bool} : of? a isGroup k = none ↔ a = [] ∨ k = [] := by
  rw [of?]
  split
  case isTrue h => exact ⟨nofun, fun h' => absurd h' (not_or.mpr h)⟩
  case isFalse h => exact ⟨fun _ => by rwa [← not_ne_iff, ← not_ne_iff (b := []), ← not_and_or], fun _ => rfl⟩

theorem name_or_separator (text : List UInt8) :
    (∀ c ∈ text, isSeparator c = false) ∨
      ∃ a c l, text = a ++ c :: l ∧ (∀ c ∈ a, isSeparator c = false) ∧ isSeparator c = true := by
  induction text with
  | nil => exact .inl (List.forall_mem_nil _)
  | cons d text ih =>
      by_cases hd : isSeparator d = true
      · exact .inr ⟨[], d, text, rfl, List.forall_mem_nil _, hd⟩
      · rw [Bool.not_eq_true] at hd
        rcases ih with hname | ⟨a, c, l, rfl, ha, hc⟩
        · exact .inl (List.forall_mem_cons.mpr ⟨hd, hname⟩)
        · exact .inr ⟨d :: a, c, l, rfl, List.forall_mem_cons.mpr ⟨hd, ha⟩, hc⟩

theorem cr_not_mem_takeWhile (k : List UInt8) : cr ∉ k.takeWhile (· ≠ cr) := fun h => by
  have := List.mem_takeWhile_imp h
  simp at this

/-- What is run never has a CR. -/
theorem cr_not_mem_of_mem_remoteCommands (front text : List UInt8) (hnul : nul ∉ text) :
    ∀ r ∈ remoteCommands (front ++ text) front.length, cr ∉ r.command := by
  have hof : ∀ {a k : List UInt8} {isGroup : Bool}, ∀ r ∈ (RemoteCommand.of? a isGroup (k.takeWhile (· ≠ cr))).toList,
      cr ∉ r.command := by
    intro a k isGroup r hr
    obtain ⟨-, rfl⟩ := RemoteCommand.of?_eq_some.mp (Option.mem_toList.mp hr)
    exact cr_not_mem_takeWhile k
  rcases name_or_separator text with hname | ⟨a, c, l, rfl, ha, hc⟩
  · rw [remoteCommands_name hname hnul]
    exact List.forall_mem_nil _
  · match h : strchr newline l with
    | none =>
        rw [remoteCommands_last ha hc (strchr_eq_none_iff.mp h) hnul]
        exact hof
    | some (line, rest) =>
        have hlt := length_lt_of_strchr h
        obtain rfl := strchr_eq_some h
        obtain ⟨front', hfront⟩ := @remoteCommands_line front a line rest c ha hc (not_mem_of_strchr h) hnul
        rw [hfront]
        have hrest : nul ∉ rest := fun hmem => hnul (by simp [hmem])
        exact List.forall_mem_append.mpr ⟨hof, cr_not_mem_of_mem_remoteCommands front' rest hrest⟩
termination_by text.length
decreasing_by
  subst_vars
  simp only [List.length_append, List.length_cons] at hlt ⊢
  omega

/-- No line has a line break in its name. -/
theorem newline_not_mem_of_mem_textLines (text : List UInt8) :
    ∀ r ∈ (textLines text).filterMap CommandLine.remoteCommand?, newline ∉ r.aliasName := by
  have hline : ∀ {line : List UInt8} {ended : Bool}, newline ∉ line →
      ∀ r, CommandLine.remoteCommand? ⟨line, ended⟩ = some r → newline ∉ r.aliasName := by
    intro line ended hnot r hr
    rw [CommandLine.remoteCommand?] at hr
    rcases name_or_separator line with hname | ⟨a, c, l, rfl, ha, hc⟩
    · rw [parts?_of_name hname] at hr
      cases hr
    · rw [parts?_of_separator ha hc] at hr
      obtain ⟨-, rfl⟩ := RemoteCommand.of?_eq_some.mp hr
      exact fun h => hnot (List.mem_append_left _ h)
  fun_induction textLines text with
  | case1 text h =>
      intro r hr
      obtain ⟨line, hmem, hr⟩ := List.mem_filterMap.mp hr
      rw [List.mem_singleton.mp hmem] at hr
      exact hline (strchr_eq_none_iff.mp h) r hr
  | case2 text line text' h ih =>
      intro r hr
      obtain ⟨line', hmem, hr⟩ := List.mem_filterMap.mp hr
      rcases List.mem_cons.mp hmem with rfl | hmem
      · exact hline (not_mem_of_strchr h) r hr
      · exact ih r (List.mem_filterMap.mpr ⟨line', hmem, hr⟩)

/-- What `carry` in front of a name and the cut of the command change. -/
theorem of?_eq_of?_iff {carry a k : List UInt8} {isGroup : Bool} :
    RemoteCommand.of? (carry ++ a) isGroup (k.takeWhile (· ≠ cr)) = RemoteCommand.of? a isGroup k ↔
      (carry ≠ [] → k.takeWhile (· ≠ cr) = []) ∧ ∀ r ∈ RemoteCommand.of? a isGroup k, cr ∉ r.command := by
  constructor
  · intro heq
    refine ⟨fun hcarry => ?_, fun r hr => ?_⟩
    · by_contra hne
      have hname : carry ++ a ≠ [] := fun h => hcarry (List.append_eq_nil_iff.mp h).1
      have hx := (@RemoteCommand.of?_eq_some _ _ isGroup _).mpr ⟨⟨hname, hne⟩, rfl⟩
      obtain ⟨-, hy⟩ := RemoteCommand.of?_eq_some.mp (heq.symm.trans hx)
      exact hcarry (List.self_eq_append_left.mp (congrArg RemoteCommand.aliasName hy))
    · obtain ⟨-, rfl⟩ := RemoteCommand.of?_eq_some.mp (heq.trans hr)
      exact cr_not_mem_takeWhile k
  · rintro ⟨hcarry, hcr⟩
    cases hy : RemoteCommand.of? a isGroup k with
    | none =>
        refine RemoteCommand.of?_eq_none.mpr ?_
        rcases RemoteCommand.of?_eq_none.mp hy with rfl | rfl
        · by_cases hnil : carry = []
          · exact .inl (by rw [hnil]; rfl)
          · exact .inr (hcarry hnil)
        · exact .inr rfl
    | some r =>
        obtain ⟨⟨ha, hk⟩, rfl⟩ := RemoteCommand.of?_eq_some.mp hy
        have hself : k.takeWhile (· ≠ cr) = k :=
          List.takeWhile_eq_self_iff.mpr fun c hc => decide_eq_true (ne_of_mem_of_not_mem hc (hcr _ hy))
        rw [hself] at hcarry ⊢
        have hnil : carry = [] := by_contra fun hne => hk (hcarry hne)
        rw [hnil]
        exact hy

/-- A command in front of the rests of the two lists. -/
theorem command_append_eq_iff {carry a k : List UInt8} {isGroup : Bool} {u v : List RemoteCommand}
    (hline : carry = [] ∨ newline ∈ carry) (hu : ∀ r ∈ u, cr ∉ r.command) (hv : ∀ r ∈ v, newline ∉ r.aliasName) :
    (RemoteCommand.of? (carry ++ a) isGroup (k.takeWhile (· ≠ cr))).toList ++ u =
        (RemoteCommand.of? a isGroup k).toList ++ v ↔
      ((carry ≠ [] → k.takeWhile (· ≠ cr) = []) ∧ ∀ r ∈ RemoteCommand.of? a isGroup k, cr ∉ r.command) ∧ u = v := by
  rw [← of?_eq_of?_iff]
  refine ⟨fun heq => ?_, fun ⟨hxy, huv⟩ => by rw [hxy, huv]⟩
  cases hx : RemoteCommand.of? (carry ++ a) isGroup (k.takeWhile (· ≠ cr)) with
  | none =>
      cases hy : RemoteCommand.of? a isGroup k with
      | none =>
          rw [hx, hy] at heq
          exact ⟨rfl, heq⟩
      | some r =>
          -- the line's command begins with a CR, and is none of those that are run
          rw [hx, hy] at heq
          obtain ⟨⟨ha, hk⟩, rfl⟩ := RemoteCommand.of?_eq_some.mp hy
          have hcut : k.takeWhile (· ≠ cr) = [] :=
            (RemoteCommand.of?_eq_none.mp hx).resolve_left fun h => ha (List.append_eq_nil_iff.mp h).2
          have hcons : u = ⟨a, isGroup, k⟩ :: v := heq
          have hmem : (⟨a, isGroup, k⟩ : RemoteCommand) ∈ u := hcons ▸ List.mem_cons_self
          have hself := List.takeWhile_eq_self_iff.mpr fun c hc =>
            decide_eq_true (ne_of_mem_of_not_mem hc (hu _ hmem))
          exact absurd (hself.symm.trans hcut) hk
  | some r =>
      cases hy : RemoteCommand.of? a isGroup k with
      | none =>
          -- what is run has the line break of `carry` in its name
          rw [hx, hy] at heq
          obtain ⟨⟨-, hcut⟩, rfl⟩ := RemoteCommand.of?_eq_some.mp hx
          have hcons : ⟨carry ++ a, isGroup, k.takeWhile (· ≠ cr)⟩ :: u = v := heq
          have hmem : (⟨carry ++ a, isGroup, k.takeWhile (· ≠ cr)⟩ : RemoteCommand) ∈ v :=
            hcons ▸ List.mem_cons_self
          rcases hline with rfl | hbreak
          · rcases RemoteCommand.of?_eq_none.mp hy with rfl | rfl
            · exact absurd hx (by simp [RemoteCommand.of?])
            · exact absurd rfl hcut
          · exact absurd (List.mem_append_left _ hbreak) (hv _ hmem)
      | some r' =>
          rw [hx, hy] at heq
          obtain ⟨hhead, htail⟩ := List.cons_eq_cons.mp heq
          exact ⟨congrArg some hhead, htail⟩

/-- The lines in front of `text` that have no separator. -/
def blankLines (carry : List UInt8) : List CommandLine := if carry = [] then [] else [⟨[], true⟩]

theorem isChain_blankLines_iff {carry : List UInt8} {line : CommandLine} {lines : List CommandLine} :
    (blankLines carry ++ line :: lines).IsChain Separate ↔
      (carry ≠ [] → ∀ p ∈ line.parts?, p.2.2.takeWhile (· ≠ cr) = []) ∧ (line :: lines).IsChain Separate := by
  rw [blankLines]
  split
  case isTrue hnil => exact ⟨fun h => ⟨fun hne => absurd hnil hne, h⟩, And.right⟩
  case isFalse hne =>
    rw [List.singleton_append, List.isChain_cons_cons]
    have hblank : Separate ⟨[], true⟩ line ↔ ∀ p ∈ line.parts?, p.2.2.takeWhile (· ≠ cr) = [] :=
      imp_iff_right (by decide)
    exact and_congr_left fun _ => hblank.trans (imp_iff_right hne).symm

/-- A line with a separator does no harm to those behind it. -/
theorem isChain_cons_of_parts? {line : CommandLine} {lines : List CommandLine} (h : line.parts? ≠ none) :
    (line :: lines).IsChain Separate ↔ lines.IsChain Separate := by
  cases lines with
  | nil => exact iff_of_true (.singleton _) .nil
  | cons line' lines =>
      rw [List.isChain_cons_cons]
      exact and_iff_right fun hnone => absurd hnone h

/-- A line without separator counts as one that is blank. -/
theorem isChain_cons_of_name {carry : List UInt8} {line : CommandLine} {lines : List CommandLine}
    (h : line.parts? = none) (hne : carry ≠ []) :
    (line :: lines).IsChain Separate ↔ (blankLines carry ++ lines).IsChain Separate := by
  cases lines with
  | nil =>
      rw [blankLines, if_neg hne]
      exact iff_of_true (.singleton _) (.singleton _)
  | cons line' lines =>
      rw [isChain_blankLines_iff, List.isChain_cons_cons]
      exact and_congr_left fun _ => (imp_iff_right h).trans (imp_iff_right hne).symm

/-- A line with a separator in front of lines that are settled. -/
theorem line_eq_iff {carry a l : List UInt8} {c : UInt8} {ended : Bool} {lines : List CommandLine}
    {u : List RemoteCommand} (ha : ∀ c ∈ a, isSeparator c = false) (hc : isSeparator c = true)
    (hline : carry = [] ∨ newline ∈ carry) (hu : ∀ r ∈ u, cr ∉ r.command)
    (hv : ∀ r ∈ lines.filterMap CommandLine.remoteCommand?, newline ∉ r.aliasName)
    (hrest : u = lines.filterMap CommandLine.remoteCommand? ↔
      lines.IsChain Separate ∧ ∀ line ∈ lines, ∀ r ∈ line.remoteCommand?, cr ∉ r.command) :
    (RemoteCommand.of? (carry ++ a) (c == Ascii.hash) (l.takeWhile (· ≠ cr))).toList ++ u =
        (⟨a ++ c :: l, ended⟩ :: lines).filterMap CommandLine.remoteCommand? ↔
      (blankLines carry ++ ⟨a ++ c :: l, ended⟩ :: lines).IsChain Separate ∧
        ∀ line ∈ CommandLine.mk (a ++ c :: l) ended :: lines, ∀ r ∈ line.remoteCommand?, cr ∉ r.command := by
  have hsome := @parts?_of_separator ended a l c ha hc
  have hcommand : CommandLine.remoteCommand? ⟨a ++ c :: l, ended⟩ =
      RemoteCommand.of? a (c == Ascii.hash) (stripCr ended l) := by
    rw [CommandLine.remoteCommand?, hsome]
    rfl
  have hcons : (⟨a ++ c :: l, ended⟩ :: lines).filterMap CommandLine.remoteCommand? =
      (RemoteCommand.of? a (c == Ascii.hash) (stripCr ended l)).toList ++
        lines.filterMap CommandLine.remoteCommand? := by
    rw [List.filterMap_cons, hcommand]
    cases RemoteCommand.of? a (c == Ascii.hash) (stripCr ended l) <;> rfl
  have hpart : (∀ p ∈ CommandLine.parts? ⟨a ++ c :: l, ended⟩, p.2.2.takeWhile (· ≠ cr) = []) ↔
      (stripCr ended l).takeWhile (· ≠ cr) = [] := by
    rw [hsome]
    exact ⟨fun h => h _ rfl, fun h p hp => Option.some.inj hp ▸ h⟩
  rw [hcons, ← takeWhile_stripCr ended l, command_append_eq_iff hline hu hv, hrest, isChain_blankLines_iff, hpart,
    isChain_cons_of_parts? (by rw [hsome]; exact Option.some_ne_none _), List.forall_mem_cons, hcommand]
  tauto

/-- The scanner on what the lines have left behind, and the lines that follow. -/
theorem remoteCommands_eq_iff_of_carry {front carry text : List UInt8} (hnul : nul ∉ carry ++ text)
    (hcarry : ∀ c ∈ carry, isSeparator c = false) (hline : carry = [] ∨ newline ∈ carry) :
    remoteCommands (front ++ (carry ++ text)) front.length = (textLines text).filterMap CommandLine.remoteCommand? ↔
      (blankLines carry ++ textLines text).IsChain Separate ∧
        ∀ line ∈ textLines text, ∀ r ∈ line.remoteCommand?, cr ∉ r.command := by
  fun_induction textLines text generalizing front carry with
  | case1 text h =>
      rcases name_or_separator text with hname | ⟨a, c, l, rfl, ha, hc⟩
      · have hnone := @parts?_of_name false text hname
        have hnot : CommandLine.remoteCommand? ⟨text, false⟩ = none := by
          rw [CommandLine.remoteCommand?, hnone]
          rfl
        rw [remoteCommands_name (List.forall_mem_append.mpr ⟨hcarry, hname⟩) hnul, List.filterMap_cons_none hnot,
          isChain_blankLines_iff, List.forall_mem_singleton, hnone, hnot]
        exact iff_of_true rfl ⟨⟨fun _ _ h => (nomatch h), .singleton _⟩, fun _ h => (nomatch h)⟩
      · have hl : newline ∉ l := fun hmem =>
          strchr_eq_none_iff.mp h (List.mem_append_right _ (List.mem_cons_of_mem _ hmem))
        have hsplit : carry ++ (a ++ c :: l) = (carry ++ a) ++ c :: l := (List.append_assoc ..).symm
        rw [hsplit] at hnul ⊢
        rw [remoteCommands_last (List.forall_mem_append.mpr ⟨hcarry, ha⟩) hc hl hnul, ← List.append_nil (Option.toList _)]
        exact line_eq_iff ha hc hline (List.forall_mem_nil _) (List.forall_mem_nil _)
          (iff_of_true rfl ⟨.nil, List.forall_mem_nil _⟩)
  | case2 text line text' h ih =>
      obtain rfl := strchr_eq_some h
      have hnot := not_mem_of_strchr h
      rcases name_or_separator line with hname | ⟨a, c, l, rfl, ha, hc⟩
      · -- the line goes into the name that follows
        have hnone := @parts?_of_name true line hname
        have hcommand : CommandLine.remoteCommand? ⟨line, true⟩ = none := by
          rw [CommandLine.remoteCommand?, hnone]
          rfl
        have hcarry' : ∀ c ∈ carry ++ (line ++ [newline]), isSeparator c = false :=
          List.forall_mem_append.mpr ⟨hcarry, List.forall_mem_append.mpr ⟨hname, by decide⟩⟩
        have hne : carry ++ (line ++ [newline]) ≠ [] := by simp
        have hsplit : carry ++ (line ++ newline :: text') = carry ++ (line ++ [newline]) ++ text' := by simp
        rw [hsplit] at hnul ⊢
        rw [List.filterMap_cons_none hcommand, ih hnul hcarry' (.inr (by simp)), List.forall_mem_cons, hcommand,
          isChain_blankLines_iff, hnone, isChain_cons_of_name hnone hne]
        simp
      · have hl : newline ∉ l := fun hmem => hnot (List.mem_append_right _ (List.mem_cons_of_mem _ hmem))
        have hsplit : carry ++ (a ++ c :: l ++ newline :: text') = (carry ++ a) ++ c :: (l ++ newline :: text') := by simp
        rw [hsplit] at hnul ⊢
        have hrest : nul ∉ text' := fun hmem => hnul (by simp [hmem])
        obtain ⟨front', hfront⟩ := @remoteCommands_line front (carry ++ a) l text' c
          (List.forall_mem_append.mpr ⟨hcarry, ha⟩) hc hl hnul
        rw [hfront]
        exact line_eq_iff ha hc hline (cr_not_mem_of_mem_remoteCommands front' text' hrest)
          (newline_not_mem_of_mem_textLines text') (@ih front' [] hrest (List.forall_mem_nil _) (.inl rfl))

/-- The commands that are run are those of the lines exactly when no line with a
command stands behind one without separator, and no command has a CR in it. -/
theorem remoteCommands_eq_iff (cmdList : CString) :
    remoteCommands cmdList.val 0 = (textLines cmdList.val).filterMap CommandLine.remoteCommand? ↔
      (textLines cmdList.val).IsChain Separate ∧
        ∀ line ∈ textLines cmdList.val, ∀ r ∈ line.remoteCommand?, cr ∉ r.command :=
  @remoteCommands_eq_iff_of_carry [] [] cmdList.val cmdList.property (List.forall_mem_nil _) (.inl rfl)

/-- A blank line in front: the command goes to a host whose name begins with a
line break. -/
theorem not_remoteCommands_blank_line :
    ¬∀ cmdList : CString, remoteCommands cmdList.val 0 =
      (textLines cmdList.val).filterMap CommandLine.remoteCommand? := by
  intro h
  have hrun := @remoteCommands_last [] (newline :: bytes "web") (bytes "ls") colon (by decide) (by decide) (by decide)
    (by decide)
  have hmem : (⟨newline :: bytes "web", false, bytes "ls"⟩ : RemoteCommand) ∈
      remoteCommands (newline :: bytes "web:ls") 0 := by
    change _ ∈ remoteCommands ([] ++ (newline :: bytes "web" ++ colon :: bytes "ls")) ([] : List UInt8).length
    rw [hrun]
    decide
  rw [h ⟨newline :: bytes "web:ls", by decide⟩] at hmem
  exact newline_not_mem_of_mem_textLines _ _ hmem List.mem_cons_self

/-- When the lines are read as they are, the hosts get the commands of the lines. -/
theorem opRunCommands_eq {cmdList : CString} (groupHosts : List UInt8 → List (List UInt8))
    (hseparate : (textLines cmdList.val).IsChain Separate)
    (hcr : ∀ line ∈ textLines cmdList.val, ∀ r ∈ line.remoteCommand?, cr ∉ r.command) :
    opRunCommands groupHosts cmdList = ((textLines cmdList.val).filterMap CommandLine.remoteCommand?).flatMap
      (RemoteCommand.calls groupHosts) :=
  congrArg (List.flatMap (RemoteCommand.calls groupHosts)) ((@remoteCommands_eq_iff_of_carry [] [] cmdList.val
    cmdList.property (List.forall_mem_nil _) (.inl rfl)).mpr ⟨hseparate, hcr⟩)

end Zabbix
