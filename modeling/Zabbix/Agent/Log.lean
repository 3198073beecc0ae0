import Zabbix.Json.Parser
import Zabbix.Lib.Run
import Mathlib.Data.List.DropRight

/-!
# Zabbix.Agent.Log

How the active checks follow a log file: `process_log` of `zabbix_agent/logfiles.c`,
and the loop of `process_active_checks` (`zabbix_agent/active.c`) that carries the
offset from one call to the next.

`fgets` ends at a newline, but also where the file happens to end.  A value is a line
as long as every call finds nothing or a whole line behind the offset, and only so
long (`log_lines_once_iff`).
-/

namespace Zabbix

open Ascii

/-! ## reading a line -/

/-- `MAX_BUF_LEN` -/
def maxBufLen : ℕ := 65536

/-- `fgets`, with room for so many bytes. -/
def fgets : (s : List UInt8) → (room : ℕ) → List UInt8
  | [], _ => []
  | c :: s, room => if room = 0 then [] else if c = newline then [c] else c :: fgets s (room - 1)

/-- How far a call gets with the file: the function that fails. -/
inductive LogAccess
  | ok
  | stat
  | fopen
  | fseek
deriving DecidableEq, Repr

/-- `process_log`: whether it succeeds, the offset, and the value, which is NULL at the end
of the file. -/
def processLog (access : LogAccess) (file : List UInt8) (lastlogsize : ℕ) : Bool × ℕ × Option (List UInt8) :=
  if access = .stat then (false, lastlogsize, none)
  else
    let lastlogsize := if file.length < lastlogsize then 0 else lastlogsize
    if access ≠ .ok then (false, lastlogsize, none)
    else
      match fgets (file.drop lastlogsize) (maxBufLen - 1) with
      | [] => (true, lastlogsize, none)
      | c :: s => (true, lastlogsize + (c :: s).length, some (zbxRtrim (cstr (c :: s)) [cr, newline]))

/-! ## following a file -/

/-- The file, and the active check that follows it: its offset and whether its status is
active; the values that calls have returned, whose offsets have been carried on; and the
size of the file when a call last found its end. -/
structure LogWorld where
  file : List UInt8
  lastlogsize : ℕ
  active : Bool
  values : List (List UInt8)
  ended : ℕ
deriving DecidableEq

/-- Bytes are appended to the file, or `process_log` is called.  The offset is carried on
when the value has been sent, or need not be. -/
inductive LogEvent
  | append (chunk : List UInt8)
  | call (access : LogAccess) (carried : Bool)
deriving DecidableEq

/-- A call in the loop of `process_active_checks`. -/
def LogWorld.call (w : LogWorld) (access : LogAccess) (carried : Bool) : LogWorld :=
  if w.active then
    match processLog access w.file w.lastlogsize with
    | (false, _, _) => { w with active := false }
    | (true, lastlogsize, none) => { w with lastlogsize := lastlogsize, ended := w.file.length }
    | (true, lastlogsize, some value) =>
        if carried then { w with lastlogsize := lastlogsize, values := w.values ++ [value] } else w
  else w

/-- One step. -/
def LogWorld.step (w : LogWorld) : LogEvent → LogWorld
  | .append chunk => { w with file := w.file ++ chunk }
  | .call access carried => w.call access carried

/-! ## lines -/

/-- Lines, each with its newline. -/
def unlines (lines : List (List UInt8)) : List UInt8 := lines.flatMap (· ++ [newline])

@[simp] theorem unlines_nil : unlines [] = [] := rfl

theorem unlines_cons (line : List UInt8) (lines : List (List UInt8)) :
    unlines (line :: lines) = line ++ newline :: unlines lines := by
  simp [unlines]

theorem unlines_append (lines lines' : List (List UInt8)) :
    unlines (lines ++ lines') = unlines lines ++ unlines lines' :=
  List.flatMap_append

/-- A line without the carriage returns at its end. -/
def lineText (line : List UInt8) : List UInt8 := line.rdropWhile (· = cr)

/-- What has been reported: the file up to the offset is whole lines, and the values are
these, in order; nothing is left of what was there when the end was found. -/
def LogWorld.Reported (w : LogWorld) : Prop :=
  ∃ lines, (∀ line ∈ lines, newline ∉ line) ∧ w.file.take w.lastlogsize = unlines lines ∧
    w.values = lines.map lineText ∧ w.lastlogsize ≤ w.file.length ∧ w.ended ≤ w.lastlogsize

/-- Nothing, or a whole line, which is a string and fits in the buffer. -/
def LineReady (unread : List UInt8) : Prop :=
  unread = [] ∨ ∃ line rest, unread = line ++ newline :: rest ∧ newline ∉ line ∧ (0 : UInt8) ∉ line ∧
    line.length + 1 < maxBufLen

/-- A call finds nothing or a whole line behind the offset. -/
def LogWorld.CallReady (w : LogWorld) : LogEvent → Prop
  | .append _ => True
  | .call access carried =>
      w.active = true → access = .ok → carried = true → LineReady (w.file.drop w.lastlogsize)

/-! ## what a call returns -/

theorem fgets_prefix (s : List UInt8) (room : ℕ) : fgets s room <+: s := by
  induction s generalizing room with
  | nil => exact List.prefix_rfl
  | cons c s ih =>
      rw [fgets]
      split
      · exact List.nil_prefix
      · split
        · exact ⟨s, rfl⟩
        · exact (List.prefix_cons_inj c).mpr (ih (room - 1))

theorem length_fgets_le (s : List UInt8) (room : ℕ) : (fgets s room).length ≤ room := by
  induction s generalizing room with
  | nil => exact Nat.zero_le _
  | cons c s ih =>
      rw [fgets]
      split
      · exact Nat.zero_le _
      · split
        · rw [List.length_singleton]
          omega
        · have := ih (room - 1)
          rw [List.length_cons]
          omega

/-- With room, nothing is read only at the end. -/
theorem fgets_eq_nil {s : List UInt8} {room : ℕ} (hroom : room ≠ 0) : fgets s room = [] ↔ s = [] := by
  cases s with
  | nil => simp [fgets]
  | cons c s =>
      rw [fgets, if_neg hroom]
      split <;> simp

/-- A line that fits is read, with its newline. -/
theorem fgets_line {line : List UInt8} (h : newline ∉ line) {room : ℕ} (hroom : line.length < room)
    (rest : List UInt8) : fgets (line ++ newline :: rest) room = line ++ [newline] := by
  induction line generalizing room with
  | nil =>
      rw [List.nil_append, fgets, if_neg (by omega), if_pos rfl]
      rfl
  | cons c line ih =>
      rw [List.mem_cons, not_or] at h
      rw [List.length_cons] at hroom
      rw [List.cons_append, fgets, if_neg (by omega), if_neg (Ne.symm h.1), ih h.2 (by omega)]
      rfl

theorem rdropWhile_eq_of_forall {α : Type} {p q : α → Bool} {l : List α} (h : ∀ a ∈ l, p a = q a) :
    l.rdropWhile p = l.rdropWhile q := by
  induction l using List.reverseRecOn with
  | nil => rfl
  | append_singleton l a ih =>
      have hl := ih fun b hb => h b (List.mem_append_left _ hb)
      rw [List.rdropWhile_concat, List.rdropWhile_concat, h a (by simp), hl]

/-- The value for a line that is a string is its text. -/
theorem zbxRtrim_line {line : List UInt8} (h : newline ∉ line) (h0 : (0 : UInt8) ∉ line) :
    zbxRtrim (cstr (line ++ [newline])) [cr, newline] = lineText line := by
  have hcstr : cstr (line ++ [newline]) = line ++ [newline] := by
    refine List.takeWhile_eq_self_iff.mpr fun c hc => decide_eq_true ?_
    rcases List.mem_append.mp hc with hc | hc
    · exact ne_of_mem_of_not_mem hc h0
    · rw [List.mem_singleton.mp hc]
      decide
  rw [hcstr, zbxRtrim, List.rdropWhile_concat_pos _ _ _ (by decide), lineText]
  refine rdropWhile_eq_of_forall fun c hc => ?_
  have hne : c ≠ newline := ne_of_mem_of_not_mem hc h
  simp [hne]

/-- A value has no NUL, so that it is the text only of a line without one. -/
theorem not_mem_of_zbxRtrim {line : List UInt8} {s : List UInt8} {charlist : List UInt8}
    (h : zbxRtrim (cstr s) charlist = lineText line) : (0 : UInt8) ∉ line := by
  intro hmem
  have htext : (0 : UInt8) ∈ lineText line := by
    have hsplit : (0 : UInt8) ∈ lineText line ++ line.rtakeWhile (· = cr) := by
      rw [lineText, List.rdropWhile_append_rtakeWhile]
      exact hmem
    rcases List.mem_append.mp hsplit with hkept | hdropped
    · exact hkept
    · have hcr := List.mem_rtakeWhile_imp hdropped
      exact absurd hcr (by decide)
  rw [← h] at htext
  have hcstr : (0 : UInt8) ∈ cstr s := (List.rdropWhile_prefix _ _).subset htext
  exact absurd (List.mem_takeWhile_imp hcstr) (by decide)

/-! ## lines are told apart -/

theorem line_inj {line line' rest rest' : List UInt8} (h : newline ∉ line) (h' : newline ∉ line')
    (heq : line ++ newline :: rest = line' ++ newline :: rest') : line = line' ∧ rest = rest' := by
  induction line generalizing line' with
  | nil =>
      cases line' with
      | nil => exact ⟨rfl, (List.cons.inj heq).2⟩
      | cons c line' =>
          rw [List.mem_cons, not_or] at h'
          exact absurd (List.cons.inj heq).1 h'.1
  | cons c line ih =>
      rw [List.mem_cons, not_or] at h
      cases line' with
      | nil => exact absurd (List.cons.inj heq).1.symm h.1
      | cons c' line' =>
          rw [List.mem_cons, not_or] at h'
          obtain ⟨rfl, htail⟩ := List.cons.inj heq
          obtain ⟨rfl, rfl⟩ := ih h.2 h'.2 htail
          exact ⟨rfl, rfl⟩

/-- Lines behind lines. -/
theorem unlines_prefix {lines lines' : List (List UInt8)} (h : ∀ line ∈ lines, newline ∉ line)
    (h' : ∀ line ∈ lines', newline ∉ line) {rest : List UInt8} (heq : unlines lines ++ rest = unlines lines') :
    ∃ more, lines' = lines ++ more ∧ rest = unlines more := by
  induction lines generalizing lines' with
  | nil => exact ⟨lines', rfl, heq⟩
  | cons line lines ih =>
      rw [List.forall_mem_cons] at h
      cases lines' with
      | nil =>
          rw [unlines_cons, unlines_nil, List.append_assoc] at heq
          exact absurd heq (by simp)
      | cons line' lines' =>
          rw [List.forall_mem_cons] at h'
          rw [unlines_cons, unlines_cons, List.append_assoc, List.cons_append] at heq
          obtain ⟨rfl, htail⟩ := line_inj h.1 h'.1 heq
          obtain ⟨more, rfl, hrest⟩ := ih h.2 h'.2 htail
          exact ⟨more, rfl, hrest⟩

/-! ## steps -/

variable {w : LogWorld}

/-- A call on a file that has not shrunk. -/
theorem processLog_ok {file : List UInt8} {lastlogsize : ℕ} (h : lastlogsize ≤ file.length) :
    processLog .ok file lastlogsize =
      match fgets (file.drop lastlogsize) (maxBufLen - 1) with
      | [] => (true, lastlogsize, none)
      | c :: s => (true, lastlogsize + (c :: s).length, some (zbxRtrim (cstr (c :: s)) [cr, newline])) := by
  rw [processLog, if_neg (by decide), if_neg (Nat.not_lt.mpr h), if_neg (by decide)]

/-- A call that fails. -/
theorem processLog_fail {access : LogAccess} (haccess : access ≠ .ok) {file : List UInt8} {lastlogsize : ℕ}
    (h : lastlogsize ≤ file.length) : processLog access file lastlogsize = (false, lastlogsize, none) := by
  rw [processLog, if_neg (Nat.not_lt.mpr h), if_pos haccess]
  split <;> rfl

/-- Behind the offset, a call reads some bytes. -/
theorem take_add_length {file read : List UInt8} {n : ℕ} (hn : n ≤ file.length) (h : read <+: file.drop n) :
    file.take (n + read.length) = file.take n ++ read ∧ n + read.length ≤ file.length := by
  obtain ⟨rest, hrest⟩ := h
  have hfile : file = file.take n ++ (read ++ rest) := by rw [hrest, List.take_append_drop]
  have hlen : (file.take n).length = n := List.length_take_of_le hn
  constructor
  · conv_lhs => rw [hfile]
    rw [List.take_append, hlen, Nat.add_sub_cancel_left, List.take_left, List.take_of_length_le (by omega)]
  · have := congrArg List.length hfile
    simp only [List.length_append, hlen] at this
    omega

theorem reported_append (h : w.Reported) (chunk : List UInt8) :
    LogWorld.Reported { w with file := w.file ++ chunk } := by
  obtain ⟨lines, hlines, htake, hvalues, hle, hended⟩ := h
  refine ⟨lines, hlines, ?_, hvalues, ?_, hended⟩
  · rw [List.take_append_of_le_length hle]
    exact htake
  · exact hle.trans (List.length_append ▸ Nat.le_add_right ..)

/-- A call that finds a whole line reports it. -/
theorem reported_call (h : w.Reported) {access : LogAccess} {carried : Bool}
    (hready : w.CallReady (.call access carried)) : (w.call access carried).Reported := by
  have hw := h
  obtain ⟨lines, hlines, htake, hvalues, hle, hended⟩ := h
  rw [LogWorld.call]
  by_cases hactive : w.active = true
  · rw [if_pos hactive]
    by_cases haccess : access = .ok
    · subst haccess
      rw [processLog_ok hle]
      cases hread : fgets (w.file.drop w.lastlogsize) (maxBufLen - 1) with
      | nil =>
          rw [fgets_eq_nil (by decide), List.drop_eq_nil_iff] at hread
          exact ⟨lines, hlines, htake, hvalues, hle, hread⟩
      | cons c s =>
          dsimp only
          cases carried with
          | false => exact hw
          | true =>
              rcases hready hactive rfl rfl with hempty | ⟨line, rest, hunread, hnl, h0, hlen⟩
              · rw [hempty] at hread
                cases hread
              · rw [hunread, fgets_line hnl (by omega)] at hread
                have hprefix : c :: s <+: w.file.drop w.lastlogsize := by
                  rw [← hread, hunread]
                  exact ⟨rest, by simp⟩
                obtain ⟨htake', hle'⟩ := take_add_length hle hprefix
                refine ⟨lines ++ [line], ?_, ?_, ?_, hle', hended.trans (Nat.le_add_right ..)⟩
                · exact List.forall_mem_append.mpr ⟨hlines, List.forall_mem_singleton.mpr hnl⟩
                · rw [if_pos rfl, htake', htake, ← hread, unlines_append, unlines_cons, unlines_nil]
                · rw [if_pos rfl, ← hread, zbxRtrim_line hnl h0, List.map_append, hvalues]
                  rfl
    · rw [processLog_fail haccess hle]
      exact ⟨lines, hlines, htake, hvalues, hle, hended⟩
  · rw [if_neg hactive]
    exact hw

/-- A call after which lines have been reported has found a whole line. -/
theorem callReady_of_reported (h : w.Reported) {access : LogAccess} {carried : Bool}
    (h' : (w.call access carried).Reported) : w.CallReady (.call access carried) := by
  rintro hactive rfl rfl
  obtain ⟨lines, hlines, htake, hvalues, hle, hended⟩ := h
  rw [LogWorld.call, if_pos hactive, processLog_ok hle] at h'
  have hprefix := fgets_prefix (w.file.drop w.lastlogsize) (maxBufLen - 1)
  have hlength := length_fgets_le (w.file.drop w.lastlogsize) (maxBufLen - 1)
  cases hread : fgets (w.file.drop w.lastlogsize) (maxBufLen - 1) with
  | nil => exact .inl ((fgets_eq_nil (by decide)).mp hread)
  | cons c s =>
      rw [hread] at h' hprefix hlength
      dsimp only at h'
      rw [if_pos rfl] at h'
      obtain ⟨lines', hlines', htake', hvalues', -, -⟩ := h'
      rw [(take_add_length hle hprefix).1, htake] at htake'
      rw [hvalues] at hvalues'
      obtain ⟨more, rfl, hmore⟩ := unlines_prefix hlines hlines' htake'
      -- one value more is one line more
      rw [List.map_append, List.append_cancel_left_eq] at hvalues'
      obtain ⟨line, rfl⟩ : ∃ line, more = [line] := by
        have hlen := congrArg List.length hvalues'
        rw [List.length_map, List.length_singleton] at hlen
        exact List.length_eq_one_iff.mp hlen.symm
      have hnl : newline ∉ line := hlines' line (by simp)
      rw [unlines_cons, unlines_nil] at hmore
      obtain ⟨rest, hrest⟩ := hprefix
      refine .inr ⟨line, rest, ?_, hnl, not_mem_of_zbxRtrim (List.singleton_inj.mp hvalues'), ?_⟩
      · rw [← hrest, hmore]
        simp
      · rw [hmore, List.length_append, List.length_singleton] at hlength
        exact Nat.lt_of_le_pred (by decide) hlength

theorem reported_step_iff (h : w.Reported) (e : LogEvent) : (w.step e).Reported ↔ w.CallReady e := by
  cases e with
  | append chunk => exact iff_of_true (reported_append h chunk) trivial
  | call access carried => exact ⟨callReady_of_reported h, reported_call h⟩

/-- **Each line is reported once**, whole and in order, all along a run of appends and calls,
just when every call finds nothing or a whole line behind the offset. -/
theorem log_lines_once_iff (h : w.Reported) (es : List LogEvent) :
    (∀ es', es' <+: es → (Run.run LogWorld.step w es').Reported) ↔
      Run.Along LogWorld.step LogWorld.CallReady w es := by
  induction es generalizing w with
  | nil =>
      refine iff_of_true (fun es' hes' => ?_) trivial
      rw [List.prefix_nil.mp hes']
      exact h
  | cons e es ih =>
      constructor
      · intro hall
        have hstep : (w.step e).Reported := hall [e] ((List.prefix_cons_inj e).mpr List.nil_prefix)
        exact ⟨(reported_step_iff h e).mp hstep,
          (ih hstep).mp fun es' hes' => hall (e :: es') ((List.prefix_cons_inj e).mpr hes')⟩
      · rintro ⟨hready, halong⟩ es' hes'
        have hstep : (w.step e).Reported := (reported_step_iff h e).mpr hready
        cases es' with
        | nil => exact h
        | cons e' es' =>
            obtain ⟨rfl, htail⟩ := List.cons_prefix_cons.mp hes'
            exact (ih hstep).mpr halong es' htail

/-- An empty file that is followed from its start. -/
def emptyLog : LogWorld := { file := [], lastlogsize := 0, active := true, values := [], ended := 0 }

theorem reported_emptyLog : emptyLog.Reported := ⟨[], by simp, rfl, rfl, le_rfl, le_rfl⟩

/-- A line that is written in two pieces before it is read. -/
theorem log_lines_once_pieces :
    (Run.run LogWorld.step emptyLog [.append [97], .append [98, newline], .call .ok true]).Reported := by
  refine (log_lines_once_iff reported_emptyLog [.append [97], .append [98, newline], .call .ok true]).mpr
    ⟨trivial, trivial, fun _ _ _ => ?_, trivial⟩ _ List.prefix_rfl
  exact .inr ⟨[97, 98], [], rfl, by decide, by decide, by decide⟩

theorem count_unlines {lines : List (List UInt8)} (h : ∀ line ∈ lines, newline ∉ line) :
    (unlines lines).count newline = lines.length := by
  induction lines with
  | nil => rfl
  | cons line lines ih =>
      rw [List.forall_mem_cons] at h
      rw [unlines_cons, List.count_append, List.count_eq_zero.mpr h.1, List.count_cons_self, ih h.2,
        List.length_cons, Nat.zero_add]

/-- The same line is two values when a call comes between the pieces. -/
theorem log_line_torn :
    let w := Run.run LogWorld.step emptyLog [.append [97], .call .ok true, .append [98, newline], .call .ok true]
    w.file = unlines [[97, 98]] ∧ w.values = [[97], [98]] ∧ ¬w.Reported := by
  intro w
  have hfile : w.file = [97, 98, newline] := by decide
  have hvalues : w.values = [[97], [98]] := by decide
  have hoffset : w.lastlogsize = 3 := by decide
  refine ⟨hfile, hvalues, ?_⟩
  rintro ⟨lines, hlines, htake, hlist, -, -⟩
  have hcount := count_unlines hlines
  have hlength := congrArg List.length hlist
  rw [← htake, hfile, hoffset] at hcount
  rw [hvalues, List.length_map] at hlength
  rw [← hlength] at hcount
  revert hcount
  decide

end Zabbix
