import Zabbix.Lib.JsonText
import Zabbix.Params.ParamList
import Zabbix.Str

/-!
# Zabbix.Params.ReplaceParam

The parameters of a command (`replace_param` of `libs/zbxsysinfo/sysinfo.c`).

`replace_param` appends the pieces of the command with `zbx_strlcat`, which takes the size of
the whole buffer, but hands it the room that is left.  A piece is therefore cut as if
everything in front of it stood there twice (`keptLen`); and when a `$` is appended where no
room is left, the room gets negative and the rest of the command is appended without a bound
(`overdraft`).

* `replaceParam_eq` — what the buffer holds in the end;
* `replaceParam_iff` — when that is the command with its parameters, cut at the size of the
  buffer only.
-/

namespace Zabbix

open Ascii JsonText

/-- `$` -/
def dollar : UInt8 := 36

/-- `zbx_strlcat`: `siz` is the size of the whole destination. -/
def zbxStrlcat (dst src : List UInt8) (siz : ℕ) : List UInt8 :=
  -- the end of `dst` is searched for within `siz`
  if siz ≤ dst.length then dst else dst ++ src.take (siz - dst.length - 1)

/-- An `int` as a `size_t`. -/
def toSizeT (n : ℤ) : ℕ := (n % 2 ^ 64).toNat

/-! ## `replace_param` -/

/-- The loop of `replace_param`, with the texts that are put in the place of `$0` to `$9`. -/
def replaceLoop (buf : UInt8 → List UInt8) (out : List UInt8) (outlen : ℤ) (pl : List UInt8) : List UInt8 :=
  match _h : strchr dollar pl with
  | none => zbxStrlcat out pl (toSizeT outlen)
  | some (text, s) =>
      if 0 < outlen then
        let out := zbxStrlcat out text (toSizeT outlen)
        let outlen := outlen - min (text.length : ℤ) outlen
        match s with
        | [] => replaceLoop buf (zbxStrlcat out [dollar] (toSizeT outlen)) (outlen - 1) []
        | c :: s =>
            if JsonText.isDigit c then
              replaceLoop buf (zbxStrlcat out (buf c) (toSizeT outlen))
                (outlen - min ((buf c).length : ℤ) outlen) s
            else if c = dollar then replaceLoop buf (zbxStrlcat out [dollar] (toSizeT outlen)) (outlen - 1) s
            else replaceLoop buf (zbxStrlcat out [dollar] (toSizeT outlen)) (outlen - 1) (c :: s)
      else zbxStrlcat out pl (toSizeT outlen)
termination_by pl.length
decreasing_by
  all_goals
    have hlen := congrArg List.length (strchr_eq_some _h)
    simp only [List.length_append, List.length_cons, List.length_nil] at hlen ⊢
    omega

/-- The number of a digit. -/
def digitValue (c : UInt8) : ℤ := (c.toNat : ℤ) - 48

/-- The text that `replace_param` puts in the place of a digit behind `$`. -/
def paramBuf (command : List UInt8) (param : CString) (c : UInt8) : List UInt8 :=
  if digitValue c = 0 then strscpy command else (getParam param (digitValue c) maxStringLen).buf

/-- `replace_param`: what `out` holds in the end. -/
def replaceParam (cmd param : CString) (outlen : ℤ) : List UInt8 :=
  let command := strscpy cmd.val
  replaceLoop (paramBuf command param) [] outlen command

/-! ## The command with its parameters -/

/-- The command with the texts that are put in the place of `$0` to `$9`, and `$` for `$$`;
any other `$` stays. -/
def expandParams (buf : UInt8 → List UInt8) : List UInt8 → List UInt8
  | [] => []
  | [c] => [c]
  | c :: d :: s =>
      if c ≠ dollar then c :: expandParams buf (d :: s)
      else if JsonText.isDigit d then buf d ++ expandParams buf s
      else if d = dollar then dollar :: expandParams buf s
      else dollar :: expandParams buf (d :: s)

/-- The whole command for `$0`, the parameters for `$1` to `$9`. -/
def paramOrCommand (cmd param : CString) (c : UInt8) : List UInt8 :=
  if digitValue c = 0 then cmd.val else paramTextAt param (digitValue c)

/-- A part of a command: text, and what follows it. -/
inductive CommandPart
  /-- A parameter. -/
  | param (text value : List UInt8)
  /-- A `$` that stands for itself, with the rest of the command behind it. -/
  | dollar (text rest : List UInt8)

/-- The parts of a command, and the text behind the last of them; `text` is in front of the
first one. -/
def commandParts (buf : UInt8 → List UInt8) : (text : List UInt8) → List UInt8 → List CommandPart × List UInt8
  | text, [] => ([], text)
  | text, [c] => if c = dollar then ([.dollar text []], []) else ([], text ++ [c])
  | text, c :: d :: s =>
      if c ≠ dollar then commandParts buf (text ++ [c]) (d :: s)
      else if JsonText.isDigit d then
        let (parts, tail) := commandParts buf [] s
        (.param text (buf d) :: parts, tail)
      else if d = dollar then
        let (parts, tail) := commandParts buf [] s
        (.dollar text s :: parts, tail)
      else
        let (parts, tail) := commandParts buf [] (d :: s)
        (.dollar text (d :: s) :: parts, tail)

/-- The pieces of a part that are appended. -/
def CommandPart.pieces : CommandPart → List (List UInt8)
  | param text value => [text, value]
  | dollar text _ => [text, [Zabbix.dollar]]

/-- The pieces of a command that are appended, one after the other. -/
def commandPieces (buf : UInt8 → List UInt8) (cmd : List UInt8) : List (List UInt8) :=
  let (parts, tail) := commandParts buf [] cmd
  parts.flatMap CommandPart.pieces ++ [tail]

/-! ## What is kept -/

/-- The number of bytes that are stored, with `front` bytes in the buffer and `room` left by
the count: a piece that does not fit as if they stood there twice is the last one. -/
def keptLen : (front room : ℕ) → List (List UInt8) → ℕ
  | front, _, [] => front
  | front, room, p :: ps =>
      if p = [] ∨ front + p.length < room then keptLen (front + p.length) (room - p.length) ps
      else max front (room - 1)

/-- What is appended without a bound: what follows a `$` that is appended where no room is
left, if there has been some in front of the text before it. -/
def overdraft : (room : ℕ) → List CommandPart → List UInt8
  | _, [] => []
  | room, .param text value :: parts => overdraft (room - text.length - value.length) parts
  | room, .dollar text rest :: parts =>
      if 0 < room ∧ room ≤ text.length then rest else overdraft (room - text.length - 1) parts

theorem le_keptLen (front room : ℕ) (ps : List (List UInt8)) : front ≤ keptLen front room ps := by
  induction ps generalizing front room with
  | nil => exact le_rfl
  | cons p ps ih =>
      rw [keptLen]
      split
      · exact (Nat.le_add_right _ _).trans (ih _ _)
      · exact le_max_left _ _

/-- Where no room is left nothing is stored. -/
theorem keptLen_of_le {front room : ℕ} (h : room ≤ front) (ps : List (List UInt8)) : keptLen front room ps = front := by
  induction ps generalizing room with
  | nil => rfl
  | cons p ps ih =>
      rw [keptLen]
      split
      · next hp =>
          obtain rfl : p = [] := hp.resolve_right (by omega)
          exact ih (by simpa using h)
      · omega

/-- One piece is appended: what it adds, and what is stored of the others. -/
theorem zbxStrlcat_keptLen (out p : List UInt8) (room : ℕ) (ps : List (List UInt8)) :
    zbxStrlcat out p room ++ ps.flatten.take
        (keptLen (zbxStrlcat out p room).length (room - p.length) ps - (zbxStrlcat out p room).length) =
      out ++ (p :: ps).flatten.take (keptLen out.length room (p :: ps) - out.length) := by
  have hle := le_keptLen (out.length + p.length) (room - p.length) ps
  rw [keptLen]
  by_cases hp : p = []
  · subst hp
    simp [zbxStrlcat]
  by_cases hfits : out.length + p.length < room
  · have hall : zbxStrlcat out p room = out ++ p := by
      rw [zbxStrlcat, if_neg (by omega), List.take_of_length_le (by omega)]
    have hsplit : keptLen (out.length + p.length) (room - p.length) ps - out.length =
        p.length + (keptLen (out.length + p.length) (room - p.length) ps - (out.length + p.length)) := by omega
    rw [if_pos (.inr hfits), hall, List.length_append, List.flatten_cons, List.append_assoc, hsplit,
      List.take_length_add_append]
  · have hlen : 0 < p.length := List.length_pos_of_ne_nil hp
    rw [if_neg (by simp [hp, hfits])]
    by_cases hfull : room ≤ out.length
    · have hnone : zbxStrlcat out p room = out := if_pos hfull
      rw [hnone, keptLen_of_le (by omega), max_eq_left (by omega)]
      simp
    · have hsome : zbxStrlcat out p room = out ++ p.take (room - out.length - 1) := if_neg hfull
      have hstored : (zbxStrlcat out p room).length = room - 1 := by
        rw [hsome, List.length_append, List.length_take]
        omega
      rw [hstored, keptLen_of_le (by omega), max_eq_right (by omega), hsome, Nat.sub_self, List.take_zero,
        List.append_nil, List.flatten_cons, List.take_append_of_le_length (by omega), Nat.sub_right_comm]

/-! ## The loop -/

/-- An `int` that is not negative is the same `size_t`. -/
theorem toSizeT_natCast {n : ℕ} (h : n < 2 ^ 64) : toSizeT n = n := by
  rw [toSizeT]
  omega

/-- Below 0 it is one that nothing reaches. -/
theorem zbxStrlcat_neg_one {dst src : List UInt8} (h : dst.length + src.length < 2 ^ 63) :
    zbxStrlcat dst src (toSizeT (-1)) = dst ++ src := by
  have hsize : toSizeT (-1) = 2 ^ 64 - 1 := by decide
  rw [hsize, zbxStrlcat, if_neg (by omega), List.take_of_length_le (by omega)]

section

variable (buf : UInt8 → List UInt8)

/-- Without a `$` the loop ends. -/
theorem replaceLoop_of_not_mem {out pl : List UInt8} (h : strchr dollar pl = none) (outlen : ℤ) :
    replaceLoop buf out outlen pl = zbxStrlcat out pl (toSizeT outlen) := by
  rw [replaceLoop]
  split
  · rfl
  · next hfound => cases h.symm.trans hfound

/-- Without room the loop ends. -/
theorem replaceLoop_of_nonpos {outlen : ℤ} (h : outlen ≤ 0) (out pl : List UInt8) :
    replaceLoop buf out outlen pl = zbxStrlcat out pl (toSizeT outlen) := by
  rw [replaceLoop]
  split
  · rfl
  · exact if_neg (not_lt.mpr h)

/-- One round of the loop. -/
theorem replaceLoop_of_found {out pl t s : List UInt8} {outlen : ℤ} (h : strchr dollar pl = some (t, s))
    (hpos : 0 < outlen) :
    replaceLoop buf out outlen pl =
      let out := zbxStrlcat out t (toSizeT outlen)
      let outlen := outlen - min (t.length : ℤ) outlen
      match s with
      | [] => replaceLoop buf (zbxStrlcat out [dollar] (toSizeT outlen)) (outlen - 1) []
      | c :: s =>
          if JsonText.isDigit c then
            replaceLoop buf (zbxStrlcat out (buf c) (toSizeT outlen))
              (outlen - min ((buf c).length : ℤ) outlen) s
          else if c = dollar then replaceLoop buf (zbxStrlcat out [dollar] (toSizeT outlen)) (outlen - 1) s
          else replaceLoop buf (zbxStrlcat out [dollar] (toSizeT outlen)) (outlen - 1) (c :: s) := by
  rw [replaceLoop]
  split
  · next hnone => cases h.symm.trans hnone
  · next hfound =>
      cases h.symm.trans hfound
      rw [if_pos hpos]

/-- With the room below 0 the loop ends, and the rest is appended. -/
theorem replaceLoop_neg_one {out pl : List UInt8} (h : out.length + pl.length < 2 ^ 63) :
    replaceLoop buf out (-1) pl = out ++ pl :=
  (replaceLoop_of_nonpos buf (by decide) out pl).trans (zbxStrlcat_neg_one h)

/-- Text in front of a `$`. -/
theorem commandParts_text (text : List UInt8) {t : List UInt8} (h : dollar ∉ t) (s : List UInt8) :
    commandParts buf text (t ++ dollar :: s) = commandParts buf (text ++ t) (dollar :: s) := by
  induction t generalizing text with
  | nil => simp
  | cons c t ih =>
      rw [List.mem_cons, not_or] at h
      have hstep := ih (text ++ [c]) h.2
      cases t with
      | nil => simp [commandParts, Ne.symm h.1]
      | cons d t => simpa [commandParts, Ne.symm h.1] using hstep

/-- Text without a `$`. -/
theorem commandParts_tail (text : List UInt8) {t : List UInt8} (h : dollar ∉ t) :
    commandParts buf text t = ([], text ++ t) := by
  induction t generalizing text with
  | nil => simp [commandParts]
  | cons c t ih =>
      rw [List.mem_cons, not_or] at h
      have hstep := ih (text ++ [c]) h.2
      cases t with
      | nil => simp [commandParts, Ne.symm h.1]
      | cons d t => simpa [commandParts, Ne.symm h.1] using hstep

/-- What a `$` begins, and one round of the loop there: a parameter, or a `$` that stands for
itself. -/
theorem replaceLoop_step {pl t s : List UInt8} (hfound : strchr dollar pl = some (t, s)) :
    (∃ c rest, rest.length < pl.length ∧
      commandParts buf [] pl =
        (.param t (buf c) :: (commandParts buf [] rest).1, (commandParts buf [] rest).2) ∧
      ∀ out : List UInt8, ∀ outlen : ℤ, 0 < outlen →
        replaceLoop buf out outlen pl =
          replaceLoop buf (zbxStrlcat (zbxStrlcat out t (toSizeT outlen)) (buf c)
              (toSizeT (outlen - min (t.length : ℤ) outlen)))
            (outlen - min (t.length : ℤ) outlen - min ((buf c).length : ℤ) (outlen - min (t.length : ℤ) outlen)) rest) ∨
    ∃ rest, rest.length < pl.length ∧
      commandParts buf [] pl = (.dollar t rest :: (commandParts buf [] rest).1, (commandParts buf [] rest).2) ∧
      ∀ out : List UInt8, ∀ outlen : ℤ, 0 < outlen →
        replaceLoop buf out outlen pl =
          replaceLoop buf (zbxStrlcat (zbxStrlcat out t (toSizeT outlen)) [dollar]
              (toSizeT (outlen - min (t.length : ℤ) outlen)))
            (outlen - min (t.length : ℤ) outlen - 1) rest := by
  have hpl := strchr_eq_some hfound
  have ht := not_mem_of_strchr hfound
  dsimp only at hpl
  have hparts : commandParts buf [] pl = commandParts buf t (dollar :: s) := by
    rw [hpl, commandParts_text buf [] ht, List.nil_append]
  have hlen := congrArg List.length hpl
  simp only [List.length_append, List.length_cons] at hlen
  match s with
  | [] =>
      refine .inr ⟨[], by simp; omega, ?_, fun out outlen hpos => replaceLoop_of_found buf hfound hpos⟩
      rw [hparts]
      simp [commandParts]
  | c :: s' =>
      by_cases hc : JsonText.isDigit c = true
      · refine .inl ⟨c, s', by simp at hlen; omega, ?_, fun out outlen hpos => ?_⟩
        · rw [hparts]
          simp [commandParts, hc]
        · exact (replaceLoop_of_found buf hfound hpos).trans (if_pos hc)
      · by_cases hd : c = dollar
        · refine .inr ⟨s', by simp at hlen; omega, ?_, fun out outlen hpos => ?_⟩
          · rw [hparts]
            subst hd
            simp [commandParts, hc]
          · exact (replaceLoop_of_found buf hfound hpos).trans ((if_neg hc).trans (if_pos hd))
        · refine .inr ⟨c :: s', by simp at hlen ⊢; omega, ?_, fun out outlen hpos => ?_⟩
          · rw [hparts]
            simp [commandParts, hc, hd]
          · exact (replaceLoop_of_found buf hfound hpos).trans ((if_neg hc).trans (if_neg hd))

/-- What is left of the room. -/
theorem natCast_sub_min (room n : ℕ) : (room : ℤ) - min (n : ℤ) room = (room - n : ℕ) := by
  omega

/-- An append leaves no more in the buffer than there has been, or than there is room for. -/
theorem length_zbxStrlcat_le (dst src : List UInt8) (siz : ℕ) :
    (zbxStrlcat dst src siz).length ≤ max dst.length siz := by
  unfold zbxStrlcat
  split
  · exact le_max_left _ _
  · rw [List.length_append, List.length_take]
    omega

/-- Without room nothing is appended without a bound. -/
theorem overdraft_zero (parts : List CommandPart) : overdraft 0 parts = [] := by
  induction parts with
  | nil => rfl
  | cons part parts ih => cases part <;> simpa [overdraft] using ih

/-- The pieces behind those of the first part. -/
theorem commandPieces_cons {cmd rest : List UInt8} {part : CommandPart}
    (h : commandParts buf [] cmd = (part :: (commandParts buf [] rest).1, (commandParts buf [] rest).2)) :
    commandPieces buf cmd = part.pieces ++ commandPieces buf rest := by
  simp [commandPieces, h]

/-- **The loop**: what is kept of the pieces, and what is appended without a bound. -/
theorem replaceLoop_eq {out pl : List UInt8} {room : ℕ} (hout : out.length < 2 ^ 62) (hroom : room < 2 ^ 62)
    (hpl : pl.length < 2 ^ 62) :
    replaceLoop buf out room pl =
      out ++ (commandPieces buf pl).flatten.take (keptLen out.length room (commandPieces buf pl) - out.length) ++
        overdraft room (commandParts buf [] pl).1 := by
  induction hn : pl.length using Nat.strong_induction_on generalizing out pl room with
  | _ n ih =>
  subst hn
  cases hfound : strchr dollar pl with
  | none =>
      have hdollar := strchr_eq_none_iff.mp hfound
      have hloop : replaceLoop buf out room pl = zbxStrlcat out pl room := by
        rw [replaceLoop_of_not_mem buf hfound, toSizeT_natCast (by omega)]
      have hkept := zbxStrlcat_keptLen out pl room []
      simp only [List.flatten_nil, List.take_nil, List.append_nil] at hkept
      rw [hloop, hkept, commandPieces, commandParts_tail buf [] hdollar]
      simp [overdraft]
  | some found =>
      obtain ⟨t, s⟩ := found
      by_cases hzero : room = 0
      · subst hzero
        have hloop : replaceLoop buf out (0 : ℕ) pl = out := by
          rw [replaceLoop_of_nonpos buf (by decide), toSizeT_natCast (by decide), zbxStrlcat, if_pos (Nat.zero_le _)]
        rw [hloop, keptLen_of_le (Nat.zero_le _), overdraft_zero]
        simp
      · have hpos : (0 : ℤ) < room := by omega
        have hsize : toSizeT (room : ℤ) = room := toSizeT_natCast (by omega)
        have hsize' : toSizeT ((room - t.length : ℕ) : ℤ) = room - t.length := toSizeT_natCast (by omega)
        have hlen := length_zbxStrlcat_le out t room
        rcases replaceLoop_step buf hfound with ⟨c, rest, hrest, hparts, hloop⟩ | ⟨rest, hrest, hparts, hloop⟩
        · have hlen' := length_zbxStrlcat_le (zbxStrlcat out t room) (buf c) (room - t.length)
          rw [hloop out room hpos, natCast_sub_min, natCast_sub_min, hsize, hsize',
            ih rest.length hrest (by omega) (by omega) (by omega) rfl, commandPieces_cons buf hparts, hparts]
          have hvalue := zbxStrlcat_keptLen (zbxStrlcat out t room) (buf c) (room - t.length) (commandPieces buf rest)
          have htext := zbxStrlcat_keptLen out t room (buf c :: commandPieces buf rest)
          simp only [CommandPart.pieces, List.cons_append, List.nil_append, overdraft]
          rw [hvalue, htext]
        · have htext := zbxStrlcat_keptLen out t room ([dollar] :: commandPieces buf rest)
          rw [hloop out room hpos, natCast_sub_min, hsize, hsize', commandPieces_cons buf hparts, hparts]
          simp only [CommandPart.pieces, List.cons_append, List.nil_append, overdraft]
          rw [← htext]
          by_cases hover : room ≤ t.length
          · -- the `$` takes the room below 0
            have hnone : room - t.length = 0 := by omega
            rw [if_pos ⟨by omega, hover⟩, hnone, keptLen_of_le (Nat.zero_le _), zbxStrlcat, if_pos (Nat.zero_le _)]
            rw [show ((0 : ℕ) : ℤ) - 1 = -1 by norm_num, replaceLoop_neg_one buf (by omega)]
            simp
          · have hdollar := zbxStrlcat_keptLen (zbxStrlcat out t room) [dollar] (room - t.length) (commandPieces buf rest)
            have hlen' := length_zbxStrlcat_le (zbxStrlcat out t room) [dollar] (room - t.length)
            have hone : ((room - t.length : ℕ) : ℤ) - 1 = (room - t.length - 1 : ℕ) := by omega
            rw [if_neg (by omega), hone, ih rest.length hrest (by omega) (by omega) (by omega) rfl]
            simp only [List.length_singleton] at hdollar
            rw [hdollar]

end

/-! ## The command with its parameters -/

/-- Only what stands for the digits matters. -/
theorem commandParts_congr {f g : UInt8 → List UInt8} (h : ∀ c, JsonText.isDigit c = true → f c = g c)
    (text s : List UInt8) : commandParts f text s = commandParts g text s := by
  fun_induction commandParts f text s <;> simp_all [commandParts]

/-- The pieces make up the command with its parameters. -/
theorem flatten_commandParts (buf : UInt8 → List UInt8) (text s : List UInt8) :
    ((commandParts buf text s).1.flatMap CommandPart.pieces).flatten ++ (commandParts buf text s).2 =
      text ++ expandParams buf s := by
  fun_induction commandParts buf text s <;> simp_all [expandParams, CommandPart.pieces]

/-- The pieces of a command make up the command with its parameters. -/
theorem flatten_commandPieces (buf : UInt8 → List UInt8) (cmd : List UInt8) :
    (commandPieces buf cmd).flatten = expandParams buf cmd := by
  have h := flatten_commandParts buf [] cmd
  simpa [commandPieces] using h

/-- Within the lines of a configuration file and the arrays of a key nothing is cut before. -/
theorem paramBuf_eq {cmd param : CString} (hcmd : cmd.val.length < maxStringLen)
    (hparam : param.val.length < maxStringLen) (c : UInt8) :
    paramBuf (strscpy cmd.val) param c = paramOrCommand cmd param c := by
  have hlarge := getParam_large ((length_paramTextAt param (digitValue c)).trans_lt hparam)
  rw [paramBuf, paramOrCommand, strscpy_of_lt hcmd, strscpy_of_lt hcmd, hlarge]

/-- **What the buffer holds**: so much of the command with its parameters as is kept, and what
is appended without a bound. -/
theorem replaceParam_eq {cmd param : CString} {outlen : ℕ} (hcmd : cmd.val.length < maxStringLen)
    (hparam : param.val.length < maxStringLen) (hlen : outlen < 2 ^ 31) :
    replaceParam cmd param outlen =
      (expandParams (paramOrCommand cmd param) cmd.val).take
          (keptLen 0 outlen (commandPieces (paramOrCommand cmd param) cmd.val)) ++
        overdraft outlen (commandParts (paramOrCommand cmd param) [] cmd.val).1 := by
  have hmax : maxStringLen < 2 ^ 62 := by decide
  have hparts : commandParts (paramBuf (strscpy cmd.val) param) [] cmd.val =
      commandParts (paramOrCommand cmd param) [] cmd.val :=
    commandParts_congr (fun c _ => paramBuf_eq hcmd hparam c) [] cmd.val
  have hpieces : commandPieces (paramBuf (strscpy cmd.val) param) cmd.val =
      commandPieces (paramOrCommand cmd param) cmd.val := by rw [commandPieces, commandPieces, hparts]
  have hloop := @replaceLoop_eq (paramBuf (strscpy cmd.val) param) [] cmd.val outlen (by simp) (by omega) (by omega)
  rw [hpieces, hparts, flatten_commandPieces] at hloop
  rw [replaceParam, strscpy_of_lt hcmd]
  rw [strscpy_of_lt hcmd] at hloop
  simpa using hloop

/-! ## When nothing is missing -/

/-- Every piece fits a buffer of `outlen` bytes in which everything in front of it stands twice. -/
def FitsTwice (outlen : ℕ) : (front : ℕ) → List (List UInt8) → Prop
  | _, [] => True
  | front, p :: ps => (p = [] ∨ 2 * front + p.length < outlen) ∧ FitsTwice outlen (front + p.length) ps

instance (outlen front : ℕ) (ps : List (List UInt8)) : Decidable (FitsTwice outlen front ps) := by
  induction ps generalizing front with
  | nil => exact isTrue trivial
  | cons p ps ih => exact @instDecidableAnd _ _ inferInstance (ih _)

/-- The first piece that is not empty fills the buffer. -/
def FillsFirst (outlen : ℕ) (ps : List (List UInt8)) : Prop :=
  ∃ p ∈ ps.find? (· ≠ []), outlen ≤ p.length + 1

/-- What fits is kept. -/
theorem keptLen_of_fitsTwice {outlen front : ℕ} {ps : List (List UInt8)} (hfront : front < outlen)
    (h : FitsTwice outlen front ps) :
    keptLen front (outlen - front) ps = front + ps.flatten.length ∧ front + ps.flatten.length < outlen := by
  induction ps generalizing front with
  | nil => simpa [keptLen] using hfront
  | cons p ps ih =>
      obtain ⟨hp, hps⟩ := h
      by_cases hnil : p = []
      · subst hnil
        simpa [keptLen] using ih hfront hps
      · have hlt := hp.resolve_left hnil
        have hrest := ih (by omega) hps
        rw [keptLen, if_pos (.inr (by omega)), ← Nat.sub_add_eq, hrest.1, List.flatten_cons, List.length_append]
        omega

/-- What does not fit is cut too early. -/
theorem keptLen_lt {outlen front : ℕ} {ps : List (List UInt8)} (hpos : 0 < front) (hfront : front < outlen - 1)
    (h : ¬FitsTwice outlen front ps) :
    keptLen front (outlen - front) ps < outlen - 1 ∧ keptLen front (outlen - front) ps < front + ps.flatten.length := by
  induction ps generalizing front with
  | nil => exact absurd trivial h
  | cons p ps ih =>
      rw [List.flatten_cons, List.length_append]
      by_cases hnil : p = []
      · subst hnil
        simpa [keptLen] using ih hpos hfront (by simpa [FitsTwice] using h)
      by_cases hlt : 2 * front + p.length < outlen
      · have hrest := ih (by omega) (by omega) fun hps => h ⟨.inr hlt, hps⟩
        rw [keptLen, if_pos (.inr (by omega)), ← Nat.sub_add_eq]
        omega
      · have hlen := List.length_pos_of_ne_nil hnil
        rw [keptLen, if_neg (by simp [hnil]; omega)]
        omega

/-- Nothing is missing if the pieces fit or the first one fills the buffer. -/
theorem take_keptLen_iff {outlen : ℕ} (hlen : 1 ≤ outlen) (ps : List (List UInt8)) :
    ps.flatten.take (keptLen 0 outlen ps) = ps.flatten.take (outlen - 1) ↔
      FitsTwice outlen 0 ps ∨ FillsFirst outlen ps := by
  induction ps with
  | nil => simp [FitsTwice]
  | cons p ps ih =>
      by_cases hnil : p = []
      · subst hnil
        simpa [keptLen, FitsTwice, FillsFirst] using ih
      have hpos := List.length_pos_of_ne_nil hnil
      have hfirst : FillsFirst outlen (p :: ps) ↔ outlen ≤ p.length + 1 := by simp [FillsFirst, hnil]
      rw [hfirst]
      by_cases hfills : outlen ≤ p.length + 1
      · -- nothing is stored behind the first piece
        have hkept : keptLen 0 outlen (p :: ps) = outlen - 1 := by
          rw [keptLen]
          split
          · next hfit =>
              have hfit := hfit.resolve_left hnil
              rw [keptLen_of_le (by omega)]
              omega
          · omega
        simp [hkept, hfills]
      · have hstep : keptLen 0 outlen (p :: ps) = keptLen p.length (outlen - p.length) ps := by
          rw [keptLen, if_pos (.inr (by omega)), Nat.zero_add]
        have hfits : FitsTwice outlen 0 (p :: ps) ↔ FitsTwice outlen p.length ps := by
          simp only [FitsTwice, Nat.zero_add, Nat.mul_zero, and_iff_right_iff_imp]
          intro _
          exact .inr (by omega)
        rw [or_iff_left hfills, hstep, hfits]
        constructor
        · intro htake
          by_contra hmiss
          have hlt := keptLen_lt hpos (by omega) hmiss
          have hlen := congrArg List.length htake
          rw [List.length_take, List.length_take, List.flatten_cons, List.length_append] at hlen
          omega
        · intro hall
          have hkept := keptLen_of_fitsTwice (by omega) hall
          have hlen : (p :: ps).flatten.length = p.length + ps.flatten.length := by
            rw [List.flatten_cons, List.length_append]
          rw [List.take_of_length_le (by omega), List.take_of_length_le (by omega)]

/-- No more is stored than there is room for. -/
theorem keptLen_le {n front room : ℕ} (hfront : front ≤ n) (hroom : room ≤ n + 1) (ps : List (List UInt8)) :
    keptLen front room ps ≤ n := by
  induction ps generalizing front room with
  | nil => exact hfront
  | cons p ps ih =>
      rw [keptLen]
      split
      · next h =>
          refine ih ?_ (by omega)
          rcases h with rfl | h
          · simpa using hfront
          · omega
      · omega

/-- **What `replace_param` writes**: the command with its parameters, cut at the size of the
buffer only, if every piece fits twice or the first one fills the buffer, and otherwise only if
what is appended without a bound is what has been cut off too early. -/
theorem replaceParam_iff (cmd param : CString) (outlen : ℕ) (hcmd : cmd.val.length < maxStringLen)
    (hparam : param.val.length < maxStringLen) (hpos : 1 ≤ outlen) (hlen : outlen < 2 ^ 31) :
    replaceParam cmd param outlen = (expandParams (paramOrCommand cmd param) cmd.val).take (outlen - 1) ↔
      let pieces := commandPieces (paramOrCommand cmd param) cmd.val
      let rest := overdraft outlen (commandParts (paramOrCommand cmd param) [] cmd.val).1
      (rest = [] ∧ (FitsTwice outlen 0 pieces ∨ FillsFirst outlen pieces)) ∨
        (rest ≠ [] ∧
          rest = ((expandParams (paramOrCommand cmd param) cmd.val).take (outlen - 1)).drop (keptLen 0 outlen pieces)) := by
  dsimp only
  rw [replaceParam_eq hcmd hparam hlen, ← flatten_commandPieces]
  generalize overdraft outlen (commandParts (paramOrCommand cmd param) [] cmd.val).1 = rest
  generalize commandPieces (paramOrCommand cmd param) cmd.val = pieces
  by_cases hrest : rest = []
  · subst hrest
    simpa using take_keptLen_iff hpos pieces
  · have hkept : keptLen 0 outlen pieces ≤ outlen - 1 := keptLen_le (Nat.zero_le _) (by omega) pieces
    have hsplit : pieces.flatten.take (outlen - 1) =
        pieces.flatten.take (keptLen 0 outlen pieces) ++
          (pieces.flatten.take (outlen - 1)).drop (keptLen 0 outlen pieces) := by
      have htake := List.take_append_drop (keptLen 0 outlen pieces) (pieces.flatten.take (outlen - 1))
      rw [List.take_take, min_eq_left hkept] at htake
      exact htake.symm
    simp only [hrest, false_and, false_or, ne_eq, not_false_eq_true, true_and]
    constructor
    · intro h
      exact List.append_cancel_left (h.trans hsplit)
    · intro h
      rw [hsplit, ← h]

theorem replaceParam_file : replaceParam ⟨bytes "cat $1", by decide⟩ ⟨bytes "/etc,2", by decide⟩ 16 =
    (expandParams (paramOrCommand ⟨bytes "cat $1", by decide⟩ ⟨bytes "/etc,2", by decide⟩) (bytes "cat $1")).take 15 :=
  (replaceParam_iff ⟨bytes "cat $1", by decide⟩ ⟨bytes "/etc,2", by decide⟩ 16 (by decide) (by decide)
    (by decide) (by decide)).mpr (.inl ⟨by decide, .inl (by decide)⟩)

/-- The command has eight bytes with its parameter, and four of these are counted twice. -/
theorem replaceParam_cut_early :
    replaceParam ⟨bytes "cat $1", by decide⟩ ⟨bytes "/etc,2", by decide⟩ 12 = bytes "cat /et" ∧
      (expandParams (paramOrCommand ⟨bytes "cat $1", by decide⟩ ⟨bytes "/etc,2", by decide⟩) (bytes "cat $1")).take 11 =
        bytes "cat /etc" := by
  refine ⟨(replaceParam_eq (by decide) (by decide) (by decide)).trans ?_, ?_⟩ <;> decide

end Zabbix
