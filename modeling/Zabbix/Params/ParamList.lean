import Zabbix.Lib.Ascii
import Zabbix.Lib.Mem

/-!
# Zabbix.Params.ParamList

The parameter lists of item keys: `num_param` and `get_param` (`libs/zbxcommon/str.c`).

`get_param` first passes over the parameters in front of the wanted one, where
only quotes and commas matter (`paramRest`), and then copies that parameter
(`paramText`).  It finds the parameter where something stands there
(`getParam_found_iff`), and a buffer that is large enough holds the whole of it
(`getParam_buf`).
-/

namespace Zabbix

open Ascii

/-- The states of the scans. -/
inductive ParamState
  | init
  /-- Inside a quoted parameter. -/
  | quoted
  /-- Inside an unquoted parameter. -/
  | unquoted
deriving DecidableEq, Repr

/-! ## `num_param` -/

/-- The loop of `num_param`: the commas that it counts. -/
def numParamLoop : ParamState → List UInt8 → ℕ
  | _, [] => 0
  | .init, c :: s =>
      if c = comma then numParamLoop .init s + 1
      else if c = dquote then numParamLoop .quoted s
      else if c = backslash ∧ s.head? = some dquote then numParamLoop .unquoted s
      else if c ≠ space then numParamLoop .unquoted s
      else numParamLoop .init s
  | .quoted, [_] => 0
  | .quoted, c :: d :: s =>
      if c = dquote then numParamLoop .init (d :: s)
      else if c = backslash ∧ d = dquote then numParamLoop .unquoted s
      else numParamLoop .quoted (d :: s)
  | .unquoted, c :: s =>
      if c = comma then numParamLoop .init s + 1 else numParamLoop .unquoted s

/-- `num_param` -/
def numParam : Option CString → ℕ
  | none => 0
  | some param => 1 + numParamLoop .init param.val

/-! ## `get_param` -/

/-- What the loop of `get_param` leaves: whether it has set `ret` to 0, and what it has
stored in `buf`, from its beginning on. -/
structure ParamScan where
  found : Bool
  buf : List UInt8
deriving DecidableEq, Repr

/-- The loop of `get_param`. -/
def getParamLoop (num : ℤ) (maxlen : ℕ) : ParamState → (idx : ℤ) → ParamScan → List UInt8 → ParamScan
  | _, _, r, [] => r
  | state, idx, r, c :: s =>
      if idx ≤ num ∧ r.buf.length < maxlen then
        let found := r.found || idx = num
        match state with
        | .init =>
            if c = comma then getParamLoop num maxlen .init (idx + 1) ⟨found, r.buf⟩ s
            else if c = dquote then getParamLoop num maxlen .quoted idx ⟨found, r.buf⟩ s
            else if idx = num then
              match s with
              | [] => ⟨found, if c ≠ space then r.buf ++ [c] else r.buf⟩
              | d :: s =>
                  if c = backslash ∧ d = dquote then
                    getParamLoop num maxlen .unquoted idx ⟨found, r.buf ++ [c, d]⟩ s
                  else
                    getParamLoop num maxlen .unquoted idx ⟨found, if c ≠ space then r.buf ++ [c] else r.buf⟩
                      (d :: s)
            else getParamLoop num maxlen .init idx ⟨found, r.buf⟩ s
        | .quoted =>
            if c = dquote then getParamLoop num maxlen .init idx ⟨found, r.buf⟩ s
            else if idx = num then
              match s with
              | [] => ⟨found, r.buf ++ [c]⟩
              | d :: s =>
                  if c = backslash ∧ d = dquote then
                    getParamLoop num maxlen .quoted idx ⟨found, r.buf ++ [d]⟩ s
                  else getParamLoop num maxlen .quoted idx ⟨found, r.buf ++ [c]⟩ (d :: s)
            else getParamLoop num maxlen .quoted idx ⟨found, r.buf⟩ s
        | .unquoted =>
            if c = comma then getParamLoop num maxlen .init (idx + 1) ⟨found, r.buf⟩ s
            else if idx = num then getParamLoop num maxlen .unquoted idx ⟨found, r.buf ++ [c]⟩ s
            else getParamLoop num maxlen .unquoted idx ⟨found, r.buf⟩ s
      else r

/-- `get_param`: whether it returns 0, and what it stores in `buf` in front of the NUL. -/
def getParam (param : CString) (num : ℤ) (maxlen : ℕ) : ParamScan :=
  let r := getParamLoop num maxlen .init 1 ⟨false, []⟩ param.val
  ⟨r.found || num = 1, r.buf⟩

/-- The elements of `buf` that `get_param` stores to: the first one at the beginning, the
bytes of the parameter, and the NUL behind them. -/
def ParamScan.stores (r : ParamScan) : List ℕ := 0 :: List.range r.buf.length ++ [r.buf.length]

/-! ## the parts of the scan -/

/-- What stands behind the `n`-th comma that is not in quotes, where every quote opens or
closes. -/
def paramRest : ℕ → (quoted : Bool) → List UInt8 → Option (List UInt8)
  | 0, _, s => some s
  | _ + 1, _, [] => none
  | n + 1, quoted, c :: s =>
      if c = dquote then paramRest (n + 1) (!quoted) s
      else if c = comma ∧ quoted = false then paramRest n false s
      else paramRest (n + 1) quoted s

/-- The text of the parameter at the beginning. -/
def paramText : ParamState → List UInt8 → List UInt8
  | _, [] => []
  | .init, [c] => if c = comma ∨ c = dquote ∨ c = space then [] else [c]
  | .init, c :: d :: s =>
      if c = comma then []
      else if c = dquote then paramText .quoted (d :: s)
      else if c = backslash ∧ d = dquote then c :: d :: paramText .unquoted s
      else if c ≠ space then c :: paramText .unquoted (d :: s)
      else paramText .unquoted (d :: s)
  | .quoted, [c] => if c = dquote then [] else [c]
  | .quoted, c :: d :: s =>
      if c = dquote then paramText .init (d :: s)
      else if c = backslash ∧ d = dquote then d :: paramText .quoted s
      else c :: paramText .quoted (d :: s)
  | .unquoted, c :: s => if c = comma then [] else c :: paramText .unquoted s

/-- The state of the scan in front of the wanted parameter. -/
def skipState (quoted : Bool) : ParamState := if quoted then .quoted else .init

/-- In front of the wanted parameter nothing is stored. -/
theorem getParamLoop_skip (num : ℤ) {maxlen : ℕ} (hmax : 0 < maxlen) (n : ℕ) (quoted : Bool) (s : List UInt8) :
    getParamLoop num maxlen (skipState quoted) (num - (n + 1)) ⟨false, []⟩ s =
      match paramRest (n + 1) quoted s with
      | none => ⟨false, []⟩
      | some t => getParamLoop num maxlen .init num ⟨false, []⟩ t := by
  induction s generalizing n quoted with
  | nil => cases quoted <;> rfl
  | cons c s ih =>
      have hidx : num - ((n : ℤ) + 1) ≤ num := by omega
      have hne : ¬num - ((n : ℤ) + 1) = num := by omega
      have hnext : num - ((n : ℤ) + 1) + 1 = num - n := by omega
      have hquoted := ih n true
      have hinit := ih n false
      have hdc : comma ≠ dquote := by decide
      have hcomma : getParamLoop num maxlen .init (num - n) ⟨false, []⟩ s =
          match paramRest n false s with
          | none => ⟨false, []⟩
          | some t => getParamLoop num maxlen .init num ⟨false, []⟩ t := by
        cases n with
        | zero => simp [paramRest]
        | succ n => simpa [skipState] using ih n false
      cases quoted <;> by_cases hd : c = dquote <;> by_cases hc : c = comma <;>
        simp_all [getParamLoop, paramRest, skipState]

/-- Behind the wanted parameter the loop ends. -/
@[simp] theorem getParamLoop_next (num : ℤ) (maxlen : ℕ) (state : ParamState) (r : ParamScan) (s : List UInt8) :
    getParamLoop num maxlen state (num + 1) r s = r := by
  cases s <;> simp [getParamLoop]

/-- The loop ends where there is no room left. -/
theorem getParamLoop_full {num : ℤ} {maxlen : ℕ} {r : ParamScan} (h : maxlen ≤ r.buf.length)
    (state : ParamState) (idx : ℤ) (s : List UInt8) :
    getParamLoop num maxlen state idx r s = r := by
  cases s <;> simp [getParamLoop, Nat.not_lt.mpr h]

/-- The loop leaves the whole text of the wanted parameter, if there is room for it and
the NUL, or so much of it that there is no room for the NUL. -/
def CopiesText (num : ℤ) (maxlen : ℕ) (state : ParamState) (r : ParamScan) (s : List UInt8) : Prop :=
  (r.buf.length + (paramText state s).length < maxlen →
    getParamLoop num maxlen state num r s = ⟨r.found || s ≠ [], r.buf ++ paramText state s⟩) ∧
  (maxlen ≤ r.buf.length + (paramText state s).length →
    maxlen ≤ (getParamLoop num maxlen state num r s).buf.length)

/-- The last byte of the parameter. -/
theorem copiesText_last {num : ℤ} {maxlen : ℕ} {state : ParamState} {r : ParamScan} {s : List UInt8}
    (hs : s ≠ []) (hloop : getParamLoop num maxlen state num r s = ⟨true, r.buf ++ paramText state s⟩) :
    CopiesText num maxlen state r s := by
  simp [CopiesText, hloop, hs]

/-- One step of the copy. -/
theorem copiesText_step {num : ℤ} {maxlen : ℕ} {state state' : ParamState} {r : ParamScan} {s s' x : List UInt8}
    (hs : s ≠ []) (htext : paramText state s = x ++ paramText state' s')
    (hloop : getParamLoop num maxlen state num r s = getParamLoop num maxlen state' num ⟨true, r.buf ++ x⟩ s')
    (ih : ∀ r : ParamScan, r.buf.length < maxlen → CopiesText num maxlen state' r s') :
    CopiesText num maxlen state r s := by
  unfold CopiesText
  rw [hloop, htext, List.length_append]
  by_cases hroom : (r.buf ++ x).length < maxlen
  · obtain ⟨hfits, hfull⟩ := ih ⟨true, r.buf ++ x⟩ hroom
    simp only [List.length_append] at hfits hfull
    constructor
    · intro h
      rw [hfits (by omega)]
      simp [hs]
    · intro h
      exact hfull (by omega)
  · rw [getParamLoop_full (Nat.not_lt.mp hroom)]
    simp only [List.length_append] at hroom ⊢
    constructor <;> intro <;> omega

/-- The copy of the wanted parameter. -/
theorem getParamLoop_copy (num : ℤ) {maxlen : ℕ} (state : ParamState) (s : List UInt8) :
    ∀ r : ParamScan, r.buf.length < maxlen → CopiesText num maxlen state r s := by
  fun_induction paramText state s with
  | case1 =>
      intro r hr
      simp [CopiesText, getParamLoop, paramText]
  | case2 c h | case3 c h =>
      intro r hr
      apply copiesText_last (by simp)
      grind [getParamLoop, paramText]
  | case4 d s =>
      intro r hr
      apply copiesText_last (by simp)
      simp [getParamLoop, paramText, hr]
  | case5 d s hc ih =>
      intro r hr
      refine copiesText_step (x := []) (by simp) (by simp [paramText, hc]) ?_ ih
      rw [getParamLoop, if_pos ⟨le_refl _, hr⟩]
      simp [hc]
  | case6 c d s hc hd h ih =>
      obtain ⟨rfl, rfl⟩ := h
      intro r hr
      refine copiesText_step (x := [backslash, dquote]) (by simp) (by simp [paramText, hc, hd]) ?_ ih
      rw [getParamLoop, if_pos ⟨le_refl _, hr⟩]
      simp [hc, hd]
  | case7 c d s hc hd h hsp ih =>
      intro r hr
      refine copiesText_step (x := [c]) (by simp) (by simp [paramText, hc, hd, h, hsp]) ?_ ih
      rw [getParamLoop, if_pos ⟨le_refl _, hr⟩]
      simp [hc, hd, h, hsp]
  | case8 c d s hc hd h hsp ih =>
      intro r hr
      refine copiesText_step (x := []) (by simp) (by simp [paramText, hc, hd, h, hsp]) ?_ ih
      rw [getParamLoop, if_pos ⟨le_refl _, hr⟩]
      simp [hc, hd, h, hsp]
  | case9  =>
      intro r hr
      apply copiesText_last (by simp)
      simp [getParamLoop, paramText, hr]
  | case10 c hd =>
      intro r hr
      apply copiesText_last (by simp)
      simp [getParamLoop, paramText, hr, hd]
  | case11 d s ih =>
      intro r hr
      refine copiesText_step (x := []) (by simp) (by simp [paramText]) ?_ ih
      rw [getParamLoop, if_pos ⟨le_refl _, hr⟩]
      simp
  | case12 c d s hd h ih =>
      obtain ⟨rfl, rfl⟩ := h
      intro r hr
      refine copiesText_step (x := [dquote]) (by simp) (by simp [paramText, hd]) ?_ ih
      rw [getParamLoop, if_pos ⟨le_refl _, hr⟩]
      simp [hd]
  | case13 c d s hd h ih =>
      intro r hr
      refine copiesText_step (x := [c]) (by simp) (by simp [paramText, hd, h]) ?_ ih
      rw [getParamLoop, if_pos ⟨le_refl _, hr⟩]
      simp [hd, h]
  | case14 s =>
      intro r hr
      apply copiesText_last (by simp)
      simp [getParamLoop, paramText, hr]
  | case15 c s hc ih =>
      intro r hr
      refine copiesText_step (x := [c]) (by simp) (by simp [paramText, hc]) ?_ ih
      rw [getParamLoop, if_pos ⟨le_refl _, hr⟩]
      simp [hc]

/-! ## what `get_param` finds -/

/-- What stands at the parameter `num` and behind it. -/
def paramAt (param : CString) (num : ℤ) : Option (List UInt8) :=
  if num ≤ 0 then none else paramRest (num.toNat - 1) false param.val

/-- The text of the parameter `num`, the empty one where there is no such parameter. -/
def paramTextAt (param : CString) (num : ℤ) : List UInt8 :=
  match paramAt param num with
  | none => []
  | some s => paramText .init s

/-- `get_param` runs its loop from the wanted parameter on. -/
theorem getParam_eq (param : CString) (num : ℤ) {maxlen : ℕ} (hmax : 0 < maxlen) :
    getParam param num maxlen =
      match paramAt param num with
      | none => ⟨false, []⟩
      | some s =>
          let r := getParamLoop num maxlen .init num ⟨false, []⟩ s
          ⟨r.found || num = 1, r.buf⟩ := by
  unfold paramAt getParam
  rcases Int.lt_trichotomy num 1 with hneg | rfl | hpos
  · have hle : num ≤ 0 := by omega
    have hloop : getParamLoop num maxlen .init 1 ⟨false, []⟩ param.val = ⟨false, []⟩ := by
      cases param.val <;> simp [getParamLoop, Int.not_le.mpr hneg]
    simp [hloop, hle, Int.ne_of_lt hneg]
  · simp [paramRest]
  · obtain ⟨n, rfl⟩ : ∃ n : ℕ, num = n + 2 := ⟨(num - 2).toNat, by omega⟩
    have hskip := getParamLoop_skip (n + 2) hmax n false param.val
    rw [show (n : ℤ) + 2 - (n + 1) = 1 by ring] at hskip
    rw [if_neg (by omega), show ((n : ℤ) + 2).toNat - 1 = n + 1 by omega]
    simp only [skipState, Bool.false_eq_true, if_false] at hskip
    rw [hskip]
    have hone : ¬(n : ℤ) + 2 = 1 := by omega
    cases paramRest (n + 1) false param.val <;> simp [hone]

/-- **A large buffer**: it holds the text of the wanted parameter, and the parameter is found
if it is the first one or something stands where it begins. -/
theorem getParam_large {param : CString} {num : ℤ} {maxlen : ℕ} (h : (paramTextAt param num).length < maxlen) :
    getParam param num maxlen =
      ⟨num = 1 || (paramAt param num).any (· ≠ []), paramTextAt param num⟩ := by
  have hmax : 0 < maxlen := by omega
  rw [getParam_eq param num hmax]
  unfold paramTextAt at h ⊢
  cases hat : paramAt param num with
  | none =>
      have hone : num ≠ 1 := by
        rintro rfl
        simp [paramAt, paramRest] at hat
      simp [hone]
  | some s =>
      rw [hat] at h
      have hcopy := (getParamLoop_copy num .init s ⟨false, []⟩ hmax).1 (by simpa using h)
      simp only [hcopy]
      simp [Bool.or_comm]

/-- A small buffer is filled up. -/
theorem getParam_small {param : CString} {num : ℤ} {maxlen : ℕ} (hmax : 0 < maxlen)
    (h : maxlen ≤ (paramTextAt param num).length) : maxlen ≤ (getParam param num maxlen).buf.length := by
  rw [getParam_eq param num hmax]
  unfold paramTextAt at h
  cases hat : paramAt param num with
  | none =>
      rw [hat] at h
      simp at h
      omega
  | some s =>
      rw [hat] at h
      exact (getParamLoop_copy num .init s ⟨false, []⟩ hmax).2 (by simpa using h)

/-- A parameter is no longer than its list. -/
theorem length_paramRest {n : ℕ} {quoted : Bool} {s t : List UInt8} (h : paramRest n quoted s = some t) :
    t.length ≤ s.length := by
  fun_induction paramRest n quoted s <;> grind

/-- The text of a parameter is no longer than what it is read from. -/
theorem length_paramText (state : ParamState) (s : List UInt8) : (paramText state s).length ≤ s.length := by
  fun_induction paramText state s <;> grind

/-- A buffer that is longer than the list holds every parameter. -/
theorem length_paramTextAt (param : CString) (num : ℤ) :
    (paramTextAt param num).length ≤ param.val.length := by
  unfold paramTextAt paramAt
  split
  · simp
  · rename_i s hs
    split at hs
    · cases hs
    · exact (length_paramText .init s).trans (length_paramRest hs)

/-- What the buffer holds in the end, from its beginning on. -/
def ParamScan.memory (r : ParamScan) : List UInt8 := r.buf ++ [nul]

/-- Where the loop ends in front of the end of the buffer, there is room for the NUL. -/
theorem ParamScan.stores_lt_iff {r : ParamScan} {maxlen : ℕ} :
    (∀ i ∈ r.stores, i < maxlen) ↔ r.buf.length < maxlen := by
  constructor
  · intro h
    exact h _ (by simp [stores])
  · intro h i hi
    simp only [stores, List.mem_cons, List.mem_append, List.mem_range, List.not_mem_nil, or_false] at hi
    omega

/-- **The bound of the output**: `get_param` stays within the buffer and ends the text
with a NUL there if and only if the text of the parameter is shorter than the buffer. -/
theorem getParam_in_buf_iff (param : CString) (num : ℤ) (maxlen : ℕ) (hmax : 1 ≤ maxlen) :
    ((∀ i ∈ (getParam param num maxlen).stores, i < maxlen) ∧
      nul ∈ (getParam param num maxlen).memory.take maxlen) ↔
    (paramTextAt param num).length < maxlen := by
  rw [ParamScan.stores_lt_iff]
  constructor
  · rintro ⟨hlt, -⟩
    by_contra hlen
    exact absurd (getParam_small hmax (Nat.not_lt.mp hlen)) (Nat.not_le.mpr hlt)
  · intro hlen
    rw [getParam_large hlen]
    refine ⟨hlen, ?_⟩
    rw [ParamScan.memory, List.take_of_length_le (by simpa using hlen)]
    simp

/-- A buffer of eight bytes holds a parameter of seven. -/
theorem getParam_in_buf_path :
    (∀ i ∈ (getParam ⟨bytes "\"/a\\\"b/c\",x", by decide⟩ 1 8).stores, i < 8) ∧
      nul ∈ (getParam ⟨bytes "\"/a\\\"b/c\",x", by decide⟩ 1 8).memory.take 8 :=
  (getParam_in_buf_iff ⟨bytes "\"/a\\\"b/c\",x", by decide⟩ 1 8 (by decide)).mpr (by decide)

/-- The NUL of a parameter that is as long as the buffer is stored behind it. -/
theorem getParam_past_end :
    ¬∀ (param : CString) (num : ℤ) (maxlen : ℕ), 1 ≤ maxlen →
      (∀ i ∈ (getParam param num maxlen).stores, i < maxlen) ∧
        nul ∈ (getParam param num maxlen).memory.take maxlen := by
  intro h
  have hstore := (h ⟨bytes "cpu,idle", by decide⟩ 2 4 (by decide)).1 4
  revert hstore
  decide

end Zabbix
