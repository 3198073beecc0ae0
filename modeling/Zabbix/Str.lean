import Zabbix.Lib.Ascii
import Zabbix.Lib.Mem
import Mathlib.Data.List.DropRight

/-!
# Zabbix.Str

String helpers of `libs/zbxcommon/str.c` that the database code rests on.
A C string in memory is addressed by its offset; as an argument it is the
list of its bytes, without the NUL.
-/

namespace Zabbix

/-- `MAX_STRING_LEN`. -/
def maxStringLen : Nat := 2048

/-- A string of the source. -/
def literal (s : String) (_h : decide ((0 : UInt8) ∉ bytes s) = true := by exact Eq.refl true) : CString :=
  ⟨bytes s, nul_not_mem_bytes s _h⟩

/-! ## zbx_strlcpy -/

/-- `zbx_strlcpy`: copy at most `siz - 1` bytes of `src` to `dst` and
terminate them with NUL.  The copy loop decrements `siz` before each byte, so
the last byte of the destination is always the terminator. -/
def zbxStrlcpy (m : Mem) (dst : Nat) : List UInt8 → (siz : Nat) → Mem
  | _, 0 => m
  | _, 1 => Function.update m dst 0
  | [], _ + 2 => Function.update m dst 0
  | c :: src, siz + 2 => zbxStrlcpy (Function.update m dst c) (dst + 1) src (siz + 1)

/-- `zbx_strlcpy` stores the first `siz - 1` bytes of `src` and a NUL. -/
theorem zbxStrlcpy_eq_write (m : Mem) (dst : Nat) (src : List UInt8) (siz : Nat) :
    zbxStrlcpy m dst src (siz + 1) = m.write dst (src.take siz ++ [0]) := by
  induction src generalizing m dst siz with
  | nil => cases siz <;> simp [zbxStrlcpy, Mem.write_cons]
  | cons c src ih =>
      cases siz with
      | zero => simp [zbxStrlcpy, Mem.write_cons]
      | succ siz => simp [zbxStrlcpy, Mem.write_cons, ih]

/-- The string that `zbx_strlcpy` leaves in a buffer of `siz` bytes. -/
def strlcpyString (src : CString) (siz : ℕ) : CString :=
  ⟨src.val.take (siz - 1), fun h => src.property (List.mem_of_mem_take h)⟩

/-! ## zbx_snprintf_alloc -/

/-- `zbx_vsnprintf`: of the formatted text, at most `count - 1` bytes are
written. -/
def zbxVsnprintf (count : Nat) (text : List UInt8) : List UInt8 := text.take (count - 1)

/-- `zbx_snprintf_alloc`: the formatted text is appended at the offset, which
is the end of `str`; the buffer is grown first, so only `max_len` cuts. -/
def zbxSnprintfAlloc (str : List UInt8) (maxLen : Nat) (text : List UInt8) : List UInt8 :=
  str ++ zbxVsnprintf maxLen text

theorem zbxVsnprintf_of_lt {count : Nat} {text : List UInt8} (h : text.length < count) :
    zbxVsnprintf count text = text :=
  List.take_of_length_le (by omega)

theorem length_zbxVsnprintf_le (count : Nat) (text : List UInt8) :
    (zbxVsnprintf count text).length ≤ text.length := by
  rw [zbxVsnprintf, List.length_take]
  omega

/-- A text that does not fit loses bytes. -/
theorem length_zbxVsnprintf_lt {count : Nat} {text : List UInt8} (h0 : 0 < text.length)
    (h : count ≤ text.length) : (zbxVsnprintf count text).length < text.length := by
  rw [zbxVsnprintf, List.length_take]
  omega

/-- A nonempty text is written whole exactly when it is shorter than the cap. -/
theorem zbxVsnprintf_eq_iff {count : Nat} {text : List UInt8} (h : text ≠ []) :
    zbxVsnprintf count text = text ↔ text.length < count := by
  constructor
  · intro heq
    by_contra hlt
    have := length_zbxVsnprintf_lt (List.length_pos_of_ne_nil h) (Nat.not_lt.mp hlt)
    rw [heq] at this
    omega
  · exact zbxVsnprintf_of_lt

/-! ## strscpy, strchr, strrchr and the trimming of spaces -/

/-- `strscpy` into an array of `MAX_STRING_LEN` bytes. -/
def strscpy (src : List UInt8) : List UInt8 := src.take (maxStringLen - 1)

/-- `strchr`, as what stands before and behind the first `c`. -/
def strchr (c : UInt8) : List UInt8 → Option (List UInt8 × List UInt8)
  | [] => none
  | a :: s => if a = c then some ([], s) else (strchr c s).map fun p => (a :: p.1, p.2)

/-- `lrtrim_spaces`. -/
def lrtrimSpaces (c : List UInt8) : List UInt8 :=
  (c.dropWhile (· = Ascii.space)).rdropWhile (· = Ascii.space)

/-- `zbx_rtrim` -/
def zbxRtrim (str charlist : List UInt8) : List UInt8 := str.rdropWhile fun c => charlist.contains c

/-- `zbx_ltrim` -/
def zbxLtrim (str charlist : List UInt8) : List UInt8 := str.dropWhile fun c => charlist.contains c

/-- `zbx_remove_chars` -/
def zbxRemoveChars (str charlist : List UInt8) : List UInt8 := str.filter fun c => !charlist.contains c

theorem strscpy_of_lt {src : List UInt8} (h : src.length < maxStringLen) : strscpy src = src :=
  List.take_of_length_le (Nat.le_sub_one_of_lt h)

theorem strchr_of_not_mem {c : UInt8} {s : List UInt8} (h : c ∉ s) : strchr c s = none := by
  induction s with
  | nil => rfl
  | cons a s ih =>
      rw [List.mem_cons, not_or] at h
      rw [strchr, if_neg (Ne.symm h.1), ih h.2]
      rfl

/-- `strchr` stops at the first occurrence. -/
theorem strchr_append_cons {c : UInt8} {s : List UInt8} (h : c ∉ s) (t : List UInt8) :
    strchr c (s ++ c :: t) = some (s, t) := by
  induction s with
  | nil => simp [strchr]
  | cons a s ih =>
      rw [List.mem_cons, not_or] at h
      rw [List.cons_append, strchr, if_neg (Ne.symm h.1), ih h.2]
      rfl

/-- What `strchr` finds is the first occurrence. -/
theorem not_mem_of_strchr {c : UInt8} {s front behind : List UInt8} (h : strchr c s = some (front, behind)) :
    c ∉ front := by
  induction s generalizing front with
  | nil => cases h
  | cons a s ih =>
      rw [strchr] at h
      split at h
      · cases h
        simp
      · next ha =>
          obtain ⟨⟨front', behind'⟩, hfound, heq⟩ := Option.map_eq_some_iff.mp h
          cases heq
          simp [Ne.symm ha, ih hfound]

theorem strchr_eq_some {c : UInt8} {s : List UInt8} {p : List UInt8 × List UInt8}
    (h : strchr c s = some p) : s = p.1 ++ c :: p.2 := by
  induction s generalizing p with
  | nil => cases h
  | cons a s ih =>
      rw [strchr] at h
      split at h
      · next ha =>
          cases h
          rw [ha]
          rfl
      · obtain ⟨q, hq, rfl⟩ := Option.map_eq_some_iff.mp h
        rw [ih hq]
        rfl

/-- `strchr` finds what is there. -/
theorem strchr_eq_none_iff {c : UInt8} {s : List UInt8} : strchr c s = none ↔ c ∉ s := by
  refine ⟨fun h hmem => ?_, strchr_of_not_mem⟩
  obtain ⟨front, behind, rfl, hfront⟩ := List.eq_append_cons_of_mem hmem
  rw [strchr_append_cons hfront] at h
  cases h

/-- It goes behind one occurrence. -/
theorem count_of_strchr {c : UInt8} {s a b : List UInt8} (h : strchr c s = some (a, b)) :
    s.count c = b.count c + 1 := by
  have hfront := List.count_eq_zero.mpr (not_mem_of_strchr h)
  have hs := strchr_eq_some h
  dsimp only at hs
  rw [hs, List.count_append, List.count_cons_self, hfront, Nat.zero_add]

/-- `strrchr`, as what stands before and behind the last `c`. -/
def strrchr (c : UInt8) : List UInt8 → Option (List UInt8 × List UInt8)
  | [] => none
  | a :: s =>
      match strrchr c s with
      | some (front, behind) => some (a :: front, behind)
      | none => if a = c then some ([], s) else none

/-- `strrchr` finds what is there. -/
theorem strrchr_eq_none_iff {c : UInt8} {s : List UInt8} : strrchr c s = none ↔ c ∉ s := by
  induction s with
  | nil => simp [strrchr]
  | cons a s ih =>
      rw [strrchr, List.mem_cons, not_or]
      cases hs : strrchr c s with
      | some p =>
          have hmem : ¬c ∉ s := fun h => by
            rw [ih.mpr h] at hs
            cases hs
          simp [hmem]
      | none => simp [ih.mp hs, eq_comm]

/-- `strrchr` stops at the last occurrence. -/
theorem strrchr_append_cons {c : UInt8} {t : List UInt8} (s : List UInt8) (h : c ∉ t) :
    strrchr c (s ++ c :: t) = some (s, t) := by
  induction s with
  | nil =>
      rw [List.nil_append, strrchr, strrchr_eq_none_iff.mpr h]
      exact if_pos rfl
  | cons a s ih => rw [List.cons_append, strrchr, ih]

/-- What `strrchr` finds is the last occurrence. -/
theorem strrchr_eq_some {c : UInt8} {s front behind : List UInt8} (h : strrchr c s = some (front, behind)) :
    s = front ++ c :: behind ∧ c ∉ behind := by
  induction s generalizing front with
  | nil => cases h
  | cons a s ih =>
      rw [strrchr] at h
      cases hs : strrchr c s with
      | some p =>
          obtain ⟨front', behind'⟩ := p
          rw [hs] at h
          cases h
          obtain ⟨rfl, hbehind⟩ := ih hs
          exact ⟨rfl, hbehind⟩
      | none =>
          rw [hs] at h
          dsimp only at h
          split at h
          · next ha =>
              cases h
              rw [ha]
              exact ⟨rfl, strrchr_eq_none_iff.mp hs⟩
          · cases h

theorem lrtrimSpaces_of_ends {s : List UInt8} (hh : s.head? ≠ some Ascii.space)
    (hl : s.getLast? ≠ some Ascii.space) : lrtrimSpaces s = s := by
  have hd : s.dropWhile (· = Ascii.space) = s := by
    cases s with
    | nil => rfl
    | cons c s =>
        have hc : c ≠ Ascii.space := by simpa using hh
        simp [hc]
  rw [lrtrimSpaces, hd, List.rdropWhile_eq_self_iff]
  intro hne
  rw [List.getLast?_eq_some_getLast hne] at hl
  simpa using hl

theorem lrtrimSpaces_of_not_mem {s : List UInt8} (h : Ascii.space ∉ s) : lrtrimSpaces s = s :=
  lrtrimSpaces_of_ends (fun hh => h (List.mem_of_head? hh)) fun hl => h (List.mem_of_getLast? hl)

/-- Trimming leaves a part of the text. -/
theorem sublist_lrtrimSpaces (s : List UInt8) : (lrtrimSpaces s).Sublist s :=
  ((List.rdropWhile_prefix _ _).sublist).trans (List.dropWhile_sublist _)

/-! ## texts put together from pieces -/

/-- Texts of pieces, each no longer than its counterpart, are no longer. -/
theorem length_flatMap_le {α : Type} {f g : α → List UInt8} {l : List α}
    (h : ∀ a ∈ l, (f a).length ≤ (g a).length) : (l.flatMap f).length ≤ (l.flatMap g).length := by
  induction l with
  | nil => simp
  | cons a l ih =>
      have ha := h a (List.mem_cons_self ..)
      have hl := ih fun x hx => h x (List.mem_cons_of_mem _ hx)
      simp only [List.flatMap_cons, List.length_append]
      omega

/-- Such texts are the same only piece by piece. -/
theorem flatMap_eq_iff {α : Type} {f g : α → List UInt8} {l : List α}
    (h : ∀ a ∈ l, (f a).length ≤ (g a).length) :
    l.flatMap f = l.flatMap g ↔ ∀ a ∈ l, f a = g a := by
  induction l with
  | nil => simp
  | cons a l ih =>
      have ha := h a (List.mem_cons_self ..)
      have hl : ∀ x ∈ l, (f x).length ≤ (g x).length := fun x hx => h x (List.mem_cons_of_mem _ hx)
      have hlen := length_flatMap_le hl
      rw [List.forall_mem_cons, ← ih hl, List.flatMap_cons, List.flatMap_cons]
      constructor
      · intro heq
        have hn := congrArg List.length heq
        rw [List.length_append, List.length_append] at hn
        exact List.append_inj heq (by omega)
      · rintro ⟨h1, h2⟩
        rw [h1, h2]

/-- Such texts are equally long only piece by piece. -/
theorem length_flatMap_eq_iff {α : Type} {f g : α → List UInt8} {l : List α}
    (h : ∀ a ∈ l, (f a).length ≤ (g a).length) :
    (l.flatMap f).length = (l.flatMap g).length ↔ ∀ a ∈ l, (f a).length = (g a).length := by
  induction l with
  | nil => simp
  | cons a l ih =>
      have ha := h a (List.mem_cons_self ..)
      have hl : ∀ x ∈ l, (f x).length ≤ (g x).length := fun x hx => h x (List.mem_cons_of_mem _ hx)
      have hlen := length_flatMap_le hl
      rw [List.forall_mem_cons, ← ih hl, List.flatMap_cons, List.flatMap_cons, List.length_append,
        List.length_append]
      omega

/-- Appending formatted texts one by one. -/
theorem foldl_zbxSnprintfAlloc {α : Type} (maxLen : α → Nat) (text : α → List UInt8) (l : List α)
    (str : List UInt8) :
    l.foldl (fun str a => zbxSnprintfAlloc str (maxLen a) (text a)) str =
      str ++ l.flatMap fun a => zbxVsnprintf (maxLen a) (text a) := by
  induction l generalizing str with
  | nil => simp
  | cons a l ih =>
      rw [List.foldl_cons, ih, zbxSnprintfAlloc, List.append_assoc, List.flatMap_cons]

end Zabbix
