import Zabbix.Comms.Tcp

/-!
# Zabbix.Comms.Bounds

What `zbx_tcp_recv_ext` accesses.

Before it fills the static buffer it looks at the last byte that it has read.
After a header there is none, so that it looks in front of the buffer; all its
other accesses are inside.
-/

namespace Zabbix

open Ascii

/-- All accesses are to bytes of the buffers. -/
def TcpRecv.InBounds (s : TcpRecv) : Prop := ∀ a ∈ s.accesses, a.InBounds

/-- The call returns, and has accessed no byte outside its buffers. -/
def TcpReceived.Safe (r : TcpReceived) : Prop := r.result ≠ .overflow ∧ r.recv.InBounds

theorem inBounds_append {accesses accesses' : List Access} (h : ∀ a ∈ accesses, a.InBounds)
    (h' : ∀ a ∈ accesses', a.InBounds) : ∀ a ∈ accesses ++ accesses', a.InBounds :=
  List.forall_mem_append.mpr ⟨h, h'⟩

/-! ## the static buffer -/

/-- What is stored in the static buffer: `read_bytes` bytes, and the one behind
them is in the buffer as well. -/
structure TcpRecv.Stat (s : TcpRecv) : Prop where
  length : s.content.length = s.readBytes
  le : s.readBytes ≤ zbxStatBufLen - 1

/-- The loop stays in the static buffer. -/
theorem recvStat_bounds {expectedLen left : ℕ} {untilClose : Bool} {s : TcpRecv} (hs : s.Stat)
    (hleft : s.readBytes + left = zbxStatBufLen - 1) :
    (recvStat expectedLen untilClose left s).2.Stat ∧
      (s.InBounds → (recvStat expectedLen untilClose left s).2.InBounds) ∧
      s.accesses <+: (recvStat expectedLen untilClose left s).2.accesses := by
  have hread : ∀ {readBytes left : ℕ}, readBytes + left = zbxStatBufLen - 1 →
      Access.InBounds ⟨zbxStatBufLen, readBytes, left⟩ := by
    intro readBytes left h
    rw [zbxStatBufLen] at h
    simp only [Access.InBounds, zbxStatBufLen]
    omega
  fun_induction recvStat expectedLen untilClose left s with
  | case1 left s _ accesses t _ =>
      exact ⟨⟨hs.length, hs.le⟩, fun h => inBounds_append h (List.forall_mem_singleton.mpr (hread hleft)),
        List.prefix_append ..⟩
  | case2 left s _ accesses chunk t hchunk s' _ =>
      have hle := (Transport.read_spec hchunk).2
      refine ⟨⟨?_, ?_⟩, fun h => inBounds_append h (List.forall_mem_singleton.mpr (hread hleft)),
        List.prefix_append ..⟩
      · rw [List.length_append, hs.length]
      · change s.readBytes + chunk.length ≤ zbxStatBufLen - 1
        omega
  | case3 left s _ accesses chunk t hchunk s' _ ih =>
      have hle := (Transport.read_spec hchunk).2
      have hs' : s'.Stat := by
        constructor
        · rw [List.length_append, hs.length]
        · change s.readBytes + chunk.length ≤ zbxStatBufLen - 1
          omega
      obtain ⟨hstat, hbounds, hprefix⟩ := ih hs' (by change s.readBytes + chunk.length + _ = _; omega)
      exact ⟨hstat, fun h => hbounds (inBounds_append h (List.forall_mem_singleton.mpr (hread hleft))),
        (List.prefix_append ..).trans hprefix⟩
  | case4 left s _ => exact ⟨hs, id, List.prefix_refl _⟩

/-! ## the dynamic buffer -/

/-- The sizes that the dynamic buffer can have. -/
def IsAllocated (allocated : ℕ) : Prop := ∃ k ≤ 16, allocated = 2 ^ (14 + k)

theorem isAllocated_zbxBufLen : IsAllocated zbxBufLen := ⟨0, by decide, by decide⟩

/-- The buffer can be made large enough for less than 2^30 bytes, and not for
more. -/
theorem growAllocated_spec (need : ℕ) {allocated : ℕ} (h : IsAllocated allocated) :
    (need < 2 ^ 30 → ∃ allocated', growAllocated need allocated = some allocated' ∧ IsAllocated allocated' ∧
      need < allocated') ∧ (2 ^ 30 ≤ need → growAllocated need allocated = none) := by
  fun_induction growAllocated need allocated with
  | case1 allocated hlt =>
      obtain ⟨k, hk, rfl⟩ := h
      have hle : 2 ^ (14 + k) ≤ 2 ^ 30 := Nat.pow_le_pow_right (by decide) (by omega)
      exact ⟨fun _ => ⟨_, rfl, ⟨k, hk, rfl⟩, hlt⟩, fun hneed => absurd hlt (by omega)⟩
  | case2 allocated hlt hdouble ih =>
      obtain ⟨k, hk, rfl⟩ := h
      have hk' : k + 1 ≤ 16 := by
        by_contra hgt
        obtain rfl : k = 16 := by omega
        exact absurd hdouble.2 (by decide)
      exact ih ⟨k + 1, hk', by rw [← Nat.add_assoc, Nat.pow_succ]⟩
  | case3 allocated hlt hdouble =>
      obtain ⟨k, hk, rfl⟩ := h
      refine ⟨fun hneed => ?_, fun _ => rfl⟩
      -- the size cannot be doubled at 2^30 only
      have hpos : 0 < 2 ^ (14 + k) := Nat.pow_pos (by decide)
      have hdouble' : ¬2 ^ (14 + k) * 2 < 2 ^ 31 := fun h => hdouble ⟨hpos, h⟩
      have hle : 2 ^ 30 ≤ 2 ^ (14 + k) := by omega
      omega

/-- Without overflow the loop stays in its buffers. -/
theorem recvDyn_safe {expectedLen allocated : ℕ} {untilClose : Bool} {s : TcpRecv}
    (hexpected : expectedLen + zbxStatBufLen ≤ 2 ^ 30) (hallocated : IsAllocated allocated)
    (hcontent : s.content.length ≤ s.readBytes) (hs : s.InBounds) :
    (recvDyn expectedLen untilClose allocated s).Safe := by
  have hstat : Access.InBounds ⟨zbxStatBufLen, 0, zbxStatBufLen - 1⟩ := by decide
  have hnul : ∀ {chunk : List UInt8}, chunk.length ≤ zbxStatBufLen - 1 →
      Access.InBounds ⟨zbxStatBufLen, chunk.length, 1⟩ := by
    intro chunk h
    simp only [Access.InBounds, zbxStatBufLen] at h ⊢
    omega
  fun_induction recvDyn expectedLen untilClose allocated s with
  | case1 allocated s _ accesses t _ =>
      exact ⟨(fun h => nomatch h), inBounds_append hs (List.forall_mem_singleton.mpr hstat)⟩
  | case2 allocated s hlt accesses chunk t hchunk accesses' hgrow =>
      obtain ⟨_, hsome, -⟩ := (growAllocated_spec _ hallocated).1
        (show s.content.length + zbxStatBufLen < 2 ^ 30 by omega)
      cases hgrow.symm.trans hsome
  | case3 allocated s hlt accesses chunk t hchunk accesses' allocated' hgrow s' _ =>
      obtain ⟨_, hsome, -, hneed⟩ := (growAllocated_spec _ hallocated).1
        (show s.content.length + zbxStatBufLen < 2 ^ 30 by omega)
      obtain rfl := Option.some.inj (hgrow.symm.trans hsome)
      have hle := (Transport.read_spec hchunk).2
      have happend : Access.InBounds ⟨allocated', s.content.length, zbxStatBufLen⟩ := by
        simp only [Access.InBounds]
        omega
      exact ⟨(fun h => nomatch h), inBounds_append (inBounds_append (inBounds_append hs (List.forall_mem_singleton.mpr hstat))
        (List.forall_mem_singleton.mpr (hnul hle))) (List.forall_mem_singleton.mpr happend)⟩
  | case4 allocated s hlt accesses chunk t hchunk accesses' allocated' hgrow s' _ ih =>
      obtain ⟨_, hsome, hallocated', hneed⟩ := (growAllocated_spec _ hallocated).1
        (show s.content.length + zbxStatBufLen < 2 ^ 30 by omega)
      obtain rfl := Option.some.inj (hgrow.symm.trans hsome)
      have hle := (Transport.read_spec hchunk).2
      have happend : Access.InBounds ⟨allocated', s.content.length, zbxStatBufLen⟩ := by
        simp only [Access.InBounds]
        omega
      refine ih hallocated' ?_ (inBounds_append (inBounds_append (inBounds_append hs (List.forall_mem_singleton.mpr hstat))
        (List.forall_mem_singleton.mpr (hnul hle))) (List.forall_mem_singleton.mpr happend))
      have hwhile : (chunk.takeWhile (· ≠ 0)).length ≤ chunk.length := (List.takeWhile_prefix _).length_le
      change (s.content ++ _).length ≤ s.readBytes + chunk.length
      rw [List.length_append, List.length_take]
      omega
  | case5 allocated s _ => exact ⟨(fun h => nomatch h), hs⟩

/-- What has been accessed stays so. -/
theorem accesses_recvDyn (expectedLen allocated : ℕ) (untilClose : Bool) (s : TcpRecv) :
    s.accesses <+: (recvDyn expectedLen untilClose allocated s).recv.accesses := by
  fun_induction recvDyn expectedLen untilClose allocated s with
  | case1 => exact List.prefix_append ..
  | case2 => exact (List.prefix_append ..).trans (List.prefix_append ..)
  | case3 => exact ((List.prefix_append ..).trans (List.prefix_append ..)).trans (List.prefix_append ..)
  | case4 allocated s _ accesses chunk t _ accesses' allocated' _ s' _ ih =>
      exact (((List.prefix_append ..).trans (List.prefix_append ..)).trans (List.prefix_append ..)).trans ih
  | case5 => exact List.prefix_refl _

/-! ## a call -/

/-- The look at the last byte is on record; with a byte to look at the filling
stays in the static buffer. -/
theorem fillStat_bounds (last : UInt8) (expectedLen : ℕ) (untilClose : Bool) {s : TcpRecv} (hs : s.Stat) :
    (fillStat last expectedLen untilClose s).2.Stat ∧
      (0 < s.readBytes → s.InBounds → (fillStat last expectedLen untilClose s).2.InBounds) ∧
      s.accesses ++ [⟨zbxStatBufLen, (s.readBytes : ℤ) - 1, 1⟩] <+:
        (fillStat last expectedLen untilClose s).2.accesses := by
  have hle := hs.le
  rw [fillStat]
  dsimp only
  set s' : TcpRecv := { s with accesses := s.accesses ++ [⟨zbxStatBufLen, (s.readBytes : ℤ) - 1, 1⟩] }
  have hs' : s'.Stat := ⟨hs.length, hs.le⟩
  have hbounds : 0 < s.readBytes → s.InBounds → s'.InBounds := by
    intro hpos h
    refine inBounds_append h (List.forall_mem_singleton.mpr ?_)
    simp only [Access.InBounds]
    rw [zbxStatBufLen] at hle ⊢
    omega
  split
  · have hleft : s'.readBytes + (zbxStatBufLen - s'.readBytes - 1) = zbxStatBufLen - 1 := by
      change s.readBytes + (zbxStatBufLen - s.readBytes - 1) = _
      rw [zbxStatBufLen] at hle ⊢
      omega
    obtain ⟨hstat, hbounds', hprefix⟩ := @recvStat_bounds expectedLen _ untilClose s' hs' hleft
    exact ⟨hstat, fun hpos h => hbounds' (hbounds hpos h), hprefix⟩
  · exact ⟨hs', hbounds, List.prefix_refl _⟩

/-- What the filling has accessed is on record in the end. -/
theorem accesses_recvRest (last : UInt8) (expectedLen : ℕ) (untilClose : Bool) (s : TcpRecv) :
    (fillStat last expectedLen untilClose s).2.accesses <+: (recvRest last expectedLen untilClose s).recv.accesses := by
  rw [recvRest]
  dsimp only
  split
  · refine List.IsPrefix.trans ?_ (accesses_recvDyn ..)
    exact (List.prefix_append ..).trans (List.prefix_append ..)
  · exact List.prefix_append ..

/-- With a byte to look at all accesses are in the buffers. -/
theorem recvRest_safe {last : UInt8} {expectedLen : ℕ} {untilClose : Bool} {s : TcpRecv}
    (hexpected : expectedLen + zbxStatBufLen ≤ 2 ^ 30) (hs : s.Stat) (hpos : 0 < s.readBytes) (hbounds : s.InBounds) :
    (recvRest last expectedLen untilClose s).Safe := by
  obtain ⟨hstat, hfill, -⟩ := fillStat_bounds last expectedLen untilClose hs
  rw [recvRest]
  dsimp only
  generalize fillStat last expectedLen untilClose s = r at hstat hfill ⊢
  obtain ⟨error, s'⟩ := r
  dsimp only at hstat hfill ⊢
  have hle := hstat.le
  have hnul : Access.InBounds ⟨zbxStatBufLen, s'.readBytes, 1⟩ := by
    simp only [Access.InBounds]
    rw [zbxStatBufLen] at hle ⊢
    omega
  have hbounds' := inBounds_append (hfill hpos hbounds) (List.forall_mem_singleton.mpr hnul)
  split
  · exact recvDyn_safe hexpected isAllocated_zbxBufLen (Nat.le_of_eq hstat.length)
      (inBounds_append hbounds' (by decide))
  · refine ⟨?_, hbounds'⟩
    dsimp only
    split <;> exact fun h => nomatch h

/-- The call reads a header and something behind it. -/
def HeaderFound (transport : Transport) : Prop :=
  ∃ t t' second, transport.read zbxTcpHeaderLen = (some zbxTcpHeader, t) ∧ t.read 8 = (some second, t') ∧ second ≠ []

/-- **A call stays in its buffers** unless it finds a header with something
behind it. -/
theorem zbxTcpRecvExt_safe_iff (before : UInt8) (stack : List UInt8) (untilClose : Bool) (transport : Transport) :
    (zbxTcpRecvExt before stack untilClose transport).Safe ↔ ¬HeaderFound transport := by
  have hinit : ∀ a ∈ ([⟨zbxStatBufLen, 0, zbxStatBufLen⟩, ⟨zbxStatBufLen, 0, zbxTcpHeaderLen⟩] : List Access),
      a.InBounds := by decide
  rw [zbxTcpRecvExt]
  dsimp only
  split
  · rename_i t hread
    refine iff_of_true ⟨by simp, hinit⟩ ?_
    rintro ⟨t', t'', second, hfirst, -⟩
    cases (Prod.mk.inj (hread.symm.trans hfirst)).1
  · rename_i first t hread
    have hread' := Transport.read_spec hread
    split
    · rename_i hheader
      rw [hheader] at hread
      split
      · rename_i t' hsecond
        refine iff_of_true ⟨by simp, inBounds_append hinit (by decide)⟩ ?_
        rintro ⟨t₁, t₂, second, hfirst, hsecond', -⟩
        obtain ⟨-, rfl⟩ := Prod.mk.inj (hread.symm.trans hfirst)
        cases (Prod.mk.inj (hsecond.symm.trans hsecond')).1
      · rename_i second t' hsecond
        split
        · rename_i hlen
          refine iff_of_true ⟨by simp, inBounds_append hinit (by decide)⟩ ?_
          rintro ⟨t₁, t₂, second', hfirst, hsecond', hne⟩
          obtain ⟨-, rfl⟩ := Prod.mk.inj (hread.symm.trans hfirst)
          obtain ⟨heq, -⟩ := Prod.mk.inj (hsecond.symm.trans hsecond')
          obtain rfl := Option.some.inj heq
          exact hne (List.length_eq_zero_iff.mp hlen)
        · rename_i hlen
          refine iff_of_false (fun hsafe => ?_)
            (not_not_intro ⟨t, t', second, hread, hsecond, fun h => hlen (by rw [h]; rfl)⟩)
          -- the byte in front of the buffer
          obtain ⟨-, -, hlook⟩ := @fillStat_bounds before (LittleEndian.decode ((second ++ stack.drop second.length).take 8)) true
            { transport := t', content := [], readBytes := 0, accesses := _ } ⟨rfl, Nat.zero_le _⟩
          have hprefix := hlook.trans (accesses_recvRest ..)
          have hmem := hprefix.subset (List.mem_append_right _ (List.mem_singleton_self _))
          exact absurd (hsafe.2 _ hmem) (show ¬Access.InBounds ⟨zbxStatBufLen, ((0 : ℕ) : ℤ) - 1, 1⟩ by decide)
    · rename_i hheader
      have hfound : ¬HeaderFound transport := by
        rintro ⟨t', t'', second, hfirst, -⟩
        obtain ⟨heq, -⟩ := Prod.mk.inj (hread.symm.trans hfirst)
        exact hheader (Option.some.inj heq)
      split
      · exact iff_of_true ⟨by simp, hinit⟩ hfound
      · rename_i hstop
        refine iff_of_true (recvRest_safe (by decide) ⟨rfl, hread'.2.trans (by decide)⟩
          (pos_of_not_stopsAfter hstop (by decide)) hinit) hfound

end Zabbix
