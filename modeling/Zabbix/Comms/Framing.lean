import Zabbix.Comms.Bounds

/-!
# Zabbix.Comms.Framing

Which messages arrive.

The header and the length of a message must each come with one read; what is
behind them may come in any pieces, as long as the dynamic buffer does not grow
beyond its `int`.
-/

namespace Zabbix

open Ascii

/-! ## sending -/

theorem intCast_of_lt {n : ℕ} (h : n < 2 ^ 31) : intCast n = n := by
  rw [intCast]
  omega

/-- All that can be counted in an `int` is written, however little each `write`
takes. -/
theorem tcpWrite_of_lt (writes : List ℕ) {data : List UInt8} (h : data.length < 2 ^ 31) :
    tcpWrite writes data = some data := by
  fun_induction tcpWrite writes data with
  | case1 writes => rfl
  | case2 writes data hne hcount =>
      rw [intCast_of_lt h] at hcount
      have hlen := List.length_pos_of_ne_nil hne
      omega
  | case3 writes data hne hcount written ih =>
      rw [ih (by rw [List.length_drop]; omega), Option.map_some, List.take_append_drop]

/-- A longer message is not written to its end. -/
theorem tcpWrite_of_le (writes : List ℕ) {data : List UInt8} (h : 2 ^ 31 ≤ data.length) :
    tcpWrite writes data = none := by
  fun_induction tcpWrite writes data with
  | case1 writes => exact absurd h (by decide)
  | case2 writes data hne hcount => rfl
  | case3 writes data hne hcount written ih =>
      have hwritten := Transport.readSize_le writes (intCast data.length).toNat
      have hrest : 2 ^ 31 ≤ data.length - written := by
        change written ≤ (intCast data.length).toNat at hwritten
        rw [intCast] at hwritten hcount
        omega
      rw [ih (by rwa [List.length_drop]), Option.map_none]

theorem zbxTcpSendExt_eq (writes : List ℕ) (data : CString) :
    zbxTcpSendExt writes data =
      if data.val.length < 2 ^ 31 then
        some (zbxTcpHeader ++ LittleEndian.encode 8 data.val.length ++ data.val)
      else none := by
  rw [zbxTcpSendExt]
  split
  · next h => rw [tcpWrite_of_lt writes h, Option.map_some]
  · next h => rw [tcpWrite_of_le writes (Nat.le_of_not_lt h), Option.map_none]

/-! ## filling the buffers -/

/-- How much is asked for when `offset` bytes are there. -/
def nextLeft (offset : ℕ) : ℕ :=
  if offset < zbxStatBufLen - 1 then zbxStatBufLen - 1 - offset else zbxStatBufLen - 1

theorem nextLeft_pos (offset : ℕ) : 0 < nextLeft offset := by
  rw [nextLeft]
  split
  · omega
  · decide

/-- Every read into the dynamic buffer finds it small enough: `offset` bytes are
there, and `rest` are to come. -/
def AppendsFit (reads : List ℕ) (offset rest : ℕ) : Prop :=
  if _h : rest = 0 then True
  else
    (zbxStatBufLen - 1 ≤ offset → offset + zbxStatBufLen < 2 ^ 30) ∧
      AppendsFit reads.tail (offset + min (Transport.readSize reads (nextLeft offset)) rest)
        (rest - min (Transport.readSize reads (nextLeft offset)) rest)
termination_by rest
decreasing_by
  have hpos := Transport.readSize_pos reads (nextLeft_pos offset)
  omega

theorem appendsFit_zero (reads : List ℕ) (offset : ℕ) : AppendsFit reads offset 0 := by
  rw [AppendsFit.eq_1, dif_pos rfl]
  trivial

theorem appendsFit_of_pos (reads : List ℕ) (offset : ℕ) {rest : ℕ} (h : 0 < rest) :
    AppendsFit reads offset rest ↔ (zbxStatBufLen - 1 ≤ offset → offset + zbxStatBufLen < 2 ^ 30) ∧
      AppendsFit reads.tail (offset + min (Transport.readSize reads (nextLeft offset)) rest)
        (rest - min (Transport.readSize reads (nextLeft offset)) rest) := by
  rw [AppendsFit.eq_1, dif_neg (by omega)]

/-- The condition is met by all messages that are no longer than 2^30 bytes, less
the size of the static buffer. -/
theorem appendsFit_of_le (reads : List ℕ) {offset rest : ℕ} (h : offset + rest + zbxStatBufLen ≤ 2 ^ 30) :
    AppendsFit reads offset rest := by
  induction rest using Nat.strong_induction_on generalizing reads offset with
  | _ rest ih =>
      rcases Nat.eq_zero_or_pos rest with rfl | hrest
      · exact appendsFit_zero reads offset
      · have hpos := Transport.readSize_pos reads (nextLeft_pos offset)
        rw [appendsFit_of_pos reads offset hrest]
        exact ⟨fun _ => by omega, ih _ (by omega) _ (by omega)⟩

/-- How the filling of the static buffer ends, when it goes on until the stream is
closed: the bytes are in the buffer in their order, and it has stopped for one of
three reasons. -/
structure StatFilled (expectedLen : ℕ) (s : TcpRecv) (stream : List UInt8) (reads : List ℕ) (s' : TcpRecv)
    (stream' : List UInt8) (reads' : List ℕ) : Prop where
  transport : s'.transport = Transport.clean stream' reads'
  stat : s'.Stat
  content : s'.content ++ stream' = s.content ++ stream
  ends : expectedLen ≤ s'.readBytes ∨ s'.readBytes = zbxStatBufLen - 1 ∨ stream' = []
  fits : s.readBytes + stream.length = expectedLen →
    (AppendsFit reads s.readBytes stream.length ↔ AppendsFit reads' s'.readBytes stream'.length)

theorem recvStat_filled {expectedLen left : ℕ} {s : TcpRecv} {stream : List UInt8} {reads : List ℕ}
    (htransport : s.transport = Transport.clean stream reads) (hs : s.Stat)
    (hleft : s.readBytes + left = zbxStatBufLen - 1) :
    (recvStat expectedLen true left s).1 = false ∧
      ∃ stream' reads', StatFilled expectedLen s stream reads (recvStat expectedLen true left s).2 stream' reads' := by
  induction left using Nat.strong_induction_on generalizing s stream reads with
  | _ left ih =>
      rw [recvStat]
      split
      · rename_i hloop
        rw [htransport, Transport.read_clean]
        dsimp only
        have hsize := Transport.readSize_le reads left
        have hsize' := Transport.readSize_pos reads hloop.2
        set chunk := stream.take (Transport.readSize reads left) with hchunk
        have hlen : chunk.length = min (Transport.readSize reads left) stream.length := List.length_take
        have hdrop : stream.drop (Transport.readSize reads left) = stream.drop chunk.length := by
          rw [hlen]
          rcases Nat.le_total (Transport.readSize reads left) stream.length with h | h
          · rw [Nat.min_eq_left h]
          · rw [Nat.min_eq_right h, List.drop_eq_nil_of_le h, List.drop_length]
        have hstat : ∀ accesses, TcpRecv.Stat
            ⟨Transport.clean (stream.drop (Transport.readSize reads left)) reads.tail, s.content ++ chunk,
              s.readBytes + chunk.length, accesses⟩ := by
          intro accesses
          refine ⟨by rw [List.length_append, hs.length], ?_⟩
          dsimp only
          omega
        split
        · rename_i hstop
          have hnil : stream = [] := by
            rw [stopsAfter, if_pos rfl, hlen] at hstop
            exact List.length_eq_zero_iff.mp (by omega)
          refine ⟨rfl, _, _, ⟨rfl, hstat _, ?_, .inr (.inr (by rw [hnil, List.drop_nil])), ?_⟩⟩
          · dsimp only
            rw [List.append_assoc, List.take_append_drop]
          · intro hexpected
            rw [hnil, List.length_nil] at hexpected
            omega
        · rename_i hstop
          have hpos := pos_of_not_stopsAfter hstop hloop.2
          obtain ⟨herror, stream', reads', hfilled⟩ :=
            ih (left - chunk.length) (by omega) rfl (hstat _) (by dsimp only; omega)
          refine ⟨herror, stream', reads', ⟨hfilled.transport, hfilled.stat, ?_, hfilled.ends, ?_⟩⟩
          · rw [hfilled.content]
            dsimp only
            rw [List.append_assoc, List.take_append_drop]
          · intro hexpected
            have hleft' : nextLeft s.readBytes = left := by
              rw [nextLeft, if_pos (by omega)]
              omega
            have hrest : stream.length - Transport.readSize reads left = stream.length - chunk.length := by omega
            rw [← hfilled.fits (by dsimp only; rw [List.length_drop]; omega),
              appendsFit_of_pos reads s.readBytes (by omega), hleft', ← hlen, List.length_drop, hrest]
            exact and_iff_right fun h => absurd h (by omega)
      · rename_i hloop
        refine ⟨rfl, stream, reads, ⟨htransport, hs, rfl, ?_, fun _ => Iff.rfl⟩⟩
        by_cases hexpected : expectedLen ≤ s.readBytes
        · exact .inl hexpected
        · refine .inr (.inl ?_)
          change s.readBytes = zbxStatBufLen - 1
          omega

/-- The dynamic buffer only grows. -/
theorem content_recvDyn (expectedLen allocated : ℕ) (untilClose : Bool) (s : TcpRecv) :
    s.content <+: (recvDyn expectedLen untilClose allocated s).recv.content := by
  fun_induction recvDyn expectedLen untilClose allocated s with
  | case1 => exact List.prefix_refl _
  | case2 => exact List.prefix_refl _
  | case3 => exact List.prefix_append ..
  | case4 allocated s _ accesses chunk t _ accesses' allocated' _ s' _ ih => exact (List.prefix_append ..).trans ih
  | case5 => exact List.prefix_refl _

theorem takeWhile_eq_self_of_nul {data : List UInt8} (h : (0 : UInt8) ∉ data) : data.takeWhile (· ≠ 0) = data := by
  refine List.takeWhile_eq_self_iff.mpr fun b hb => ?_
  simpa using fun hb' : b = 0 => h (hb' ▸ hb)

/-- With a message that has no NUL and that comes to its end the dynamic buffer
takes all of it, unless it gets too large. -/
theorem recvDyn_filled {expectedLen allocated : ℕ} {s : TcpRecv} {stream : List UInt8} {reads : List ℕ}
    (htransport : s.transport = Transport.clean stream reads) (hnul : (0 : UInt8) ∉ stream)
    (hexpected : s.readBytes + stream.length = expectedLen) (hlen : s.content.length = s.readBytes)
    (hfull : zbxStatBufLen - 1 ≤ s.readBytes) (hallocated : IsAllocated allocated) :
    (AppendsFit reads s.readBytes stream.length →
        (recvDyn expectedLen true allocated s).result = .succeed ∧
          (recvDyn expectedLen true allocated s).recv.content = s.content ++ stream) ∧
      (¬AppendsFit reads s.readBytes stream.length → (recvDyn expectedLen true allocated s).result = .overflow) := by
  induction hn : stream.length using Nat.strong_induction_on generalizing s stream reads allocated with
  | _ n ih =>
      subst hn
      have hleft : nextLeft s.readBytes = zbxStatBufLen - 1 := by rw [nextLeft, if_neg (by omega)]
      rcases Nat.eq_zero_or_pos stream.length with hzero | hpos
      · -- the message is complete
        obtain rfl := List.length_eq_zero_iff.mp hzero
        rw [recvDyn, if_neg (by simp at hexpected; omega)]
        exact ⟨fun _ => ⟨rfl, (List.append_nil _).symm⟩, fun h => absurd (appendsFit_zero reads _) h⟩
      · have hsize := Transport.readSize_pos reads (show 0 < zbxStatBufLen - 1 by decide)
        have hle := Transport.readSize_le reads (zbxStatBufLen - 1)
        set chunk := stream.take (Transport.readSize reads (zbxStatBufLen - 1)) with hchunk
        have hchunkLen : chunk.length = min (Transport.readSize reads (zbxStatBufLen - 1)) stream.length :=
          List.length_take
        have hstored : (chunk.takeWhile (· ≠ 0)).take (zbxStatBufLen - 1) = chunk := by
          have hchunkNul : (0 : UInt8) ∉ chunk := fun h => hnul (List.mem_of_mem_take h)
          rw [takeWhile_eq_self_of_nul hchunkNul, List.take_of_length_le (by omega)]
        have hrest : (stream.drop (Transport.readSize reads (zbxStatBufLen - 1))).length =
            stream.length - chunk.length := by
          rw [List.length_drop]
          omega
        have hnul' : (0 : UInt8) ∉ stream.drop (Transport.readSize reads (zbxStatBufLen - 1)) :=
          fun h => hnul (List.mem_of_mem_drop h)
        have hnext : ∀ {allocated' : ℕ} (accesses : List Access), IsAllocated allocated' →
            let s' : TcpRecv :=
              ⟨Transport.clean (stream.drop (Transport.readSize reads (zbxStatBufLen - 1))) reads.tail,
                s.content ++ chunk, s.readBytes + chunk.length, accesses⟩
            (AppendsFit reads.tail (s.readBytes + chunk.length) (stream.length - chunk.length) →
                (recvDyn expectedLen true allocated' s').result = .succeed ∧
                  (recvDyn expectedLen true allocated' s').recv.content = s.content ++ chunk ++
                    stream.drop (Transport.readSize reads (zbxStatBufLen - 1))) ∧
              (¬AppendsFit reads.tail (s.readBytes + chunk.length) (stream.length - chunk.length) →
                (recvDyn expectedLen true allocated' s').result = .overflow) := by
          intro allocated' accesses hallocated' s'
          refine @ih _ ?_ allocated' s' _ _ rfl hnul' ?_ ?_ ?_ hallocated' hrest
          · omega
          · change s.readBytes + chunk.length + _ = _
            omega
          · exact (List.length_append ..).trans (by rw [hlen])
          · change zbxStatBufLen - 1 ≤ s.readBytes + chunk.length
            omega
        rw [appendsFit_of_pos reads s.readBytes hpos, hleft, ← hchunkLen]
        generalize hr : recvDyn expectedLen true allocated s = r
        have hread := Transport.read_clean stream reads (zbxStatBufLen - 1)
        rw [← htransport] at hread
        rw [recvDyn.eq_1, if_pos (by omega)] at hr
        split at hr
        · next hread' => cases (Prod.mk.inj (hread'.symm.trans hread)).1
        next chunk' t' hread' =>
        obtain ⟨hchunk', rfl⟩ := Prod.mk.inj (hread'.symm.trans hread)
        obtain rfl := Option.some.inj hchunk'
        rw [← hchunk] at hr
        rcases Nat.lt_or_ge (s.content.length + zbxStatBufLen) (2 ^ 30) with hneed | hneed
        · obtain ⟨allocated', hsome, hallocated', -⟩ := (growAllocated_spec _ hallocated).1 hneed
          rw [hsome] at hr
          dsimp only at hr
          rw [dif_neg (by rw [stopsAfter, if_pos rfl]; omega), hstored] at hr
          subst hr
          obtain ⟨hsucceed, hoverflow⟩ := hnext _ hallocated'
          refine ⟨fun h => ?_, fun h => hoverflow fun h' => h ⟨fun _ => by rwa [← hlen], h'⟩⟩
          obtain ⟨hresult, hcontent⟩ := hsucceed h.2
          refine ⟨hresult, hcontent.trans ?_⟩
          rw [List.append_assoc, List.take_append_drop]
        · rw [(growAllocated_spec _ hallocated).2 hneed] at hr
          subst hr
          refine ⟨fun h => ?_, fun _ => rfl⟩
          have hlt := h.1 hfull
          omega

/-! ## behind the first bytes -/

theorem fillStat_filled {last : UInt8} {expectedLen : ℕ} {s : TcpRecv} {stream : List UInt8} {reads : List ℕ}
    (hlast : last ≠ newline) (htransport : s.transport = Transport.clean stream reads) (hs : s.Stat) :
    (fillStat last expectedLen true s).1 = false ∧
      ∃ stream' reads', StatFilled expectedLen s stream reads (fillStat last expectedLen true s).2 stream' reads' := by
  have hle := hs.le
  set s' : TcpRecv := { s with accesses := s.accesses ++ [⟨zbxStatBufLen, (s.readBytes : ℤ) - 1, 1⟩] }
  have hleft : s'.readBytes + (zbxStatBufLen - s.readBytes - 1) = zbxStatBufLen - 1 := by
    change s.readBytes + _ = _
    omega
  obtain ⟨herror, stream', reads', hfilled⟩ :=
    @recvStat_filled expectedLen _ s' stream reads htransport ⟨hs.length, hs.le⟩ hleft
  rw [fillStat, if_pos hlast]
  exact ⟨herror, stream', reads',
    ⟨hfilled.transport, hfilled.stat, hfilled.content, hfilled.ends, hfilled.fits⟩⟩

/-- A message that has no NUL and that comes to its end is stored as it is, unless
the dynamic buffer gets too large. -/
theorem recvRest_filled {last : UInt8} {expectedLen : ℕ} {s : TcpRecv} {stream : List UInt8} {reads : List ℕ}
    (hlast : last ≠ newline) (htransport : s.transport = Transport.clean stream reads) (hs : s.Stat)
    (hnul : (0 : UInt8) ∉ s.content ++ stream) (hexpected : s.readBytes + stream.length = expectedLen) :
    (AppendsFit reads s.readBytes stream.length →
        (recvRest last expectedLen true s).result = .succeed ∧
          (recvRest last expectedLen true s).recv.content = s.content ++ stream) ∧
      (¬AppendsFit reads s.readBytes stream.length → (recvRest last expectedLen true s).result = .overflow) := by
  obtain ⟨herror, stream', reads', hfilled⟩ := @fillStat_filled last expectedLen s stream reads hlast htransport hs
  have hlen : (fillStat last expectedLen true s).2.readBytes + stream'.length = expectedLen := by
    have hcontent := congrArg List.length hfilled.content
    rw [List.length_append, List.length_append, hfilled.stat.length, hs.length] at hcontent
    omega
  rw [hfilled.fits hexpected, ← hfilled.content, recvRest]
  obtain ⟨htransport', hstat, hcontent, hends, -⟩ := hfilled
  generalize fillStat last expectedLen true s = r at herror hlen htransport' hstat hcontent hends ⊢
  obtain ⟨error, transport', content, readBytes, accesses⟩ := r
  dsimp only at herror hlen htransport' hcontent hends ⊢
  rw [herror]
  split
  · next hfull =>
      have hnul' : (0 : UInt8) ∉ stream' :=
        fun h => hnul (hcontent ▸ List.mem_append_right _ h)
      exact @recvDyn_filled expectedLen zbxBufLen ⟨_, _, _, _⟩ stream' reads' htransport' hnul' hlen
        hstat.length (Nat.le_of_eq hfull.symm) isAllocated_zbxBufLen
  · next hfull =>
      have hnil : stream' = [] := by
        rcases hends with h | h | h
        · exact List.length_eq_zero_iff.mp (by omega)
        · exact absurd h hfull
        · exact h
      subst hnil
      exact ⟨fun _ => ⟨rfl, (List.append_nil _).symm⟩, fun h => absurd (appendsFit_zero reads' _) h⟩

theorem content_recvRest (last : UInt8) (expectedLen : ℕ) (untilClose : Bool) (s : TcpRecv) :
    (fillStat last expectedLen untilClose s).2.content <+: (recvRest last expectedLen untilClose s).recv.content ∧
      ((fillStat last expectedLen untilClose s).2.readBytes < zbxStatBufLen - 1 →
        (recvRest last expectedLen untilClose s).recv.content =
          (fillStat last expectedLen untilClose s).2.content) := by
  rw [recvRest]
  generalize fillStat last expectedLen untilClose s = r
  obtain ⟨error, transport, content, readBytes, accesses⟩ := r
  dsimp only
  split
  · next hfull => exact ⟨content_recvDyn _ _ _ ⟨_, _, _, _⟩, fun h => absurd hfull (Nat.ne_of_lt h)⟩
  · exact ⟨List.prefix_refl _, fun _ => rfl⟩

/-- Whatever the length that is expected, what is stored first is what comes
first. -/
theorem take_recvRest (last : UInt8) (expectedLen : ℕ) {s : TcpRecv} {stream : List UInt8} {reads : List ℕ} {n : ℕ}
    (htransport : s.transport = Transport.clean stream reads) (hs : s.Stat) (hn : n < zbxStatBufLen) :
    (recvRest last expectedLen true s).recv.content.take n <+: s.content ++ stream := by
  have hfill : (fillStat last expectedLen true s).2.Stat ∧
      (fillStat last expectedLen true s).2.content <+: s.content ++ stream := by
    by_cases hlast : last ≠ newline
    · obtain ⟨-, stream', reads', hfilled⟩ := @fillStat_filled last expectedLen s stream reads hlast htransport hs
      exact ⟨hfilled.stat, hfilled.content ▸ List.prefix_append ..⟩
    · rw [fillStat, if_neg hlast]
      exact ⟨⟨hs.length, hs.le⟩, List.prefix_append ..⟩
  obtain ⟨hstat, hfront⟩ := hfill
  obtain ⟨⟨more, hmore⟩, hsame⟩ := content_recvRest last expectedLen true s
  rcases Nat.lt_or_ge (fillStat last expectedLen true s).2.readBytes (zbxStatBufLen - 1) with h | h
  · rw [hsame h]
    exact (List.take_prefix ..).trans hfront
  · rw [← hmore, List.take_append_of_le_length (by rw [hstat.length]; omega)]
    exact (List.take_prefix ..).trans hfront

/-- What is in front of the first NUL of the stream is at most in front of the
first NUL of the buffer. -/
theorem takeWhile_prefix_of_take {content stream : List UInt8} {i n : ℕ} (hfront : content.take n <+: stream)
    (hi : i < n) (hnul : stream[i]? = some 0) : content.takeWhile (· ≠ 0) <+: stream.take i := by
  have hwhile : content.takeWhile (· ≠ 0) <+: content := List.takeWhile_prefix _
  have hle : (content.takeWhile (· ≠ 0)).length ≤ i := by
    by_contra hlt
    have hlen : i < (content.takeWhile (· ≠ 0)).length := by omega
    have hmem := List.mem_takeWhile_imp (List.getElem_mem hlen)
    have hbyte : (content.takeWhile (· ≠ 0))[i] = 0 := by
      have htake : i < (content.take n).length := by
        rw [List.length_take]
        have := hwhile.length_le
        omega
      have h₁ := hfront.getElem htake
      have h₂ := hwhile.getElem hlen
      rw [h₂]
      rw [List.getElem_take] at h₁
      rw [h₁]
      exact Option.some.inj ((List.getElem?_eq_getElem _).symm.trans hnul)
    exact absurd hbyte (by simpa using hmem)
  have htake : content.takeWhile (· ≠ 0) <+: content.take n :=
    List.prefix_of_prefix_length_le hwhile (List.take_prefix ..) (by
      rw [List.length_take]
      have := hwhile.length_le
      omega)
  exact List.prefix_take_iff.mpr ⟨htake.trans hfront, hle⟩

/-- A short stream needs no other buffer. -/
theorem recvRest_short {last : UInt8} {expectedLen : ℕ} {s : TcpRecv} {stream : List UInt8} {reads : List ℕ}
    (htransport : s.transport = Transport.clean stream reads) (hs : s.Stat)
    (hshort : (s.content ++ stream).length < zbxStatBufLen - 1) :
    (recvRest last expectedLen true s).result = .succeed := by
  have hfill : (fillStat last expectedLen true s).1 = false ∧
      (fillStat last expectedLen true s).2.readBytes < zbxStatBufLen - 1 := by
    rw [List.length_append] at hshort
    by_cases hlast : last ≠ newline
    · obtain ⟨herror, stream', reads', hfilled⟩ :=
        @fillStat_filled last expectedLen s stream reads hlast htransport hs
      have hcontent := congrArg List.length hfilled.content
      rw [List.length_append, List.length_append, hfilled.stat.length] at hcontent
      exact ⟨herror, by omega⟩
    · rw [fillStat, if_neg hlast]
      have hlen := hs.length
      exact ⟨rfl, by dsimp only; omega⟩
  rw [recvRest]
  dsimp only
  rw [if_neg (by omega), hfill.1]
  rfl

/-- What comes first is stored, when enough is expected. -/
theorem take_prefix_recvRest {last : UInt8} {expectedLen : ℕ} {s : TcpRecv} {stream : List UInt8} {reads : List ℕ}
    {n : ℕ} (hlast : last ≠ newline) (htransport : s.transport = Transport.clean stream reads) (hs : s.Stat)
    (hexpected : zbxStatBufLen ≤ expectedLen) (hn : n < zbxStatBufLen) :
    (s.content ++ stream).take n <+: (recvRest last expectedLen true s).recv.content := by
  obtain ⟨-, stream', reads', hfilled⟩ := @fillStat_filled last expectedLen s stream reads hlast htransport hs
  refine List.IsPrefix.trans ?_ (content_recvRest last expectedLen true s).1
  have hle := hfilled.stat.le
  have hlen := hfilled.stat.length
  rw [← hfilled.content]
  rcases hfilled.ends with h | h | h
  · omega
  · rw [List.take_append_of_le_length (by omega)]
    exact List.take_prefix ..
  · rw [h, List.append_nil]
    exact List.take_prefix ..

/-! ## messages -/

/-- A message in the stream. -/
def tcpMessage (data : List UInt8) : List UInt8 := zbxTcpHeader ++ LittleEndian.encode 8 data.length ++ data

theorem zbxTcpHeader_eq : zbxTcpHeader = [90, 66, 88, 68, 1] := by decide

/-- What is read of a message first. -/
theorem take_tcpMessage (data : List UInt8) {n : ℕ} (h : n ≤ zbxTcpHeaderLen) :
    (tcpMessage data).take n = zbxTcpHeader.take n := by
  rw [tcpMessage, List.append_assoc, List.take_append_of_le_length h]

theorem drop_tcpMessage (data : List UInt8) :
    (tcpMessage data).drop zbxTcpHeaderLen = LittleEndian.encode 8 data.length ++ data := by
  rw [tcpMessage, List.append_assoc]
  exact List.drop_left' rfl

/-- The last bytes of a length are 0. -/
theorem getElem?_tcpMessage {data : List UInt8} {i : ℕ} (hi : i < 8) (h : data.length < 256 ^ i) :
    (tcpMessage data)[5 + i]? = some 0 := by
  have hlen : (LittleEndian.encode 8 data.length).length = 8 := LittleEndian.length_encode ..
  rw [tcpMessage, List.append_assoc, List.getElem?_append_right (by rw [zbxTcpHeader_eq]; simp),
    List.getElem?_append_left (by rw [zbxTcpHeader_eq, hlen]; simpa using hi)]
  have hsub : 5 + i - zbxTcpHeader.length = i := by
    rw [zbxTcpHeader_eq]
    simp
  rw [hsub, LittleEndian.getElem?_encode hi, Nat.div_eq_of_lt h]
  rfl

/-- The call, when its first read gives the header. -/
theorem zbxTcpRecvExt_whole (before : UInt8) (stack : List UInt8) (untilClose : Bool) {reads : List ℕ}
    (data : List UInt8) (h : Transport.readSize reads zbxTcpHeaderLen = zbxTcpHeaderLen) :
    let second := (LittleEndian.encode 8 data.length).take (Transport.readSize reads.tail 8)
    ∃ accesses, zbxTcpRecvExt before stack untilClose (Transport.clean (tcpMessage data) reads) =
      recvRest before (LittleEndian.decode ((second ++ stack.drop second.length).take 8)) true
        ⟨Transport.clean ((LittleEndian.encode 8 data.length ++ data).drop (Transport.readSize reads.tail 8))
          reads.tail.tail, [], 0, accesses⟩ := by
  have hle := Transport.readSize_le reads.tail 8
  have hpos := Transport.readSize_pos reads.tail (show 0 < 8 by decide)
  have hlen : (LittleEndian.encode 8 data.length).length = 8 := LittleEndian.length_encode ..
  have hfirst : zbxTcpHeader.take zbxTcpHeaderLen = zbxTcpHeader := by decide
  rw [zbxTcpRecvExt]
  simp only [Transport.read_clean, h, take_tcpMessage data (Nat.le_refl _), hfirst, if_true, drop_tcpMessage]
  rw [List.take_append_of_le_length (by omega), if_neg (by rw [List.length_take]; omega)]
  exact ⟨_, rfl⟩

/-- The call, when its first read gives less. -/
theorem zbxTcpRecvExt_cut (before : UInt8) (stack : List UInt8) (untilClose : Bool) {reads : List ℕ}
    (data : List UInt8) (h : Transport.readSize reads zbxTcpHeaderLen ≠ zbxTcpHeaderLen) :
    let first := zbxTcpHeader.take (Transport.readSize reads zbxTcpHeaderLen)
    ∃ accesses, zbxTcpRecvExt before stack untilClose (Transport.clean (tcpMessage data) reads) =
      let s : TcpRecv :=
        ⟨Transport.clean ((tcpMessage data).drop (Transport.readSize reads zbxTcpHeaderLen)) reads.tail,
          first, first.length, accesses⟩
      if untilClose then recvRest (first.getLastD before) (16 * 1024 * 1024) true s else ⟨.succeed, s⟩ := by
  have hle := Transport.readSize_le reads zbxTcpHeaderLen
  have hpos := Transport.readSize_pos reads (show 0 < zbxTcpHeaderLen by decide)
  have hlen : (zbxTcpHeader.take (Transport.readSize reads zbxTcpHeaderLen)).length =
      Transport.readSize reads zbxTcpHeaderLen := by
    rw [List.length_take]
    exact Nat.min_eq_left hle
  have hfirst : zbxTcpHeader.take (Transport.readSize reads zbxTcpHeaderLen) ≠ zbxTcpHeader := by
    intro heq
    exact h (hlen.symm.trans (congrArg List.length heq))
  rw [zbxTcpRecvExt]
  simp only [Transport.read_clean, take_tcpMessage data hle, if_neg hfirst]
  cases untilClose with
  | true =>
      rw [if_neg (by rw [stopsAfter, if_pos rfl]; omega)]
      exact ⟨_, rfl⟩
  | false =>
      rw [if_pos (by rw [stopsAfter, if_neg (by decide)]; omega)]
      exact ⟨_, rfl⟩

/-! ## what arrives -/

/-- The call gives the message. -/
def TcpReceived.Gives (r : TcpReceived) (data : List UInt8) : Prop := r.result = .succeed ∧ r.data = data

theorem data_recvRest_newline (expectedLen : ℕ) (transport : Transport) (accesses : List Access) :
    (recvRest newline expectedLen true ⟨transport, [], 0, accesses⟩).Gives [] := by
  rw [recvRest, fillStat, if_neg (not_not_intro rfl)]
  exact ⟨rfl, rfl⟩

/-- With the header in one read a message is given if its length comes in one read
as well. -/
theorem gives_whole_iff (before : UInt8) (stack : List UInt8) (untilClose : Bool) {reads : List ℕ} (data : CString)
    (hlen : data.val.length < 2 ^ 31) (h : Transport.readSize reads zbxTcpHeaderLen = zbxTcpHeaderLen) :
    (zbxTcpRecvExt before stack untilClose (Transport.clean (tcpMessage data.val) reads)).Gives data.val ↔
      data.val = [] ∨ (Transport.readSize reads.tail 8 = 8 ∧ before ≠ newline ∧
        AppendsFit reads.tail.tail 0 data.val.length) := by
  obtain ⟨accesses, heq⟩ := zbxTcpRecvExt_whole before stack untilClose data.val h
  have hencode : (LittleEndian.encode 8 data.val.length).length = 8 := LittleEndian.length_encode ..
  have hstat : TcpRecv.Stat
      ⟨Transport.clean ((LittleEndian.encode 8 data.val.length ++ data.val).drop (Transport.readSize reads.tail 8))
        reads.tail.tail, [], 0, accesses⟩ := ⟨rfl, Nat.zero_le _⟩
  rw [heq]
  by_cases hsecond : Transport.readSize reads.tail 8 = 8
  · have htake : (LittleEndian.encode 8 data.val.length).take 8 = LittleEndian.encode 8 data.val.length :=
      List.take_of_length_le (by omega)
    have hdrop : (LittleEndian.encode 8 data.val.length ++ data.val).drop 8 = data.val := List.drop_left' hencode
    rw [hsecond, hdrop] at hstat
    rw [hsecond, htake, List.take_left' hencode, LittleEndian.decode_encode (by omega), hdrop]
    by_cases hbefore : before = newline
    · subst hbefore
      obtain ⟨hresult, hdata⟩ := data_recvRest_newline data.val.length (Transport.clean data.val reads.tail.tail) accesses
      refine ⟨fun hgives => .inl (hgives.2.symm.trans hdata), ?_⟩
      rintro (hnil | ⟨-, hne, -⟩)
      · exact ⟨hresult, hdata.trans hnil.symm⟩
      · exact absurd rfl hne
    · obtain ⟨hfits, hnot⟩ := recvRest_filled hbefore rfl hstat data.property (Nat.zero_add _)
      dsimp only at hfits hnot
      refine ⟨fun hgives => .inr ⟨rfl, hbefore, ?_⟩, ?_⟩
      · by_contra hfit
        cases hgives.1.symm.trans (hnot hfit)
      · intro hdata
        have hfit : AppendsFit reads.tail.tail 0 data.val.length := by
          rcases hdata with hnil | ⟨-, -, hfit⟩
          · rw [hnil]
            exact appendsFit_zero _ _
          · exact hfit
        obtain ⟨hresult, hcontent⟩ := hfits hfit
        refine ⟨hresult, ?_⟩
        rw [TcpReceived.data, hcontent, List.nil_append, takeWhile_eq_self_of_nul data.property]
  · -- bytes of the length are taken for the message
    have hle := Transport.readSize_le reads.tail 8
    have hpos := Transport.readSize_pos reads.tail (show 0 < 8 by decide)
    set k := Transport.readSize reads.tail 8 with hk
    set stream := (LittleEndian.encode 8 data.val.length ++ data.val).drop k with hstream
    set expectedLen := LittleEndian.decode
      (((LittleEndian.encode 8 data.val.length).take k ++
        stack.drop ((LittleEndian.encode 8 data.val.length).take k).length).take 8)
    have hbyte : ∀ i, k + i < 8 → data.val.length < 256 ^ (k + i) → stream[i]? = some 0 := by
      intro i hi hlt
      have hmessage := getElem?_tcpMessage hi hlt
      rwa [← List.getElem?_drop, show 5 = zbxTcpHeaderLen from rfl, drop_tcpMessage, ← List.getElem?_drop] at hmessage
    have hfront : (recvRest before expectedLen true _).recv.content.take 8 <+: [] ++ stream :=
      take_recvRest before expectedLen rfl hstat (by decide)
    have hnil : data.val.length < 256 ^ k →
        (recvRest before expectedLen true _).data = [] := fun hlt =>
      List.prefix_nil.mp (takeWhile_prefix_of_take hfront (by decide) (hbyte 0 (by omega) hlt))
    constructor
    · intro hgives
      have hfirst := takeWhile_prefix_of_take hfront (show 7 - k < 8 by omega)
        (hbyte (7 - k) (by omega) (by rw [show k + (7 - k) = 7 by omega]; omega))
      have hlength := hfirst.length_le
      have hdata : List.takeWhile (· ≠ 0) (recvRest before expectedLen true _).recv.content = data.val := hgives.2
      rw [hdata, List.length_take] at hlength
      have hpow : 256 ^ 1 ≤ 256 ^ k := Nat.pow_le_pow_right (by decide) hpos
      exact .inl (hgives.2.symm.trans (hnil (by omega)))
    · rintro (hnil' | ⟨h8, -⟩)
      · refine ⟨recvRest_short rfl hstat ?_, (hnil ?_).trans hnil'.symm⟩
        · rw [hstream, hnil', List.nil_append, List.length_drop, List.append_nil, LittleEndian.length_encode]
          exact Nat.lt_of_le_of_lt (Nat.sub_le ..) (by decide)
        · rw [hnil']
          exact Nat.pow_pos (by decide)
      · exact absurd h8 hsecond

/-- The string at the front of a message ends in its length. -/
theorem takeWhile_message {n : ℕ} (h : n < 2 ^ 31) (rest : List UInt8) :
    (zbxTcpHeader ++ LittleEndian.encode 8 n ++ rest).takeWhile (· ≠ 0) =
      zbxTcpHeader ++ (LittleEndian.encode 8 n).takeWhile (· ≠ 0) := by
  have hheader : ∀ b ∈ zbxTcpHeader, decide (b ≠ 0) = true := by decide
  have hzero : (0 : UInt8) ∈ LittleEndian.encode 8 n := by
    refine List.mem_of_getElem? (i := 7) ?_
    rw [LittleEndian.getElem?_encode (by decide), Nat.div_eq_of_lt (by omega)]
    rfl
  rw [List.append_assoc, List.takeWhile_append_of_pos hheader, List.takeWhile_append, if_neg]
  intro hall
  have hself := (List.takeWhile_prefix (l := LittleEndian.encode 8 n) fun b => decide (b ≠ 0)).eq_of_length hall
  exact absurd (List.takeWhile_eq_self_iff.mp hself 0 hzero) (by decide)

/-- What comes without the header in one read is given up to its length: that is
the message if it says so itself. -/
theorem gives_cut_iff (before : UInt8) (stack : List UInt8) (untilClose : Bool) {reads : List ℕ} (data : CString)
    (hlen : data.val.length < 2 ^ 31) (h : Transport.readSize reads zbxTcpHeaderLen ≠ zbxTcpHeaderLen) :
    (zbxTcpRecvExt before stack untilClose (Transport.clean (tcpMessage data.val) reads)).Gives data.val ↔
      data.val = if untilClose then zbxTcpHeader ++ [6]
        else zbxTcpHeader.take (Transport.readSize reads zbxTcpHeaderLen) := by
  have hle := Transport.readSize_le reads zbxTcpHeaderLen
  have hpos := Transport.readSize_pos reads (show 0 < zbxTcpHeaderLen by decide)
  obtain ⟨accesses, heq⟩ := zbxTcpRecvExt_cut before stack untilClose data.val h
  have hnul : (0 : UInt8) ∉ zbxTcpHeader := by decide
  have hfirst : (zbxTcpHeader.take (Transport.readSize reads zbxTcpHeaderLen)).length =
      Transport.readSize reads zbxTcpHeaderLen := by
    rw [List.length_take]
    exact Nat.min_eq_left hle
  rw [heq]
  cases untilClose with
  | false =>
      dsimp only
      rw [if_neg (by decide), if_neg (by decide), TcpReceived.Gives, TcpReceived.data]
      dsimp only
      rw [takeWhile_eq_self_of_nul fun h => hnul (List.mem_of_mem_take h)]
      exact ⟨fun hgives => hgives.2.symm, fun hdata => ⟨rfl, hdata.symm⟩⟩
  | true =>
      dsimp only
      rw [if_pos rfl, if_pos rfl]
      set first := zbxTcpHeader.take (Transport.readSize reads zbxTcpHeaderLen) with hfirst'
      set stream := (tcpMessage data.val).drop (Transport.readSize reads zbxTcpHeaderLen) with hstream
      have hall : first ++ stream = tcpMessage data.val := by
        rw [hfirst', ← take_tcpMessage data.val hle, hstream, List.take_append_drop]
      have hstat : TcpRecv.Stat ⟨Transport.clean stream reads.tail, first, first.length, accesses⟩ :=
        ⟨rfl, by dsimp only; rw [hfirst]; exact hle.trans (by decide)⟩
      have hlast : first.getLastD before ≠ newline := by
        have hmem : first.getLastD before ∈ zbxTcpHeader := by
          have hne : first ≠ [] := List.ne_nil_of_length_pos (by omega)
          rw [List.getLastD_eq_getLast?, List.getLast?_eq_some_getLast hne, Option.getD_some]
          exact List.mem_of_mem_take (List.getLast_mem hne)
        have hnot : newline ∉ zbxTcpHeader := by decide
        exact fun heq => hnot (heq ▸ hmem)
      set r := recvRest (first.getLastD before) (16 * 1024 * 1024) true
        ⟨Transport.clean stream reads.tail, first, first.length, accesses⟩ with hr
      have hstored : (tcpMessage data.val).take 13 <+: r.recv.content := by
        rw [← hall]
        exact take_prefix_recvRest hlast rfl hstat (by decide) (by decide)
      have hdata : r.data = zbxTcpHeader ++ (LittleEndian.encode 8 data.val.length).takeWhile (· ≠ 0) := by
        obtain ⟨rest, hrest⟩ := hstored
        have hthirteen : (zbxTcpHeader ++ LittleEndian.encode 8 data.val.length).length = 13 := by
          rw [List.length_append, LittleEndian.length_encode]
          rfl
        rw [tcpMessage, List.take_left' hthirteen] at hrest
        rw [TcpReceived.data, ← hrest, takeWhile_message hlen]
      have hsix : ∀ n < 14, 5 ≤ n → (LittleEndian.encode 8 n).takeWhile (· ≠ 0) = [UInt8.ofNat n] := by decide
      rw [TcpReceived.Gives, hdata]
      constructor
      · rintro ⟨-, hgives⟩
        have hlength := congrArg List.length hgives
        have hshort := (List.takeWhile_prefix (fun b : UInt8 => decide (b ≠ 0))
          (l := LittleEndian.encode 8 data.val.length)).length_le
        rw [LittleEndian.length_encode] at hshort
        rw [List.length_append, show zbxTcpHeader.length = 5 from rfl] at hlength
        rw [hsix data.val.length (by omega) (by omega)] at hgives hlength
        rw [← hlength] at hgives
        exact hgives.symm
      · intro hsame
        have hsame' : data.val.length = 6 := congrArg List.length hsame
        refine ⟨recvRest_short rfl hstat ?_, ?_⟩
        · rw [hall, tcpMessage, List.length_append, List.length_append, LittleEndian.length_encode, hsame']
          decide
        · rw [hsame', hsix 6 (by decide) (by decide)]
          exact hsame.symm

/-- A message that is sent comes out of the call at the other side. -/
def Delivered (writes : List ℕ) (before : UInt8) (stack : List UInt8) (untilClose : Bool) (reads : List ℕ)
    (data : CString) : Prop :=
  ∃ stream, zbxTcpSendExt writes data = some stream ∧
    (zbxTcpRecvExt before stack untilClose (Transport.clean stream reads)).Gives data.val

/-- The header and the length each come in one read, and the dynamic buffer need
not grow too large; two messages come out of calls that have not seen the
header. -/
def Deliverable (before : UInt8) (untilClose : Bool) (reads : List ℕ) (data : CString) : Prop :=
  data.val.length < 2 ^ 31 ∧
    if Transport.readSize reads zbxTcpHeaderLen = zbxTcpHeaderLen then
      data.val = [] ∨ (Transport.readSize reads.tail 8 = 8 ∧ before ≠ newline ∧
        AppendsFit reads.tail.tail 0 data.val.length)
    else
      data.val = if untilClose then zbxTcpHeader ++ [6]
        else zbxTcpHeader.take (Transport.readSize reads zbxTcpHeaderLen)

theorem delivered_iff (writes : List ℕ) (before : UInt8) (stack : List UInt8) (untilClose : Bool) (reads : List ℕ)
    (data : CString) :
    Delivered writes before stack untilClose reads data ↔ Deliverable before untilClose reads data := by
  rw [Delivered, Deliverable, zbxTcpSendExt_eq]
  by_cases hlen : data.val.length < 2 ^ 31
  · rw [if_pos hlen, and_iff_right hlen]
    have hstream : ∀ r : List UInt8 → TcpReceived, (∃ stream, some (tcpMessage data.val) = some stream ∧
        (r stream).Gives data.val) ↔ (r (tcpMessage data.val)).Gives data.val := by
      intro r
      constructor
      · rintro ⟨stream, hsome, hgives⟩
        rwa [Option.some.inj hsome]
      · exact fun hgives => ⟨_, rfl, hgives⟩
    refine (hstream fun stream => zbxTcpRecvExt before stack untilClose (Transport.clean stream reads)).trans ?_
    split
    · next h => exact gives_whole_iff before stack untilClose data hlen h
    · next h => exact gives_cut_iff before stack untilClose data hlen h
  · rw [if_neg hlen]
    refine iff_of_false ?_ fun h => hlen h.1
    rintro ⟨stream, hnone, -⟩
    cases hnone

/-- A message of up to 2^30 bytes, less the size of the static buffer, arrives in
whatever pieces it comes, as long as its header and its length do not. -/
theorem delivered_of_unsplit (writes : List ℕ) {before : UInt8} (stack : List UInt8) (untilClose : Bool)
    {reads : List ℕ} {data : CString} (hbefore : before ≠ newline)
    (hlen : data.val.length + zbxStatBufLen ≤ 2 ^ 30)
    (hheader : Transport.readSize reads zbxTcpHeaderLen = zbxTcpHeaderLen)
    (hlength : Transport.readSize reads.tail 8 = 8) : Delivered writes before stack untilClose reads data := by
  refine (delivered_iff ..).mpr ⟨by omega, ?_⟩
  rw [if_pos hheader]
  exact .inr ⟨hlength, hbefore, appendsFit_of_le reads.tail.tail (by omega)⟩

/-- **A message arrives** exactly when its header and its length are not split, and
a call stays in its buffers exactly when it does not find a header with something
behind it. -/
theorem tcp_framing (writes : List ℕ) (before : UInt8) (stack : List UInt8) (untilClose : Bool)
    (reads : List ℕ) (data : CString) (transport : Transport) :
    (Delivered writes before stack untilClose reads data ↔ Deliverable before untilClose reads data) ∧
      ((zbxTcpRecvExt before stack untilClose transport).Safe ↔ ¬HeaderFound transport) :=
  ⟨delivered_iff .., zbxTcpRecvExt_safe_iff ..⟩

/-- A header of which the first read gives one byte, and a stream that ends in the
length. -/
theorem tcp_framing_split :
    ¬Delivered [] 0 [] false [0] ⟨bytes "a", by decide⟩ ∧
      ¬(zbxTcpRecvExt 0 [] false (Transport.clean (zbxTcpHeader ++ [1]) [])).Safe := by
  refine ⟨fun hdelivered => ?_, fun hsafe => ?_⟩
  · have hdeliverable := ((delivered_iff ..).mp hdelivered).2
    rw [if_neg (by decide), if_neg (by decide)] at hdeliverable
    exact absurd hdeliverable (by decide)
  · exact (zbxTcpRecvExt_safe_iff ..).mp hsafe ⟨_, _, [1], rfl, rfl, by decide⟩

end Zabbix
