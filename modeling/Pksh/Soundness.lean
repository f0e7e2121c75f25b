import Pksh.Hearing

/-! The streams on which a request is told what the server replied, whatever
the buffer held before. -/

namespace Pksh

open Wire Traced

/-- The streams, as the bytes that arrive and the end behind them, on which a
reply is taken for what it is, whatever the buffer held before. -/
def NetfsReq.SoundOn (r : NetfsReq) (bs : List Byte) (ending : Ending Errno) : Prop :=
  if pktHdrSize ≤ bs.length then
    -- another type, a reply that is too long, or a header alone
    ofBe32 bs ≠ r.awaits ∨ r.room < announced bs ∨ announced bs = pktHdrSize ∨
    -- a whole reply, and its data
    (pktFileRlySize ≤ announced bs ∧ announced bs ≤ bs.length ∧
      (r.data (ofBe32 (bs.drop 6)) ≤ bs.length - announced bs ∨ ending.stop Errno.drops ≠ .never)) ∨
    -- a reply that is cut off by the end of the stream, or by an error behind a retval of -1
    (bs.length < announced bs ∧ (ending.stop Errno.drops = .eof ∨
      pktFileRlySize ≤ bs.length ∧ ofBe32 (bs.drop 6) = 0xffffffff ∧ ∃ e, ending.stop Errno.drops = .dropped e))
  else
    -- an error within a header that cannot be one of a reply that fits
    (∃ e, ending.stop Errno.drops = .dropped e) ∧ (¬bs.take 4 <+: be32 r.awaits ∨ bs.length = 5 ∧
      (r.room < 256 * (bs.getD 4 0).toNat ∨ 0 < (bs.getD 4 0).toNat ∧ ending.afterFail = .eof))

section SoundOn

variable {r : NetfsReq} {bs : List Byte} {ending : Ending Errno}

theorem soundOn_full (h : pktHdrSize ≤ bs.length) (ht : ofBe32 bs = r.awaits) (hl : announced bs ≤ r.room)
    (hf : announced bs ≤ bs.length) : r.SoundOn bs ending ↔ announced bs = pktHdrSize ∨
      pktFileRlySize ≤ announced bs ∧
        (r.data (ofBe32 (bs.drop 6)) ≤ bs.length - announced bs ∨ ending.stop Errno.drops ≠ .never) := by
  rw [NetfsReq.SoundOn, if_pos h]
  simp only [ne_eq, ht, not_true, Nat.not_lt.mpr hl, Nat.not_lt.mpr hf, hf, false_or, true_and, false_and, or_false]

theorem soundOn_cut (h : pktHdrSize ≤ bs.length) (ht : ofBe32 bs = r.awaits) (hl : announced bs ≤ r.room)
    (hf : bs.length < announced bs) : r.SoundOn bs ending ↔ ending.stop Errno.drops = .eof ∨
      pktFileRlySize ≤ bs.length ∧ ofBe32 (bs.drop 6) = 0xffffffff ∧ ∃ e, ending.stop Errno.drops = .dropped e := by
  have h3 : announced bs ≠ pktHdrSize := by omega
  rw [NetfsReq.SoundOn, if_pos h]
  simp only [ne_eq, ht, not_true, Nat.not_lt.mpr hl, Nat.not_le.mpr hf, hf, h3, false_or, true_and, false_and,
    and_false]

end SoundOn

/-- The stream on `ps2_netfs_fd` is such a stream. -/
def NetfsReq.Sound (r : NetfsReq) (w : World) : Prop :=
  r.SoundOn (w.pending w.ps2NetfsFd) (w.inflow w.ps2NetfsFd).ending

/-- A buffer that holds nothing but the type of a reply. -/
def bare (pktType : Word) : Mem := Mem.store (fun _ => 0) 0 (be32 pktType)

theorem bare_of_ge {pktType : Word} {i : Nat} (h : 4 ≤ i) : bare pktType i = 0 := Mem.store_of_ge (by simpa using h)

section Sound

variable {r : NetfsReq} {u : World}

theorem right_of_refused {v : World} {as : List Act} {k : Nat}
    (h : (ps2netfsAcceptPkt u.ps2NetfsFd r.room r.awaits).run u = ⟨some 0, v, as⟩)
    (ht : taken u.ps2NetfsFd as = (u.pending u.ps2NetfsFd).take k)
    (hn : replyValue r.awaits ((u.pending u.ps2NetfsFd).take k) = -1) :
    Right r.awaits u.ps2NetfsFd ((r.response true >>= r.finish).run u) := by
  rw [Right, hear_refused h, ht, hn]

theorem right_of_refuses (h : pktHdrSize ≤ (u.pending u.ps2NetfsFd).length)
    (ht : ofBe32 (u.pending u.ps2NetfsFd) ≠ r.awaits ∨ r.room < announced (u.pending u.ps2NetfsFd)) :
    Right r.awaits u.ps2NetfsFd ((r.response true >>= r.finish).run u) := by
  obtain ⟨v, as, hrun, hta⟩ := accept_refuses h ht
  refine right_of_refused hrun hta ?_
  rcases ht with ht | hl
  · exact replyValue_of_not_whole fun hc => ht hc.1
  · refine if_neg fun ⟨_, h2, h3⟩ => ?_
    have : ((u.pending u.ps2NetfsFd).take pktHdrSize).length ≤ pktHdrSize := List.length_take_le _ _
    have h6 : pktHdrSize = 6 := rfl
    have h10 : pktFileRlySize = 10 := rfl
    omega

/-- Right on every buffer, or wrong on a bare one. -/
def Settled (r : NetfsReq) (u : World) : Prop :=
  r.Sound u ∧ Right r.awaits u.ps2NetfsFd ((r.response true >>= r.finish).run u) ∨
  ¬r.Sound u ∧ (u.recvPacket = bare r.awaits →
    ¬Right r.awaits u.ps2NetfsFd ((r.response true >>= r.finish).run u))

theorem settled_of_iff (h : Right r.awaits u.ps2NetfsFd ((r.response true >>= r.finish).run u) ↔ r.Sound u) :
    Settled r u := by
  by_cases hs : r.Sound u
  · exact .inl ⟨hs, h.mpr hs⟩
  · exact .inr ⟨hs, fun _ hr => hs (h.mp hr)⟩

theorem settled_of_full (h : pktHdrSize ≤ (u.pending u.ps2NetfsFd).length)
    (ht : ofBe32 (u.pending u.ps2NetfsFd) = r.awaits) (hl : announced (u.pending u.ps2NetfsFd) ≤ r.room)
    (hf : announced (u.pending u.ps2NetfsFd) ≤ (u.pending u.ps2NetfsFd).length) : Settled r u := by
  have h6 : pktHdrSize = 6 := rfl
  have h10 : pktFileRlySize = 10 := rfl
  obtain ⟨as, hrun, hta⟩ := accept_takes h ht hl
  have hlen : u.hlen u.ps2NetfsFd = announced (u.pending u.ps2NetfsFd) := rfl
  have hst := withPacket_stop h hf
  have hsound : r.Sound u ↔ announced (u.pending u.ps2NetfsFd) = pktHdrSize ∨
      pktFileRlySize ≤ announced (u.pending u.ps2NetfsFd) ∧
        (r.data (ofBe32 ((u.pending u.ps2NetfsFd).drop 6)) ≤
          (u.pending u.ps2NetfsFd).length - announced (u.pending u.ps2NetfsFd) ∨
          (u.inflow u.ps2NetfsFd).stop ≠ .never) := soundOn_full h ht hl hf
  rw [hlen, if_pos hf] at hrun
  by_cases he : announced (u.pending u.ps2NetfsFd) = pktHdrSize
  · rw [if_pos he] at hrun
    refine .inl ⟨hsound.mpr (.inl he), right_of_refused hrun hta (replyValue_of_not_whole fun hc => ?_)⟩
    have := hc.2.1
    omega
  · rw [if_neg he] at hrun
    have htook := took_withPacket hta
    by_cases hw : pktFileRlySize ≤ announced (u.pending u.ps2NetfsFd)
    · have hk : announced (u.pending u.ps2NetfsFd) = u.askedFor u.ps2NetfsFd := by
        rw [World.askedFor, hlen]
        omega
      refine settled_of_iff ?_
      rw [htook.right_iff_of_whole (by decide) hrun ht hw hf hk, hsound, ← hk, hst]
      simp only [he, hw, false_or, true_and]
    · refine .inr ⟨fun hs => hw ((hsound.mp hs).resolve_left he).1, fun hm => ?_⟩
      refine htook.not_right_of_stale (by decide) hrun ?_ (hm ▸ bare_of_ge (by decide)) fun hc => hw hc.2.1
      rw [List.length_take, World.askedFor, hlen]
      omega

theorem settled_of_cut (h : pktHdrSize ≤ (u.pending u.ps2NetfsFd).length)
    (ht : ofBe32 (u.pending u.ps2NetfsFd) = r.awaits) (hl : announced (u.pending u.ps2NetfsFd) ≤ r.room)
    (hf : (u.pending u.ps2NetfsFd).length < announced (u.pending u.ps2NetfsFd)) : Settled r u := by
  have h6 : pktHdrSize = 6 := rfl
  have h10 : pktFileRlySize = 10 := rfl
  obtain ⟨as, hrun, hta⟩ := accept_takes h ht hl
  have hlen : u.hlen u.ps2NetfsFd = announced (u.pending u.ps2NetfsFd) := rfl
  have hnw : ¬(ofBe32 (u.pending u.ps2NetfsFd) = r.awaits ∧ pktFileRlySize ≤ announced (u.pending u.ps2NetfsFd) ∧
      announced (u.pending u.ps2NetfsFd) ≤ (u.pending u.ps2NetfsFd).length) :=
    fun hc => Nat.not_le.mpr hf hc.2.2
  have hsound : r.Sound u ↔ (u.inflow u.ps2NetfsFd).stop = .eof ∨
      pktFileRlySize ≤ (u.pending u.ps2NetfsFd).length ∧ ofBe32 ((u.pending u.ps2NetfsFd).drop 6) = 0xffffffff ∧
        ∃ e, (u.inflow u.ps2NetfsFd).stop = .dropped e := soundOn_cut h ht hl hf
  rw [hlen, if_neg (Nat.not_le.mpr hf)] at hrun
  have hn0 : ¬((announced (u.pending u.ps2NetfsFd) : Int) - pktHdrSize = 0) := by omega
  have htook := took_withPacket hta
  cases hst : (u.inflow u.ps2NetfsFd).stop with
  | full => exact absurd hst Inflow.stop_ne_full
  | never =>
    rw [hst] at hrun hsound
    refine .inr ⟨fun hs => by simpa using hsound.mp hs, fun _ hr => ?_⟩
    rw [Right, hear_stuck (by rw [hrun]; rfl)] at hr
    cases hr
  | eof =>
    rw [hst] at hrun hsound
    exact .inl ⟨hsound.mpr (.inl rfl), right_of_refused hrun hta (replyValue_of_not_whole hnw)⟩
  | dropped e =>
    rw [hst] at hrun hsound
    have hlk : (u.pending u.ps2NetfsFd).take (u.askedFor u.ps2NetfsFd) = u.pending u.ps2NetfsFd := by
      refine List.take_of_length_le ?_
      rw [World.askedFor, hlen]
      omega
    by_cases hw : pktFileRlySize ≤ (u.pending u.ps2NetfsFd).length
    · refine settled_of_iff ?_
      rw [htook.right_iff_of_cut (by decide) hrun (by rw [hlk]; exact hw) hf, hsound]
      simp [hw]
    · refine .inr ⟨fun hs => ?_, fun hm => ?_⟩
      · rcases hsound.mp hs with hc | hc
        · cases hc
        · exact hw hc.1
      · exact htook.not_right_of_stale (by decide) hrun (by rw [hlk]; exact Nat.lt_of_not_le hw)
          (hm ▸ bare_of_ge (by decide)) hnw

theorem took_header {as : List Act} (h : (u.pending u.ps2NetfsFd).length < pktHdrSize)
    (hta : taken u.ps2NetfsFd as = u.pending u.ps2NetfsFd) :
    Took u (u.received u.ps2NetfsFd (.recvPacket 0) pktHdrSize) as pktHdrSize where
  netfs := by
    rw [received_vars]
    rfl
  packet := by rw [(broken_header h).1, List.take_of_length_le (Nat.le_of_lt h)]
  taken := by rw [hta, List.take_of_length_le (Nat.le_of_lt h)]
  pending := by
    rw [received_pending]
    rfl

theorem take_prefix_of_word {m : Mem} {bs : List Byte} {t : Word} (h : ntohl ((m.store 0 bs).word 0) = t) :
    bs.take 4 <+: be32 t := by
  have hs := Mem.ntohl_word_eq_iff.mp h
  have hj : ((m.store 0 bs).slice 0 4).take (min 4 bs.length) = bs.take 4 := by
    rw [Mem.slice_take _ _ (Nat.min_le_left _ _), Mem.slice_store_of_le (Nat.min_le_right _ _)]
    exact List.take_eq_take_min.symm
  rw [← hj, hs]
  exact List.take_prefix _ _

theorem not_whole_of_short (h : (u.pending u.ps2NetfsFd).length < pktHdrSize) :
    ¬(ofBe32 (u.pending u.ps2NetfsFd) = r.awaits ∧ pktFileRlySize ≤ announced (u.pending u.ps2NetfsFd) ∧
      announced (u.pending u.ps2NetfsFd) ≤ (u.pending u.ps2NetfsFd).length) := by
  have h6 : pktHdrSize = 6 := rfl
  have h10 : pktFileRlySize = 10 := rfl
  omega

/-- The length is made of the last byte that came and one that was there. -/
theorem length_of_five {m : Mem} {bs : List Byte} (h : bs.length = 5) :
    (ntohs ((m.store 0 bs).half 4)).toNat = 256 * (bs.getD 4 0).toNat + (m 5).toNat := by
  have h4 : (m.store 0 bs) (0 + 4) = bs.getD 4 0 :=
    Mem.store_of_mem (by rw [List.getD_eq_getElem?_getD, List.getElem?_eq_getElem (by omega), Option.getD_some])
  have h5 : (m.store 0 bs) 5 = m 5 := Mem.store_of_ge (by omega)
  rw [Mem.ntohs_half_toNat, h5]
  exact congrArg (fun b : Byte => 256 * b.toNat + (m 5).toNat) h4

/-- On a bare buffer the type is the awaited one as soon as the bytes that came
do not contradict it. -/
theorem word_bare {bs : List Byte} {t : Word} (h : bs.take 4 <+: be32 t) :
    ntohl (((bare t).store 0 bs).word 0) = t := by
  obtain ⟨rest, hr⟩ := h
  have hk : (bs.take 4).length ≤ 4 := List.length_take_le 4 bs
  have hfront : ((bare t).store 0 bs).slice 0 (bs.take 4).length = bs.take 4 := by
    rw [Mem.slice_store_of_le (by rw [List.length_take]; omega), List.length_take]
    exact List.take_eq_take_min.symm
  have hback : ((bare t).store 0 bs).slice (bs.take 4).length (4 - (bs.take 4).length) = rest := by
    have hb : (bare t).slice 0 4 = be32 t := Mem.slice_store_eq _ _ (be32_length t)
    have hd := Mem.slice_drop (bare t) 0 hk
    rw [hb, ← hr, List.drop_left, Nat.zero_add] at hd
    rw [hd]
    by_cases hl : bs.length < 4
    · refine Mem.slice_store_disjoint (.inr ?_)
      rw [List.length_take]
      omega
    · rw [List.length_take, Nat.min_eq_left (Nat.le_of_not_lt hl)]
      rfl
  have hsplit := Mem.slice_add ((bare t).store 0 bs) 0 (bs.take 4).length (4 - (bs.take 4).length)
  rw [Nat.add_sub_cancel' hk, hfront, Nat.zero_add, hback, hr] at hsplit
  exact Mem.ntohl_word_eq_iff.mpr hsplit

theorem settled_of_broken {e : Errno} (h : (u.pending u.ps2NetfsFd).length < pktHdrSize)
    (hd : (u.inflow u.ps2NetfsFd).stop = .dropped e) : Settled r u := by
  have hnw := not_whole_of_short (r := r) h
  have htake : (u.pending u.ps2NetfsFd).take pktHdrSize = u.pending u.ps2NetfsFd :=
    List.take_of_length_le (Nat.le_of_lt h)
  have hex : ∃ e, (u.inflow u.ps2NetfsFd).ending.stop Errno.drops = .dropped e := ⟨e, hd⟩
  have hsound : r.Sound u ↔ ¬(u.pending u.ps2NetfsFd).take 4 <+: be32 r.awaits ∨
      (u.pending u.ps2NetfsFd).length = 5 ∧ (r.room < 256 * ((u.pending u.ps2NetfsFd).getD 4 0).toNat ∨
        0 < ((u.pending u.ps2NetfsFd).getD 4 0).toNat ∧ (u.inflow u.ps2NetfsFd).ending.afterFail = .eof) := by
    rw [NetfsReq.Sound, NetfsReq.SoundOn, if_neg (Nat.not_le.mpr h)]
    exact and_iff_right hex
  -- the header that is in the buffer is refused
  have hrefused (ht : ntohl ((u.recvPacket.store 0 (u.pending u.ps2NetfsFd)).word 0) ≠ r.awaits ∨
      r.room < (ntohs ((u.recvPacket.store 0 (u.pending u.ps2NetfsFd)).half 4)).toNat) :
      Right r.awaits u.ps2NetfsFd ((r.response true >>= r.finish).run u) := by
    obtain ⟨v, as, hrun, hta⟩ := accept_broken_refuses h hd ht
    exact right_of_refused hrun (hta.trans htake.symm) (replyValue_of_not_whole hnw)
  by_cases hs : r.Sound u
  · refine .inl ⟨hs, ?_⟩
    by_cases hp : (u.pending u.ps2NetfsFd).take 4 <+: be32 r.awaits
    · obtain ⟨h5, hcase⟩ := (hsound.mp hs).resolve_left (not_not.mpr hp)
      have hn := length_of_five (m := u.recvPacket) h5
      by_cases ht : ntohl ((u.recvPacket.store 0 (u.pending u.ps2NetfsFd)).word 0) ≠ r.awaits ∨
          r.room < (ntohs ((u.recvPacket.store 0 (u.pending u.ps2NetfsFd)).half 4)).toNat
      · exact hrefused ht
      · obtain ⟨ht, hl⟩ := not_or.mp ht
        obtain ⟨v, as, htook, hrun⟩ := accept_broken_takes h hd (not_not.mp ht) rfl (Nat.le_of_not_lt hl)
        have h6 : pktHdrSize = 6 := rfl
        rw [hn] at hl hrun
        obtain ⟨hpos, he⟩ := hcase.resolve_left (by omega)
        rw [if_pos (.inr ⟨by omega, he⟩)] at hrun
        exact right_of_refused hrun htook.taken (replyValue_of_not_whole hnw)
    · exact hrefused (.inl fun hw => hp (take_prefix_of_word hw))
  · refine .inr ⟨hs, fun hm => ?_⟩
    obtain ⟨hp, hno⟩ := not_or.mp (fun hc => hs (hsound.mpr hc))
    have h6 : pktHdrSize = 6 := rfl
    -- the length in the buffer is that of a reply which fits, and which has a body
    obtain ⟨hroom, hbody⟩ : (ntohs ((u.recvPacket.store 0 (u.pending u.ps2NetfsFd)).half 4)).toNat ≤ r.room ∧
        ¬((ntohs ((u.recvPacket.store 0 (u.pending u.ps2NetfsFd)).half 4)).toNat = pktHdrSize ∨
          pktHdrSize < (ntohs ((u.recvPacket.store 0 (u.pending u.ps2NetfsFd)).half 4)).toNat ∧
            (u.inflow u.ps2NetfsFd).ending.afterFail = .eof) := by
      by_cases h5 : (u.pending u.ps2NetfsFd).length = 5
      · have hno' := not_or.mp (fun hc => hno ⟨h5, hc⟩)
        have hn : (ntohs ((u.recvPacket.store 0 (u.pending u.ps2NetfsFd)).half 4)).toNat =
            256 * ((u.pending u.ps2NetfsFd).getD 4 0).toNat := by
          rw [length_of_five h5, hm, bare_of_ge (by decide)]
          rfl
        rw [hn]
        refine ⟨Nat.le_of_not_lt hno'.1, ?_⟩
        rintro (hc | ⟨hc, he⟩)
        · omega
        · exact hno'.2 ⟨by omega, he⟩
      · have hz (i : Nat) (hi : 4 ≤ i) : u.recvPacket.store 0 (u.pending u.ps2NetfsFd) i = 0 := by
          rw [Mem.store_of_ge (by omega), hm, bare_of_ge hi]
        have hn : (ntohs ((u.recvPacket.store 0 (u.pending u.ps2NetfsFd)).half 4)).toNat = 0 := by
          rw [Mem.ntohs_half_toNat, hz 4 (Nat.le_refl 4), hz 5 (by decide)]
          rfl
        rw [hn]
        exact ⟨Nat.zero_le _, by omega⟩
    have hw : ntohl ((u.recvPacket.store 0 (u.pending u.ps2NetfsFd)).word 0) = r.awaits :=
      hm ▸ word_bare (not_not.mp hp)
    obtain ⟨v, as, htook, hrun⟩ := accept_broken_takes h hd hw rfl hroom
    rw [if_neg hbody] at hrun
    exact htook.not_right_of_stale (by decide) hrun (by rw [htake]; omega) (hm ▸ bare_of_ge (by decide)) hnw

theorem settled_of_short (h : (u.pending u.ps2NetfsFd).length < pktHdrSize) : Settled r u := by
  have hbroken (hs : r.Sound u) : ∃ e, (u.inflow u.ps2NetfsFd).stop = .dropped e := by
    rw [NetfsReq.Sound, NetfsReq.SoundOn, if_neg (Nat.not_le.mpr h)] at hs
    exact hs.1
  cases hst : (u.inflow u.ps2NetfsFd).stop with
  | full => exact absurd hst Inflow.stop_ne_full
  | dropped e => exact settled_of_broken h hst
  | never =>
    have hrun : (ps2netfsAcceptPkt u.ps2NetfsFd r.room r.awaits).run u = _ := accept_short h
    rw [hst] at hrun
    refine .inr ⟨fun hs => ?_, fun _ hr => ?_⟩
    · obtain ⟨e, he⟩ := hbroken hs
      rw [hst] at he
      cases he
    · rw [Right, hear_stuck (by rw [hrun])] at hr
      cases hr
  | eof =>
    have hrun : (ps2netfsAcceptPkt u.ps2NetfsFd r.room r.awaits).run u = _ := accept_short h
    rw [hst] at hrun
    refine .inr ⟨fun hs => ?_, fun hm => ?_⟩
    · obtain ⟨e, he⟩ := hbroken hs
      rw [hst] at he
      cases he
    · have h6 : pktHdrSize = 6 := rfl
      refine (took_header h (by simp [taken])).not_right_of_stale (by decide) hrun ?_ (hm ▸ bare_of_ge (by decide))
        (not_whole_of_short h)
      rw [List.length_take]
      omega

theorem settled (r : NetfsReq) (u : World) : Settled r u := by
  by_cases h : pktHdrSize ≤ (u.pending u.ps2NetfsFd).length
  · by_cases ht : ofBe32 (u.pending u.ps2NetfsFd) ≠ r.awaits ∨ r.room < announced (u.pending u.ps2NetfsFd)
    · refine .inl ⟨?_, right_of_refuses h ht⟩
      rw [NetfsReq.Sound, NetfsReq.SoundOn, if_pos h]
      exact ht.elim .inl fun hl => .inr (.inl hl)
    · obtain ⟨ht, hl⟩ := not_or.mp ht
      by_cases hf : announced (u.pending u.ps2NetfsFd) ≤ (u.pending u.ps2NetfsFd).length
      · exact settled_of_full h (not_not.mp ht) (Nat.le_of_not_lt hl) hf
      · exact settled_of_cut h (not_not.mp ht) (Nat.le_of_not_lt hl) (Nat.lt_of_not_le hf)
  · exact settled_of_short (Nat.lt_of_not_le h)

end Sound

end Pksh
