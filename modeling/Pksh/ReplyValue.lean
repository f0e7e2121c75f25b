import Pksh.Requests
import Pksh.Receiving

/-! The reply that `ps2netfs_accept_pkt` takes off a stream, and its value. -/

namespace Pksh

open Wire Traced

section Body

variable (fd : Int) {len : Nat} {pktType : Word} {v : World} {n : Nat}

theorem acceptBody_refuses
    (h : ntohl (v.recvPacket.word 0) ≠ pktType ∨ len < (ntohs (v.recvPacket.half 4)).toNat) :
    ∃ u as, (acceptBody fd len pktType).run v = ⟨some 0, u, as⟩ ∧ taken fd as = [] := by
  simp only [acceptBody, loadPacket, Prog.run_bind, Prog.run_get, Result.andThen_mk_some, Prog.run_pure,
    Result.after_mk]
  by_cases ht : ntohl (v.recvPacket.word 0) = pktType
  · rw [if_neg (not_not.mpr ht), if_pos (h.resolve_left (not_not.mpr ht))]
    exact ⟨_, _, rfl, rfl⟩
  · rw [if_pos ht]
    exact ⟨_, _, rfl, rfl⟩

theorem acceptBody_takes (ht : ntohl (v.recvPacket.word 0) = pktType)
    (hn : (ntohs (v.recvPacket.half 4)).toNat = n) (hl : n ≤ len) :
    ∃ as, (acceptBody fd len pktType).run v =
        ⟨if n - pktHdrSize ≤ (v.pending fd).length then some (if n = pktHdrSize then 0 else 1)
          else (readingValue (n - pktHdrSize) (v.inflow fd).stop).map fun length => if length = 0 then 0 else 1,
          v.received fd (.recvPacket pktHdrSize) (n - pktHdrSize), as⟩ ∧
      taken fd as = (v.pending fd).take (n - pktHdrSize) := by
  have htn : ((n : Int) - (pktHdrSize : Int)).toNat = n - pktHdrSize := by omega
  have hrun : (acceptBody fd len pktType).run v =
      ((pkoRecvBytes fd (.recvPacket pktHdrSize) (n - pktHdrSize)).run v).andThen fun length =>
        (pure (if length.1 = 0 then 0 else 1) : Io Int).run := by
    simp only [acceptBody, loadPacket, Prog.run_bind, Prog.run_get, Result.andThen_mk_some, Prog.run_pure,
      Result.after_mk]
    rw [if_neg (not_not.mpr ht), if_neg (by omega), hn]
    rfl
  rw [hrun]
  by_cases hb : n - pktHdrSize ≤ (v.pending fd).length
  · have hz : ((n : Int) - (pktHdrSize : Int) = 0) ↔ n = pktHdrSize := by omega
    rw [pkoRecvBytes_full v fd _ (htn ▸ hb), htn, if_pos hb]
    exact ⟨_, by simp only [Result.andThen_mk_some, hz]; rfl, by simp [taken, Buf.stored]⟩
  · have hs := Nat.lt_of_not_le hb
    rw [pkoRecvBytes_short v fd _ (htn ▸ hs), if_neg hb, List.take_of_length_le (Nat.le_of_lt hs)]
    cases (v.inflow fd).stop with
    | never => exact ⟨_, rfl, by simp [taken, Buf.stored, endless, readingValue]⟩
    | _ => exact ⟨_, rfl, by simp [taken, Buf.stored, endless, readingValue]⟩

end Body

section Accept

variable {u : World} {fd : Int} {len : Nat} {pktType : Word}

theorem accept_run (u : World) (fd : Int) (len : Nat) (pktType : Word) :
    (ps2netfsAcceptPkt fd len pktType).run u =
      (((pkoRecvBytes fd (.recvPacket 0) pktHdrSize).run u).andThen fun length =>
        (if length.1 = 0 then pure (-1) else acceptBody fd len pktType : Io Int).run).after [.await pktType] := rfl

theorem accept_header (h : pktHdrSize ≤ (u.pending fd).length) :
    (ps2netfsAcceptPkt fd len pktType).run u =
      ((acceptBody fd len pktType).run (u.received fd (.recvPacket 0) pktHdrSize)).after
        [.await pktType, .recv fd ((u.pending fd).take pktHdrSize), .store 0 ((u.pending fd).take pktHdrSize)] := by
  have hr := pkoRecvBytes_full u fd (.recvPacket 0) (show (pktHdrSize : Int).toNat ≤ _ from h)
  rw [accept_run, hr,
    Result.andThen_mk_some, if_neg (show ¬(pktHdrSize : Int) = 0 by decide)]
  rfl

theorem accept_refuses (h : pktHdrSize ≤ (u.pending fd).length)
    (ht : ofBe32 (u.pending fd) ≠ pktType ∨ len < u.hlen fd) :
    ∃ v as, (ps2netfsAcceptPkt fd len pktType).run u = ⟨some 0, v, as⟩ ∧
      taken fd as = (u.pending fd).take pktHdrSize := by
  obtain ⟨hw, hn⟩ := header_words h
  obtain ⟨v, as, hrun, hta⟩ := acceptBody_refuses fd (hw.symm ▸ hn.symm ▸ ht)
  refine ⟨v, _, by rw [accept_header h, hrun, Result.after_mk], ?_⟩
  rw [taken_append, hta, List.append_nil]
  simp [taken]

theorem accept_takes (h : pktHdrSize ≤ (u.pending fd).length) (ht : ofBe32 (u.pending fd) = pktType)
    (hl : u.hlen fd ≤ len) :
    ∃ as, (ps2netfsAcceptPkt fd len pktType).run u =
        ⟨if u.hlen fd ≤ (u.pending fd).length then some (if u.hlen fd = pktHdrSize then 0 else 1)
          else (readingValue (u.hlen fd - pktHdrSize) (u.inflow fd).stop).map fun length =>
            if length = 0 then 0 else 1, u.withPacket fd, as⟩ ∧
      taken fd as = (u.pending fd).take (u.askedFor fd) := by
  obtain ⟨hw, hn⟩ := header_words h
  obtain ⟨as, hrun, hta⟩ := acceptBody_takes fd (hw.trans ht) hn hl
  have hp := received_pending u fd (.recvPacket 0) pktHdrSize
  have hst := received_stop u fd (.recvPacket 0) (show (pktHdrSize : Int).toNat ≤ _ from h)
  rw [Int.toNat_natCast] at hp
  have hiff : (u.hlen fd - pktHdrSize ≤ ((u.pending fd).drop pktHdrSize).length) ↔
      u.hlen fd ≤ (u.pending fd).length := by
    rw [List.length_drop]
    omega
  refine ⟨_, by rw [accept_header h, hrun, Result.after_mk, hp, hst]; simp only [hiff]; rfl, ?_⟩
  rw [taken_append, hta, hp, World.askedFor, List.take_add]
  simp [taken]

theorem accept_short (h : (u.pending fd).length < pktHdrSize) :
    (ps2netfsAcceptPkt fd len pktType).run u =
      match (u.inflow fd).stop with
      | .eof => ⟨some (-1), u.received fd (.recvPacket 0) pktHdrSize,
          [.await pktType, .recv fd (u.pending fd), .store 0 (u.pending fd)]⟩
      | .dropped _ => ((acceptBody fd len pktType).run (u.received fd (.recvPacket 0) pktHdrSize)).after
          [.await pktType, .recv fd (u.pending fd), .store 0 (u.pending fd)]
      | _ => ⟨none, u.received fd (.recvPacket 0) pktHdrSize,
          [.await pktType, .recv fd (u.pending fd), .store 0 (u.pending fd), .starves fd]⟩ := by
  have hr := pkoRecvBytes_short u fd (.recvPacket 0) (show _ < (pktHdrSize : Int).toNat from h)
  rw [accept_run, hr]
  cases hs : (u.inflow fd).stop with
  | full => exact absurd hs Inflow.stop_ne_full
  | _ => rfl

end Accept

def announced (bs : List Byte) : Nat := (ofBe16 (bs.drop 4)).toNat

/-- What belongs to the bytes received: the retval field of a whole reply of
the awaited type, else -1. -/
def replyValue (pktType : Word) (bs : List Byte) : Int :=
  if ofBe32 bs = pktType ∧ pktFileRlySize ≤ announced bs ∧ announced bs ≤ bs.length then
    (ofBe32 (bs.drop 6)).toInt
  else -1

section Value

variable {pktType : Word} {bs : List Byte} {k : Nat}

theorem announced_take (hk : 6 ≤ k) : announced (bs.take k) = announced bs := by
  rw [announced, List.drop_take, ofBe16_take _ (by omega), announced]

theorem replyValue_whole (ht : ofBe32 bs = pktType) (h10 : pktFileRlySize ≤ announced bs)
    (hl : announced bs ≤ bs.length) (hk : announced bs ≤ k) :
    replyValue pktType (bs.take k) = (ofBe32 (bs.drop 6)).toInt := by
  have h10' : 10 ≤ announced bs := h10
  rw [replyValue, announced_take (by omega), ofBe32_take _ (by omega), List.drop_take,
    ofBe32_take _ (by omega), if_pos]
  exact ⟨ht, h10, by rw [List.length_take]; omega⟩

theorem replyValue_of_not_whole (h : ¬(ofBe32 bs = pktType ∧ pktFileRlySize ≤ announced bs ∧ announced bs ≤ bs.length)) :
    replyValue pktType (bs.take k) = -1 := by
  refine if_neg fun ⟨h1, h2, h3⟩ => h ?_
  have h10 : pktFileRlySize = 10 := rfl
  rw [List.length_take] at h3
  have hk6 : 6 ≤ k := by omega
  rw [announced_take hk6] at h2 h3
  rw [ofBe32_take _ (by omega)] at h1
  exact ⟨h1, h2, by omega⟩

theorem word_store (m : Mem) (h : 10 ≤ bs.length) :
    ntohl ((m.store 0 bs).word 6) = ofBe32 (bs.drop 6) := by
  have hs : (m.store 0 bs).slice 6 4 = (bs.drop 6).take 4 := by
    have hb : (m.store 0 bs).slice 0 10 = bs.take 10 := Mem.slice_store_of_le h
    have hd := Mem.slice_drop (m.store 0 bs) 0 (show 6 ≤ 10 by decide)
    rw [hb, List.drop_take] at hd
    exact hd.symm
  rw [Mem.ntohl_word, hs, ofBe32_take _ (Nat.le_refl 4)]

theorem ofBe32_ne_neg_one {b3 b2 b1 : Byte} : (ofBe32 [b3, b2, b1, 0]).toInt ≠ -1 := by
  intro h
  have hw : ofBe32 [b3, b2, b1, 0] = BitVec.ofInt 32 (-1) := by rw [← h, BitVec.ofInt_toInt]
  have hb := (ofBe32_eq_iff rfl).mp hw
  simp [be32] at hb

theorem retval_store_stale {m : Mem} (hm : m 9 = 0) (h : bs.length < 10) :
    retval (some (m.store 0 bs)) ≠ -1 := by
  have h9 : (m.store 0 bs) 9 = 0 := by
    rw [Mem.store_of_ge (by omega), hm]
  rw [retval, Option.elim_some, Mem.ntohl_word]
  simp only [Mem.slice, List.range, List.range.loop, List.map_cons, List.map_nil, h9]
  exact ofBe32_ne_neg_one

end Value

end Pksh
