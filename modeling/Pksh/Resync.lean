import Pksh.Replies

/-! Where the stream from the file server stands after a reply is rejected. -/

namespace Pksh

open Wire Traced

/-- A packet as the server sends it: behind a header with any `len`, as many
bytes as it announces. -/
structure Reply where
  cmd : Word
  len : Half
  body : List Byte
  whole : body.length = len.toNat - pktHdrSize

namespace Reply

def bytes (p : Reply) : List Byte := be32 p.cmd ++ (be16 p.len ++ p.body)

def stream (ps : List Reply) : List Byte := ps.flatMap bytes

/-- A reply of another type, or one that is longer than the struct it is for. -/
def RejectedBy (p : Reply) (r : NetfsReq) : Prop := p.cmd ≠ r.awaits ∨ r.room < p.len.toNat

theorem stream_cons (p : Reply) (ps : List Reply) : stream (p :: ps) = p.bytes ++ stream ps := by
  rw [stream, List.flatMap_cons, ← stream]

section Read

variable {u : World} {fd : Int} {p : Reply} {rest : List Byte}

theorem header_read (h : u.pending fd = p.bytes ++ rest) :
    pktHdrSize ≤ (u.pending fd).length ∧ ofBe32 (u.pending fd) = p.cmd ∧ u.hlen fd = p.len.toNat ∧
      (u.pending fd).drop pktHdrSize = p.body ++ rest := by
  rw [bytes, List.append_assoc, List.append_assoc] at h
  have hd : (u.pending fd).drop 4 = be16 p.len ++ (p.body ++ rest) := by
    rw [h]
    exact List.drop_left' (be32_length p.cmd)
  have hd6 : (u.pending fd).drop pktHdrSize = p.body ++ rest := by
    rw [pktHdrSize, ← List.drop_drop (i := 2) (j := 4), hd]
    exact List.drop_left' (be16_length p.len)
  refine ⟨?_, ?_, ?_, hd6⟩
  · rw [h, List.length_append, List.length_append, be32_length, be16_length, pktHdrSize]
    omega
  · rw [h, ofBe32_be32_append]
  · rw [World.hlen, hd, ofBe16_be16_append]

end Read

end Reply

section Reject

variable (fd : Int) {len : Nat} {pktType : Word} {v : World}

theorem acceptBody_mismatch (h : ntohl (v.recvPacket.word 0) ≠ pktType) :
    (acceptBody fd len pktType).run v =
      ⟨some 0, { v.tick.setDesc v.ps2NetfsFd none with ps2NetfsFd := -1 }, [.close v.ps2NetfsFd]⟩ := by
  simp only [acceptBody, loadPacket, Prog.run_bind, Prog.run_get, Result.andThen_mk_some, Prog.run_pure,
    Result.after_mk]
  rw [if_pos h]
  rfl

theorem acceptBody_oversize (ht : ntohl (v.recvPacket.word 0) = pktType)
    (hl : len < (ntohs (v.recvPacket.half 4)).toNat) : (acceptBody fd len pktType).run v = ⟨some 0, v, []⟩ := by
  simp only [acceptBody, loadPacket, Prog.run_bind, Prog.run_get, Result.andThen_mk_some, Prog.run_pure,
    Result.after_mk]
  rw [if_neg (not_not.mpr ht), if_pos hl]
  rfl

end Reject

/-- The descriptor is closed and forgotten, or the next header is read next. -/
def Resynced (fd : Int) (rest : List Byte) (w : World) : Prop :=
  w.ps2NetfsFd = -1 ∧ w.desc fd = none ∨ w.pending fd = rest

section Hear

variable {r : NetfsReq} {u : World} {p : Reply} {rest : List Byte}

theorem hear_mismatch (h : u.pending u.ps2NetfsFd = p.bytes ++ rest) (hp : p.cmd ≠ r.awaits) :
    ((r.response true >>= r.finish).run u).value = some (-1) ∧
      Resynced u.ps2NetfsFd rest ((r.response true >>= r.finish).run u).state := by
  obtain ⟨h6, hc, _, _⟩ := Reply.header_read h
  obtain ⟨hw, _⟩ := header_words h6
  have hfd : (u.received u.ps2NetfsFd (.recvPacket 0) pktHdrSize).ps2NetfsFd = u.ps2NetfsFd := by
    rw [received_vars]
    rfl
  have hrun : (ps2netfsAcceptPkt u.ps2NetfsFd r.room r.awaits).run u = _ := accept_header h6
  rw [acceptBody_mismatch _ (by rw [hw, hc]; exact hp), hfd, Result.after_mk] at hrun
  rw [hear_refused hrun]
  exact ⟨rfl, .inl ⟨rfl, World.setDesc_self _ _ none⟩⟩

theorem hear_oversize (h : u.pending u.ps2NetfsFd = p.bytes ++ rest) (hp : p.cmd = r.awaits)
    (hl : r.room < p.len.toNat) :
    ((r.response true >>= r.finish).run u).value = some (-1) ∧
      ((r.response true >>= r.finish).run u).state.pending u.ps2NetfsFd = p.body ++ rest := by
  obtain ⟨h6, hc, hn, hd⟩ := Reply.header_read h
  obtain ⟨hw, hh⟩ := header_words h6
  have hrun : (ps2netfsAcceptPkt u.ps2NetfsFd r.room r.awaits).run u = _ := accept_header h6
  rw [acceptBody_oversize _ (by rw [hw, hc, hp]) (by rw [hh, hn]; exact hl), Result.after_mk] at hrun
  rw [hear_refused hrun]
  exact ⟨rfl, (received_pending _ _ _ _).trans hd⟩

theorem room_ge (r : NetfsReq) : pktHdrSize ≤ r.room := by
  cases r <;> exact Nat.le_of_ble_eq_true rfl

theorem not_resynced_of_oversize {v : World} {fd : Int} (hl : r.room < p.len.toNat)
    (h : v.pending fd = p.body ++ rest) : ¬Resynced fd rest v := by
  have hlen := congrArg List.length h
  have hw := p.whole
  have hr := room_ge r
  rw [List.length_append] at hlen
  rintro (⟨_, hd⟩ | hp)
  · have hnil : v.pending fd = [] := by simp [World.pending, World.inflow, World.sockAt, hd, Sock.dead]
    rw [hnil, List.length_nil] at hlen
    omega
  · rw [hp] at hlen
    omega

end Hear

/-- A rejected reply leaves the stream at the next header, or closed, exactly
when it was rejected for its type. -/
theorem rejected_resynced_iff (r : NetfsReq) (w : World) (p : Reply) (ps : List Reply)
    (hs : w.pending w.ps2NetfsFd = Reply.stream (p :: ps)) (hsent : r.sent (w.outflow w.ps2NetfsFd) = some true)
    (hp : p.RejectedBy r) :
    (r.run.run w).value = some (-1) ∧
      (Resynced w.ps2NetfsFd (Reply.stream ps) (r.run.run w).state ↔ p.cmd ≠ r.awaits) := by
  obtain ⟨u, as, _, hfd, _, hi, hrun⟩ := r.run_awaiting w w.recvPacket
  rw [Reply.stream_cons] at hs
  have hpend : u.pending u.ps2NetfsFd = p.bytes ++ Reply.stream ps := by
    rw [World.pending, hfd, hi]
    exact hs
  have hw : r.run.run w = ((r.response true >>= r.finish).run u).after as := by
    rw [hsent] at hrun
    exact hrun
  rw [hw, Result.after_value, Result.after_state, ← hfd]
  by_cases hc : p.cmd = r.awaits
  · obtain ⟨hv, hrest⟩ := hear_oversize hpend hc (hp.resolve_left (not_not.mpr hc))
    exact ⟨hv, iff_of_false (not_resynced_of_oversize (hp.resolve_left (not_not.mpr hc)) hrest) (not_not.mpr hc)⟩
  · obtain ⟨hv, hres⟩ := hear_mismatch hpend hc
    exact ⟨hv, iff_of_true hres hc⟩

/-- A reply of the right type that is two bytes longer than its struct. -/
def longReply : Reply := ⟨ps2netfsCloseRly, 12, List.replicate 6 0, rfl⟩

def longAnswer : World :=
  { World.linked .refusing 3 [(7, .sock (.delivering longReply.bytes))] with ps2NetfsFd := 7 }

theorem close_longReply_resynced_iff :
    ((NetfsReq.close 5).run.run longAnswer).value = some (-1) ∧
      (Resynced 7 (Reply.stream []) ((NetfsReq.close 5).run.run longAnswer).state ↔
        longReply.cmd ≠ (NetfsReq.close 5).awaits) :=
  rejected_resynced_iff (.close 5) longAnswer longReply [] (by decide +kernel) (by decide +kernel) (.inr (by decide))

theorem longReply_not_resynced : ¬∀ (r : NetfsReq) (w : World) (p : Reply) (ps : List Reply),
    w.pending w.ps2NetfsFd = Reply.stream (p :: ps) → r.sent (w.outflow w.ps2NetfsFd) = some true → p.RejectedBy r →
      Resynced w.ps2NetfsFd (Reply.stream ps) (r.run.run w).state := by
  intro h
  have hfd : ((NetfsReq.close 5).run.run longAnswer).state.ps2NetfsFd = 7 := by decide +kernel
  have hp : ((NetfsReq.close 5).run.run longAnswer).state.pending 7 = longReply.body := by decide +kernel
  rcases h (.close 5) longAnswer longReply [] (by decide +kernel) (by decide +kernel) (.inr (by decide)) with hc | hc
  · exact absurd (hfd.symm.trans hc.1) (by decide)
  · exact absurd (hp.symm.trans hc) (by decide)

end Pksh
