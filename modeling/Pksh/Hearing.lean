import Pksh.ReplyValue

/-! What a request returns, by the bytes that it took for its reply. -/

namespace Pksh

open Wire Traced

/-- How many bytes a read takes behind its reply. -/
def NetfsReq.data (r : NetfsReq) (word : Word) : Nat :=
  match r with
  | read _ _ => word.toInt.toNat
  | _ => 0

section Finish

variable (r : NetfsReq) (m : Mem) (v : World)

theorem finish_none (v : World) : (r.finish none).run v = ⟨some (-1), v, []⟩ := by
  cases r <;> rfl

/-- The data behind a reply are waited for; they do not change the value. -/
theorem finish_some :
    ((r.finish (some m)).run v).value =
        (if r.data (ntohl (m.word 6)) ≤ (v.pending v.ps2NetfsFd).length ∨
            (v.inflow v.ps2NetfsFd).stop ≠ .never then some (retval (some m)) else none) ∧
      ∃ n, taken v.ps2NetfsFd ((r.finish (some m)).run v).acts = (v.pending v.ps2NetfsFd).take n := by
  cases r with
  | read fd size =>
    by_cases hpos : ntohl (m.word 6) > 0
    · have hrun : ((NetfsReq.read fd size).finish (some m)).run v =
          ((pkoRecvBytes v.ps2NetfsFd .caller (ntohl (m.word 6)).toInt).run v).andThen fun _ =>
            (pure (retval (some m)) : Io Int).run := by
        rw [NetfsReq.finish, if_pos hpos]
        rfl
      rw [hrun]
      by_cases hl : (ntohl (m.word 6)).toInt.toNat ≤ (v.pending v.ps2NetfsFd).length
      · rw [pkoRecvBytes_full v _ _ hl, if_pos (.inl hl)]
        exact ⟨rfl, (ntohl (m.word 6)).toInt.toNat, by simp [taken, Buf.stored]⟩
      · have hs := Nat.lt_of_not_le hl
        rw [pkoRecvBytes_short v _ _ hs]
        refine ⟨?_, (v.pending v.ps2NetfsFd).length, ?_⟩
        · cases hst : (v.inflow v.ps2NetfsFd).stop with
          | full => exact absurd hst Inflow.stop_ne_full
          | never => rw [if_neg (by simpa [NetfsReq.data] using hs)]; rfl
          | _ => rw [if_pos (.inr (by simp))]; rfl
        · rw [List.take_length]
          cases (v.inflow v.ps2NetfsFd).stop <;>
            simp [taken, Buf.stored, endless, readingValue, Result.andThen]
    · have hz : (NetfsReq.read fd size).data (ntohl (m.word 6)) = 0 := by
        have : ntohl (m.word 6) = 0 := by simpa using hpos
        rw [this]
        rfl
      rw [NetfsReq.finish, if_neg hpos, hz, if_pos (.inl (Nat.zero_le _))]
      exact ⟨rfl, 0, by simp⟩
  | _ => exact ⟨by simp [NetfsReq.finish, NetfsReq.data], 0, by simp [NetfsReq.finish]⟩

end Finish

section Hear

variable {r : NetfsReq} {u v : World} {as : List Act}

theorem hear_split (r : NetfsReq) (u : World) :
    (r.response true >>= r.finish).run u =
      ((ps2netfsAcceptPkt u.ps2NetfsFd r.room r.awaits).run u).andThen fun accepted w =>
        if accepted = 0 then ⟨some (-1), w, []⟩ else (r.finish (some w.recvPacket)).run w := by
  refine (Result.andThen_assoc ((ps2netfsAcceptPkt u.ps2NetfsFd r.room r.awaits).run u) _ _).trans
    (congrArg (Result.andThen _) ?_)
  funext accepted w
  by_cases h : accepted = 0
  · simp only [if_pos h]
    exact finish_none r w
  · simp only [if_neg h]
    rfl

theorem hear_refused (h : (ps2netfsAcceptPkt u.ps2NetfsFd r.room r.awaits).run u = ⟨some 0, v, as⟩) :
    (r.response true >>= r.finish).run u = ⟨some (-1), v, as⟩ := by
  rw [hear_split, h, Result.andThen_mk_some, if_pos rfl, Result.after_mk, List.append_nil]

theorem hear_taken {x : Int} (hx : x ≠ 0)
    (h : (ps2netfsAcceptPkt u.ps2NetfsFd r.room r.awaits).run u = ⟨some x, v, as⟩) :
    (r.response true >>= r.finish).run u = ((r.finish (some v.recvPacket)).run v).after as := by
  rw [hear_split, h, Result.andThen_mk_some, if_neg hx]

theorem hear_stuck (h : ((ps2netfsAcceptPkt u.ps2NetfsFd r.room r.awaits).run u).value = none) :
    ((r.response true >>= r.finish).run u).value = none := by
  rw [hear_split, Result.andThen_none _ h]

end Hear

def Right (pktType : Word) (fd : Int) (res : Result World Act Int) : Prop :=
  res.value = some (replyValue pktType (taken fd res.acts))

/-- After a reply is taken: the first `k` bytes of the stream are in the buffer. -/
structure Took (u v : World) (as : List Act) (k : Nat) : Prop where
  netfs : v.ps2NetfsFd = u.ps2NetfsFd
  packet : v.recvPacket = u.recvPacket.store 0 ((u.pending u.ps2NetfsFd).take k)
  taken : taken u.ps2NetfsFd as = (u.pending u.ps2NetfsFd).take k
  pending : v.pending u.ps2NetfsFd = (u.pending u.ps2NetfsFd).drop k

section Took

variable {r : NetfsReq} {u v : World} {as : List Act} {k : Nat} {x : Int}

theorem Took.hear_taken (h : Took u v as k) : ∃ j, k ≤ j ∧
    Pksh.taken u.ps2NetfsFd (((r.finish (some v.recvPacket)).run v).after as).acts =
      (u.pending u.ps2NetfsFd).take j := by
  obtain ⟨n, hn⟩ := (finish_some r v.recvPacket v).2
  rw [h.netfs, h.pending] at hn
  refine ⟨k + n, Nat.le_add_right k n, ?_⟩
  rw [Result.after_acts, taken_append, hn, h.taken, List.take_add]

/-- Where the last byte of the field is not received, it may be anything. -/
theorem Took.not_right_of_stale (h : Took u v as k) (hx : x ≠ 0)
    (hacc : (ps2netfsAcceptPkt u.ps2NetfsFd r.room r.awaits).run u = ⟨some x, v, as⟩)
    (hk : ((u.pending u.ps2NetfsFd).take k).length < 10) (h9 : u.recvPacket 9 = 0)
    (hw : ¬(ofBe32 (u.pending u.ps2NetfsFd) = r.awaits ∧ pktFileRlySize ≤ announced (u.pending u.ps2NetfsFd) ∧
      announced (u.pending u.ps2NetfsFd) ≤ (u.pending u.ps2NetfsFd).length)) :
    ¬Right r.awaits u.ps2NetfsFd ((r.response true >>= r.finish).run u) := by
  intro hr
  obtain ⟨j, _, hj⟩ := h.hear_taken (r := r)
  rw [Right, Pksh.hear_taken hx hacc, hj, replyValue_of_not_whole hw, Result.after_value,
    (finish_some r v.recvPacket v).1] at hr
  split at hr
  · rw [h.packet, Option.some.injEq] at hr
    exact retval_store_stale h9 hk hr
  · cases hr

theorem Took.retval_eq (h : Took u v as k) (hk : 10 ≤ ((u.pending u.ps2NetfsFd).take k).length) :
    ntohl (v.recvPacket.word 6) = ofBe32 ((u.pending u.ps2NetfsFd).drop 6) := by
  rw [List.length_take] at hk
  rw [h.packet, word_store _ (by rw [List.length_take]; omega), List.drop_take, ofBe32_take _ (by omega)]

theorem Took.right_iff_of_whole (h : Took u v as k) (hx : x ≠ 0)
    (hacc : (ps2netfsAcceptPkt u.ps2NetfsFd r.room r.awaits).run u = ⟨some x, v, as⟩)
    (ht : ofBe32 (u.pending u.ps2NetfsFd) = r.awaits) (h10 : pktFileRlySize ≤ announced (u.pending u.ps2NetfsFd))
    (hl : announced (u.pending u.ps2NetfsFd) ≤ (u.pending u.ps2NetfsFd).length)
    (hk : announced (u.pending u.ps2NetfsFd) = k) :
    Right r.awaits u.ps2NetfsFd ((r.response true >>= r.finish).run u) ↔
      r.data (ofBe32 ((u.pending u.ps2NetfsFd).drop 6)) ≤ (u.pending u.ps2NetfsFd).length - k ∨
        (v.inflow u.ps2NetfsFd).stop ≠ .never := by
  have h10' : 10 ≤ announced (u.pending u.ps2NetfsFd) := h10
  obtain ⟨j, hkj, hj⟩ := h.hear_taken (r := r)
  have hw := h.retval_eq (by rw [List.length_take]; omega)
  rw [Right, Pksh.hear_taken hx hacc, hj, replyValue_whole ht h10 hl (by omega), Result.after_value,
    (finish_some r v.recvPacket v).1, retval, Option.elim_some, hw, h.netfs, h.pending, List.length_drop]
  split
  · rename_i hd
    exact ⟨fun _ => hd, fun _ => rfl⟩
  · rename_i hd
    exact ⟨fun h => (by cases h), fun h => absurd h hd⟩

/-- A reply that breaks off behind the field: the field counts all the same. -/
theorem Took.right_iff_of_cut (h : Took u v as k) (hx : x ≠ 0)
    (hacc : (ps2netfsAcceptPkt u.ps2NetfsFd r.room r.awaits).run u = ⟨some x, v, as⟩)
    (hk : 10 ≤ ((u.pending u.ps2NetfsFd).take k).length)
    (hl : (u.pending u.ps2NetfsFd).length < announced (u.pending u.ps2NetfsFd)) :
    Right r.awaits u.ps2NetfsFd ((r.response true >>= r.finish).run u) ↔
      ofBe32 ((u.pending u.ps2NetfsFd).drop 6) = 0xffffffff := by
  obtain ⟨j, _, hj⟩ := h.hear_taken (r := r)
  have hw := h.retval_eq hk
  have hone (b : Word) : b.toInt = -1 ↔ b = 0xffffffff := by
    rw [← BitVec.toInt_inj]
    rfl
  rw [Right, Pksh.hear_taken hx hacc, hj, replyValue_of_not_whole (fun hc => absurd hc.2.2 (Nat.not_le.mpr hl)),
    Result.after_value, (finish_some r v.recvPacket v).1, retval, Option.elim_some, hw]
  split
  · rw [Option.some.injEq, hone]
  · rename_i hn
    refine ⟨fun h => (by cases h), fun he => absurd (.inl ?_) hn⟩
    rw [he]
    cases r <;> exact Nat.zero_le _

end Took

theorem took_withPacket {u : World} {as : List Act}
    (h : taken u.ps2NetfsFd as = (u.pending u.ps2NetfsFd).take (u.askedFor u.ps2NetfsFd)) :
    Took u (u.withPacket u.ps2NetfsFd) as (u.askedFor u.ps2NetfsFd) where
  netfs := congrArg (fun t => t.2.2.1) (withPacket_wiring u u.ps2NetfsFd)
  packet := withPacket_recvPacket u u.ps2NetfsFd
  taken := h
  pending := by rw [withPacket_pending, List.drop_drop, World.askedFor]

theorem withPacket_stop {u : World} {fd : Int} (h : pktHdrSize ≤ (u.pending fd).length)
    (hl : u.hlen fd ≤ (u.pending fd).length) : ((u.withPacket fd).inflow fd).stop = (u.inflow fd).stop := by
  rw [World.withPacket, received_stop, received_stop]
  · exact h
  · rw [received_pending, List.length_drop, Int.toNat_natCast]
    omega

section Broken

variable {u : World} {len n : Nat} {pktType : Word} {e : Errno}

theorem broken_header (h : (u.pending u.ps2NetfsFd).length < pktHdrSize) :
    (u.received u.ps2NetfsFd (.recvPacket 0) pktHdrSize).recvPacket =
        u.recvPacket.store 0 (u.pending u.ps2NetfsFd) ∧
      (u.received u.ps2NetfsFd (.recvPacket 0) pktHdrSize).inflow u.ps2NetfsFd =
        ⟨[], (u.inflow u.ps2NetfsFd).ending.afterFail⟩ := by
  refine ⟨?_, ?_⟩
  · rw [received_vars, Int.toNat_natCast, List.take_of_length_le (Nat.le_of_lt h)]
    rfl
  · rw [received_inflow, Inflow.read_short (show _ < (pktHdrSize : Int).toNat from h)]

/-- What comes after a connection broke: the same error again, or the end of
the stream. -/
theorem stop_afterFail (hd : (u.inflow u.ps2NetfsFd).stop = .dropped e) :
    (⟨[], (u.inflow u.ps2NetfsFd).ending.afterFail⟩ : Inflow Byte Errno.drops).stop =
      if (u.inflow u.ps2NetfsFd).ending.afterFail = .eof then .eof else .dropped e := by
  revert hd
  simp only [Inflow.stop]
  cases (u.inflow u.ps2NetfsFd).ending with
  | quiet => intro h; cases h
  | eof => intro h; cases h
  | fail x sticky =>
    cases sticky with
    | true => intro h; rw [if_neg (by simp [Ending.afterFail])]; exact h
    | false =>
      intro _
      rfl

theorem accept_broken (len : Nat) (pktType : Word) (h : (u.pending u.ps2NetfsFd).length < pktHdrSize)
    (hd : (u.inflow u.ps2NetfsFd).stop = .dropped e) :
    (ps2netfsAcceptPkt u.ps2NetfsFd len pktType).run u =
      ((acceptBody u.ps2NetfsFd len pktType).run (u.received u.ps2NetfsFd (.recvPacket 0) pktHdrSize)).after
        [.await pktType, .recv u.ps2NetfsFd (u.pending u.ps2NetfsFd), .store 0 (u.pending u.ps2NetfsFd)] := by
  rw [accept_short h, hd]

theorem accept_broken_refuses (h : (u.pending u.ps2NetfsFd).length < pktHdrSize)
    (hd : (u.inflow u.ps2NetfsFd).stop = .dropped e)
    (ht : ntohl ((u.recvPacket.store 0 (u.pending u.ps2NetfsFd)).word 0) ≠ pktType ∨
      len < (ntohs ((u.recvPacket.store 0 (u.pending u.ps2NetfsFd)).half 4)).toNat) :
    ∃ v as, (ps2netfsAcceptPkt u.ps2NetfsFd len pktType).run u = ⟨some 0, v, as⟩ ∧
      taken u.ps2NetfsFd as = u.pending u.ps2NetfsFd := by
  rw [← (broken_header h).1] at ht
  obtain ⟨v, as, hrun, hta⟩ := acceptBody_refuses u.ps2NetfsFd ht
  refine ⟨v, _, by rw [accept_broken len pktType h hd, hrun, Result.after_mk], ?_⟩
  rw [taken_append, hta, List.append_nil]
  simp [taken]

theorem accept_broken_takes (h : (u.pending u.ps2NetfsFd).length < pktHdrSize)
    (hd : (u.inflow u.ps2NetfsFd).stop = .dropped e)
    (ht : ntohl ((u.recvPacket.store 0 (u.pending u.ps2NetfsFd)).word 0) = pktType)
    (hn : (ntohs ((u.recvPacket.store 0 (u.pending u.ps2NetfsFd)).half 4)).toNat = n) (hl : n ≤ len) :
    ∃ v as, Took u v as pktHdrSize ∧ (ps2netfsAcceptPkt u.ps2NetfsFd len pktType).run u =
      ⟨some (if n = pktHdrSize ∨ pktHdrSize < n ∧ (u.inflow u.ps2NetfsFd).ending.afterFail = .eof then 0 else 1),
        v, as⟩ := by
  obtain ⟨hm, hf⟩ := broken_header h
  have hp : (u.received u.ps2NetfsFd (.recvPacket 0) pktHdrSize).pending u.ps2NetfsFd = [] := by
    rw [World.pending, hf, Inflow.live_nil]
  have htake : (u.pending u.ps2NetfsFd).take pktHdrSize = u.pending u.ps2NetfsFd :=
    List.take_of_length_le (Nat.le_of_lt h)
  have hst : ((u.received u.ps2NetfsFd (.recvPacket 0) pktHdrSize).inflow u.ps2NetfsFd).stop =
      if (u.inflow u.ps2NetfsFd).ending.afterFail = .eof then .eof else .dropped e := by
    rw [hf, stop_afterFail hd]
  rw [← hm] at ht hn
  obtain ⟨as, hrun, hta⟩ := acceptBody_takes u.ps2NetfsFd ht hn hl
  rw [hp, hst] at hrun
  have hval := accept_broken len pktType h hd
  rw [hrun, Result.after_mk] at hval
  have hv : (if n - pktHdrSize ≤ ([] : List Byte).length then some (if n = pktHdrSize then 0 else 1)
      else (readingValue (n - pktHdrSize) (if (u.inflow u.ps2NetfsFd).ending.afterFail = .eof then .eof
        else .dropped e)).map fun length => if length = 0 then 0 else 1) =
      some (if n = pktHdrSize ∨ pktHdrSize < n ∧ (u.inflow u.ps2NetfsFd).ending.afterFail = .eof then (0 : Int)
        else 1) := by
    by_cases hle : n ≤ pktHdrSize
    · rw [if_pos (by rw [List.length_nil]; omega)]
      simp [Nat.not_lt.mpr hle]
    · have hlt := Nat.lt_of_not_le hle
      rw [if_neg (by rw [List.length_nil]; omega)]
      by_cases hf : (u.inflow u.ps2NetfsFd).ending.afterFail = .eof
      · simp [hf, hlt, readingValue]
      · simp [hf, Nat.ne_of_gt hlt, readingValue]
  rw [hv] at hval
  refine ⟨_, _, ⟨?_, ?_, ?_, ?_⟩, hval⟩
  · rw [received_vars, received_vars]
    rfl
  · rw [received_vars, hp, List.take_nil, htake, ← hm]
    exact Mem.store_nil _ _
  · rw [taken_append, hta, hp, List.take_nil, htake, List.append_nil]
    simp [taken]
  · rw [received_pending, hp, List.drop_nil, List.drop_of_length_le (Nat.le_of_lt h)]

end Broken

end Pksh
