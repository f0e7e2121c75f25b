import Pksh.Soundness

/-! What a request to the file server takes for its reply. -/

namespace Pksh

open Wire Traced

section Send

variable (w : World) (s : Int)

theorem sysSend_next (bs : List Byte) :
    ((sysSend s bs).run w).value.map (fun ret => !decide (ret < 0)) = (w.outflow s).next.map Prod.fst ∧
      (∀ b f, (w.outflow s).next = some (b, f) → ((sysSend s bs).run w).state.outflow s = f) ∧
      ((sysSend s bs).run w).state.inflow s = w.inflow s ∧ taken s ((sysSend s bs).run w).acts = [] := by
  rw [← Outflow.send_next (w.outflow s) bs.length]
  rcases hs : (w.outflow s).send bs.length with _ | ⟨r, f⟩
  · have hr : (sysSend s bs).run w = ⟨none, w.tick, [.send s bs none, .blocks s]⟩ := by
      simp only [sysSend, hs]
    rw [hr]
    exact ⟨rfl, by simp, rfl, rfl⟩
  · have hr : (sysSend s bs).run w =
        ⟨some (r.toOption.elim (-1) (↑·)), w.tick.putOutflow s f, [.send s bs r.toOption]⟩ := by
      simp only [sysSend, hs]
    rw [hr]
    refine ⟨?_, fun b g hg => ?_, putOutflow_inflow _ s f, rfl⟩
    · cases r with
      | error e => rfl
      | ok k => simp [Except.toOption, Except.toBool]
    · obtain rfl : f = g := by simpa using congrArg Prod.snd (Option.some.inj hg)
      exact putOutflow_send w.tick s hs

end Send

/-- What becomes of the sends: whether a reply is waited for, or `none` when one
of them never returns. Only a write looks at their results. -/
def NetfsReq.sent (r : NetfsReq) (f : Outflow Errno.drops) : Option Bool :=
  match r with
  | write _ _ _ => f.next.bind fun first => if first.1 then first.2.next.map Prod.fst else some false
  | _ => f.next.map fun _ => true

/-- The state in which the reply is waited for. -/
structure Awaiting (w : World) (sent : Option Bool) (r : Result World Act Bool) : Prop where
  value : r.value = sent
  vars : r.state.toVars = w.toVars
  inflow : r.state.inflow w.ps2NetfsFd = w.inflow w.ps2NetfsFd
  taken : taken w.ps2NetfsFd r.acts = []

theorem awaiting_once (w : World) (bs : List Byte) :
    Awaiting w ((w.outflow w.ps2NetfsFd).next.map fun _ => true) ((do
      let _ ← sysSend w.ps2NetfsFd bs
      pure true : Io Bool).run w) := by
  obtain ⟨hv, _, hi, ht⟩ := sysSend_next w w.ps2NetfsFd bs
  have hvars := sysSend_vars w w.ps2NetfsFd bs
  rw [Prog.run_bind]
  generalize (sysSend w.ps2NetfsFd bs).run w = x at *
  obtain ⟨_ | ret, u, as⟩ := x
  · rw [Option.map_eq_none_iff.mp hv.symm]
    exact ⟨rfl, hvars, hi, ht⟩
  · obtain ⟨y, hy, _⟩ := Option.map_eq_some_iff.mp hv.symm
    rw [hy]
    exact ⟨rfl, hvars, hi, by simpa using ht⟩

theorem awaiting_request (w : World) (size : Nat) :
    Awaiting w ((w.outflow w.ps2NetfsFd).next.map fun _ => true) ((sendRequest size).run w) :=
  awaiting_once w (w.sendPacket.slice 0 size)

theorem awaiting_write (w : World) (fd : Word) (ptr : Mem) (size : Word) :
    Awaiting w ((NetfsReq.write fd ptr size).sent (w.outflow w.ps2NetfsFd)) ((sendWrite ptr size).run w) := by
  obtain ⟨hv, ho, hi, ht⟩ := sysSend_next w w.ps2NetfsFd (w.sendPacket.slice 0 pktWriteReqSize)
  have hvars := sysSend_vars w w.ps2NetfsFd (w.sendPacket.slice 0 pktWriteReqSize)
  rw [sendWrite, Prog.run_bind, Prog.run_get, Result.andThen_mk_some, Prog.run_bind, NetfsReq.sent]
  generalize (sysSend w.ps2NetfsFd (w.sendPacket.slice 0 pktWriteReqSize)).run w = x at *
  obtain ⟨_ | ret, u, as⟩ := x
  · rw [Option.map_eq_none_iff.mp hv.symm]
    exact ⟨rfl, hvars, hi, ht⟩
  · obtain ⟨⟨b, f⟩, hn, hb⟩ := Option.map_eq_some_iff.mp hv.symm
    obtain rfl : b = !decide (ret < 0) := hb
    rw [hn, Option.bind_some, Result.andThen_mk_some]
    by_cases hr : ret < 0
    · rw [if_pos hr]
      simp only [hr, decide_true, Bool.not_true, Bool.false_eq_true, if_false]
      exact ⟨rfl, hvars, hi, by simpa using ht⟩
    · obtain ⟨hv', _, hi', ht'⟩ := sysSend_next u w.ps2NetfsFd (ptr.slice 0 (sizeT size.toInt))
      have hvars' := sysSend_vars u w.ps2NetfsFd (ptr.slice 0 (sizeT size.toInt))
      rw [ho _ f hn] at hv'
      rw [if_neg hr, Prog.run_bind]
      simp only [hr, decide_false, Bool.not_false, if_true]
      generalize (sysSend w.ps2NetfsFd (ptr.slice 0 (sizeT size.toInt))).run u = y at *
      obtain ⟨_ | ret', v, bs⟩ := y
      · exact ⟨hv', hvars'.trans hvars, hi'.trans hi, by simp_all⟩
      · refine ⟨?_, hvars'.trans hvars, hi'.trans hi, by simp_all⟩
        rw [← hv']
        by_cases hr' : ret' < 0 <;> simp [hr', Result.after]

theorem NetfsReq.awaiting (r : NetfsReq) (w : World) :
    Awaiting w (r.sent (w.outflow w.ps2NetfsFd)) (r.sends.run w) := by
  cases r with
  | write fd ptr size => exact awaiting_write w fd ptr size
  | umount path flags => exact awaiting_once w _
  | _ => exact awaiting_request w _

theorem NetfsReq.run_awaiting (r : NetfsReq) (w : World) (m : Mem) : ∃ u as,
    taken w.ps2NetfsFd as = [] ∧ u.ps2NetfsFd = w.ps2NetfsFd ∧ u.recvPacket = m ∧
      u.inflow w.ps2NetfsFd = w.inflow w.ps2NetfsFd ∧
      r.run.run { w with recvPacket := m } = match r.sent (w.outflow w.ps2NetfsFd) with
        | none => ⟨none, u, as⟩
        | some sent => ((r.response sent >>= r.finish).run u).after as := by
  obtain ⟨hv, hvars, hi, ht⟩ := r.awaiting (r.filled { w with recvPacket := m })
  refine ⟨_, _, ht, by rw [hvars]; rfl, by rw [hvars]; rfl, hi, ?_⟩
  rw [r.run_split]
  change _ = r.sent (w.outflow w.ps2NetfsFd) at hv
  cases hs : r.sent (w.outflow w.ps2NetfsFd) with
  | none => exact Result.andThen_none _ (hv.trans hs)
  | some sent => exact Result.andThen_some _ (hv.trans hs)

theorem right_after {pktType : Word} {fd : Int} {res : Result World Act Int} {as : List Act} (h : taken fd as = []) :
    Right pktType fd (res.after as) ↔ Right pktType fd res := by
  rw [Right, Right, Result.after_value, Result.after_acts, taken_append, h, List.nil_append]

theorem right_unsent (r : NetfsReq) (u : World) (fd : Int) :
    Right r.awaits fd ((r.response false >>= r.finish).run u) := by
  have hr : (r.response false >>= r.finish).run u = ((r.finish none).run u).after [] := rfl
  rw [hr, finish_none]
  refine congrArg some (Eq.symm (if_neg fun hc => ?_))
  have h10 : pktFileRlySize = 10 := rfl
  have h0 : ([] : List Byte).length = 0 := rfl
  have hl : pktFileRlySize ≤ announced [] ∧ announced [] ≤ 0 := hc.2
  omega

/-- A request gives the retval of its reply, whatever `recv_packet` held,
exactly when it is sent and the stream is a sound one, or when it gives up. -/
theorem reply_taken_iff (r : NetfsReq) (w : World) :
    (∀ m, Right r.awaits w.ps2NetfsFd (r.run.run { w with recvPacket := m })) ↔
      match r.sent (w.outflow w.ps2NetfsFd) with
      | none => False
      | some false => True
      | some true => r.Sound w := by
  have hrun := r.run_awaiting w
  cases hs : r.sent (w.outflow w.ps2NetfsFd) with
  | none =>
    refine iff_of_false (fun h => ?_) not_false
    obtain ⟨u, as, _, _, _, _, hr⟩ := hrun w.recvPacket
    have hm := h w.recvPacket
    rw [hr, hs, Right] at hm
    cases hm
  | some sent =>
    cases sent with
    | false =>
      refine iff_of_true (fun m => ?_) trivial
      obtain ⟨u, as, ht, _, _, _, hr⟩ := hrun m
      rw [hr, hs]
      exact (right_after ht).mpr (right_unsent r u _)
    | true =>
      -- in each state the wait for the reply is settled by the stream alone
      have hstep (m : Mem) : r.Sound w ∧ Right r.awaits w.ps2NetfsFd (r.run.run { w with recvPacket := m }) ∨
          ¬r.Sound w ∧ (m = bare r.awaits → ¬Right r.awaits w.ps2NetfsFd (r.run.run { w with recvPacket := m })) := by
        obtain ⟨u, as, ht, hfd, hm, hi, hr⟩ := hrun m
        have h := settled r u
        rw [Settled, NetfsReq.Sound, World.pending, hfd, hi, hm] at h
        rw [hr, hs, NetfsReq.Sound, World.pending]
        simpa only [right_after ht] using h
      refine ⟨fun h => ?_, fun h m => ?_⟩
      · by_contra hn
        exact ((hstep (bare r.awaits)).resolve_left fun hc => hn hc.1).2 rfl (h _)
      · exact ((hstep m).resolve_right fun hc => hc.1 h).2

def closedAtOnce : World :=
  { World.linked .refusing 3 [(7, .sock ⟨⟨[], .eof⟩, ⟨[], .accepts⟩⟩)] with ps2NetfsFd := 7 }

/-- The retval is taken from a buffer into which nothing was received. -/
theorem close_not_right : ¬∀ (r : NetfsReq) (w : World), Right r.awaits w.ps2NetfsFd (r.run.run w) := by
  intro h
  have hv : ((NetfsReq.close 5).run.run closedAtOnce).value = some 0 := by decide +kernel
  have ht : taken 7 ((NetfsReq.close 5).run.run closedAtOnce).acts = [] := by decide +kernel
  have hr : some 0 = some (replyValue ps2netfsCloseRly (taken 7 ((NetfsReq.close 5).run.run closedAtOnce).acts)) :=
    hv.symm.trans (h (.close 5) closedAtOnce)
  rw [ht] at hr
  exact absurd hr (by decide)

end Pksh
