import Pksh.Mimicry

/-! The dispatchers over the stream serve what the file server without its link
serves. -/

namespace Pksh

open Wire Traced

section Request

variable {r : FileReq} {w : World} {link : Int} {rest : List Byte}

theorem read_request (c : Server) (hc : c.fd = link) (hp : w.pending link = r.wire ++ rest) :
    c.read.run w = ((fileIo r.cmd >>= fun _ => pure 0).run (w.withPacket link)).after (w.intake link) ∧
      (w.withPacket link).recvPacket.slice 0 r.size = r.packet ∧
      (w.withPacket link).pending link = r.payload ++ rest := by
  have hsz := r.size_bounds
  have hp' : w.pending link =
      be32 r.cmd.code ++ (be16 (BitVec.ofNat 16 r.size) ++ (r.fields ++ (r.payload ++ rest))) := by
    rw [hp, FileReq.wire, FileReq.packet]
    simp only [List.append_assoc]
  obtain ⟨hl, hreq, hlen⟩ := header_read (by omega) hp'
  have hle : w.hlen link ≤ (w.pending link).length := by
    rw [hlen, hp, FileReq.wire, List.append_assoc, List.length_append, r.packet_length]
    omega
  have hf : r.cmd.isFileIo = true := by cases r <;> rfl
  refine ⟨?_, ?_, ?_⟩
  · cases c with
    | pksh fd =>
      obtain rfl : fd = link := hc
      rw [Server.read, pkoSrvRead_dispatch hl hle hreq, switch, if_pos hf]
    | batch fd =>
      obtain rfl : fd = link := hc
      rw [Server.read, batchIoRead, packetRead_dispatch hl (.inl hle), hreq, Option.filter_some_pos hf, switch, if_pos hf]
  · rw [← hlen, withPacket_slice (hlen ▸ hsz.1) hle, hlen, hp, FileReq.wire, List.append_assoc,
      List.take_left' r.packet_length]
  · rw [withPacket_pending, hlen, List.drop_drop, Nat.add_sub_cancel' hsz.1, hp, FileReq.wire,
      List.append_assoc, List.drop_left' r.packet_length]

theorem Mirrors.withPacket {u : World} (h : Mirrors link w u) : Mirrors link (w.withPacket link) u :=
  (h.received 0 _).received pktHdrSize _

theorem intake_hidden (w : World) (link : Int) : ∀ a ∈ w.intake link, a.shown link = none := by
  simp [World.intake, Act.shown]

theorem Act.shown_cases (link : Int) (a : Act) : a.shown link = none ∧ a.smooth = true ∨ a.shown link = some a := by
  cases a with
  | recv s bytes =>
    by_cases hs : s = link
    · exact .inl ⟨if_pos hs, rfl⟩
    · exact .inr (if_neg hs)
  | store off bytes => exact .inl ⟨rfl, rfl⟩
  | handle call => exact .inl ⟨rfl, rfl⟩
  | _ => exact .inr rfl

theorem smooth_of_shown {as bs : List Act} (h : as.filterMap (Act.shown link) = bs.filterMap (Act.shown link))
    (hb : bs.all Act.smooth = true) : as.all Act.smooth = true := by
  rw [List.all_eq_true] at hb ⊢
  intro a ha
  rcases a.shown_cases link with ⟨-, hs⟩ | hs
  · exact hs
  · have hmem : a ∈ bs.filterMap (Act.shown link) := h ▸ List.mem_filterMap.mpr ⟨a, ha, hs⟩
    obtain ⟨b, hbm, hbs⟩ := List.mem_filterMap.mp hmem
    rcases b.shown_cases link with ⟨hn, -⟩ | hn
    · rw [hn] at hbs
      cases hbs
    · obtain rfl := Option.some.inj (hn.symm.trans hbs)
      exact hb b hbm

theorem read_mimics {u : World} {c : Server} (hc : c.fd = link) (h : Mirrors link w u)
    (hp : w.pending link = r.wire ++ rest) (hs : r.call.spares link) (ha : (r.serve.run u).acts.all Act.smooth = true) :
    Mimics (Act.shown link) (Act.shown link) (Mirrors link) (fun v _ => v = 0) (c.read.run w) (r.serve.run u) ∧
      (c.read.run w).value = some 0 ∧ (c.read.run w).state.pending link = rest := by
  obtain ⟨hrun, hm, hv⟩ := read_request c hc hp
  have hmim : Mimics (Act.shown link) (Act.shown link) (Mirrors link) (fun v _ => v = 0) (c.read.run w) (r.serve.run u) := by
    rw [hrun, Prog.run_bind_pure]
    exact ((fileIo_mimics h.withPacket hm hv hs).map_left fun _ _ _ => rfl).after_left (intake_hidden w link)
  have hsame : (pkoSrvRead link).run w = c.read.run w :=
    (read_request (.pksh link) rfl hp).1.trans hrun.symm
  obtain ⟨hw, hb⟩ := smooth_spec (smooth_of_shown hmim.acts ha)
  obtain ⟨k, _, hk, -⟩ := h.sock
  have hlink := h.here
  subst hlink
  obtain ⟨v, as, hserve, -, -, -, -, -, hpend⟩ := serve_request ⟨k, hk⟩ hp hs (hsame ▸ hw) (hsame ▸ hb)
  rw [hsame] at hserve
  exact ⟨hmim, by rw [hserve], by rw [hserve]; exact hpend⟩

end Request

/-- The requests on a stream are served by any mixture of the two dispatchers
as the server without a stream serves them: the same calls to the host, in the
same order and with the same results, the same replies, and the same state
left. What is behind the requests on the stream stays there. -/
theorem fileServer_refines {link : Int} {cs : List Server} {reqs : List FileReq} {w u : World} {rest : List Byte}
    (hc : ∀ c ∈ cs, c.fd = link) (hn : cs.length = reqs.length) (h : Mirrors link w u)
    (hp : w.pending link = reqs.flatMap FileReq.wire ++ rest) (hs : ∀ r ∈ reqs, r.call.spares link)
    (ha : ((serveRequests reqs).run u).acts.all Act.smooth = true) :
    ((serveAll cs).run w).value = some () ∧
      Mimics (Act.shown link) (Act.shown link) (Mirrors link) Eq ((serveAll cs).run w) ((serveRequests reqs).run u) ∧
      ((serveAll cs).run w).state.pending link = rest := by
  induction reqs generalizing cs w u with
  | nil =>
    obtain rfl := List.length_eq_zero_iff.mp hn
    exact ⟨rfl, ⟨.some rfl, rfl, h⟩, hp⟩
  | cons r reqs ih =>
    obtain ⟨c, cs, rfl⟩ := List.exists_cons_of_length_pos (show 0 < cs.length by rw [hn]; exact Nat.succ_pos _)
    rw [List.flatMap_cons, List.append_assoc] at hp
    have hstep : (serveRequests (r :: reqs)).run u = (r.serve.run u).andThen fun _ => (serveRequests reqs).run := rfl
    have ha1 : (r.serve.run u).acts.all Act.smooth = true := by
      rw [hstep] at ha
      exact List.all_eq_true.mpr fun a hm => List.all_eq_true.mp ha a ((Result.acts_prefix_andThen _ _).subset hm)
    obtain ⟨hmim, hval, hpend⟩ := read_mimics (hc c List.mem_cons_self) h hp (hs r List.mem_cons_self) ha1
    have hval' : (r.serve.run u).value = some () := by
      have hv := hmim.value
      rw [hval] at hv
      generalize (r.serve.run u).value = y at hv
      cases hv
      rfl
    rw [hstep, Result.andThen_some _ hval'] at ha
    rw [Result.after_acts, List.all_append, Bool.and_eq_true] at ha
    obtain ⟨h1, h2, h3⟩ := ih (fun d hd => hc d (List.mem_cons_of_mem _ hd)) (Nat.succ.inj hn) hmim.state hpend
      (fun q hq => hs q (List.mem_cons_of_mem _ hq)) ha.2
    have hread : (serveAll (c :: cs)).run w = (c.read.run w).andThen fun _ => (serveAll cs).run := rfl
    refine ⟨?_, ?_, ?_⟩
    · rw [hread, Result.andThen_some _ hval]
      exact h1
    · rw [hread, hstep]
      refine hmim.andThen fun _ _ _ _ _ => h2
    · rw [hread, Result.andThen_some _ hval]
      exact h3

def idleLink : World :=
  .linked { Host.refusing with write := fun _ _ bytes => some bytes.length } 3 [(3, .sock (.delivering [])), (7, .plain)]

/-- One request is read by each dispatcher. -/
theorem writeAndClose_served : ((serveAll [.pksh 3, .batch 3]).run writeAndCloseLink).value = some () ∧
    Mimics (Act.shown 3) (Act.shown 3) (Mirrors 3) Eq ((serveAll [.pksh 3, .batch 3]).run writeAndCloseLink)
      ((serveRequests writeAndClose).run idleLink) ∧
    ((serveAll [.pksh 3, .batch 3]).run writeAndCloseLink).state.pending 3 = [] := by
  have hp : writeAndCloseLink.pending 3 = writeAndClose.flatMap FileReq.wire ++ [] := by
    rw [List.append_nil]
    exact pending_linked _ _ _ _ _
  have hm : Mirrors 3 writeAndCloseLink idleLink := by
    refine ⟨⟨_, rfl⟩, rfl, rfl, fun s hs => ?_, ⟨_, _, rfl, rfl⟩, rfl⟩
    simp [writeAndCloseLink, idleLink, World.linked, List.lookup_cons, beq_false_of_ne hs]
  have hs : ∀ r ∈ writeAndClose, r.call.spares 3 := by
    intro r hr
    simp only [writeAndClose, List.mem_cons, List.not_mem_nil, or_false] at hr
    rcases hr with rfl | rfl
    · exact ⟨by simp [FileReq.call], by simp [FileReq.call, Call.reads]⟩
    · exact ⟨by decide, by simp [FileReq.call, Call.reads]⟩
  exact fileServer_refines (by simp [Server.fd]) rfl hm hp hs (by decide +kernel)

end Pksh
