import Pksh.Dispatch

/-! What a dispatcher does with the bytes that are still to arrive. -/

namespace Pksh

open Wire Traced

namespace World

variable (w : World) (s : Int)

/-- The bytes still to arrive on a descriptor. -/
def pending : List Byte := (w.inflow s).live

/-- The state after `pko_recv_bytes`. -/
def received (buf : Buf) (bytes : Int) : World := ((pkoRecvBytes s buf bytes).run w).state

end World

variable (w : World) (s fd : Int) (buf : Buf) {bytes : Int}

theorem pkoRecvBytes_full (h : bytes.toNat ≤ (w.pending s).length) :
    (pkoRecvBytes s buf bytes).run w =
      ⟨some (bytes, (w.pending s).take bytes.toNat), w.received s buf bytes,
        .recv s ((w.pending s).take bytes.toNat) :: buf.stored ((w.pending s).take bytes.toNat)⟩ := by
  obtain ⟨h1, h2, _, _⟩ := Inflow.read_full h
  simp only [World.received, pkoRecvBytes, h1, h2, readingValue]
  simp [endless, World.pending]

theorem pkoRecvBytes_short (h : (w.pending s).length < bytes.toNat) :
    (pkoRecvBytes s buf bytes).run w =
      ⟨(readingValue bytes (w.inflow s).stop).map (·, w.pending s), w.received s buf bytes,
        .recv s (w.pending s) :: (buf.stored (w.pending s) ++
          endless (.starves s) (readingValue bytes (w.inflow s).stop))⟩ := by
  simp only [World.received, pkoRecvBytes, Inflow.read_short h]
  rfl

theorem read_got (w : World) (s : Int) (n : Nat) : ((w.inflow s).read n).2.1 = (w.pending s).take n := by
  by_cases h : n ≤ (w.inflow s).live.length
  · exact (Inflow.read_full h).2.1
  · rw [Inflow.read_short (Nat.lt_of_not_le h)]
    exact (List.take_of_length_le (Nat.le_of_not_le h)).symm

theorem received_vars (w : World) (s : Int) (buf : Buf) (bytes : Int) :
    (w.received s buf bytes).toVars = buf.fill ((w.pending s).take bytes.toNat) w.toVars := by
  simp only [World.received, pkoRecvBytes, World.putInflow_toVars, read_got]

theorem received_accounted (w : World) (s : Int) (buf : Buf) (bytes : Int) :
    Accounted w (.recv s ((w.pending s).take bytes.toNat) :: buf.stored ((w.pending s).take bytes.toNat))
      (w.received s buf bytes) :=
  .vars (.of_putInflow (read_got w s _ ▸ Inflow.read_append _ _) (quiet_stored _ _)) _

theorem received_inflow (w : World) (s : Int) (buf : Buf) (bytes : Int) :
    (w.received s buf bytes).inflow s = ((w.inflow s).read bytes.toNat).2.2 := by
  have hd : (w.received s buf bytes).desc = (w.putInflow s ((w.inflow s).read bytes.toNat).2.2).desc := rfl
  simp only [World.inflow, World.sockAt, hd, World.putInflow, World.putSock]
  cases h : w.desc s with
  | none =>
    cases hn : bytes.toNat <;> simp [h, Sock.dead, Inflow.read, Inflow.readFrom, Ending.afterFail]
  | some d =>
    cases d with
    | sock k => simp
    | fresh =>
      cases hn : bytes.toNat <;> simp [h, Sock.dead, Inflow.read, Inflow.readFrom, Ending.afterFail]
    | plain =>
      cases hn : bytes.toNat <;> simp [h, Sock.dead, Inflow.read, Inflow.readFrom, Ending.afterFail]

theorem received_pending (w : World) (s : Int) (buf : Buf) (bytes : Int) :
    (w.received s buf bytes).pending s = (w.pending s).drop bytes.toNat := by
  rw [World.pending, received_inflow]
  by_cases h : bytes.toNat ≤ (w.inflow s).live.length
  · exact (Inflow.read_full h).2.2.1
  · rw [Inflow.read_short (Nat.lt_of_not_le h)]
    exact (List.drop_of_length_le (Nat.le_of_not_le h)).symm

theorem received_stop (h : bytes.toNat ≤ (w.pending s).length) :
    ((w.received s buf bytes).inflow s).stop = (w.inflow s).stop := by
  rw [received_inflow, Inflow.stop, (Inflow.read_full h).2.2.2]
  rfl

theorem received_ending (w : World) (s : Int) (buf : Buf) (bytes : Int) :
    ((w.received s buf bytes).inflow s).ending =
      if bytes.toNat ≤ (w.pending s).length then (w.inflow s).ending else (w.inflow s).ending.afterFail := by
  rw [received_inflow]
  by_cases h : bytes.toNat ≤ (w.pending s).length
  · rw [if_pos h]
    exact (Inflow.read_full h).2.2.2
  · rw [if_neg h, Inflow.read_short (Nat.lt_of_not_le h)]

theorem received_outflow (w : World) (s : Int) (buf : Buf) (bytes : Int) :
    (w.received s buf bytes).outflow s = w.outflow s := putInflow_outflow w s s _

theorem pkoRecvBytes_ends (w : World) (s : Int) (buf : Buf) (bytes : Int) (h : (w.inflow s).stop ≠ .never) :
    (pkoRecvBytes s buf bytes).run w =
      ⟨some (if bytes.toNat ≤ (w.pending s).length then bytes else if (w.inflow s).stop = .eof then 0 else -1,
          (w.pending s).take bytes.toNat), w.received s buf bytes,
        .recv s ((w.pending s).take bytes.toNat) :: buf.stored ((w.pending s).take bytes.toNat)⟩ := by
  by_cases hl : bytes.toNat ≤ (w.pending s).length
  · rw [if_pos hl, pkoRecvBytes_full w s buf hl]
  · have hs := Nat.lt_of_not_le hl
    rw [if_neg hl, pkoRecvBytes_short w s buf hs, List.take_of_length_le (Nat.le_of_lt hs)]
    cases hst : (w.inflow s).stop with
    | full => exact absurd hst Inflow.stop_ne_full
    | eof => simp [readingValue, endless]
    | dropped e => simp [readingValue, endless]
    | never => exact absurd hst h

variable {w fd}

def World.hlen (w : World) (fd : Int) : Nat := (ofBe16 ((w.pending fd).drop 4)).toNat

/-- The command case a complete header selects. -/
def World.request (w : World) (fd : Int) : Option Cmd :=
  if pktHdrSize ≤ (w.pending fd).length then Cmd.ofCode (ofBe32 (w.pending fd)) else none

theorem header_read {c : Cmd} {n : Nat} {bs : List Byte} (hn : n < 2 ^ 16)
    (hp : w.pending fd = be32 c.code ++ (be16 (BitVec.ofNat 16 n) ++ bs)) :
    pktHdrSize ≤ (w.pending fd).length ∧ w.request fd = some c ∧ w.hlen fd = n := by
  have hl : pktHdrSize ≤ (w.pending fd).length := by
    rw [hp, List.length_append, List.length_append, be32_length, be16_length, pktHdrSize]
    omega
  have hd : (w.pending fd).drop 4 = be16 (BitVec.ofNat 16 n) ++ bs := by
    rw [hp]
    exact List.drop_left' (be32_length c.code)
  refine ⟨hl, ?_, ?_⟩
  · rw [World.request, if_pos hl, hp, ofBe32_be32_append, Cmd.ofCode_code]
  · rw [World.hlen, hd, ofBe16_be16_append, BitVec.toNat_ofNat]
    omega

/-- The state in which the switch is entered. -/
def World.withPacket (w : World) (fd : Int) : World :=
  (w.received fd (.recvPacket 0) pktHdrSize).received fd (.recvPacket pktHdrSize) (w.hlen fd - pktHdrSize)

def World.intake (w : World) (fd : Int) : List Act :=
  let hdr := (w.pending fd).take pktHdrSize
  let body := ((w.pending fd).drop pktHdrSize).take (w.hlen fd - pktHdrSize)
  [.recv fd hdr, .store 0 hdr, .recv fd body, .store pktHdrSize body]

variable {eof : Io Int} {keep : Cmd → Bool}

theorem header_store (m : Mem) {bs : List Byte} (h : pktHdrSize ≤ bs.length) :
    ntohl ((m.store 0 (bs.take pktHdrSize)).word 0) = ofBe32 bs ∧
      ntohs ((m.store 0 (bs.take pktHdrSize)).half 4) = ofBe16 (bs.drop 4) := by
  have hl : (bs.take pktHdrSize).length = pktHdrSize := by
    rw [List.length_take, Nat.min_eq_left h]
  have hs : (m.store 0 (bs.take pktHdrSize)).slice 0 6 = bs.take pktHdrSize := Mem.slice_store_eq _ _ hl
  generalize m.store 0 (bs.take pktHdrSize) = m' at hs ⊢
  refine ⟨?_, ?_⟩
  · rw [Mem.ntohl_word, ← Mem.slice_take _ 0 (show 4 ≤ 6 by decide), hs,
      ofBe32_take _ (Nat.le_refl 4), ofBe32_take _ (show 4 ≤ pktHdrSize by decide)]
  · have hd : m'.slice 4 2 = (bs.take pktHdrSize).drop 4 := by
      rw [← hs, Mem.slice_drop _ 0 (by decide)]
    rw [Mem.ntohs_half, hd, List.drop_take, ofBe16_take _ (by decide)]

theorem header_words (h : pktHdrSize ≤ (w.pending fd).length) :
    let m := (w.received fd (.recvPacket 0) pktHdrSize).recvPacket
    ntohl (m.word 0) = ofBe32 (w.pending fd) ∧ (ntohs (m.half 4)).toNat = w.hlen fd := by
  have hm : (w.received fd (.recvPacket 0) pktHdrSize).recvPacket =
      w.recvPacket.store 0 ((w.pending fd).take pktHdrSize) := by
    rw [received_vars]
    rfl
  obtain ⟨h0, h4⟩ := header_store w.recvPacket h
  exact ⟨by rw [hm, h0], by rw [hm, h4, World.hlen]⟩

theorem header_loaded (h : pktHdrSize ≤ (w.pending fd).length) :
    let m := (w.received fd (.recvPacket 0) pktHdrSize).recvPacket
    Cmd.ofCode (ntohl (m.word 0)) = w.request fd ∧ (ntohs (m.half 4)).toNat = w.hlen fd := by
  obtain ⟨hc, hn⟩ := header_words h
  exact ⟨by rw [hc, World.request, if_pos h], hn⟩

theorem withPacket_slice (h : pktHdrSize ≤ w.hlen fd) (hl : w.hlen fd ≤ (w.pending fd).length) :
    (w.withPacket fd).recvPacket.slice 0 (w.hlen fd) = (w.pending fd).take (w.hlen fd) := by
  obtain ⟨n, hn⟩ := Nat.exists_eq_add_of_le h
  have ht : ((w.hlen fd : Int) - (pktHdrSize : Int)).toNat = n := by omega
  have hh : ((w.pending fd).take pktHdrSize).length = pktHdrSize := by
    rw [List.length_take]
    omega
  have hb : (((w.pending fd).drop pktHdrSize).take n).length = n := by
    rw [List.length_take, List.length_drop]
    omega
  have hm : (w.withPacket fd).recvPacket =
      (w.recvPacket.store 0 ((w.pending fd).take pktHdrSize)).store pktHdrSize
        (((w.pending fd).drop pktHdrSize).take n) := by
    rw [World.withPacket, received_vars, received_vars, received_pending, ht]
    rfl
  rw [hm, hn, Mem.slice_add, Mem.slice_store_disjoint (.inl (by omega)), Mem.slice_store_eq _ _ hh,
    Nat.zero_add, Mem.slice_store_eq _ _ hb, List.take_add]

theorem withPacket_pending (w : World) (fd : Int) :
    (w.withPacket fd).pending fd = ((w.pending fd).drop pktHdrSize).drop (w.hlen fd - pktHdrSize) := by
  have ht : ((w.hlen fd : Int) - (pktHdrSize : Int)).toNat = w.hlen fd - pktHdrSize := by omega
  rw [World.withPacket, received_pending, received_pending, ht]
  rfl

/-- How many bytes are taken off the stream when the body is asked for. -/
def World.askedFor (w : World) (fd : Int) : Nat := pktHdrSize + (w.hlen fd - pktHdrSize)

theorem withPacket_recvPacket (w : World) (fd : Int) :
    (w.withPacket fd).recvPacket = w.recvPacket.store 0 ((w.pending fd).take (w.askedFor fd)) := by
  have ht : ((w.hlen fd : Int) - (pktHdrSize : Int)).toNat = w.hlen fd - pktHdrSize := by omega
  have hm : (w.withPacket fd).recvPacket = (w.recvPacket.store 0 ((w.pending fd).take pktHdrSize)).store pktHdrSize
      (((w.pending fd).drop pktHdrSize).take (w.hlen fd - pktHdrSize)) := by
    rw [World.withPacket, received_vars, received_vars, received_pending, ht]
    rfl
  rw [hm, World.askedFor, Mem.store_take_drop]

theorem withPacket_wiring (w : World) (fd : Int) : (w.withPacket fd).wiring = w.wiring := by
  rw [World.withPacket, received_vars, received_vars]
  rfl

theorem withPacket_accounted (w : World) (fd : Int) : Accounted w (w.intake fd) (w.withPacket fd) := by
  have ht : ((w.hlen fd : Int) - (pktHdrSize : Int)).toNat = w.hlen fd - pktHdrSize := by omega
  have h := received_accounted (w.received fd (.recvPacket 0) pktHdrSize) fd (.recvPacket pktHdrSize)
    (w.hlen fd - pktHdrSize)
  rw [received_pending, ht] at h
  exact Chains.append (received_accounted w fd (.recvPacket 0) pktHdrSize) h

theorem recvBody_run {v : World} {n : Nat} (hn : (ntohs (v.recvPacket.half 4)).toNat = n) :
    (recvBody fd).run v =
      if n - pktHdrSize ≤ (v.pending fd).length ∨ (v.inflow fd).stop ≠ .never then
        ⟨some (), v.received fd (.recvPacket pktHdrSize) (n - pktHdrSize),
          [.recv fd ((v.pending fd).take (n - pktHdrSize)),
            .store pktHdrSize ((v.pending fd).take (n - pktHdrSize))]⟩
      else
        ⟨none, v.received fd (.recvPacket pktHdrSize) (n - pktHdrSize),
          [.recv fd ((v.pending fd).take (n - pktHdrSize)),
            .store pktHdrSize ((v.pending fd).take (n - pktHdrSize)), .starves fd]⟩ := by
  have ht : ((n : Int) - (pktHdrSize : Int)).toNat = n - pktHdrSize := by omega
  subst hn
  by_cases h : (ntohs (v.recvPacket.half 4)).toNat - pktHdrSize ≤ (v.pending fd).length
  · rw [if_pos (.inl h)]
    have hr := pkoRecvBytes_full v fd (.recvPacket pktHdrSize) (ht ▸ h)
    simp only [recvBody, loadPacket, Prog.run_bind, Prog.run_get, Result.andThen_mk_some, Prog.run_pure,
      Result.after_mk, hr, ht]
    rfl
  · have hl := Nat.lt_of_not_le h
    have hr := pkoRecvBytes_short v fd (.recvPacket pktHdrSize) (ht ▸ hl)
    have htake : (v.pending fd).take ((ntohs (v.recvPacket.half 4)).toNat - pktHdrSize) = v.pending fd :=
      List.take_of_length_le (Nat.le_of_lt hl)
    simp only [recvBody, loadPacket, Prog.run_bind, Prog.run_get, Result.andThen_mk_some, Prog.run_pure,
      Result.after_mk, hr, htake]
    cases hs : (v.inflow fd).stop with
    | full => exact absurd hs Inflow.stop_ne_full
    | eof => rw [if_pos (.inr (by simp))]; rfl
    | dropped e => rw [if_pos (.inr (by simp))]; rfl
    | never => rw [if_neg (by simp [h])]; rfl

theorem packetRead_run (h : pktHdrSize ≤ (w.pending fd).length) :
    (packetRead fd eof keep).run w =
      (((recvBody fd).run (w.received fd (.recvPacket 0) pktHdrSize)).andThen fun _ =>
        (switch ((w.request fd).filter keep) >>= fun _ => pure 0).run).after
        [.recv fd ((w.pending fd).take pktHdrSize), .store 0 ((w.pending fd).take pktHdrSize)] := by
  have hr := pkoRecvBytes_full w fd (.recvPacket 0) (show (pktHdrSize : Int).toNat ≤ _ from h)
  rw [packetRead, Prog.run_bind, hr, Result.andThen_mk_some,
    if_neg (show ¬(pktHdrSize : Int) < 0 by decide), if_neg (show ¬(pktHdrSize : Int) = 0 by decide),
    ← (header_loaded h).1]
  rfl

/-- A packet whose body is there, or is cut off by the end of the stream, is
dispatched. -/
theorem packetRead_dispatch (h : pktHdrSize ≤ (w.pending fd).length)
    (hb : w.hlen fd ≤ (w.pending fd).length ∨ (w.inflow fd).stop ≠ .never) :
    (packetRead fd eof keep).run w =
      ((switch ((w.request fd).filter keep) >>= fun _ => pure 0).run (w.withPacket fd)).after
        (w.intake fd) := by
  have hp := received_pending w fd (.recvPacket 0) pktHdrSize
  have hst := received_stop w fd (.recvPacket 0) (show (pktHdrSize : Int).toNat ≤ _ from h)
  rw [packetRead_run h, recvBody_run (header_loaded h).2, if_pos, Result.andThen_mk_some, hp]
  · rfl
  · rw [hst, hp, List.length_drop]
    refine hb.imp_left fun hb => ?_
    simp only [Int.toNat_natCast]
    omega

theorem pkoSrvRead_dispatch {c : Cmd} (h : pktHdrSize ≤ (w.pending fd).length)
    (hb : w.hlen fd ≤ (w.pending fd).length) (hc : w.request fd = some c) :
    (pkoSrvRead fd).run w =
      ((switch (some c) >>= fun _ => pure 0).run (w.withPacket fd)).after (w.intake fd) := by
  rw [pkoSrvRead, packetRead_dispatch h (.inl hb), hc]
  rfl

theorem packetRead_waits (h : pktHdrSize ≤ (w.pending fd).length)
    (hb : (w.pending fd).length < w.hlen fd) (hs : (w.inflow fd).stop = .never) :
    (packetRead fd eof keep).run w = ⟨none, w.withPacket fd, w.intake fd ++ [.starves fd]⟩ := by
  have hp := received_pending w fd (.recvPacket 0) pktHdrSize
  have hst := received_stop w fd (.recvPacket 0) (show (pktHdrSize : Int).toNat ≤ _ from h)
  rw [packetRead_run h, recvBody_run (header_loaded h).2, if_neg, Result.andThen_mk_none, hp]
  · rfl
  · rw [hst, hp, List.length_drop, hs]
    simp only [Int.toNat_natCast, ne_eq, not_true_eq_false, or_false]
    omega

theorem packetRead_short (h : (w.pending fd).length < pktHdrSize) :
    (packetRead fd eof keep).run w =
      match (w.inflow fd).stop with
      | .eof => (eof.run (w.received fd (.recvPacket 0) pktHdrSize)).after
          [.recv fd (w.pending fd), .store 0 (w.pending fd)]
      | .dropped _ => ⟨some (-1), w.received fd (.recvPacket 0) pktHdrSize,
          [.recv fd (w.pending fd), .store 0 (w.pending fd)]⟩
      | _ => ⟨none, w.received fd (.recvPacket 0) pktHdrSize,
          [.recv fd (w.pending fd), .store 0 (w.pending fd), .starves fd]⟩ := by
  have hr := pkoRecvBytes_short w fd (.recvPacket 0) (show _ < (pktHdrSize : Int).toNat from h)
  rw [packetRead, Prog.run_bind, hr]
  cases hs : (w.inflow fd).stop with
  | full => exact absurd hs Inflow.stop_ne_full
  | eof => rfl
  | dropped e => rfl
  | never => rfl

theorem pending_linked (os : Host) (link fd : Int) (stream : List Byte) (desc : List (Int × Desc)) :
    (World.linked os link ((fd, .sock (.delivering stream)) :: desc)).pending fd = stream := by
  simp [World.pending, World.inflow, World.sockAt, World.linked, Sock.delivering, Inflow.live_push]

theorem packetRead_elim {P : Result World Act Int → Prop}
    (dispatch : pktHdrSize ≤ (w.pending fd).length →
      w.hlen fd ≤ (w.pending fd).length ∨ (w.inflow fd).stop ≠ .never →
      P (((switch ((w.request fd).filter keep) >>= fun _ => pure 0).run (w.withPacket fd)).after (w.intake fd)))
    (waits : pktHdrSize ≤ (w.pending fd).length →
      ¬(w.hlen fd ≤ (w.pending fd).length ∨ (w.inflow fd).stop ≠ .never) →
      P ⟨none, w.withPacket fd, w.intake fd ++ [.starves fd]⟩)
    (ends : (w.pending fd).length < pktHdrSize → (w.inflow fd).stop = .eof →
      P ((eof.run (w.received fd (.recvPacket 0) pktHdrSize)).after
        [.recv fd (w.pending fd), .store 0 (w.pending fd)]))
    (drops : (w.pending fd).length < pktHdrSize → (∃ e, (w.inflow fd).stop = .dropped e) →
      P ⟨some (-1), w.received fd (.recvPacket 0) pktHdrSize,
        [.recv fd (w.pending fd), .store 0 (w.pending fd)]⟩)
    (never : (w.pending fd).length < pktHdrSize →
      P ⟨none, w.received fd (.recvPacket 0) pktHdrSize,
        [.recv fd (w.pending fd), .store 0 (w.pending fd), .starves fd]⟩) :
    P ((packetRead fd eof keep).run w) := by
  by_cases h : pktHdrSize ≤ (w.pending fd).length
  · by_cases hb : w.hlen fd ≤ (w.pending fd).length ∨ (w.inflow fd).stop ≠ .never
    · rw [packetRead_dispatch h hb]
      exact dispatch h hb
    · have hn := not_or.mp hb
      rw [packetRead_waits h (Nat.lt_of_not_le hn.1) (not_not.mp hn.2)]
      exact waits h hb
  · have hl := Nat.lt_of_not_le h
    rw [packetRead_short hl]
    cases hs : (w.inflow fd).stop with
    | full => exact absurd hs Inflow.stop_ne_full
    | eof => exact ends hl hs
    | dropped e => exact drops hl ⟨e, hs⟩
    | never => exact never hl

end Pksh
