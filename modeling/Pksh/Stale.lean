import Pksh.CmdFields

/-! What the bytes of earlier packets in `recv_packet` can do to a later one. -/

namespace Pksh

open Wire Traced

namespace Heedless

section Alike

variable {w w' : World} (h : ExceptPacket w w')

include h

theorem alike_pkoCloseFile (h6 : ntohl (w.recvPacket.word 6) = ntohl (w'.recvPacket.word 6)) :
    Alike ExceptPacket (pkoCloseFile.run w) (pkoCloseFile.run w') := by
  unfold Pksh.pkoCloseFile
  refine load_bind ?_
  simp only [h6]
  exact ((emit _ _).bind fun _ => (sysClose _).bind fun _ => answer _ _) w w' h

theorem alike_pkoCloseDir (h6 : ntohl (w.recvPacket.word 6) = ntohl (w'.recvPacket.word 6)) :
    Alike ExceptPacket (pkoCloseDir.run w) (pkoCloseDir.run w') := by
  unfold Pksh.pkoCloseDir
  refine load_bind ?_
  simp only [h6]
  exact ((emit _ _).bind fun _ => (asks fun _ _ => rfl).bind fun _ => answer _ _) w w' h

theorem alike_pkoLseekFile (h6 : ntohl (w.recvPacket.word 6) = ntohl (w'.recvPacket.word 6))
    (h10 : ntohl (w.recvPacket.word 10) = ntohl (w'.recvPacket.word 10))
    (h14 : ntohl (w.recvPacket.word 14) = ntohl (w'.recvPacket.word 14)) :
    Alike ExceptPacket (pkoLseekFile.run w) (pkoLseekFile.run w') := by
  unfold Pksh.pkoLseekFile
  refine load_bind ?_
  simp only [h6, h10, h14]
  exact ((emit _ _).bind fun _ => (asks fun _ _ => rfl).bind fun _ => answer _ _) w w' h

theorem alike_pkoWriteFile (h6 : ntohl (w.recvPacket.word 6) = ntohl (w'.recvPacket.word 6))
    (h10 : ntohl (w.recvPacket.word 10) = ntohl (w'.recvPacket.word 10)) :
    Alike ExceptPacket (pkoWriteFile.run w) (pkoWriteFile.run w') := by
  unfold Pksh.pkoWriteFile
  refine load_bind ?_
  simp only [h6, h10]
  exact ((emit _ _).bind fun _ => (writeSegments _ _ _).bind fun _ => answer _ _) w w' h

theorem alike_pkoReadFile (h6 : ntohl (w.recvPacket.word 6) = ntohl (w'.recvPacket.word 6))
    (h10 : ntohl (w.recvPacket.word 10) = ntohl (w'.recvPacket.word 10)) :
    Alike ExceptPacket (pkoReadFile.run w) (pkoReadFile.run w') := by
  unfold Pksh.pkoReadFile
  refine load_bind ?_
  simp only [h6, h10]
  refine ((emit _ _).bind fun _ => (putSend _ _).bind fun _ => (putSend _ _).bind fun _ =>
    (putSend _ _).bind fun _ => (asks fun _ _ => rfl).bind fun ok => ?_) w w' h
  cases ok with
  | false => exact .pure _
  | true =>
    exact (sysRead _ _).bind fun filebuf => (putSend _ _).bind fun _ => (sendReply _).bind fun _ =>
      get_bind (fun _ _ => rfl) fun _ => (pkoSendBytes _ _ _).bind fun _ => .pure 0

theorem alike_pkoReadDir (h6 : ntohl (w.recvPacket.word 6) = ntohl (w'.recvPacket.word 6)) :
    Alike ExceptPacket (pkoReadDir.run w) (pkoReadDir.run w') := by
  unfold Pksh.pkoReadDir
  refine load_bind ?_
  simp only [h6]
  have hs : Heedless (Pksh.sendReply pktDreadRlySize >>= fun _ => (pure 0 : Io Int)) :=
    (sendReply _).bind fun _ => .pure 0
  exact ((emit _ _).bind fun _ => (putSend _ _).bind fun _ => (putSend _ _).bind fun _ =>
    (asks fun _ _ => rfl).bind fun _ => (putSend _ _).bind fun _ => .ite hs ((sysStat _).bind fun _ =>
    (putSend _ _).bind fun _ => (putSend _ _).bind fun _ => (putSend _ _).bind fun _ => (putTime _ _).bind fun _ =>
    (putTime _ _).bind fun _ => (putTime _ _).bind fun _ => (putSend _ _).bind fun _ =>
    (putSend _ _).bind fun _ => hs)) w w' h

theorem alike_pkoOpenFile (h6 : ntohl (w.recvPacket.word 6) = ntohl (w'.recvPacket.word 6))
    (h10 : packetStr w.recvPacket 10 = packetStr w'.recvPacket 10) :
    Alike ExceptPacket (pkoOpenFile.run w) (pkoOpenFile.run w') := by
  unfold Pksh.pkoOpenFile
  refine load_bind ?_
  simp only [h6, h10]
  refine Blind.bind_at (emit _ _ w w' h) fun _ _ => Blind.bind_at (pkoFixPath 10 w w' h) fun _ _ => load_bind ?_
  simp only [Pksh.emit, packetStr_fixPath, h10]
  exact ((sysOpen _ _ _).bind fun first => get_bind (fun _ _ => rfl) fun _ =>
    .ite ((openAlong _ _ _).bind fun _ => answer _ _) ((Blind.pure _).bind fun _ => answer _ _)) _ _
      (pkoFixPath 10 w w' h).state

theorem alike_pkoOpenDir (h10 : packetStr w.recvPacket 10 = packetStr w'.recvPacket 10) :
    Alike ExceptPacket (pkoOpenDir.run w) (pkoOpenDir.run w') := by
  unfold Pksh.pkoOpenDir
  refine load_bind ?_
  simp only [h10]
  have h0 := (putWord 0 (htonl dopenRly) w w' h).state
  have h4 := (putHalf 4 (htons (BitVec.ofNat 16 pktFileRlySize)) _ _ h0).state
  refine Blind.bind_at (emit _ _ w w' h) fun _ _ => Blind.bind_at (putWord _ _ w w' h) fun _ _ =>
    Blind.bind_at (putHalf _ _ _ _ h0) fun _ _ => Blind.bind_at (pkoFixPath 10 _ _ h4) fun _ _ => load_bind ?_
  have hp (u : World) : packetStr ((Pksh.putHalf 4 (htons (BitVec.ofNat 16 pktFileRlySize))).run
      ((Pksh.putWord 0 (htonl dopenRly)).run u).state).state.recvPacket 10 = packetStr u.recvPacket 10 := rfl
  simp only [packetStr_fixPath, Pksh.emit, hp, h10]
  refine Blind.bind (asks fun _ _ => rfl) (fun dirp => ?_) _ _ (pkoFixPath 10 _ _ h4).state
  cases dirp with
  | none => exact .pure _
  | some dirp => exact (putWord _ _).bind fun _ => (sendReply _).bind fun _ => .pure 0

end Alike

abbrev KeepsPacket : World → List Act → World → Prop := Fixes fun w : World => w.recvPacket

theorem keepsPacket_of_toVars {α : Type} {p : Io α} (h : ∀ w, (p.run w).state.toVars = w.toVars) :
    Sat KeepsPacket p := fun w => congrArg Vars.recvPacket (h w)

theorem keepsPacket_pkoCmdCon : Sat KeepsPacket Pksh.pkoCmdCon := by
  have hs : Sat KeepsPacket (Pksh.sysSocket .dgram) := keepsPacket_of_toVars fun w => by
    simp only [Pksh.sysSocket]
    split <;> rfl
  have hc (fd : Int) : Sat KeepsPacket (Pksh.sysConnect fd) := keepsPacket_of_toVars fun w => by
    simp only [Pksh.sysConnect]
    split <;> rfl
  refine hs.bind fun fd => Sat.bind (fun _ => rfl) fun _ => ?_
  cases fd with
  | none => exact .pure _
  | some fd => exact (hc fd).bind fun _ => .pure _

theorem keepsPacket_cliGsexec (arg : List Byte) : Sat KeepsPacket (Pksh.cliGsexec arg) := by
  have hr (fd : Int) (size : Nat) (fields : List (Nat × List Byte)) : Sat KeepsPacket (Pksh.sendReq fd size fields) :=
    Sat.get.bind fun w => keepsPacket_of_toVars fun w => sysSend_vars w _ _
  exact (Sat.bind (fun _ => rfl) fun _ => .pure _).bind fun _ => .ite (.pure _) (.ite (.pure _)
    (Sat.get.bind fun w => (keepsPacket_pkoCmdCon.bind fun _ => Sat.get.bind fun _ => hr _ _ _).bind fun _ => .pure 0))

theorem alike_stopvuCase {w w' : World} (h : ExceptPacket w w')
    (hv : packetVpu w.recvPacket = packetVpu w'.recvPacket) :
    Alike ExceptPacket (stopvuCase.run w) (stopvuCase.run w') := by
  unfold stopvuCase
  refine load_bind ?_
  simp only [hv]
  exact ((command fun _ => sendReq _ _ _).bind fun _ => .pure ()) w w' h

section Cases

variable {w w' : World} (h : ExceptPacket w w') {c : Cmd}
  (hf : ∀ f ∈ c.fields, f.read w.recvPacket = f.read w'.recvPacket)

include h hf

theorem alike_fileIo : Alike ExceptPacket ((fileIo c).run w) ((fileIo c).run w') := by
  have hw (off : Nat) (ho : .word off ∈ c.fields) : ntohl (w.recvPacket.word off) = ntohl (w'.recvPacket.word off) :=
    FieldValue.num.inj (hf (.word off) ho)
  have hs (ho : .str 10 ∈ c.fields) : packetStr w.recvPacket 10 = packetStr w'.recvPacket 10 :=
    FieldValue.text.inj (hf (.str 10) ho)
  have hp {m : Io Int} (hm : Alike ExceptPacket (m.run w) (m.run w')) :
      Alike ExceptPacket ((m >>= fun _ => pure ()).run w) ((m >>= fun _ => pure ()).run w') :=
    Blind.bind_at hm fun _ _ => Blind.pure () _ _ hm.state
  cases c with
  | «open» => exact hp (alike_pkoOpenFile h (hw 6 (by simp [Cmd.fields])) (hs (by simp [Cmd.fields])))
  | close => exact hp (alike_pkoCloseFile h (hw 6 (by simp [Cmd.fields])))
  | read => exact hp (alike_pkoReadFile h (hw 6 (by simp [Cmd.fields])) (hw 10 (by simp [Cmd.fields])))
  | write => exact hp (alike_pkoWriteFile h (hw 6 (by simp [Cmd.fields])) (hw 10 (by simp [Cmd.fields])))
  | lseek =>
    exact hp (alike_pkoLseekFile h (hw 6 (by simp [Cmd.fields])) (hw 10 (by simp [Cmd.fields]))
      (hw 14 (by simp [Cmd.fields])))
  | dopen => exact hp (alike_pkoOpenDir h (hs (by simp [Cmd.fields])))
  | dread => exact hp (alike_pkoReadDir h (hw 6 (by simp [Cmd.fields])))
  | dclose => exact hp (alike_pkoCloseDir h (hw 6 (by simp [Cmd.fields])))
  | _ => exact Blind.pure () _ _ h

theorem alike_relay : Alike ExceptPacket ((relay c).run w) ((relay c).run w') := by
  have hw (off : Nat) (ho : .word off ∈ c.fields) : ntohl (w.recvPacket.word off) = ntohl (w'.recvPacket.word off) :=
    FieldValue.num.inj (hf (.word off) ho)
  have hs (off : Nat) (ho : .str off ∈ c.fields) : packetStr w.recvPacket off = packetStr w'.recvPacket off :=
    FieldValue.text.inj (hf (.str off) ho)
  have hv (ho : .vpu ∈ c.fields) : packetVpu w.recvPacket = packetVpu w'.recvPacket :=
    FieldValue.num.inj (hf .vpu ho)
  cases c with
  | dumpmem =>
    refine load_bind ?_
    simp only [hs 14 (by simp [Cmd.fields]), hw 6 (by simp [Cmd.fields]), hw 10 (by simp [Cmd.fields])]
    exact ((command fun _ => sendReq _ _ _).bind fun _ => .pure ()) w w' h
  | dumpregs =>
    refine load_bind ?_
    simp only [hs 10 (by simp [Cmd.fields]), hw 6 (by simp [Cmd.fields])]
    exact ((command fun _ => sendReq _ _ _).bind fun _ => .pure ()) w w' h
  | gsexec =>
    refine load_bind ?_
    simp only [hs 8 (by simp [Cmd.fields])]
    have hg := cliGsexec (packetStr w'.recvPacket 8) w w' h
    refine Blind.bind_at hg fun _ _ => alike_stopvuCase hg.state ?_
    have hk (u : World) : ((Pksh.cliGsexec (packetStr w'.recvPacket 8)).run u).state.recvPacket = u.recvPacket :=
      keepsPacket_cliGsexec _ u
    rw [hk, hk, hv (by simp [Cmd.fields])]
  | stopvu => exact alike_stopvuCase h (hv (by simp [Cmd.fields]))
  | startvu =>
    refine load_bind ?_
    simp only [hv (by simp [Cmd.fields])]
    exact ((command fun _ => sendReq _ _ _).bind fun _ => .pure ()) w w' h
  | execee =>
    refine load_bind ?_
    simp only [hs 10 (by simp [Cmd.fields])]
    exact ((cliExecee _).bind fun _ => .pure ()) w w' h
  | execiop =>
    refine load_bind ?_
    simp only [hs 10 (by simp [Cmd.fields])]
    exact ((cliExeceiop _).bind fun _ => .pure ()) w w' h
  | reset => exact (cliReset.bind fun _ => .pure ()) w w' h
  | _ => exact Blind.pure () _ _ h

theorem alike_switch : Alike ExceptPacket ((switch (some c)).run w) ((switch (some c)).run w') := by
  simp only [switch]
  split
  · exact alike_fileIo h hf
  · exact alike_relay h hf

end Cases

end Heedless

section Packet

variable {fd : Int} {w w' : World}

/-- The case of the switch that a call enters. -/
def World.entered (w : World) (fd : Int) : Option Cmd :=
  if w.hlen fd ≤ (w.pending fd).length ∨ (w.inflow fd).stop ≠ .never then w.request fd else none

/-- The case a call enters, with the arguments it takes from the packet. -/
def World.handed (w : World) (fd : Int) : Option (Cmd × List FieldValue) :=
  (w.entered fd).map fun c => (c, c.fields.map fun f => f.read (w.withPacket fd).recvPacket)

/-- The same handler or none, with the same arguments, and the same result,
system calls and replies, in states that differ at most in `recv_packet`. -/
structure SameEffect (fd : Int) (w w' : World) : Prop where
  handed : w'.handed fd = w.handed fd
  run : Alike ExceptPacket ((pkoSrvRead fd).run w) ((pkoSrvRead fd).run w')

/-- The bytes received cover every field that the case entered reads. -/
def Covered (fd : Int) (w : World) : Prop :=
  ∀ c, w.entered fd = some c → ∀ f ∈ c.fields, f.Within ((w.pending fd).take (w.askedFor fd))

theorem exceptPacket_received (h : ExceptPacket w w') (buf : Buf) (bytes : Int) :
    ExceptPacket (w.received fd buf bytes) (w'.received fd buf bytes) :=
  (Heedless.pkoRecvBytes fd buf bytes w w' h).state

theorem exceptPacket_withPacket (h : ExceptPacket w w') : ExceptPacket (w.withPacket fd) (w'.withPacket fd) := by
  obtain ⟨m, rfl⟩ := h
  exact exceptPacket_received (exceptPacket_received ⟨m, rfl⟩ _ _) _ _

theorem heedless_srvEof : Heedless (srvEof fd) := by
  have hl : Heedless (linkLost fd) := (Heedless.sysClose fd).bind fun _ =>
    Heedless.get_bind (fun _ _ => rfl) fun _ => (Heedless.awaitLink _).bind fun _ => Heedless.closeNetfs
  exact Heedless.get_bind (fun _ _ => rfl) fun _ => .ite (hl.bind fun _ => .pure 0) (.pure (-1))

theorem read_setPacket (f : Field) (m : Mem) :
    f.read ((w.setPacket m).withPacket fd).recvPacket =
      f.read (m.store 0 ((w.pending fd).take (w.askedFor fd))) := by
  rw [withPacket_recvPacket]
  rfl

theorem sameEffect_of_covered (h : Covered fd w) (m m' : Mem) :
    SameEffect fd (w.setPacket m) (w.setPacket m') := by
  have hread (c : Cmd) (hc : w.entered fd = some c) (f : Field) (hf : f ∈ c.fields) :
      f.read ((w.setPacket m).withPacket fd).recvPacket = f.read ((w.setPacket m').withPacket fd).recvPacket := by
    rw [read_setPacket, read_setPacket]
    exact Field.read_within (h c hc f hf)
  have he : ExceptPacket (w.setPacket m) (w.setPacket m') := ⟨m', rfl⟩
  refine ⟨?_, ?_⟩
  · change (w.entered fd).map _ = (w.entered fd).map _
    refine Option.map_congr fun c hc => ?_
    rw [List.map_congr_left fun f hf => hread c hc f hf]
  · by_cases hl : pktHdrSize ≤ (w.pending fd).length
    · by_cases hb : w.hlen fd ≤ (w.pending fd).length ∨ (w.inflow fd).stop ≠ .never
      · rw [pkoSrvRead, packetRead_dispatch (w := w.setPacket m) hl hb,
          packetRead_dispatch (w := w.setPacket m') hl hb]
        have hs : Alike ExceptPacket ((switch (w.request fd)).run ((w.setPacket m).withPacket fd))
            ((switch (w.request fd)).run ((w.setPacket m').withPacket fd)) := by
          cases hc : w.request fd with
          | none => exact Blind.pure () _ _ (exceptPacket_withPacket he)
          | some c =>
            exact Heedless.alike_switch (exceptPacket_withPacket he)
              (hread c ((if_pos hb).trans hc))
        have hk : (w.request fd).filter (fun _ => true) = w.request fd := by
          cases w.request fd <;> rfl
        refine Alike.after ?_ _
        change Alike _ ((switch ((w.request fd).filter fun _ => true) >>= fun _ => pure 0).run _)
          ((switch ((w.request fd).filter fun _ => true) >>= fun _ => pure 0).run _)
        rw [hk]
        exact Blind.bind_at hs fun _ _ => Blind.pure 0 _ _ hs.state
      · rw [not_or, not_not] at hb
        rw [pkoSrvRead, packetRead_waits (w := w.setPacket m) hl (Nat.lt_of_not_le hb.1) hb.2,
          packetRead_waits (w := w.setPacket m') hl (Nat.lt_of_not_le hb.1) hb.2]
        exact ⟨rfl, rfl, exceptPacket_withPacket he⟩
    · have hr : ExceptPacket ((w.setPacket m).received fd (.recvPacket 0) pktHdrSize)
          ((w.setPacket m').received fd (.recvPacket 0) pktHdrSize) := exceptPacket_received he _ _
      rw [pkoSrvRead, packetRead_short (w := w.setPacket m) (Nat.lt_of_not_le hl),
        packetRead_short (w := w.setPacket m') (Nat.lt_of_not_le hl)]
      simp only [World.setPacket_inflow]
      cases (w.inflow fd).stop with
      | eof => exact (heedless_srvEof _ _ hr).after _
      | _ => exact ⟨rfl, rfl, hr⟩

theorem covered_of_handed (h : (w.setPacket ones).handed fd = (w.setPacket zeros).handed fd) : Covered fd w := by
  intro c hc f hf
  by_contra hn
  have hh : (w.entered fd).map _ = (w.entered fd).map _ := h
  rw [hc, Option.map_some, Option.map_some, Option.some.injEq, Prod.mk.injEq] at hh
  have hr := List.map_inj_left.mp hh.2 f hf
  rw [read_setPacket, read_setPacket] at hr
  exact Field.read_outside hf hn hr.symm

theorem stale_bytes_harmless_iff (fd : Int) (w : World) :
    (∀ m m', SameEffect fd (w.setPacket m) (w.setPacket m')) ↔ Covered fd w :=
  ⟨fun h => covered_of_handed (h zeros ones).handed, fun h m m' => sameEffect_of_covered h m m'⟩

/-- A close request that ends behind its header. -/
def bareClose : List Byte := be32 closeCmd ++ (be16 (BitVec.ofNat 16 6) ++ [])

def bareCloseWaiting : World := World.linked .refusing 7 [(7, .sock (.delivering bareClose))]

theorem bareClose_stale : ¬∀ fd w m m', SameEffect fd (World.setPacket w m) (World.setPacket w m') := by
  intro h
  have hp : bareCloseWaiting.pending 7 = bareClose := pending_linked _ _ _ _ _
  obtain ⟨_, hc, hn⟩ := header_read (c := .close) (by decide) hp
  have he : bareCloseWaiting.entered 7 = some .close := by
    rw [World.entered, if_pos (.inl (by rw [hn, hp]; decide)), hc]
  have hw := covered_of_handed (h 7 bareCloseWaiting zeros ones).handed _ he (.word 6) (by simp [Cmd.fields])
  rw [Field.Within, List.length_take, hp] at hw
  exact absurd (Nat.le_trans hw (Nat.min_le_right _ _)) (by decide)

end Packet

end Pksh
