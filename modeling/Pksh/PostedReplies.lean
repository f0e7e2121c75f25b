import Pksh.Posting

/-! The handlers of the file requests send nothing but whole packets, and
neither does the dispatcher over them. -/

namespace Pksh

open Wire Traced

variable {α β : Type}

/-- Right once the header of the reply is filled in. -/
def Under (code : Word) (size : Nat) (m : Io α) : Prop :=
  ∀ w, w.os.Thrifty → w.sendPacket.slice 0 pktHdrSize = be32 code ++ be16 (BitVec.ofNat 16 size) →
    ∃ ps, Posts (m.run w).acts ps

namespace Under

variable {code : Word} {size : Nat}

theorem of_posting {m : Io α} (h : Sat Posting m) : Under code size m := fun w ht _ => (h w).2 ht

theorem bind {m : Io α} {f : α → Io β} (hm : Sat Hush m) (hf : ∀ a, Under code size (f a)) :
    Under code size (m >>= f) := by
  intro w ht hh
  cases hv : (m.run w).value with
  | none =>
    rw [Prog.run_bind, Result.andThen_none _ hv]
    exact ⟨[], .of_mum (hm w).2⟩
  | some a =>
    obtain ⟨ps, hps⟩ := hf a (m.run w).state ((m.keeps w).os ▸ ht) ((hm w).1.trans hh)
    rw [Prog.run_bind, Result.andThen_some _ hv]
    exact ⟨ps, (Posts.of_mum (hm w).2).append hps⟩

theorem sendReply (hc : Lone code) (h6 : pktHdrSize ≤ size) (hn : size < 2 ^ 16) (x : α) :
    Under code size (do sendReply size; pure x) := by
  intro w _ hh
  have ht : (w.sendPacket.slice 0 size).take pktHdrSize =
      be32 code ++ be16 (BitVec.ofNat 16 (w.sendPacket.slice 0 size).length) := by
    rw [Mem.slice_take _ _ h6, Mem.slice_length]
    exact hh
  obtain ⟨ps, hps⟩ := posts_sysSend w.pkoSrvFd w ht (by rwa [Mem.slice_length]) (by rwa [Mem.slice_length]) hc
  refine ⟨ps, ?_⟩
  rw [← Result.acts_andThen_pure _ (), ← Result.acts_andThen_pure _ x] at hps
  exact hps

theorem posting {m : Io α} (h : Under code size m) : Sat Posting (do
    putWord 0 (htonl code)
    putHalf 4 (htons (BitVec.ofNat 16 size))
    m) := by
  refine .of_acts fun w ht => h { w with sendPacket := w.sendPacket.stores (reqHdr code size) } ht ?_
  have hh := @header_stores w.sendPacket code size [] (by simp)
  rwa [List.append_nil] at hh

end Under

namespace Posting

theorem answer {code : Word} (hc : Lone code) (retval : Word) : Sat Posting (answer code retval) := by
  refine of_acts fun w ht => ?_
  have hrun : (Pksh.answer code retval).run w =
      (do sendReply pktFileRlySize; pure 0 : Io Int).run ((putFileRly code retval).run w).state := rfl
  have hh : ((putFileRly code retval).run w).state.sendPacket = w.sendPacket.stores (reqHdr code pktFileRlySize ++
      [(6, le32 (htonl retval))]) := rfl
  rw [hrun]
  refine Under.sendReply hc (by decide) (by decide) 0 _ ht ?_
  rw [hh]
  exact header_stores (by simp [pktHdrSize])

/-- A handler takes its request out of the packet and tells which one it is. -/
theorem handles {a : Mem → Act} {ha : ∀ m, (a m).quiet = true} (hmum : ∀ m, (a m).mum = true) {m : Mem → Io α}
    (hm : ∀ req, Sat Posting (m req)) : Sat Posting (do
      let req ← loadPacket
      emit (a req) (ha req)
      m req) :=
  (hush .loadPacket).bind fun req => (hush (.emit (hmum req))).bind fun _ => hm req

theorem pkoOpenDir : Sat Posting pkoOpenDir := by
  refine handles (fun _ => rfl) fun _ => Under.posting ?_
  refine .bind (.pkoFixPath 10) fun _ => .bind .loadPacket fun m => .bind (.asks fun _ => rfl) fun dirp => ?_
  cases dirp with
  | none => exact .of_posting (.pure _)
  | some dirp => exact .bind (.putSend (by decide) _) fun _ => .sendReply (by decide) (by decide) (by decide) 0

theorem pkoReadDir : Sat Posting pkoReadDir := by
  refine handles (fun _ => rfl) fun _ => Under.posting ?_
  refine .bind (.asks fun _ => rfl) fun entry => .bind (.putSend (by decide) _) fun _ => ?_
  have hs : Under dreadRly pktDreadRlySize (do sendReply pktDreadRlySize; pure (0 : Int)) :=
    .sendReply (by decide) (by decide) (by decide) 0
  by_cases h : entry.1 = 0
  · simpa only [if_pos h] using hs
  · simp only [if_neg h]
    refine .bind (.asks fun _ => rfl) fun st => ?_
    exact .bind (.putSend (by decide) _) fun _ => .bind (.putSend (by decide) _) fun _ =>
      .bind (.putSend (by decide) _) fun _ => .bind (.putTime (by decide) _) fun _ =>
      .bind (.putTime (by decide) _) fun _ => .bind (.putTime (by decide) _) fun _ =>
      .bind (.putSend (by decide) _) fun _ => .bind (.putSend (by decide) _) fun _ => hs

theorem openAlong (name : List Byte) (flags : Word) (dirs : List (List Byte)) : Sat Posting (openAlong name flags dirs) := by
  induction dirs with
  | nil => exact .pure _
  | cons dir dirs ih => exact (sysOpen _ _ _).bind fun _ => .ite (.pure _) ih

theorem pkoOpenFile : Sat Posting pkoOpenFile := by
  refine handles (fun _ => rfl) fun _ => (hush (.pkoFixPath 10)).bind fun _ =>
    (hush .loadPacket).bind fun m => (sysOpen _ _ _).bind fun first => Sat.get.bind fun w => ?_
  exact .ite ((openAlong _ _ _).bind fun _ => answer (by decide) _) ((Sat.pure first).bind fun _ => answer (by decide) _)

theorem pkoCloseDir : Sat Posting pkoCloseDir :=
  handles (fun _ => rfl) fun _ => (hush (.asks fun _ => rfl)).bind fun _ => answer (by decide) _

theorem pkoCloseFile : Sat Posting pkoCloseFile :=
  handles (fun _ => rfl) fun _ => (sysClose _).bind fun _ => answer (by decide) _

theorem writeSegments (fd : Int) (rounds : Nat) (bytesLeft : Int) : Sat Posting (writeSegments fd rounds bytesLeft) := by
  induction rounds generalizing bytesLeft with
  | zero => exact .pure _
  | succ rounds ih =>
    refine Sat.get.bind fun w => (pkoRecvBytes _ _ _).bind fun received => .ite (.pure _) ?_
    refine (hush .loadPacket).bind fun m => (sysWrite _ _).bind fun written => ?_
    cases written with
    | none => exact .pure _
    | some n => exact .ite (.pure _) (.ite (ih _) (.pure _))

theorem pkoWriteFile : Sat Posting pkoWriteFile :=
  handles (fun _ => rfl) fun _ => (writeSegments _ _ _).bind fun _ => answer (by decide) _

theorem pkoLseekFile : Sat Posting pkoLseekFile :=
  handles (fun _ => rfl) fun _ => (sysLseek _ _ _).bind fun _ => answer (by decide) _

end Posting

/-- The reply to a read, and the data as far as it goes out. -/
def replyWith (data : List Byte) (count : Int) : Io Int := do
  sendReply pktReadRlySize
  let w ← Prog.get
  let _ ← pkoSendBytes w.pkoSrvFd data count
  pure 0

theorem posts_replyWith (p : Parcel) {w : World} (hb : w.sendPacket.slice 0 pktReadRlySize = p.bytes) (count : Int) :
    ∃ ps, Posts ((replyWith p.data count).run w).acts ps := by
  have hsend : (replyWith p.data count).run w = (((sysSend w.pkoSrvFd p.bytes).run w).andThen
      fun _ => (pure () : Io Unit).run).andThen fun _ => (Prog.get >>= fun v : World =>
        pkoSendBytes v.pkoSrvFd p.data count >>= fun _ => pure 0 : Io Int).run := by
    rw [← hb]
    rfl
  have hdata : ∀ (v : World) (ret : Option Nat), v.pkoSrvFd = w.pkoSrvFd → ∃ ps, Posts (.send w.pkoSrvFd p.bytes ret ::
      ((Prog.get >>= fun v : World => pkoSendBytes v.pkoSrvFd p.data count >>= fun _ => pure 0 : Io Int).run v).acts) ps := by
    intro v ret hl
    have hacts : ((Prog.get >>= fun v : World => pkoSendBytes v.pkoSrvFd p.data count >>= fun _ => pure 0 : Io Int).run v).acts =
        ((pkoSendBytes w.pkoSrvFd p.data count).run v).acts := by
      rw [← hl]
      exact Result.acts_andThen_pure _ 0
    rw [hacts]
    exact ⟨_, .reply p (.of_mum (@forall_endless (fun a => a.mum = true) _ _ rfl _))⟩
  have hlink := congrArg Vars.pkoSrvFd (sysSend_vars w w.pkoSrvFd p.bytes)
  rw [hsend]
  obtain ⟨v, hv⟩ | ⟨v, hv⟩ | ⟨k, v, hv⟩ := sysSend_cases w.pkoSrvFd p.bytes w
  · rw [hv]
    exact ⟨_, .refused p (.mum rfl .nil)⟩
  · rw [hv] at hlink ⊢
    exact hdata v none hlink
  · rw [hv] at hlink ⊢
    exact hdata v (some k) hlink

theorem under_dataReply {data : List Byte} {count : Int} (hc : (cWord count).toInt.toNat = data.length) :
    Under readRly pktReadRlySize (do putWord 10 (htonl (cWord count)); replyWith data count) := by
  intro w _ hh
  obtain ⟨v, hv⟩ : ∃ v : World, v = { w with sendPacket := w.sendPacket.store 10 (le32 (htonl (cWord count))) } := ⟨_, rfl⟩
  have hput : (putWord 10 (htonl (cWord count))).run w = ⟨some (), v, []⟩ := by rw [hv]; rfl
  have hhead : (v.sendPacket.slice 0 pktReadRlySize).take pktHdrSize =
      be32 readRly ++ be16 (BitVec.ofNat 16 (v.sendPacket.slice 0 pktReadRlySize).length) := by
    rw [Mem.slice_take _ _ (by decide), Mem.slice_length, hv]
    exact (Mem.slice_store_disjoint (.inl (by decide))).trans hh
  have hcount : ofBe32 ((v.sendPacket.slice 0 pktReadRlySize).drop 10) = cWord count := by
    rw [Mem.slice_drop _ _ (by decide), hv, le32_htonl]
    exact (congrArg ofBe32 (Mem.slice_store w.sendPacket 10 (be32 (cWord count)))).trans (ofBe32_be32 _)
  have hann : trailing (v.sendPacket.slice 0 pktReadRlySize) = data.length := by
    rw [trailing, (told_header hhead).2, if_neg (by decide), if_pos rfl, hcount, hc]
  obtain ⟨p, hb, rfl⟩ := exists_parcel hhead (by rw [Mem.slice_length]; decide) (by rw [Mem.slice_length]; decide) hann
  rw [Prog.run_bind, hput, Result.andThen_mk_some]
  exact posts_replyWith p hb.symm count

theorem under_readReply {filebuf : Option (List Byte)} (hl : (filebuf.getD []).length < 2 ^ 31) :
    Under readRly pktReadRlySize (readReply filebuf) := by
  cases filebuf with
  | none => exact @under_dataReply [] (-1) rfl
  | some bs =>
    refine @under_dataReply bs bs.length ?_
    rw [Option.getD_some] at hl
    rw [cWord, BitVec.toInt_ofInt, Int.bmod_eq_of_le (by omega) (by omega), Int.toNat_natCast]

namespace Posting

theorem pkoReadFile : Sat Posting pkoReadFile := by
  refine of_acts fun w ht => ?_
  cases hm : w.os.malloc w.now (sizeT (ntohl (w.recvPacket.word 10)).toInt) with
  | false =>
    rw [pkoReadFile_refused hm]
    exact ⟨[], .of_mum (by simp [Act.mum])⟩
  | true =>
    have hn : sizeT (ntohl (w.recvPacket.word 10)).toInt < 2 ^ 31 := by
      have h63 : ¬2 ^ 63 ≤ sizeT (ntohl (w.recvPacket.word 10)).toInt := fun h => by
        rw [ht _ _ h] at hm
        cases hm
      have := BitVec.toInt_lt (x := ntohl (w.recvPacket.word 10))
      have := BitVec.le_toInt (ntohl (w.recvPacket.word 10))
      rw [sizeT] at h63 ⊢
      omega
    rw [pkoReadFile_granted hm, Result.after_acts]
    have hu : ∃ ps, Posts ((sysRead (ntohl (w.recvPacket.word 6)).toInt
        (sizeT (ntohl (w.recvPacket.word 10)).toInt) >>= readReply).run w.readStarted).acts ps := by
      obtain ⟨hs, hmum⟩ := Hush.sysRead (ntohl (w.recvPacket.word 6)).toInt (sizeT (ntohl (w.recvPacket.word 10)).toInt)
        w.readStarted
      have hh : w.readStarted.sendPacket.slice 0 pktHdrSize = be32 readRly ++ be16 (BitVec.ofNat 16 pktReadRlySize) :=
        header_stores (by simp [pktHdrSize])
      rw [Prog.run_bind]
      cases hv : ((sysRead (ntohl (w.recvPacket.word 6)).toInt (sizeT (ntohl (w.recvPacket.word 10)).toInt)).run
          w.readStarted).value with
      | none =>
        rw [Result.andThen_none _ hv]
        exact ⟨[], .of_mum hmum⟩
      | some filebuf =>
        have hl : (filebuf.getD []).length < 2 ^ 31 := by
          cases filebuf with
          | none => exact Nat.two_pow_pos 31
          | some bs => exact Nat.lt_of_le_of_lt (sysRead_length hv) hn
        obtain ⟨ps, hps⟩ := under_readReply hl _ (((sysRead _ _).keeps w.readStarted).os ▸ ht) (hs.trans hh)
        rw [Result.andThen_some _ hv]
        exact ⟨ps, (Posts.of_mum hmum).append hps⟩
    obtain ⟨ps, hps⟩ := hu
    exact ⟨ps, .mum rfl (.mum rfl hps)⟩

theorem fileIo (c : Cmd) : Sat Posting (fileIo c) := by
  cases c with
  | «open» => exact pkoOpenFile.bind fun _ => .pure ()
  | close => exact pkoCloseFile.bind fun _ => .pure ()
  | read => exact pkoReadFile.bind fun _ => .pure ()
  | write => exact pkoWriteFile.bind fun _ => .pure ()
  | lseek => exact pkoLseekFile.bind fun _ => .pure ()
  | dopen => exact pkoOpenDir.bind fun _ => .pure ()
  | dread => exact pkoReadDir.bind fun _ => .pure ()
  | dclose => exact pkoCloseDir.bind fun _ => .pure ()
  | _ => exact .pure ()

theorem pkoExeceeReq (sock : Int) (argv : List Byte) (argc : Word) : Sat Posting (pkoExeceeReq sock argv argc) :=
  sendReq (by decide) (by decide) (by decide) (by simp [pktHdrSize])

theorem pkoExeciopReq (sock : Int) (argv : List Byte) (argc : Word) : Sat Posting (pkoExeciopReq sock argv argc) :=
  sendReq (by decide) (by decide) (by decide) (by simp [pktHdrSize])

theorem pkoGsexecReq (sock : Int) (file : List Byte) (size : Word) : Sat Posting (pkoGsexecReq sock file size) :=
  sendReq (by decide) (by decide) (by decide) (by simp [pktHdrSize])

theorem pkoStopVu (sock : Int) (vpu : Word) : Sat Posting (pkoStopVu sock vpu) :=
  sendReq (by decide) (by decide) (by decide) (by simp [pktHdrSize])

theorem pkoStartVu (sock : Int) (vpu : Word) : Sat Posting (pkoStartVu sock vpu) :=
  sendReq (by decide) (by decide) (by decide) (by simp [pktHdrSize])

theorem dumpmem (file : List Byte) (offset size : Word) : Sat Posting (dumpmem file offset size) :=
  command fun _ => sendReq (by decide) (by decide) (by decide) (by simp [pktHdrSize])

theorem dumpregs (file : List Byte) (regs : Word) : Sat Posting (dumpregs file regs) :=
  command fun _ => sendReq (by decide) (by decide) (by decide) (by simp [pktHdrSize])

theorem cliReset : Sat Posting cliReset :=
  (setVars _).bind fun _ => (command fun _ => sendHdr (by decide)).bind fun _ => (wires .closeNetfs).bind fun _ => .pure 0

theorem cliReconnect : Sat Posting cliReconnect :=
  Sat.get.bind fun _ => (sysClose _).bind fun _ => (wires .cmdListener).bind fun _ => (setVars _).bind fun _ =>
    (wires .closeNetfs).bind fun _ => .pure 0

theorem cliGsexec (arg : List Byte) : Sat Posting (cliGsexec arg) := by
  have hsize : Sat Posting (sizeFile (trimInPlace arg)) := (hush (.asks fun _ => rfl)).bind fun _ => .pure _
  exact hsize.bind fun size => .ite (.pure (-1)) (.ite (.pure (-1)) (Sat.get.bind fun _ =>
    (command fun _ => pkoGsexecReq _ _ _).bind fun _ => .pure 0))

theorem cliExeceiop (arg : List Byte) : Sat Posting (cliExeceiop arg) :=
  (setVars _).bind fun _ => Sat.get.bind fun _ => (command fun _ => pkoExeciopReq _ _ _).bind fun _ => .pure 0

theorem execee (arg : List Byte) : Sat Posting (execee arg) :=
  (setVars _).bind fun _ => Sat.get.bind fun _ => (command fun _ => pkoExeceeReq _ _ _).bind fun _ => .pure 0

theorem resetAndReconnect : Sat Posting resetAndReconnect :=
  cliReset.bind fun _ => Sat.get.bind fun _ => (sysClose _).bind fun _ => wires (.awaitLink _)

theorem cliExecee (arg : List Byte) : Sat Posting (cliExecee arg) :=
  Sat.get.bind fun _ => .ite (resetAndReconnect.bind fun _ => execee arg) (execee arg)

theorem stopvuCase : Sat Posting stopvuCase :=
  (hush .loadPacket).bind fun _ => (command fun _ => pkoStopVu _ _).bind fun _ => .pure ()

theorem relay (c : Cmd) : Sat Posting (relay c) := by
  have hload : Sat Posting loadPacket := hush .loadPacket
  cases c with
  | dumpmem => exact hload.bind fun _ => (dumpmem _ _ _).bind fun _ => .pure ()
  | dumpregs => exact hload.bind fun _ => (dumpregs _ _).bind fun _ => .pure ()
  | gsexec => exact hload.bind fun _ => (cliGsexec _).bind fun _ => stopvuCase
  | stopvu => exact stopvuCase
  | startvu => exact hload.bind fun _ => (command fun _ => pkoStartVu _ _).bind fun _ => .pure ()
  | execee => exact hload.bind fun _ => (cliExecee _).bind fun _ => .pure ()
  | execiop => exact hload.bind fun _ => (cliExeceiop _).bind fun _ => .pure ()
  | reset => exact cliReset.bind fun _ => .pure ()
  | _ => exact .pure ()

theorem switch (c : Option Cmd) : Sat Posting (switch c) := by
  cases c with
  | none => exact .pure ()
  | some c => exact .ite (fileIo c) (relay c)

theorem pkoSrvRead (fd : Int) : Sat Posting (pkoSrvRead fd) := by
  have hbody : Sat Posting (recvBody fd) := (hush .loadPacket).bind fun _ => (pkoRecvBytes _ _ _).bind fun _ => .pure ()
  have hcmd : Sat Posting packetCmd := (hush .loadPacket).bind fun _ => .pure _
  have hlost : Sat Posting (linkLost fd) := (sysClose fd).bind fun _ => Sat.get.bind fun _ =>
    (wires (.awaitLink _)).bind fun _ => wires .closeNetfs
  have heof : Sat Posting (srvEof fd) := Sat.get.bind fun _ => .ite (hlost.bind fun _ => .pure 0) (.pure (-1))
  exact (pkoRecvBytes _ _ _).bind fun _ => .ite (.pure _) (.ite heof (hcmd.bind fun _ => hbody.bind fun _ =>
    (switch _).bind fun _ => .pure 0))

end Posting

end Pksh
