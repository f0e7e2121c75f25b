import Pksh.Mirroring

/-! Each handler of a file request does what is done for the request without
its link. -/

namespace Pksh

open Wire Traced

section Handlers

variable {link : Int} {v u : World}

abbrev Follows (link : Int) (r : Result World Act Int) (r' : Result World Act Unit) : Prop :=
  Mimics (Act.shown link) (Act.shown link) (Mirrors link) (fun _ _ => True) r r'

theorem Follows.dropped {p : Io Int} {r' : Result World Act Unit} (h : Follows link (p.run v) r') :
    Mimics (Act.shown link) (Act.shown link) (Mirrors link) Eq ((p >>= fun _ => (pure () : Io Unit)).run v) r' := by
  rw [Prog.run_bind_pure]
  exact h.map_left fun _ _ _ => rfl

theorem handle_hidden (call : Call) : ∀ a ∈ [Act.handle call], a.shown link = none := by
  simp [Act.shown]

theorem answer_mimics (cmd retval : Word) : Mimic (Act.shown link) (Act.shown link) (Mirrors link) (fun _ _ => True)
    (answer cmd retval) (answer cmd retval >>= fun _ => (pure () : Io Unit)) :=
  (Shows.answer cmd retval).map_right fun _ _ _ => trivial

theorem sendReply_mimics (size : Nat) {ret : Int} :
    Mimic (Act.shown link) (Act.shown link) (Mirrors link) (fun _ _ => True)
      (sendReply size >>= fun _ => (pure ret : Io Int)) (sendReply size) :=
  (Shows.sendReply size).map_left fun _ _ _ => trivial

theorem openFile_mimics (h : Mirrors link v u) : Follows link (pkoOpenFile.run v)
    ((openRequest (ntohl (v.recvPacket.word 6)) (packetStr v.recvPacket 10)).run u) := by
  have hfix : Mirrors link ((pkoFixPath 10).run v).state u := h.setPacket _
  have hrun : pkoOpenFile.run v =
      ((sysOpen (packetStr ((pkoFixPath 10).run v).state.recvPacket 10) (pkoFixFlags (ntohl (v.recvPacket.word 6))) openMode >>=
        fun first => Prog.get >>= fun w => if first = -1 then
            openAlong (packetStr ((pkoFixPath 10).run v).state.recvPacket 10) (pkoFixFlags (ntohl (v.recvPacket.word 6)))
              w.pathList >>= fun retval => answer openRly (cWord retval)
          else pure first >>= fun retval => answer openRly (cWord retval)).run ((pkoFixPath 10).run v).state).after
        [.handle (.openFile (ntohl (v.recvPacket.word 6)) (packetStr v.recvPacket 10))] := rfl
  rw [hrun, packetStr_fixPath]
  refine Mimics.after_left ?_ (handle_hidden _)
  refine Mimic.bind (Shows.sysOpen _ _ _) (fun first _ hf => ?_) _ _ hfix
  subst hf
  refine Mimic.get_bind fun v u h => ?_
  rw [h.pathList]
  refine Mimic.ite (fun _ => (Shows.openAlong _ _ _).bind fun retval _ hr => ?_)
    (fun _ => Mimic.bind (V := Eq) (.pure rfl) fun retval _ hr => ?_) v u h
  · subst hr
    exact answer_mimics _ _
  · subst hr
    exact answer_mimics _ _

theorem closeDir_mimics (h : Mirrors link v u) : Follows link (pkoCloseDir.run v)
    ((FileReq.closeDir (ntohl (v.recvPacket.word 6))).serve.run u) := by
  have hrun : pkoCloseDir.run v = ((sysClosedir (ntohl (v.recvPacket.word 6)) >>= fun retval =>
      answer dcloseRly (cWord retval)).run v).after [.handle (.closeDir (ntohl (v.recvPacket.word 6)))] := rfl
  rw [hrun]
  refine Mimics.after_left ?_ (handle_hidden _)
  refine Mimic.bind (Shows.sysClosedir _) (fun retval _ hr => ?_) v u h
  subst hr
  exact answer_mimics _ _

theorem closeFile_mimics (h : Mirrors link v u) (hs : (ntohl (v.recvPacket.word 6)).toInt ≠ link) :
    Follows link (pkoCloseFile.run v) ((FileReq.closeFile (ntohl (v.recvPacket.word 6))).serve.run u) := by
  have hrun : pkoCloseFile.run v = ((sysClose (ntohl (v.recvPacket.word 6)).toInt >>= fun retval =>
      answer closeRly (cWord retval)).run v).after [.handle (.closeFile (ntohl (v.recvPacket.word 6)).toInt)] := rfl
  rw [hrun]
  refine Mimics.after_left ?_ (handle_hidden _)
  refine Mimic.bind (Shows.sysClose hs) (fun retval _ hr => ?_) v u h
  subst hr
  exact answer_mimics _ _

theorem openDir_mimics (h : Mirrors link v u) : Follows link (pkoOpenDir.run v)
    ((openDirRequest (packetStr v.recvPacket 10)).run u) := by
  let v' := (v.fill 0 (le32 (htonl dopenRly))).fill 4 (le16 (htons (BitVec.ofNat 16 pktFileRlySize)))
  have hfix : Mirrors link ((pkoFixPath 10).run v').state
      ((u.fill 0 (le32 (htonl dopenRly))).fill 4 (le16 (htons (BitVec.ofNat 16 pktFileRlySize)))) :=
    ((h.fill 0 _).fill 4 _).setPacket _
  rw [pkoOpenDir_parts, packetStr_fixPath, openDirRequest, putWord, putSend_bind, putHalf, putSend_bind]
  refine Mimics.after_left ?_ (handle_hidden _)
  refine Mimic.bind (Shows.sysOpendir _) (fun dirp _ hd => ?_) _ _ hfix
  subst hd
  cases dirp with
  | none => exact .pure trivial
  | some dirp => exact (Shows.putSend _ _).bind fun _ _ _ => sendReply_mimics _

theorem readDir_mimics (h : Mirrors link v u) :
    Follows link (pkoReadDir.run v) ((readDirRequest (ntohl (v.recvPacket.word 6))).run u) := by
  have hrun : pkoReadDir.run v = ((do
      putWord 0 (htonl dreadRly)
      putHalf 4 (htons (BitVec.ofNat 16 pktDreadRlySize))
      let entry ← sysReaddir (ntohl (v.recvPacket.word 6))
      putWord 6 (htonl entry.1)
      if entry.1 = 0 then
        sendReply pktDreadRlySize
        pure 0
      else
        let st ← sysStat entry.2
        putWord 10 (htonl (dreadMode st.2.mode))
        putWord 14 (htonl 0)
        putWord 18 (htonl (cWord st.2.size))
        putTime 22 st.2.ctime
        putTime 30 st.2.atime
        putTime 38 st.2.mtime
        putWord 46 (htonl 0)
        putSend 50 (strncpy entry.2 256)
        sendReply pktDreadRlySize
        pure 0 : Io Int).run v).after [.handle (.readDir (ntohl (v.recvPacket.word 6)))] := rfl
  rw [hrun]
  refine Mimics.after_left ?_ (handle_hidden _)
  refine Mimic.bind (Shows.putSend _ _) (fun _ _ _ => (Shows.putSend _ _).bind fun _ _ _ =>
    (Shows.sysReaddir _).bind fun entry _ he => ?_) v u h
  subst he
  refine (Shows.putSend _ _).bind fun _ _ _ => .ite (fun _ => sendReply_mimics _) fun _ => ?_
  refine (Shows.sysStat _).bind fun st _ hs => ?_
  subst hs
  exact (Shows.putSend _ _).bind fun _ _ _ => (Shows.putSend _ _).bind fun _ _ _ => (Shows.putSend _ _).bind fun _ _ _ =>
    (Shows.putTime _ _).bind fun _ _ _ => (Shows.putTime _ _).bind fun _ _ _ => (Shows.putTime _ _).bind fun _ _ _ =>
    (Shows.putSend _ _).bind fun _ _ _ => (Shows.putSend _ _).bind fun _ _ _ => sendReply_mimics _

theorem readFile_mimics (h : Mirrors link v u) (hs : (ntohl (v.recvPacket.word 6)).toInt ≠ link) :
    Follows link (pkoReadFile.run v)
      ((readRequest (ntohl (v.recvPacket.word 6)).toInt (ntohl (v.recvPacket.word 10)).toInt).run u) := by
  rw [pkoReadFile_parts]
  refine Mimics.after_left ?_ (handle_hidden _)
  refine Mimic.bind (Shows.putSend _ _) (fun _ _ _ => (Shows.putSend _ _).bind fun _ _ _ =>
    (Shows.putSend _ _).bind fun _ _ _ => (Shows.sysMalloc _).bind fun ok _ ho => ?_) v u h
  subst ho
  refine .ite (fun _ => ?_) fun _ => .pure trivial
  refine (Shows.sysRead hs _).bind fun filebuf _ hb => ?_
  subst hb
  refine (Shows.putSend _ _).bind fun _ _ _ => (Shows.sendReply _).bind fun _ _ _ => Mimic.get_bind fun v u h => ?_
  rw [h.here, h.link]
  exact Mimic.bind (Shows.pkoSendBytes link _ _) (fun _ _ _ => .pure trivial) v u h

theorem lseekFile_mimics (h : Mirrors link v u) : Follows link (pkoLseekFile.run v)
    ((FileReq.lseekFile (ntohl (v.recvPacket.word 6)) (ntohl (v.recvPacket.word 10))
      (ntohl (v.recvPacket.word 14))).serve.run u) := by
  have hrun : pkoLseekFile.run v = ((sysLseek (ntohl (v.recvPacket.word 6)).toInt (ntohl (v.recvPacket.word 10)).toInt
      (ntohl (v.recvPacket.word 14)).toInt >>= fun retval => answer lseekRly (cWord retval)).run v).after
        [.handle (.lseekFile (ntohl (v.recvPacket.word 6)).toInt (ntohl (v.recvPacket.word 10)).toInt
          (ntohl (v.recvPacket.word 14)).toInt)] := rfl
  rw [hrun]
  refine Mimics.after_left ?_ (handle_hidden _)
  refine Mimic.bind (Shows.sysLseek _ _ _) (fun retval _ hr => ?_) v u h
  subst hr
  exact answer_mimics _ _

theorem segmentsFrom_eq {data : List Byte} {m n : Nat} (hm : data.length ≤ m) (hn : data.length ≤ n) :
    segmentsFrom m data = segmentsFrom n data := by
  induction m generalizing data n with
  | zero =>
    obtain rfl : data = [] := List.length_eq_zero_iff.mp (Nat.le_zero.mp hm)
    cases n <;> rfl
  | succ m ih =>
    cases n with
    | zero =>
      obtain rfl : data = [] := List.length_eq_zero_iff.mp (Nat.le_zero.mp hn)
      rfl
    | succ n =>
      have hd : (data.drop packetMaxsize).length ≤ data.length - 1 := by
        rw [List.length_drop, show packetMaxsize = 4096 from rfl]
        omega
      rw [segmentsFrom, segmentsFrom, ih (by omega) (show _ ≤ n by omega)]

theorem segments_cons {data : List Byte} (h : data ≠ []) :
    segments data = data.take packetMaxsize :: segments (data.drop packetMaxsize) := by
  obtain ⟨n, hn⟩ := Nat.exists_eq_succ_of_ne_zero (fun h0 => h (List.length_eq_zero_iff.mp h0))
  have hd : (data.drop packetMaxsize).length ≤ n := by
    rw [List.length_drop, hn, show packetMaxsize = 4096 from rfl]
    omega
  rw [segments, hn, segmentsFrom, if_neg h, segmentsFrom_eq hd (Nat.le_refl _), segments]

/-- How the written bytes and those left make up the payload. -/
def Left (n : Nat) (left : Int) (done : Nat) : Prop := left = n - done

theorem writeSegments_mimics {fd : Int} {rounds : Nat} {payload rest : List Byte} (h : Mirrors link v u)
    (hp : v.pending link = payload ++ rest) (hr : payload.length < rounds) :
    Mimics (Act.shown link) (Act.shown link) (Mirrors link) (Left payload.length)
      ((writeSegments fd rounds payload.length).run v) ((writeAll fd (segments payload)).run u) := by
  induction rounds generalizing payload v u with
  | zero => omega
  | succ rounds ih =>
    have hM : packetMaxsize = 4096 := rfl
    let n := min packetMaxsize payload.length
    have hn : (if (payload.length : Int) > packetMaxsize then (packetMaxsize : Int) else payload.length) = n := by
      split <;> omega
    have hle : (n : Int).toNat ≤ (v.pending link).length := by
      rw [hp, List.length_append]
      omega
    have hrun := pkoRecvBytes_full v link (.recvPacket 0) hle
    have hv := h.received 0 n
    have hpend := received_pending v link (.recvPacket 0) n
    have hpiece : payload.take n = payload.take packetMaxsize := by rw [← List.take_take, List.take_length]
    have hlen : (payload.take packetMaxsize).length = n := List.length_take
    have hslice : (v.received link (.recvPacket 0) n).recvPacket.slice 0 n = payload.take packetMaxsize := by
      rw [received_vars, Int.toNat_natCast, hp, List.take_append_of_le_length (Nat.min_le_right _ _), hpiece]
      exact Mem.slice_store_eq v.recvPacket 0 hlen
    have hacts : ∀ a ∈ Act.recv link ((v.pending link).take (n : Int).toNat) ::
        (Buf.recvPacket 0).stored ((v.pending link).take (n : Int).toNat), a.shown link = none := by
      simp [Act.shown, Buf.stored]
    have hacc := (pkoRecvBytes link (.recvPacket 0) n).keeps v
    rw [hrun] at hacc
    rw [writeSegments, Prog.run_bind, Prog.run_get, Result.andThen_mk_some, hn, h.here, Prog.run_bind, hrun,
      Result.andThen_mk_some]
    refine Mimics.after_left (Mimics.after_left ?_ hacts) (by simp)
    by_cases hz : payload = []
    · subst hz
      exact ⟨.some rfl, rfl, hv⟩
    · have hpos : 0 < n := by
        have := List.length_pos_of_ne_nil hz
        omega
      have hk := sock_of_pending (w := v) (s := link) (by rw [hp]; simp [hz])
      obtain ⟨hk', -⟩ := hacc.pending hk (by simp [Buf.stored])
      rw [if_neg (show ¬(n : Int) ≤ 0 by omega), loadPacket_bind, Int.toNat_natCast, hslice, segments_cons hz, writeAll]
      generalize v.received link (.recvPacket 0) n = v' at hv hpend hk'
      have hkeeps := (sysWrite fd (payload.take packetMaxsize)).keeps v'
      refine (Shows.sysWrite fd _ v' u hv).andThen fun written _ hw hval _ => ?_
      subst hw
      have hm := (Shows.sysWrite fd (payload.take packetMaxsize) v' u hv).state
      obtain ⟨ret, hret, ⟨hv1, ha⟩ | ⟨-, hv1, -⟩⟩ := sysWrite_cases v' fd (payload.take packetMaxsize)
      · rw [hv1] at hval
        obtain rfl := Option.some.inj hval
        rw [ha] at hkeeps
        have hp' := (hkeeps.pending hk' (by simp)).2.trans hpend
        rw [hp, Int.toNat_natCast, List.drop_append_of_le_length (Nat.min_le_right _ _)] at hp'
        cases ret with
        | none => exact ⟨.some (Int.sub_zero _).symm, rfl, hm⟩
        | some k =>
          rw [hlen] at hret ⊢
          by_cases hkn : k < n
          · simp only [if_pos hkn, if_pos (Int.ofNat_lt.mpr hkn)]
            exact ⟨.some rfl, rfl, hm⟩
          · obtain rfl : k = n := Nat.le_antisymm (hret k rfl) (Nat.le_of_not_lt hkn)
            simp only [if_neg hkn, if_neg (Int.lt_irrefl _)]
            by_cases hmore : (payload.length : Int) - n > 0
            · have hfull : n = packetMaxsize := by omega
              have hl : (payload.length : Int) - n = (payload.drop packetMaxsize).length := by
                rw [List.length_drop]
                omega
              rw [show min packetMaxsize payload.length = packetMaxsize from hfull] at hp'
              rw [if_pos hmore, hl, Prog.run_bind_pure]
              refine (ih hm hp' (by rw [List.length_drop]; omega)).map_right fun left done hd => ?_
              rw [Left, hd, ← hl, Int.natCast_add, Int.sub_sub]
            · have hall : payload.drop packetMaxsize = [] := List.drop_of_length_le (by omega)
              rw [if_neg hmore, hall]
              exact ⟨.some rfl, rfl, hm⟩
      · rw [hv1] at hval
        cases hval

theorem writeFile_mimics {fd : Word} {payload rest : List Byte} (fits : payload.length < 2 ^ 31) (h : Mirrors link v u)
    (hm : v.recvPacket.slice 0 pktWriteReqSize = (FileReq.writeFile fd payload fits).packet)
    (hp : v.pending link = payload ++ rest) :
    Follows link (pkoWriteFile.run v) ((FileReq.writeFile fd payload fits).serve.run u) := by
  rw [pkoWriteFile_run ((FileReq.writeFile fd payload fits).call_of_slice hm), Int.toNat_natCast]
  refine Mimics.after_left ?_ (handle_hidden _)
  refine (writeSegments_mimics h hp (Nat.lt_succ_self _)).andThen fun left done hd _ _ => ?_
  have hret : (payload.length : Int) - left = done := by
    rw [hd, Int.sub_sub_self]
  rw [hret]
  exact answer_mimics _ _ _ _ (writeSegments_mimics h hp (Nat.lt_succ_self _)).state

end Handlers

/-- A handler that finds a request in the packet buffer does what the server
does with the request. -/
theorem fileIo_mimics {link : Int} {v u : World} {r : FileReq} {rest : List Byte} (h : Mirrors link v u)
    (hm : v.recvPacket.slice 0 r.size = r.packet) (hp : v.pending link = r.payload ++ rest) (hs : r.call.spares link) :
    Mimics (Act.shown link) (Act.shown link) (Mirrors link) Eq ((fileIo r.cmd).run v) (r.serve.run u) := by
  have hc := r.call_of_slice hm
  cases r with
  | openFile flags path =>
    have ho := Option.some.inj hc
    simp only [FileReq.call, Call.openFile.injEq] at ho
    rw [FileReq.serve, ← ho.1, ← ho.2]
    exact (openFile_mimics h).dropped
  | openDir flags path =>
    have ho := Option.some.inj hc
    simp only [FileReq.call, Call.openDir.injEq] at ho
    rw [FileReq.serve, ← ho]
    exact (openDir_mimics h).dropped
  | readDir dir =>
    have ho := Option.some.inj hc
    simp only [FileReq.call, Call.readDir.injEq] at ho
    rw [FileReq.serve, ← ho]
    exact (readDir_mimics h).dropped
  | closeDir dir =>
    have ho := Option.some.inj hc
    simp only [FileReq.call, Call.closeDir.injEq] at ho
    rw [FileReq.serve, ← ho]
    exact (closeDir_mimics h).dropped
  | closeFile fd =>
    have ho := Option.some.inj hc
    simp only [FileReq.call, Call.closeFile.injEq] at ho
    have hfd : fd.toInt ≠ link := fun he => hs.1 (congrArg Call.closeFile he)
    rw [FileReq.serve, ← ho]
    exact (closeFile_mimics h (ho ▸ hfd)).dropped
  | readFile fd nbytes =>
    have ho := Option.some.inj hc
    simp only [FileReq.call, Call.readFile.injEq] at ho
    have hfd : fd.toInt ≠ link := fun he => hs.2 ⟨nbytes.toInt, congrArg (Call.readFile · nbytes.toInt) he⟩
    rw [FileReq.serve, ← ho.1, ← ho.2]
    exact (readFile_mimics h (ho.1 ▸ hfd)).dropped
  | writeFile fd payload fits => exact (writeFile_mimics fits h hm hp).dropped
  | lseekFile fd offset whence =>
    have ho := Option.some.inj hc
    simp only [FileReq.call, Call.lseekFile.injEq] at ho
    rw [FileReq.serve, ← ho.1, ← ho.2.1, ← ho.2.2]
    exact (lseekFile_mimics h).dropped

end Pksh
