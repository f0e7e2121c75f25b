import Pksh.Lib.Twin
import Pksh.Serving

/-! Programs that do not heed what `recv_packet` holds. -/

namespace Pksh

open Wire Traced

/-- The same state, but for what `recv_packet` holds. -/
def World.setPacket (w : World) (m : Mem) : World := { w with recvPacket := m }

namespace World

variable (w : World) (m : Mem)

@[simp] theorem setPacket_os : (w.setPacket m).os = w.os := rfl

@[simp] theorem setPacket_now : (w.setPacket m).now = w.now := rfl

@[simp] theorem setPacket_desc : (w.setPacket m).desc = w.desc := rfl

@[simp] theorem setPacket_unused : (w.setPacket m).unused = w.unused := rfl

@[simp] theorem setPacket_inflow (s : Int) : (w.setPacket m).inflow s = w.inflow s := rfl

@[simp] theorem setPacket_outflow (s : Int) : (w.setPacket m).outflow s = w.outflow s := rfl

theorem putSock_setPacket (s : Int) (k : Sock) : (w.setPacket m).putSock s k = (w.putSock s k).setPacket m := by
  simp only [putSock, setPacket_desc]
  rcases w.desc s with _ | _ | _ | _ <;> rfl

end World

def ExceptPacket (w w' : World) : Prop := ∃ m, w' = w.setPacket m

/-- What `recv_packet` holds does not matter to the program. -/
abbrev Heedless {α : Type} (p : Io α) : Prop := Blind ExceptPacket p

namespace Heedless

variable {α : Type}

theorem of_commutes {p : Io α}
    (h : ∀ w m, p.run (w.setPacket m) = ⟨(p.run w).value, (p.run w).state.setPacket m, (p.run w).acts⟩) :
    Heedless p := by
  rintro w _ ⟨m, rfl⟩
  rw [h]
  exact ⟨rfl, rfl, m, rfl⟩

theorem setVars {f : Vars → Vars} (h : ∀ v m, ∃ m', f { v with recvPacket := m } = { f v with recvPacket := m' }) :
    Heedless (setVars f) := by
  rintro w _ ⟨m, rfl⟩
  obtain ⟨m', hm⟩ := h w.toVars m
  exact ⟨rfl, rfl, m', congrArg (fun v : Vars => { w with toVars := v }) hm⟩

theorem asks {answer : World → α} {act : α → Act} {h : ∀ a, (act a).quiet = true}
    (ha : ∀ w m, answer (w.setPacket m) = answer w) : Heedless (asks answer act h) :=
  of_commutes fun w m => by
    simp only [Pksh.asks, ha]
    rfl

theorem emit (a : Act) (h : a.quiet = true) : Heedless (emit a h) := of_commutes fun _ _ => rfl

theorem sysOpen (path : List Byte) (flags : Word) (mode : Nat) : Heedless (sysOpen path flags mode) :=
  of_commutes fun w m => by
    simp only [Pksh.sysOpen, World.setPacket_os, World.setPacket_now, World.setPacket_unused]
    cases (w.os.openFile w.now path flags mode).filter w.unused <;> rfl

theorem sysSocket (type : SockType) : Heedless (sysSocket type) :=
  of_commutes fun w m => by
    simp only [Pksh.sysSocket, World.setPacket_os, World.setPacket_now, World.setPacket_unused]
    cases (w.os.socket w.now).filter w.unused <;> rfl

theorem sysClose (fd : Int) : Heedless (sysClose fd) := of_commutes fun _ _ => rfl

theorem sysLocaltime (time : Int) : Heedless (sysLocaltime time) := of_commutes fun _ _ => rfl

theorem sysSelectConnect (fd : Int) : Heedless (sysSelectConnect fd) := of_commutes fun _ _ => rfl

theorem sysConnect (fd : Int) : Heedless (sysConnect fd) :=
  of_commutes fun w m => by
    simp only [Pksh.sysConnect, World.setPacket_os, World.setPacket_now, World.setPacket_desc]
    rcases w.desc fd with _ | _ | _ | _ <;> cases w.os.connect w.now fd <;> rfl

theorem sysSoError (fd : Int) : Heedless (sysSoError fd) :=
  of_commutes fun w m => by
    simp only [Pksh.sysSoError, World.setPacket_os, World.setPacket_now, World.setPacket_desc]
    rcases w.desc fd with _ | _ | _ | _ <;> rcases w.os.soError w.now fd with _ | _ | _ <;> rfl

theorem sysSend (s : Int) (bs : List Byte) : Heedless (sysSend s bs) :=
  of_commutes fun w m => by
    simp only [Pksh.sysSend, World.setPacket_outflow]
    rcases (w.outflow s).send bs.length with _ | ⟨r, f⟩
    · rfl
    · exact congrArg (Result.mk _ · _) (World.putSock_setPacket w.tick m s _)

theorem sysRead (fd : Int) (n : Nat) : Heedless (sysRead fd n) :=
  of_commutes fun w m => by
    simp only [Pksh.sysRead, World.setPacket_desc, World.setPacket_os, World.setPacket_now]
    rcases w.desc fd with _ | k | _ | _
    · rfl
    · by_cases hn : n = 0
      · simp only [if_pos hn]
        rfl
      · simp only [if_neg hn]
        rcases k.inflow.recv n with _ | ⟨r, f⟩
        · rfl
        · exact congrArg (Result.mk _ · _) (World.putSock_setPacket w.tick m fd _)
    · rfl
    · rfl

theorem sysWrite (fd : Int) (bs : List Byte) : Heedless (sysWrite fd bs) :=
  of_commutes fun w m => by
    simp only [Pksh.sysWrite, World.setPacket_desc, World.setPacket_os, World.setPacket_now]
    rcases w.desc fd with _ | k | _ | _
    · rfl
    · dsimp only
      rcases k.outflow.send bs.length with _ | ⟨r, f⟩
      · rfl
      · exact congrArg (Result.mk _ · _) (World.putSock_setPacket w.tick m fd _)
    · rfl
    · rfl

theorem pkoSendBytes (s : Int) (buf : List Byte) (bytes : Int) : Heedless (pkoSendBytes s buf bytes) :=
  of_commutes fun w m => by
    simp only [Pksh.pkoSendBytes, World.setPacket_outflow]
    exact congrArg (Result.mk _ · _) (World.putSock_setPacket w m s _)

theorem pkoRecvBytes (s : Int) (buf : Buf) (bytes : Int) : Heedless (pkoRecvBytes s buf bytes) := by
  rintro w _ ⟨m, rfl⟩
  have hp : (w.setPacket m).putInflow s ((w.inflow s).read bytes.toNat).2.2 =
      (w.putInflow s ((w.inflow s).read bytes.toNat).2.2).setPacket m := World.putSock_setPacket w m s _
  refine ⟨rfl, rfl, ?_⟩
  simp only [Pksh.pkoRecvBytes, World.setPacket_inflow, hp]
  cases buf with
  | recvPacket off => exact ⟨m.store off ((w.inflow s).read bytes.toNat).2.1, rfl⟩
  | caller => exact ⟨m, rfl⟩

theorem get_bind {g : World → Io α} (hg : ∀ w m, g (w.setPacket m) = g w) (h : ∀ w, Heedless (g w)) :
    Heedless (Prog.get >>= g) := by
  refine Blind.get_bind ?_
  rintro w _ ⟨m, rfl⟩
  rw [hg]
  exact h w w _ ⟨m, rfl⟩

theorem load_bind {g : Mem → Io α} {w w' : World}
    (h : Alike ExceptPacket ((g w.recvPacket).run w) ((g w'.recvPacket).run w')) :
    Alike ExceptPacket ((loadPacket >>= g).run w) ((loadPacket >>= g).run w') := h

theorem putSend (off : Nat) (bs : List Byte) : Heedless (putSend off bs) := setVars fun _ m => ⟨m, rfl⟩

theorem putWord (off : Nat) (v : Word) : Heedless (putWord off v) := putSend off _

theorem putHalf (off : Nat) (v : Half) : Heedless (putHalf off v) := putSend off _

theorem pkoFixPath (off : Nat) : Heedless (pkoFixPath off) := setVars fun _ _ => ⟨_, rfl⟩

theorem sendReply (size : Nat) : Heedless (sendReply size) :=
  get_bind (fun _ _ => rfl) fun _ => (sysSend _ _).bind fun _ => .pure _

theorem answer (cmd retval : Word) : Heedless (answer cmd retval) :=
  ((putSend _ _).bind fun _ => (putSend _ _).bind fun _ => putSend _ _).bind fun _ =>
    (sendReply _).bind fun _ => .pure 0

theorem openAlong (name : List Byte) (flags : Word) (dirs : List (List Byte)) :
    Heedless (openAlong name flags dirs) := by
  induction dirs with
  | nil => exact .pure _
  | cons dir dirs ih => exact (sysOpen _ _ _).bind fun retval => .ite (.pure _) ih

theorem putTime (off : Nat) (time : Int) : Heedless (putTime off time) := by
  refine (sysLocaltime time).bind fun tm => ?_
  cases tm with
  | none => exact .pure _
  | some tm => exact putSend _ _

theorem recv_slice {w : World} {s n : Int} {r : Int × List Byte}
    (h : ((Pksh.pkoRecvBytes s (.recvPacket 0) n).run w).value = some r) (hr : 0 < r.1) :
    ((Pksh.pkoRecvBytes s (.recvPacket 0) n).run w).state.recvPacket.slice 0 r.1.toNat = r.2 := by
  by_cases hl : n.toNat ≤ (w.pending s).length
  · have hrun := pkoRecvBytes_full w s (.recvPacket 0) hl
    rw [hrun] at h ⊢
    obtain rfl : (n, (w.pending s).take n.toNat) = r := Option.some.inj h
    have hm : (w.received s (.recvPacket 0) n).recvPacket = w.recvPacket.store 0 ((w.pending s).take n.toNat) := by
      rw [received_vars]
      rfl
    rw [hm]
    exact Mem.slice_store_eq _ _ (by rw [List.length_take, Nat.min_eq_left hl])
  · rw [pkoRecvBytes_short w s _ (Nat.lt_of_not_le hl)] at h
    obtain ⟨k, hk, rfl⟩ := Option.map_eq_some_iff.mp h
    cases hs : (w.inflow s).stop with
    | full => exact absurd hs Inflow.stop_ne_full
    | _ =>
      rw [hs] at hk
      cases hk
      all_goals simp at hr

theorem writeSegments (fd : Int) (rounds : Nat) (bytesLeft : Int) : Heedless (writeSegments fd rounds bytesLeft) := by
  induction rounds generalizing bytesLeft with
  | zero => exact .pure _
  | succ rounds ih =>
    refine Blind.get_bind ?_
    rintro w _ ⟨m, rfl⟩
    have hrec := pkoRecvBytes w.pkoSrvFd (.recvPacket 0)
      (if bytesLeft > packetMaxsize then (packetMaxsize : Int) else bytesLeft) w _ ⟨m, rfl⟩
    refine hrec.andThen fun received hv => ?_
    by_cases hpos : received.1 ≤ 0
    · simp only [if_pos hpos]
      exact Blind.pure _ _ _ hrec.state
    · simp only [if_neg hpos]
      have hs := recv_slice hv (Int.not_le.mp hpos)
      have hs' := recv_slice (hrec.value.trans hv) (Int.not_le.mp hpos)
      refine load_bind ?_
      rw [hs, hs']
      refine Blind.bind (sysWrite fd received.2) (fun written => ?_) _ _ hrec.state
      cases written with
      | none => exact .pure _
      | some n => exact .ite (.pure _) (.ite (ih _) (.pure _))

theorem pkoCmdCon : Heedless pkoCmdCon := by
  refine (sysSocket _).bind fun fd => (setVars fun _ m => ⟨m, rfl⟩).bind fun _ => ?_
  cases fd with
  | none => exact .pure _
  | some fd => exact (sysConnect fd).bind fun _ => .pure _

theorem cmdListenerOn (fd : Int) : Heedless (cmdListenerOn fd) := by
  refine (sysConnect fd).bind fun e => ?_
  cases e with
  | none => exact .pure _
  | some e =>
    refine .ite (.pure _) ((sysSelectConnect fd).bind fun late => .ite ((sysClose fd).bind fun _ => .pure _)
      ((sysSoError fd).bind fun error => ?_))
    rcases error with _ | _ | e
    · exact .pure _
    · exact .pure _
    · exact (sysClose fd).bind fun _ => .pure _

theorem cmdListener : Heedless cmdListener := by
  refine (sysSocket _).bind fun fd => ?_
  cases fd with
  | none => exact .pure _
  | some fd => exact cmdListenerOn fd

theorem awaitLink (attempts : Nat) : Heedless (awaitLink attempts) := by
  induction attempts with
  | zero => exact (emit _ _).bind fun _ => .hang
  | succ attempts ih =>
    exact cmdListener.bind fun fd => (setVars fun _ m => ⟨m, rfl⟩).bind fun _ => .ite (.pure _) ih

theorem closeNetfs : Heedless closeNetfs :=
  get_bind (fun _ _ => rfl) fun _ => (sysClose _).bind fun _ => setVars fun _ m => ⟨m, rfl⟩

theorem sendReq (sock : Int) (size : Nat) (fields : List (Nat × List Byte)) : Heedless (sendReq sock size fields) :=
  get_bind (fun _ _ => rfl) fun _ => sysSend _ _

theorem command {req : Int → Io Int} (h : ∀ fd, Heedless (req fd)) : Heedless (command req) :=
  pkoCmdCon.bind fun _ => get_bind (fun _ _ => rfl) fun _ => h _

theorem cliReset : Heedless cliReset :=
  (setVars fun _ m => ⟨m, rfl⟩).bind fun _ => (command fun _ => sendReq _ _ _).bind fun _ =>
    closeNetfs.bind fun _ => .pure 0

theorem sysStat (path : List Byte) : Heedless (sysStat path) := asks fun _ _ => rfl

theorem cliGsexec (arg : List Byte) : Heedless (cliGsexec arg) :=
  ((sysStat _).bind fun _ => .pure _).bind fun _ => .ite (.pure _) (.ite (.pure _)
    (get_bind (fun _ _ => rfl) fun _ => (command fun _ => sendReq _ _ _).bind fun _ => .pure 0))

theorem cliExeceiop (arg : List Byte) : Heedless (cliExeceiop arg) :=
  (setVars fun _ m => ⟨m, rfl⟩).bind fun _ => get_bind (fun _ _ => rfl) fun _ =>
    (command fun _ => sendReq _ _ _).bind fun _ => .pure 0

theorem execee (arg : List Byte) : Heedless (execee arg) :=
  (setVars fun _ m => ⟨m, rfl⟩).bind fun _ => get_bind (fun _ _ => rfl) fun _ =>
    (command fun _ => sendReq _ _ _).bind fun _ => .pure 0

theorem resetAndReconnect : Heedless resetAndReconnect :=
  cliReset.bind fun _ => get_bind (fun _ _ => rfl) fun _ => (sysClose _).bind fun _ =>
    get_bind (fun _ _ => rfl) fun _ => awaitLink _

theorem cliExecee (arg : List Byte) : Heedless (cliExecee arg) :=
  get_bind (fun _ _ => rfl) fun _ => .ite (resetAndReconnect.bind fun _ => execee arg) (execee arg)

end Heedless

end Pksh
