import Pksh.Receiving

/-! What a file request can reach: its own descriptor, the link, and the packet
buffers. -/

namespace Pksh

open Wire Traced

/-- What a handler decodes from the packet buffer. -/
def Cmd.call (m : Mem) : Cmd → Option Call
  | .open => some (.openFile (ntohl (m.word 6)) (packetStr m 10))
  | .close => some (.closeFile (ntohl (m.word 6)).toInt)
  | .read => some (.readFile (ntohl (m.word 6)).toInt (ntohl (m.word 10)).toInt)
  | .write => some (.writeFile (ntohl (m.word 6)).toInt (ntohl (m.word 10)).toInt)
  | .lseek => some (.lseekFile (ntohl (m.word 6)).toInt (ntohl (m.word 10)).toInt (ntohl (m.word 14)).toInt)
  | .dopen => some (.openDir (packetStr m 10))
  | .dread => some (.readDir (ntohl (m.word 6)))
  | .dclose => some (.closeDir (ntohl (m.word 6)))
  | _ => none

/-- The descriptors whose bytes a call may take: the payload of a write comes
from the link, and a read may name any descriptor. -/
def Call.takes (link : Int) : Call → Int → Prop
  | .readFile fd _, s => s = fd
  | .writeFile _ _, s => s = link
  | _, _ => False

def Call.reads (call : Call) (s : Int) : Prop := ∃ n, call = .readFile s n

def Call.writes (call : Call) (s : Int) : Prop := ∃ n, call = .writeFile s n

/-- The call neither closes a descriptor nor reads from it. -/
def Call.spares (call : Call) (s : Int) : Prop := call ≠ .closeFile s ∧ ¬call.reads s

/-- The acts of the handler of a call behind its decoding. -/
def Act.serves (link : Int) (call : Call) : Act → Prop
  | .recv s _ => call.takes link s
  | .store off bytes => off = 0 ∧ bytes.length ≤ packetMaxsize
  | .send s _ _ => s = link
  | .sendAll s _ => s = link
  | .close s => call = .closeFile s
  | .read s _ => call.reads s
  | .write s _ _ => call.writes s
  | .starves s => s = link ∧ ∃ fd, call.writes fd
  | .blocks s => s = link ∨ call.reads s ∨ call.writes s
  | .handle _ | .await _ | .socket _ _ | .connect _ _ | .accept _ | .netfs _ | .unlinked => False
  | .malloc _ _ | .openFile _ _ | .lseek _ _ | .opendir _ _ | .readdir _ | .closedir _ | .stat _ _ => True

def Serving (call : Call) (w : World) (as : List Act) (w' : World) : Prop :=
  w'.wiring = w.wiring ∧ ∀ a ∈ as, a.serves w.pkoSrvFd call

instance (call : Call) : Chains (Serving call) where
  nil _ := ⟨rfl, by simp⟩
  append h h' := by
    refine ⟨h'.1.trans h.1, fun a ha => ?_⟩
    rcases List.mem_append.mp ha with ha | ha
    · exact h.2 a ha
    · exact Vars.link_eq h.1 ▸ h'.2 a ha

namespace Serving

variable {call : Call}

theorem setVars {f : Vars → Vars} (h : ∀ v, (f v).wiring = v.wiring) : Sat (Serving call) (setVars f) :=
  fun w => ⟨h w.toVars, by simp [Pksh.setVars]⟩

theorem asks {α : Type} {answer : World → α} {act : α → Act} {h : ∀ a, (act a).quiet = true}
    (ha : ∀ link a, (act a).serves link call) : Sat (Serving call) (asks answer act h) :=
  fun w => ⟨rfl, by simpa [Pksh.asks] using ha _ _⟩

theorem loadPacket : Sat (Serving call) loadPacket := Sat.get.bind fun _ => .pure _

theorem putSend (off : Nat) (bs : List Byte) : Sat (Serving call) (putSend off bs) := setVars fun _ => rfl

theorem pkoFixPath (off : Nat) : Sat (Serving call) (pkoFixPath off) := setVars fun _ => rfl

theorem sendReply (size : Nat) : Sat (Serving call) (sendReply size) := by
  refine Sat.get_bind fun w => Sat.bind_at ⟨congrArg Vars.wiring (sysSend_vars w _ _), ?_⟩
    fun _ _ => Sat.pure () _
  obtain ⟨ret, ⟨ha, _⟩ | ⟨ha, _⟩⟩ := sysSend_acts w w.pkoSrvFd (w.sendPacket.slice 0 size)
  · simp [ha, Act.serves]
  · simp [ha, Act.serves]

theorem sysOpen (path : List Byte) (flags : Word) (mode : Nat) :
    Sat (Serving call) (sysOpen path flags mode) := by
  intro w
  simp only [Pksh.sysOpen]
  split
  · exact ⟨rfl, by simp [Act.serves]⟩
  · exact ⟨rfl, by simp [Act.serves]⟩

theorem sysClose (fd : Int) : Sat (Serving (.closeFile fd)) (sysClose fd) :=
  fun _ => ⟨rfl, by simp [Pksh.sysClose, Act.serves]⟩

theorem sysLocaltime (time : Int) : Sat (Serving call) (sysLocaltime time) :=
  fun _ => ⟨rfl, by simp [Pksh.sysLocaltime]⟩

theorem sysRead (fd nbytes : Int) (n : Nat) : Sat (Serving (.readFile fd nbytes)) (sysRead fd n) :=
  fun w => ⟨congrArg Vars.wiring (sysRead_vars w fd n),
    sysRead_acts w fd n (fun _ => ⟨nbytes, rfl⟩) (fun _ => rfl) (.inr (.inl ⟨nbytes, rfl⟩))⟩

theorem sysWrite (fd nbytes : Int) (bs : List Byte) : Sat (Serving (.writeFile fd nbytes)) (sysWrite fd bs) :=
  fun w => ⟨congrArg Vars.wiring (sysWrite_vars w fd bs), 
    sysWrite_acts w fd bs (fun _ => ⟨nbytes, rfl⟩) (.inr (.inr ⟨nbytes, rfl⟩))⟩

theorem pkoRecvBytes {fd nbytes bytes : Int} (hb : bytes ≤ packetMaxsize) (w : World) :
    Serving (.writeFile fd nbytes) w ((pkoRecvBytes w.pkoSrvFd (.recvPacket 0) bytes).run w).acts
      ((pkoRecvBytes w.pkoSrvFd (.recvPacket 0) bytes).run w).state := by
  obtain ⟨bs, hv⟩ := pkoRecvBytes_vars w w.pkoSrvFd (.recvPacket 0) bytes
  refine ⟨by rw [hv]; rfl, pkoRecvBytes_acts w _ _ _ (fun _ => rfl) (fun bs hl a ha => ?_) ⟨rfl, fd, nbytes, rfl⟩⟩
  obtain rfl : a = .store 0 bs := by simpa [Buf.stored] using ha
  exact ⟨rfl, by omega⟩

theorem writeSegments (fd nbytes : Int) (rounds : Nat) (bytesLeft : Int) :
    Sat (Serving (.writeFile fd nbytes)) (writeSegments fd rounds bytesLeft) := by
  induction rounds generalizing bytesLeft with
  | zero => exact .pure _
  | succ rounds ih =>
    refine Sat.get_bind fun w => Sat.bind_at (pkoRecvBytes ?_ w) fun received _ => ?_
    · split <;> omega
    · refine Sat.ite (.pure _) (loadPacket.bind fun m => (sysWrite _ _ _).bind fun written => ?_) _
      cases written with
      | none => exact .pure _
      | some n => exact .ite (.pure _) (.ite (ih _) (.pure _))

theorem answer (cmd retval : Word) : Sat (Serving call) (answer cmd retval) :=
  ((putSend _ _).bind fun _ => (putSend _ _).bind fun _ => putSend _ _).bind fun _ =>
    (sendReply _).bind fun _ => .pure 0

theorem openAlong (name : List Byte) (flags : Word) (dirs : List (List Byte)) :
    Sat (Serving call) (openAlong name flags dirs) := by
  induction dirs with
  | nil => exact .pure _
  | cons dir dirs ih => exact (sysOpen _ _ _).bind fun retval => .ite (.pure _) ih

theorem putTime (off : Nat) (time : Int) : Sat (Serving call) (putTime off time) := by
  refine (sysLocaltime time).bind fun tm => ?_
  cases tm with
  | none => exact .pure _
  | some tm => exact putSend _ _

end Serving

/-- The handler of a call tells so once, before it does its work. -/
structure Handles {α : Type} (call : Call) (w : World) (r : Result World Act α) : Prop where
  wiring : r.state.wiring = w.wiring
  acts : ∃ rest, r.acts = .handle call :: rest ∧ ∀ a ∈ rest, a.serves w.pkoSrvFd call

theorem handles_of (call : Mem → Call) {body : Mem → Io Int} {w : World}
    (h : Sat (Serving (call w.recvPacket)) (body w.recvPacket)) :
    Handles (call w.recvPacket) w ((do
      let m ← loadPacket
      emit (.handle (call m)) rfl
      body m : Io Int).run w) :=
  ⟨(h w).1, _, rfl, (h w).2⟩

theorem Handles.bind_pure {α β : Type} {call : Call} {w : World} {m : Io α} (h : Handles call w (m.run w))
    (b : β) : Handles call w ((m >>= fun _ => pure b).run w) := by
  cases hv : (m.run w).value with
  | none =>
    rw [Prog.run_bind, Result.andThen_none _ hv]
    exact ⟨h.wiring, h.acts⟩
  | some a =>
    rw [Prog.run_bind, Result.andThen_some _ hv]
    exact ⟨h.wiring, by simpa using h.acts⟩

section Handlers

variable (w : World)

theorem handles_pkoOpenFile :
    Handles (.openFile (ntohl (w.recvPacket.word 6)) (packetStr w.recvPacket 10)) w (pkoOpenFile.run w) := by
  refine handles_of (fun m => .openFile (ntohl (m.word 6)) (packetStr m 10)) ?_
  refine (Serving.pkoFixPath 10).bind fun _ => Serving.loadPacket.bind fun m =>
    (Serving.sysOpen _ _ _).bind fun first => Sat.get.bind fun v => ?_
  exact .ite ((Serving.openAlong _ _ _).bind fun _ => Serving.answer _ _)
    ((Sat.pure first).bind fun _ => Serving.answer _ _)

theorem handles_pkoOpenDir :
    Handles (.openDir (packetStr w.recvPacket 10)) w (pkoOpenDir.run w) := by
  refine handles_of (fun m => .openDir (packetStr m 10)) ?_
  refine (Serving.putSend _ _).bind fun _ => (Serving.putSend _ _).bind fun _ =>
    (Serving.pkoFixPath 10).bind fun _ => Serving.loadPacket.bind fun m =>
    (Serving.asks fun _ _ => by trivial).bind fun dirp => ?_
  cases dirp with
  | none => exact .pure _
  | some dirp => exact (Serving.putSend _ _).bind fun _ => (Serving.sendReply _).bind fun _ => .pure 0

theorem handles_pkoReadDir :
    Handles (.readDir (ntohl (w.recvPacket.word 6))) w (pkoReadDir.run w) := by
  refine handles_of (fun m => .readDir (ntohl (m.word 6))) ?_
  refine (Serving.putSend _ _).bind fun _ => (Serving.putSend _ _).bind fun _ =>
    (Serving.asks fun _ _ => by trivial).bind fun entry => (Serving.putSend _ _).bind fun _ => ?_
  have hs : Sat (Serving (.readDir (ntohl (w.recvPacket.word 6))))
      (sendReply pktDreadRlySize >>= fun _ => (pure 0 : Io Int)) :=
    (Serving.sendReply _).bind fun _ => .pure 0
  refine .ite hs ((Serving.asks fun _ _ => by trivial).bind fun st => ?_)
  exact (Serving.putSend _ _).bind fun _ => (Serving.putSend _ _).bind fun _ =>
    (Serving.putSend _ _).bind fun _ => (Serving.putTime _ _).bind fun _ =>
    (Serving.putTime _ _).bind fun _ => (Serving.putTime _ _).bind fun _ =>
    (Serving.putSend _ _).bind fun _ => (Serving.putSend _ _).bind fun _ => hs

theorem handles_pkoCloseDir :
    Handles (.closeDir (ntohl (w.recvPacket.word 6))) w (pkoCloseDir.run w) :=
  handles_of (fun m => .closeDir (ntohl (m.word 6)))
    ((Serving.asks fun _ _ => by trivial).bind fun _ => Serving.answer _ _)

theorem handles_pkoCloseFile :
    Handles (.closeFile (ntohl (w.recvPacket.word 6)).toInt) w (pkoCloseFile.run w) :=
  handles_of (fun m => .closeFile (ntohl (m.word 6)).toInt)
    ((Serving.sysClose _).bind fun _ => Serving.answer _ _)

theorem handles_pkoLseekFile :
    Handles (.lseekFile (ntohl (w.recvPacket.word 6)).toInt (ntohl (w.recvPacket.word 10)).toInt
      (ntohl (w.recvPacket.word 14)).toInt) w (pkoLseekFile.run w) :=
  handles_of (fun m => .lseekFile (ntohl (m.word 6)).toInt (ntohl (m.word 10)).toInt
      (ntohl (m.word 14)).toInt)
    ((Serving.asks fun _ _ => by trivial).bind fun _ => Serving.answer _ _)

theorem handles_pkoWriteFile :
    Handles (.writeFile (ntohl (w.recvPacket.word 6)).toInt (ntohl (w.recvPacket.word 10)).toInt) w
      (pkoWriteFile.run w) :=
  handles_of (fun m => .writeFile (ntohl (m.word 6)).toInt (ntohl (m.word 10)).toInt)
    ((Serving.writeSegments _ _ _ _).bind fun _ => Serving.answer _ _)

theorem serving_filebuf (call : Call) (filebuf : List Byte) (readbytes : Int) :
    Sat (Serving call) (do
      let w ← Prog.get
      let _ ← pkoSendBytes w.pkoSrvFd filebuf readbytes
      pure (0 : Int)) :=
  Sat.get_bind fun v => Sat.bind_at ⟨congrArg Vars.wiring (pkoSendBytes_vars v _ _ _),
    pkoSendBytes_acts v _ _ _ (fun _ => rfl) (.inl rfl)⟩ fun _ _ => Sat.pure 0 _

theorem handles_pkoReadFile :
    Handles (.readFile (ntohl (w.recvPacket.word 6)).toInt (ntohl (w.recvPacket.word 10)).toInt) w
      (pkoReadFile.run w) := by
  refine handles_of (fun m => .readFile (ntohl (m.word 6)).toInt (ntohl (m.word 10)).toInt) ?_
  refine (Serving.putSend _ _).bind fun _ => (Serving.putSend _ _).bind fun _ =>
    (Serving.putSend _ _).bind fun _ => (Serving.asks fun _ _ => by trivial).bind fun ok => ?_
  cases ok with
  | false => exact .pure _
  | true =>
    exact (Serving.sysRead _ _ _).bind fun filebuf => (Serving.putSend _ _).bind fun _ =>
      (Serving.sendReply _).bind fun _ => serving_filebuf _ _ _

end Handlers

theorem handles_fileIo {c : Cmd} {call : Call} {w : World} (h : c.call w.recvPacket = some call) :
    Handles call w ((fileIo c).run w) := by
  cases c <;> cases h
  · exact (handles_pkoOpenFile w).bind_pure ()
  · exact (handles_pkoCloseFile w).bind_pure ()
  · exact (handles_pkoReadFile w).bind_pure ()
  · exact (handles_pkoWriteFile w).bind_pure ()
  · exact (handles_pkoLseekFile w).bind_pure ()
  · exact (handles_pkoOpenDir w).bind_pure ()
  · exact (handles_pkoReadDir w).bind_pure ()
  · exact (handles_pkoCloseDir w).bind_pure ()

theorem Cmd.isFileIo_iff_call (c : Cmd) (m : Mem) : c.isFileIo = true ↔ (c.call m).isSome = true := by
  cases c <;> simp [Cmd.isFileIo, Cmd.call]

end Pksh
