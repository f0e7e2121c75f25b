import Pksh.Recutting

/-! System calls and handlers that do not tell such states apart. -/

namespace Pksh

open Wire Traced

namespace Seamless

variable {α β : Type} {files : Int → Prop}

theorem setVars (f : Vars → Vars) : Seamless files (setVars f) := by
  rintro w _ ⟨r, rfl, h⟩
  exact ⟨rfl, rfl, r, rfl, h.vars _⟩

theorem emit (a : Act) (ha : a.quiet = true) : Seamless files (emit a ha) := by
  rintro w _ ⟨r, rfl, h⟩
  exact ⟨rfl, rfl, r, rfl, h⟩

theorem asks {answer : World → α} {act : α → Act} {ha : ∀ a, (act a).quiet = true}
    (hanswer : ∀ w r, w.Fits files r → answer (w.refit r) = answer w) : Seamless files (asks answer act ha) := by
  rintro w _ ⟨r, rfl, h⟩
  have he := hanswer w r h
  exact ⟨congrArg some he, congrArg (fun a => [act a]) he, r, rfl, h.tick⟩

theorem sysMalloc (n : Nat) : Seamless files (sysMalloc n) := asks fun _ _ _ => rfl

theorem sysOpendir (path : List Byte) : Seamless files (sysOpendir path) := asks fun _ _ _ => rfl

theorem sysReaddir (dir : Word) : Seamless files (sysReaddir dir) := asks fun _ _ _ => rfl

theorem sysClosedir (dir : Word) : Seamless files (sysClosedir dir) := asks fun _ _ _ => rfl

theorem sysStat (path : List Byte) : Seamless files (sysStat path) := asks fun _ _ _ => rfl

theorem sysLseek (fd offset whence : Int) : Seamless files (sysLseek fd offset whence) := by
  refine asks fun w r h => ?_
  have hs : ((w.refit r).desc fd).isSome = (w.desc fd).isSome := h.isSome fd
  rw [hs]
  rfl

theorem sysLocaltime (time : Int) : Seamless files (sysLocaltime time) := by
  rintro w _ ⟨r, rfl, h⟩
  exact ⟨rfl, rfl, r, rfl, h.tick⟩

theorem sysSelectConnect (fd : Int) : Seamless files (sysSelectConnect fd) := by
  rintro w _ ⟨r, rfl, h⟩
  exact ⟨rfl, rfl, r, rfl, h.tick⟩

theorem sysOpen (path : List Byte) (flags : Word) (mode : Nat) : Seamless files (sysOpen path flags mode) := by
  rintro w _ ⟨r, rfl, h⟩
  have hu : ((w.refit r).os.openFile (w.refit r).now path flags mode).filter (w.refit r).unused =
      (w.os.openFile w.now path flags mode).filter w.unused := by
    rw [h.unused]
    rfl
  simp only [Pksh.sysOpen, hu]
  cases (w.os.openFile w.now path flags mode).filter w.unused with
  | none => exact ⟨rfl, rfl, r, rfl, h.tick⟩
  | some fd => exact ⟨rfl, rfl, _, rfl, h.tick.setDesc fd (.some (.same _)) fun _ _ he => by cases he⟩

theorem sysSocket (type : SockType) : Seamless files (sysSocket type) := by
  rintro w _ ⟨r, rfl, h⟩
  have hu : ((w.refit r).os.socket (w.refit r).now).filter (w.refit r).unused = (w.os.socket w.now).filter w.unused := by
    rw [h.unused]
    rfl
  simp only [Pksh.sysSocket, hu]
  cases (w.os.socket w.now).filter w.unused with
  | none => exact ⟨rfl, rfl, r, rfl, h.tick⟩
  | some fd => exact ⟨rfl, rfl, _, rfl, h.tick.setDesc fd (.some (.same _)) fun _ _ he => by cases he⟩

theorem sysClose (fd : Int) : Seamless files (sysClose fd) := by
  rintro w _ ⟨r, rfl, h⟩
  have hs : ((w.refit r).desc fd).isSome = (w.desc fd).isSome := h.isSome fd
  simp only [Pksh.sysClose, hs]
  exact ⟨rfl, rfl, _, rfl, h.tick.setDesc fd .none fun _ _ he => by cases he⟩

theorem sysSend (s : Int) (bs : List Byte) : Seamless files (sysSend s bs) := by
  rintro w _ ⟨r, rfl, h⟩
  simp only [Pksh.sysSend, h.outflow]
  cases (w.outflow s).send bs.length with
  | none => exact ⟨rfl, rfl, r, rfl, h.tick⟩
  | some c => exact ⟨rfl, rfl, h.tick.putOutflow s c.2⟩

theorem pkoSendBytes (s : Int) (buf : List Byte) (bytes : Int) : Seamless files (pkoSendBytes s buf bytes) := by
  rintro w _ ⟨r, rfl, h⟩
  simp only [Pksh.pkoSendBytes, h.outflow]
  exact ⟨rfl, rfl, h.putOutflow s _⟩

/-- The only place where a stream is read, but for `read` on a socket. -/
theorem pkoRecvBytes (s : Int) (buf : Buf) (bytes : Int) : Seamless files (pkoRecvBytes s buf bytes) := by
  rintro w _ ⟨r, rfl, h⟩
  obtain ⟨h1, h2, h3⟩ := (h.inflow s).read bytes.toNat
  obtain ⟨r', hr', h'⟩ := h.putInflow s h3
  simp only [Pksh.pkoRecvBytes, h1, h2]
  exact ⟨rfl, rfl, r', by rw [hr']; rfl, h'.vars _⟩

theorem sysWrite (fd : Int) (bs : List Byte) : Seamless files (sysWrite fd bs) := by
  rintro w _ ⟨r, rfl, h⟩
  have hd := h.desc fd
  have hput := h.tick.putOutflow fd
  have hr : (w.refit r).desc fd = r.desc fd := rfl
  simp only [Pksh.sysWrite, hr]
  generalize w.desc fd = d at hd
  generalize r.desc fd = d' at hd
  cases hd with
  | none => exact ⟨rfl, rfl, r, rfl, h.tick⟩
  | @some d d' hd =>
    obtain ⟨k, k', rfl, rfl, hk⟩ | ⟨rfl, hn⟩ := hd.view
    · simp only [hk.outflow]
      cases k.outflow.send bs.length with
      | none => exact ⟨rfl, rfl, r, rfl, h.tick⟩
      | some c => exact ⟨rfl, rfl, hput c.2⟩
    · cases d' with
      | sock k => exact absurd rfl (hn k)
      | _ => exact ⟨rfl, rfl, r, rfl, h.tick⟩

theorem sysRead {fd : Int} (hfd : files fd) (n : Nat) : Seamless files (sysRead fd n) := by
  rintro w _ ⟨r, rfl, h⟩
  have hd := h.desc fd
  have hs := h.files fd hfd
  have hr : (w.refit r).desc fd = r.desc fd := rfl
  simp only [Pksh.sysRead, hr]
  generalize w.desc fd = d at hd hs
  generalize r.desc fd = d' at hd
  cases hd with
  | none => exact ⟨rfl, rfl, r, rfl, h.tick⟩
  | @some d d' hd =>
    cases hd with
    | same =>
      cases d with
      | sock k => exact absurd rfl (hs k)
      | fresh => exact ⟨rfl, rfl, r, rfl, h.tick⟩
      | plain => exact ⟨rfl, rfl, r, rfl, h.tick⟩
    | @sock k k' hk => exact absurd rfl (hs k)

theorem get_bind {g : World → Io α} (hg : ∀ w r, g (w.refit r) = g w) (h : ∀ w, Seamless files (g w)) :
    Seamless files (Prog.get >>= g) := by
  refine Blind.get_bind ?_
  rintro w _ ⟨r, rfl, hw⟩
  rw [hg]
  exact h w w _ ⟨r, rfl, hw⟩

theorem load_bind {g : Mem → Io α} (h : ∀ m, Seamless files (g m)) : Seamless files (loadPacket >>= g) :=
  get_bind (g := fun w => g w.recvPacket) (fun _ _ => rfl) fun _ => h _

theorem load_at {g : Mem → Io α} {w w' : World} (hw : World.Recut files w w') (h : Seamless files (g w.recvPacket)) :
    Alike (World.Recut files) ((loadPacket >>= g).run w) ((loadPacket >>= g).run w') := by
  obtain ⟨r, rfl, hf⟩ := hw
  exact h w _ ⟨r, rfl, hf⟩

theorem putSend (off : Nat) (bs : List Byte) : Seamless files (putSend off bs) := setVars _

theorem pkoFixPath (off : Nat) : Seamless files (pkoFixPath off) := setVars _

theorem sendReply (size : Nat) : Seamless files (sendReply size) :=
  get_bind (fun _ _ => rfl) fun _ => (sysSend _ _).bind fun _ => .pure _

theorem answer (cmd retval : Word) : Seamless files (answer cmd retval) :=
  ((putSend _ _).bind fun _ => (putSend _ _).bind fun _ => putSend _ _).bind fun _ => (sendReply _).bind fun _ => .pure 0

theorem openAlong (name : List Byte) (flags : Word) (dirs : List (List Byte)) : Seamless files (openAlong name flags dirs) := by
  induction dirs with
  | nil => exact .pure _
  | cons dir dirs ih => exact (sysOpen _ _ _).bind fun retval => .ite (.pure _) ih

theorem putTime (off : Nat) (time : Int) : Seamless files (putTime off time) := by
  refine (sysLocaltime time).bind fun tm => ?_
  cases tm with
  | none => exact .pure _
  | some tm => exact putSend _ _

theorem writeSegments (fd : Int) (rounds : Nat) (bytesLeft : Int) : Seamless files (writeSegments fd rounds bytesLeft) := by
  induction rounds generalizing bytesLeft with
  | zero => exact .pure _
  | succ rounds ih =>
    refine get_bind (fun _ _ => rfl) fun w => (pkoRecvBytes _ _ _).bind fun received => .ite (.pure _)
      (load_bind fun m => (sysWrite _ _).bind fun written => ?_)
    cases written with
    | none => exact .pure _
    | some n => exact .ite (.pure _) (.ite (ih _) (.pure _))

theorem pkoOpenFile : Seamless files pkoOpenFile :=
  load_bind fun _ => (emit _ _).bind fun _ => (pkoFixPath _).bind fun _ => load_bind fun _ => (sysOpen _ _ _).bind fun _ =>
    get_bind (fun _ _ => rfl) fun _ => .ite ((openAlong _ _ _).bind fun _ => answer _ _) ((Blind.pure _).bind fun _ => answer _ _)

theorem pkoOpenDir : Seamless files pkoOpenDir := by
  refine load_bind fun _ => (emit _ _).bind fun _ => (putSend _ _).bind fun _ => (putSend _ _).bind fun _ =>
    (pkoFixPath _).bind fun _ => load_bind fun _ => (sysOpendir _).bind fun dirp => ?_
  cases dirp with
  | none => exact .pure _
  | some dirp => exact (putSend _ _).bind fun _ => (sendReply _).bind fun _ => .pure _

theorem pkoReadDir : Seamless files pkoReadDir := by
  refine load_bind fun _ => (emit _ _).bind fun _ => (putSend _ _).bind fun _ => (putSend _ _).bind fun _ =>
    (sysReaddir _).bind fun entry => (putSend _ _).bind fun _ => .ite ((sendReply _).bind fun _ => .pure _) ?_
  refine (sysStat _).bind fun st => (putSend _ _).bind fun _ => (putSend _ _).bind fun _ => (putSend _ _).bind fun _ =>
    (putTime _ _).bind fun _ => (putTime _ _).bind fun _ => (putTime _ _).bind fun _ => ?_
  exact (putSend _ _).bind fun _ => (putSend _ _).bind fun _ => (sendReply _).bind fun _ => .pure _

theorem pkoCloseDir : Seamless files pkoCloseDir :=
  load_bind fun _ => (emit _ _).bind fun _ => (sysClosedir _).bind fun _ => answer _ _

theorem pkoCloseFile : Seamless files pkoCloseFile :=
  load_bind fun _ => (emit _ _).bind fun _ => (sysClose _).bind fun _ => answer _ _

theorem pkoWriteFile : Seamless files pkoWriteFile :=
  load_bind fun _ => (emit _ _).bind fun _ => (writeSegments _ _ _).bind fun _ => answer _ _

theorem pkoLseekFile : Seamless files pkoLseekFile :=
  load_bind fun _ => (emit _ _).bind fun _ => (sysLseek _ _ _).bind fun _ => answer _ _

end Seamless

def noFile : Int → Prop := fun _ => False

theorem of_noFile {fd : Int} {p : Prop} (h : noFile fd) : p := False.elim h

def oneFile (fd0 : Int) : Int → Prop := fun fd => fd = fd0

theorem oneFile_self (fd0 : Int) : oneFile fd0 fd0 := rfl

/-- The packet in `recv_packet` does not ask to read from a socket. -/
def World.ReadsFile (w : World) : Prop := ∀ k, w.desc (ntohl (w.recvPacket.word 6)).toInt ≠ some (.sock k)

namespace Seamless

theorem weaken {w w' : World} {files : Int → Prop} (h : World.Recut files w w') : World.Recut noFile w w' := by
  obtain ⟨r, rfl, h⟩ := h
  exact ⟨r, rfl, h.weaken fun _ => of_noFile⟩

theorem pkoReadFile {w w' : World} (h : World.Recut noFile w w') (hr : w.ReadsFile) :
    Alike (World.Recut noFile) (pkoReadFile.run w) (pkoReadFile.run w') := by
  obtain ⟨r, rfl, h⟩ := h
  have hfile : w.Fits (oneFile (ntohl (w.recvPacket.word 6)).toInt) r := h.weaken fun fd hfd => (show fd = _ from hfd) ▸ hr
  refine Alike.mono (load_at ⟨r, rfl, hfile⟩ ?_) weaken
  refine (emit _ _).bind fun _ => (putSend _ _).bind fun _ => (putSend _ _).bind fun _ => (putSend _ _).bind fun _ =>
    (sysMalloc _).bind fun _ => .ite ((sysRead (oneFile_self _) _).bind fun _ => (putSend _ _).bind fun _ => ?_) (.pure _)
  exact (sendReply _).bind fun _ => get_bind (fun _ _ => rfl) fun _ => (pkoSendBytes _ _ _).bind fun _ => .pure _

theorem sysConnect (fd : Int) : Seamless noFile (sysConnect fd) := by
  rintro w _ ⟨r, rfl, h⟩
  have hd := h.desc fd
  have hr : (w.refit r).desc fd = r.desc fd := rfl
  have hc : (w.refit r).os.connect (w.refit r).now fd = w.os.connect w.now fd := rfl
  have hset := h.tick.setDesc fd (.some (.sock (h.peer w.now fd))) of_noFile
  simp only [Pksh.sysConnect, hr, hc]
  generalize w.desc fd = d at hd
  generalize r.desc fd = d' at hd
  generalize w.os.connect w.now fd = e
  cases hd with
  | none => exact ⟨rfl, rfl, r, rfl, h.tick⟩
  | @some d d' hd =>
    cases hd with
    | same =>
      cases d with
      | fresh =>
        cases e with
        | none => exact ⟨rfl, rfl, _, rfl, hset⟩
        | some e => exact ⟨rfl, rfl, r, rfl, h.tick⟩
      | _ => exact ⟨rfl, rfl, r, rfl, h.tick⟩
    | sock hk => exact ⟨rfl, rfl, r, rfl, h.tick⟩

theorem sysSoError (fd : Int) : Seamless noFile (sysSoError fd) := by
  rintro w _ ⟨r, rfl, h⟩
  have hd := h.desc fd
  have hr : (w.refit r).desc fd = r.desc fd := rfl
  have hc : (w.refit r).os.soError (w.refit r).now fd = w.os.soError w.now fd := rfl
  have hset := h.tick.setDesc fd (.some (.sock (h.peer w.now fd))) of_noFile
  simp only [Pksh.sysSoError, hr, hc]
  generalize w.desc fd = d at hd
  generalize r.desc fd = d' at hd
  generalize w.os.soError w.now fd = e
  cases hd with
  | none => rcases e with _ | _ | _ <;> exact ⟨rfl, rfl, r, rfl, h.tick⟩
  | @some d d' hd =>
    cases hd with
    | same =>
      cases d with
      | fresh =>
        rcases e with _ | _ | _
        · exact ⟨rfl, rfl, r, rfl, h.tick⟩
        · exact ⟨rfl, rfl, _, rfl, hset⟩
        · exact ⟨rfl, rfl, r, rfl, h.tick⟩
      | _ => rcases e with _ | _ | _ <;> exact ⟨rfl, rfl, r, rfl, h.tick⟩
    | sock hk => rcases e with _ | _ | _ <;> exact ⟨rfl, rfl, r, rfl, h.tick⟩

theorem sysAccept : Seamless noFile sysAccept := by
  rintro w _ ⟨r, rfl, h⟩
  have ha := h.accept w.now
  have hr : (w.refit r).os.accept (w.refit r).now = r.accept w.now := rfl
  simp only [Pksh.sysAccept, hr, h.unused]
  generalize w.os.accept w.now = c at ha
  generalize r.accept w.now = c' at ha
  cases ha with
  | none => exact ⟨rfl, rfl, r, rfl, h.tick⟩
  | @some c c' hc =>
    obtain ⟨fd, k⟩ := c
    obtain ⟨fd', k'⟩ := c'
    obtain ⟨rfl, hk⟩ := hc
    simp only [Option.filter_some]
    cases w.unused fd' with
    | false => exact ⟨rfl, rfl, r, rfl, h.tick⟩
    | true => exact ⟨rfl, rfl, _, rfl, h.tick.setDesc fd' (.some (.sock hk)) of_noFile⟩

theorem pkoCmdCon : Seamless noFile pkoCmdCon := by
  refine (sysSocket _).bind fun fd => (setVars _).bind fun _ => ?_
  cases fd with
  | none => exact .pure _
  | some fd => exact (sysConnect fd).bind fun _ => .pure _

theorem cmdListenerOn (fd : Int) : Seamless noFile (cmdListenerOn fd) := by
  refine (sysConnect fd).bind fun e => ?_
  cases e with
  | none => exact .pure _
  | some e =>
    refine .ite (.pure _) ((sysSelectConnect fd).bind fun late => .ite ((sysClose fd).bind fun _ => .pure _)
      ((sysSoError fd).bind fun error => ?_))
    rcases error with _ | _ | e
    · exact .pure _
    · exact .pure _
    · exact (sysClose fd).bind fun _ => .pure _

theorem cmdListener : Seamless noFile cmdListener := by
  refine (sysSocket _).bind fun fd => ?_
  cases fd with
  | none => exact .pure _
  | some fd => exact cmdListenerOn fd

theorem awaitLink (attempts : Nat) : Seamless noFile (awaitLink attempts) := by
  induction attempts with
  | zero => exact (emit _ _).bind fun _ => .hang
  | succ attempts ih => exact cmdListener.bind fun fd => (setVars _).bind fun _ => .ite (.pure _) ih

theorem closeNetfs {files : Int → Prop} : Seamless files closeNetfs :=
  get_bind (fun _ _ => rfl) fun _ => (sysClose _).bind fun _ => setVars _

theorem sendReq (sock : Int) (size : Nat) (fields : List (Nat × List Byte)) : Seamless noFile (sendReq sock size fields) :=
  get_bind (fun _ _ => rfl) fun _ => sysSend _ _

theorem command {req : Int → Io Int} (h : ∀ fd, Seamless noFile (req fd)) : Seamless noFile (command req) :=
  pkoCmdCon.bind fun _ => get_bind (fun _ _ => rfl) fun _ => h _

theorem cliReset : Seamless noFile cliReset :=
  (setVars _).bind fun _ => (command fun _ => sendReq _ _ _).bind fun _ => closeNetfs.bind fun _ => .pure 0

theorem cliReconnect : Seamless noFile cliReconnect :=
  get_bind (fun _ _ => rfl) fun _ => (sysClose _).bind fun _ => cmdListener.bind fun _ => (setVars _).bind fun _ =>
    closeNetfs.bind fun _ => .pure 0

theorem cliGsexec (arg : List Byte) : Seamless noFile (cliGsexec arg) :=
  ((sysStat _).bind fun _ => .pure _).bind fun _ => .ite (.pure _) (.ite (.pure _)
    (get_bind (fun _ _ => rfl) fun _ => (command fun _ => sendReq _ _ _).bind fun _ => .pure 0))

theorem cliExeceiop (arg : List Byte) : Seamless noFile (cliExeceiop arg) :=
  (setVars _).bind fun _ => get_bind (fun _ _ => rfl) fun _ => (command fun _ => sendReq _ _ _).bind fun _ => .pure 0

theorem execee (arg : List Byte) : Seamless noFile (execee arg) :=
  (setVars _).bind fun _ => get_bind (fun _ _ => rfl) fun _ => (command fun _ => sendReq _ _ _).bind fun _ => .pure 0

theorem resetAndReconnect : Seamless noFile resetAndReconnect :=
  cliReset.bind fun _ => get_bind (fun _ _ => rfl) fun _ => (sysClose _).bind fun _ =>
    get_bind (fun _ _ => rfl) fun _ => awaitLink _

theorem cliExecee (arg : List Byte) : Seamless noFile (cliExecee arg) :=
  get_bind (fun _ _ => rfl) fun _ => .ite (resetAndReconnect.bind fun _ => execee arg) (execee arg)

theorem stopvuCase : Seamless noFile stopvuCase :=
  load_bind fun _ => (command fun _ => sendReq _ _ _).bind fun _ => .pure _

theorem relay (c : Cmd) : Seamless noFile (relay c) := by
  cases c with
  | dumpmem => exact load_bind fun _ => (command fun _ => sendReq _ _ _).bind fun _ => .pure _
  | dumpregs => exact load_bind fun _ => (command fun _ => sendReq _ _ _).bind fun _ => .pure _
  | gsexec => exact load_bind fun _ => (cliGsexec _).bind fun _ => stopvuCase
  | stopvu => exact stopvuCase
  | startvu => exact load_bind fun _ => (command fun _ => sendReq _ _ _).bind fun _ => .pure _
  | execee => exact load_bind fun _ => (cliExecee _).bind fun _ => .pure _
  | execiop => exact load_bind fun _ => (cliExeceiop _).bind fun _ => .pure _
  | reset => exact cliReset.bind fun _ => .pure _
  | _ => exact .pure _

theorem switch {w w' : World} (h : World.Recut noFile w w') {cmd : Option Cmd} (hr : cmd = some .read → w.ReadsFile) :
    Alike (World.Recut noFile) ((switch cmd).run w) ((switch cmd).run w') := by
  rcases cmd with _ | c
  · exact Blind.pure _ _ _ h
  · cases hc : c.isFileIo with
    | false =>
      simp only [Pksh.switch, hc, Bool.false_eq_true, if_false]
      exact relay c _ _ h
    | true =>
      simp only [Pksh.switch, if_pos hc]
      cases c with
      | «open» => exact (pkoOpenFile.bind fun _ => .pure _) _ _ h
      | close => exact (pkoCloseFile.bind fun _ => .pure _) _ _ h
      | read => exact Blind.bind_at (pkoReadFile h (hr rfl)) fun _ _ => Blind.pure _ _ _ (pkoReadFile h (hr rfl)).state
      | write => exact (pkoWriteFile.bind fun _ => .pure _) _ _ h
      | lseek => exact (pkoLseekFile.bind fun _ => .pure _) _ _ h
      | dopen => exact (pkoOpenDir.bind fun _ => .pure _) _ _ h
      | dread => exact (pkoReadDir.bind fun _ => .pure _) _ _ h
      | dclose => exact (pkoCloseDir.bind fun _ => .pure _) _ _ h
      | _ => exact Blind.pure _ _ _ h

theorem linkLost (fd : Int) : Seamless noFile (linkLost fd) :=
  (sysClose _).bind fun _ => get_bind (fun _ _ => rfl) fun _ => (awaitLink _).bind fun _ => closeNetfs

theorem srvEof (fd : Int) : Seamless noFile (srvEof fd) :=
  get_bind (fun _ _ => rfl) fun _ => .ite ((linkLost fd).bind fun _ => .pure _) (.pure _)

end Seamless

end Pksh
