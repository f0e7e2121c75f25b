import Pksh.Seamless

/-! How the bytes of a connection are cut into segments, and which passing
errors come between them, does not matter. -/

namespace Pksh

open Wire Traced

namespace World

variable {files : Int → Prop} {w w' : World}

/-- The packet that comes next on a connection does not ask to read from a
socket. -/
def ReadsFileNext (w : World) (fd : Int) : Prop := w.request fd = some .read → (w.withPacket fd).ReadsFile

namespace Recut

theorem pending (h : World.Recut files w w') (s : Int) : w'.pending s = w.pending s := by
  obtain ⟨r, rfl, h⟩ := h
  exact (h.inflow s).live

theorem stop (h : World.Recut files w w') (s : Int) : (w'.inflow s).stop = (w.inflow s).stop := by
  obtain ⟨r, rfl, h⟩ := h
  exact (h.inflow s).stop

theorem request (h : World.Recut files w w') (s : Int) : w'.request s = w.request s := by
  rw [World.request, World.request, h.pending]

theorem hlen (h : World.Recut files w w') (s : Int) : w'.hlen s = w.hlen s := by
  rw [World.hlen, World.hlen, h.pending]

theorem intake (h : World.Recut files w w') (s : Int) : w'.intake s = w.intake s := by
  simp only [World.intake, h.pending, h.hlen]

theorem received (h : World.Recut files w w') (s : Int) (buf : Buf) (bytes : Int) :
    World.Recut files (w.received s buf bytes) (w'.received s buf bytes) :=
  (Seamless.pkoRecvBytes s buf bytes w w' h).state

theorem withPacket (h : World.Recut files w w') (s : Int) : World.Recut files (w.withPacket s) (w'.withPacket s) := by
  rw [World.withPacket, World.withPacket, h.hlen]
  exact (h.received s _ _).received s _ _

end Recut

end World

namespace Seamless

theorem packetRead {w w' : World} (h : World.Recut noFile w w') (fd : Int) {eof : Io Int} (heof : Seamless noFile eof)
    {keep : Cmd → Bool} (hr : w.ReadsFileNext fd) :
    Alike (World.Recut noFile) ((packetRead fd eof keep).run w) ((packetRead fd eof keep).run w') := by
  by_cases hl : pktHdrSize ≤ (w.pending fd).length
  · have hl' : pktHdrSize ≤ (w'.pending fd).length := h.pending fd ▸ hl
    by_cases hb : w.hlen fd ≤ (w.pending fd).length ∨ (w.inflow fd).stop ≠ .never
    · have hb' : w'.hlen fd ≤ (w'.pending fd).length ∨ (w'.inflow fd).stop ≠ .never := by
        rw [h.hlen, h.pending, h.stop]
        exact hb
      have hread : (w.request fd).filter keep = some .read → (w.withPacket fd).ReadsFile := fun hc =>
        hr (Option.filter_eq_some_iff.mp hc).1
      rw [packetRead_dispatch hl hb, packetRead_dispatch hl' hb', h.request, h.intake]
      have hs := switch (h.withPacket fd) hread
      exact (hs.andThen fun _ _ => Blind.pure 0 _ _ hs.state).after _
    · have hb' : ¬(w'.hlen fd ≤ (w'.pending fd).length ∨ (w'.inflow fd).stop ≠ .never) := by
        rw [h.hlen, h.pending, h.stop]
        exact hb
      obtain ⟨hn, hst⟩ := not_or.mp hb
      obtain ⟨hn', hst'⟩ := not_or.mp hb'
      rw [packetRead_waits hl (Nat.lt_of_not_le hn) (not_not.mp hst),
        packetRead_waits hl' (Nat.lt_of_not_le hn') (not_not.mp hst'), h.intake]
      exact ⟨rfl, rfl, h.withPacket fd⟩
  · have hs := Nat.lt_of_not_le hl
    have hs' : (w'.pending fd).length < pktHdrSize := h.pending fd ▸ hs
    have hrec := h.received fd (.recvPacket 0) pktHdrSize
    rw [packetRead_short hs, packetRead_short hs', h.stop, h.pending]
    cases (w.inflow fd).stop with
    | eof => exact (heof _ _ hrec).after _
    | dropped e => exact ⟨rfl, rfl, hrec⟩
    | full => exact ⟨rfl, rfl, hrec⟩
    | never => exact ⟨rfl, rfl, hrec⟩

variable {α : Type} {files : Int → Prop}

theorem ps2netfsAcceptPkt (sock : Int) (len : Nat) (pktType : Word) : Seamless files (ps2netfsAcceptPkt sock len pktType) :=
  (emit _ _).bind fun _ => (pkoRecvBytes _ _ _).bind fun _ => .ite (.pure _)
    (load_bind fun _ => .ite (closeNetfs.bind fun _ => .pure _) (.ite (.pure _) ((pkoRecvBytes _ _ _).bind fun _ => .pure _)))

theorem netfsCall {fields : List (Nat × List Byte)} {sends : Io Bool} (hs : Seamless files sends) (len : Nat)
    (pktType : Word) : Seamless files (netfsCall fields sends len pktType) :=
  (setVars _).bind fun _ => hs.bind fun _ => .ite (get_bind (fun _ _ => rfl) fun _ => (ps2netfsAcceptPkt _ _ _).bind fun _ =>
    .ite (.pure _) (load_bind fun _ => .pure _)) (.pure _)

theorem sendRequest (size : Nat) : Seamless files (sendRequest size) :=
  get_bind (fun _ _ => rfl) fun _ => (sysSend _ _).bind fun _ => .pure true

theorem sendPointer : Seamless files sendPointer :=
  get_bind (fun _ _ => rfl) fun _ => (sysSend _ _).bind fun _ => .pure true

theorem sendWrite (ptr : Mem) (size : Word) : Seamless files (sendWrite ptr size) :=
  get_bind (fun _ _ => rfl) fun _ => (sysSend _ _).bind fun _ => .ite (.pure _) ((sysSend _ _).bind fun _ => .pure _)

theorem request {fields : List (Nat × List Byte)} {sends : Io Bool} (hs : Seamless files sends) (len : Nat)
    (pktType : Word) (f : Option Mem → α) :
    Seamless files (Pksh.netfsCall fields sends len pktType >>= fun m => pure (f m)) :=
  (netfsCall hs len pktType).bind fun _ => .pure _

theorem ps2netfsReqRead (fd size : Word) : Seamless files (ps2netfsReqRead fd size) := by
  refine (netfsCall (sendRequest _) _ _).bind fun response => ?_
  cases response with
  | none => exact .pure _
  | some m => exact .ite (get_bind (fun _ _ => rfl) fun _ => (pkoRecvBytes _ _ _).bind fun _ => .pure _) (.pure _)

theorem listEntries (fd : Word) (rounds : Nat) : Seamless files (listEntries fd rounds) := by
  induction rounds with
  | zero => exact .hang
  | succ rounds ih => exact (request (sendRequest _) _ _ _).bind fun _ => .ite ih (.pure ())

theorem fetchLoop {read : Io (List Byte)} {write : List Byte → Io Unit} (hr : Seamless files read)
    (hw : ∀ bs, Seamless files (write bs)) (rounds : Nat) (buffer : Mem) (size : Int) :
    Seamless files (fetchLoop read write rounds buffer size) := by
  induction rounds generalizing buffer size with
  | zero => exact .pure ()
  | succ rounds ih => exact .ite (hr.bind fun _ => (hw _).bind fun _ => ih _ _) (.pure ())

theorem sendLoop {read : Io (Option (List Byte))} {write : Mem → Int → Io Int} (hr : Seamless files read)
    (hw : ∀ m n, Seamless files (write m n)) (rounds : Nat) (buffer : Mem) (size total : Int) :
    Seamless files (sendLoop read write Prog.hang rounds buffer size total) := by
  induction rounds generalizing buffer total with
  | zero => exact .hang
  | succ rounds ih => exact .ite (hr.bind fun _ => (hw _ _).bind fun _ => ih _ _) (.pure ())

theorem openNetfs : Seamless noFile openNetfs := cmdListener.bind fun _ => (setVars _).bind fun _ => emit _ _

theorem reopenNetfs : Seamless noFile reopenNetfs := get_bind (fun _ _ => rfl) fun _ => .ite openNetfs (.pure ())

theorem withNetfs {m : Io Int} (h : Seamless noFile m) : Seamless noFile (withNetfs m) :=
  reopenNetfs.bind fun _ => get_bind (fun _ _ => rfl) fun _ => .ite (.pure 0) h

theorem onDevice (arg : List Byte) {m : Io Int} (h : Seamless noFile m) : Seamless noFile (onDevice arg m) :=
  .ite (withNetfs h) (.pure 0)

theorem listDir (arg : List Byte) : Seamless files (listDir arg) :=
  (request (sendRequest _) _ _ _).bind fun _ => .ite (closeNetfs.bind fun _ => .pure (-1))
    (get_bind (fun _ _ => rfl) fun _ => (listEntries _ _).bind fun _ => .ite
      ((request (sendRequest _) _ _ _).bind fun _ => .pure 0) (.pure 0))

theorem freedStr (i : Nat) : Seamless files (freedStr i) := get_bind (fun _ _ => rfl) fun _ => .pure _

theorem withOpened {path : List Byte} {flags : Word} {mode : Nat} {f : Int → Io α} (hneg : Seamless noFile (f (-1)))
    (hf : ∀ fd0, Seamless (oneFile fd0) (f fd0)) : Seamless noFile (Pksh.sysOpen path flags mode >>= f) := by
  intro w w' h
  have ho := sysOpen path flags mode w w' h
  refine ho.andThen fun fd hv => ?_
  have hplain : fd = -1 ∨ ((Pksh.sysOpen path flags mode).run w).state.desc fd = some .plain := by
    revert hv
    simp only [Pksh.sysOpen]
    split
    · exact fun hv => .inl (Option.some.inj hv).symm
    · intro hv
      obtain rfl := Option.some.inj hv
      exact .inr (by simp)
  rcases hplain with rfl | hplain
  · exact hneg _ _ ho.state
  · obtain ⟨r, hr, hfit⟩ := ho.state
    refine (hf fd _ _ ⟨r, hr, hfit.weaken ?_⟩).mono weaken
    rintro x rfl k hk
    rw [hplain] at hk
    cases hk

theorem copyFrom : Seamless noFile copyFrom := by
  refine (freedStr 1).bind fun path => withOpened (.pure _) fun fd0 => .ite (.pure (-1)) ?_
  refine (freedStr 0).bind fun path => (request (sendRequest _) _ _ _).bind fun fd1 => .ite (.pure (-1)) ?_
  refine (request (sendRequest _) _ _ _).bind fun size => (request (sendRequest _) _ _ _).bind fun _ =>
    get_bind (fun _ _ => rfl) fun w => ?_
  refine (fetchLoop ((ps2netfsReqRead _ _).bind fun _ => .pure _) (fun bs => (sysWrite _ _).bind fun _ => .pure ()) _ _ _).bind
    fun _ => ?_
  exact (request (sendRequest _) _ _ _).bind fun _ => (sysClose _).bind fun _ => .pure 0

theorem copyTo : Seamless noFile copyTo := by
  refine (freedStr 0).bind fun path => withOpened (.pure _) fun fd0 => .ite (.pure (-1)) ?_
  refine (freedStr 1).bind fun path => (request (sendRequest _) _ _ _).bind fun fd1 => .ite (.pure (-1)) ?_
  refine (sysLseek _ _ _).bind fun size => (sysLseek _ _ _).bind fun _ => get_bind (fun _ _ => rfl) fun w => ?_
  refine (sendLoop (sysRead (oneFile_self fd0) _) (fun m n => request (sendWrite _ _) _ _ _) _ _ _ _).bind fun _ => ?_
  exact (request (sendRequest _) _ _ _).bind fun _ => (sysClose _).bind fun _ => .pure 0

theorem cliCopy (arg : List Byte) : Seamless noFile (cliCopy arg) :=
  .ite (.pure 0) (.ite (withNetfs copyFrom) (.ite (withNetfs copyTo) (.pure 0)))

theorem cliDumpregs (arg : List Byte) : Seamless noFile (cliDumpregs arg) := by
  rw [Pksh.cliDumpregs]
  cases fromSpace (trimInPlace arg) with
  | none => exact .pure _
  | some ptr => exact (command fun _ => sendReq _ _ _).bind fun _ => .pure _

theorem cliDumpmem (arg : List Byte) : Seamless noFile (cliDumpmem arg) := by
  rw [Pksh.cliDumpmem]
  cases fromSpace (trimInPlace arg) with
  | none => exact .pure _
  | some ptr =>
    dsimp only
    cases fromSpace (trim ptr) with
    | none => exact .pure _
    | some ptr' => exact (command fun _ => sendReq _ _ _).bind fun _ => .pure _

theorem cliException (arg : List Byte) : Seamless noFile (cliException arg) :=
  (command fun _ => .ite (sendReq _ _ _) (.ite (sendReq _ _ _) (.pure _))).bind fun _ => .pure _

theorem pkoStartVu (sock : Int) (vpu : Word) : Seamless noFile (pkoStartVu sock vpu) := sendReq _ _ _

theorem pkoStopVu (sock : Int) (vpu : Word) : Seamless noFile (pkoStopVu sock vpu) := sendReq _ _ _

theorem cliVu {req : Int → Word → Io Int} (h : ∀ fd vpu, Seamless noFile (req fd vpu)) (arg : List Byte) :
    Seamless noFile (cliVu req arg) :=
  (command fun _ => .ite (.pure _) (h _ _)).bind fun _ => .pure _

theorem cliWritemem (arg : List Byte) : Seamless noFile (cliWritemem arg) := by
  rw [Pksh.cliWritemem]
  cases fromSpace (trimInPlace arg) with
  | none => exact .pure _
  | some ptr =>
    refine Blind.bind ((sysOpen _ _ _).bind fun _ => (sysLseek _ _ _).bind fun _ => (sysClose _).bind fun _ => .pure _)
      fun size => ?_
    exact (command fun _ => sendReq _ _ _).bind fun _ => .pure _

theorem cliLog (arg : List Byte) (s : Session) : Seamless noFile (cliLog arg s) :=
  .ite (.ite ((sysClose _).bind fun _ => .pure _) (.pure _)) ((sysOpen _ _ _).bind fun _ => .pure _)

theorem func_run (arg : List Byte) (f : CliFunc) : Seamless noFile (f.run arg) := by
  cases f with
  | dumpmem => exact cliDumpmem arg
  | dumpregs => exact cliDumpregs arg
  | execee => exact cliExecee arg
  | exception => exact cliException arg
  | execeiop => exact cliExeceiop arg
  | gsexec => exact cliGsexec arg
  | list => exact onDevice arg (listDir arg)
  | poweroff => exact (command fun _ => sendReq _ _ _).bind fun _ => .pure _
  | reset => exact cliReset
  | vustart => exact cliVu pkoStartVu arg
  | vustop => exact cliVu pkoStopVu arg
  | writemem => exact cliWritemem arg
  | copy => exact cliCopy arg
  | devlist => exact withNetfs ((request (sendRequest _) _ _ _).bind fun _ => .pure 0)
  | ps2format => exact withNetfs ((request (sendRequest _) _ _ _).bind fun _ => .pure 0)
  | mkdir => exact onDevice arg ((request (sendRequest _) _ _ _).bind fun _ => .pure 0)
  | ps2mount => exact withNetfs ((request (sendRequest _) _ _ _).bind fun _ => .pure 0)
  | rmdir => exact onDevice arg ((request (sendRequest _) _ _ _).bind fun _ => .pure 0)
  | rename => exact onDevice arg ((request (sendRequest _) _ _ _).bind fun _ => .pure 0)
  | ps2sync => exact withNetfs ((request (sendRequest _) _ _ _).bind fun _ => .pure 0)
  | ps2umount => exact withNetfs (request sendPointer _ _ _)
  | reconnect => exact cliReconnect
  | _ => exact .pure _

theorem func_call (arg : List Byte) (s : Session) (f : CliFunc) : Seamless noFile (f.call arg s) := by
  cases f with
  | quit => exact .pure _
  | log => exact cliLog arg s
  | _ => exact (func_run arg _).bind fun _ => .pure _

theorem rlCallbackReadChar (typed : Typed) (s : Session) : Seamless noFile (rlCallbackReadChar typed s) := by
  rw [Pksh.rlCallbackReadChar]
  cases typed.func with
  | none => exact .pure _
  | some f => exact func_call f.2 s f.1

theorem pkoLogRead (text : List Byte) (s : Session) : Seamless noFile (pkoLogRead text s) :=
  .ite ((sysWrite _ _).bind fun _ => .pure _) (.pure _)

theorem acceptClient (s : Session) : Seamless noFile (acceptClient s) := by
  refine sysAccept.bind fun connfd => ?_
  cases s.freeSlot with
  | none => exact .hang
  | some j => exact .pure _

theorem startUp (dumpscreen : Bool) (s : Session) : Seamless noFile (startUp dumpscreen s) := by
  refine cmdListener.bind fun link => (setVars _).bind fun _ => .ite (.pure _) ?_
  have hcontact : Seamless noFile (contactPs2 dumpscreen) := by
    refine openNetfs.bind fun _ => (command ?_).bind fun _ => .pure _
    cases dumpscreen with
    | true => exact fun _ => sendReq _ _ _
    | false => exact fun _ => sendReq _ _ _
  exact hcontact.bind fun _ => get_bind (fun _ _ => rfl) fun _ => .pure _

theorem pkoSrvRead {w w' : World} (h : World.Recut noFile w w') (fd : Int) (hr : w.ReadsFileNext fd) :
    Alike (World.Recut noFile) ((pkoSrvRead fd).run w) ((pkoSrvRead fd).run w') := packetRead h fd (srvEof fd) hr

theorem serveClient {w w' : World} (h : World.Recut noFile w w') (i : Nat) (s : Session) (hr : w.ReadsFileNext (s.client i)) :
    Alike (World.Recut noFile) ((serveClient i s).run w) ((serveClient i s).run w') := by
  have hs := pkoSrvRead h (s.client i) hr
  refine hs.andThen fun r _ => ?_
  exact Blind.ite ((sysClose _).bind fun _ => .pure _) (.pure _) _ _ hs.state

theorem serveSlot {w w' : World} (h : World.Recut noFile w w') (input : Input) (i : Nat) (s : Session)
    (hr : w.ReadsFileNext (s.client i)) :
    Alike (World.Recut noFile) ((serveSlot input i s).run w) ((serveSlot input i s).run w') := by
  have hfds : w'.logFd = w.logFd ∧ w'.pkoSrvFd = w.pkoSrvFd ∧ w'.pkshSrvFd = w.pkshSrvFd := by
    obtain ⟨r, rfl, -⟩ := h
    exact ⟨rfl, rfl, rfl⟩
  obtain ⟨hlog, hlink, hserver⟩ := hfds
  simp only [Pksh.serveSlot, Prog.run_bind, Prog.run_get, Result.andThen_mk_some, hlog, hlink, hserver]
  refine Alike.after ?_ []
  by_cases h1 : s.client i = w.logFd
  · simp only [if_pos h1]
    exact pkoLogRead _ _ _ _ h
  · simp only [if_neg h1]
    by_cases h2 : s.client i = 0
    · simp only [if_pos h2]
      exact rlCallbackReadChar _ _ _ _ h
    · simp only [if_neg h2]
      by_cases h3 : s.client i = w.pkoSrvFd
      · simp only [if_pos h3]
        have hs := pkoSrvRead h w.pkoSrvFd (h3 ▸ hr)
        exact hs.andThen fun _ _ => Blind.pure _ _ _ hs.state
      · simp only [if_neg h3]
        by_cases h4 : s.client i = w.pkshSrvFd
        · simp only [if_pos h4]
          exact acceptClient _ _ _ h
        · simp only [if_neg h4]
          exact serveClient h i s hr

end Seamless

/-- The packet that a slot is about to be served does not ask to read from a
socket. -/
def Event.ReadsFile (e : Event) (p : Shell) : Prop :=
  match e with
  | .slot _ i => p.session.Visits i → p.world.ReadsFileNext (p.session.client i)
  | _ => True

def Shell.Recut (p p' : Shell) : Prop := p'.session = p.session ∧ World.Recut noFile p.world p'.world

theorem Event.task_alike {e : Event} {s : Session} {w w' : World} (h : World.Recut noFile w w') (hr : e.ReadsFile ⟨w, s⟩) :
    Alike (World.Recut noFile) ((e.task s).run w) ((e.task s).run w') := by
  cases e with
  | start dumpscreen => exact Seamless.startUp _ _ _ _ h
  | select answer => exact Blind.pure _ _ _ h
  | slot input i =>
    simp only [Event.task]
    by_cases hv : s.Visits i
    · simp only [if_pos hv]
      exact Seamless.serveSlot h input i s (hr hv)
    · simp only [if_neg hv]
      exact Blind.pure _ _ _ h

theorem Event.exec_alike {e : Event} {p p' : Shell} (h : p.Recut p') (hr : e.ReadsFile p) :
    Alike Shell.Recut (e.exec.run p) (e.exec.run p') := by
  obtain ⟨w, s⟩ := p
  obtain ⟨w', s'⟩ := p'
  obtain ⟨rfl, hw⟩ : s' = s ∧ World.Recut noFile w w' := h
  obtain ⟨hv, ha, hs⟩ := Event.task_alike (s := s') hw hr
  exact ⟨by simp only [Event.exec, withSession, hv], ha, by simp only [Event.exec, withSession, hv], hs⟩

/-- Two runs of `main` whose connections bring the same bytes, cut and delayed
differently, do the same, as long as no packet asks to read from a socket. -/
theorem main_seamless {p p' : Shell} (h : p.Recut p') (dumpscreen : Bool) (turns : List (Option (Finset Int) × Input))
    (hr : ∀ e ∈ journalOf Event.exec (mainEvents dumpscreen turns) p, e.1.ReadsFile e.2) :
    Alike Shell.Recut ((main dumpscreen turns).run p) ((main dumpscreen turns).run p') := by
  rw [main]
  generalize mainEvents dumpscreen turns = es at hr
  induction es generalizing p p' with
  | nil => exact ⟨rfl, rfl, h⟩
  | cons e es ih =>
    have he := Event.exec_alike h (hr (e, p) List.mem_cons_self)
    refine he.andThen fun u hv => ih he.state fun x hx => hr x ?_
    rw [journalOf, hv]
    exact List.mem_cons_of_mem _ hx

def Event.slotOf : Event → Option Nat
  | .slot _ i => some i
  | _ => none

theorem Event.readsFile_of {e : Event} {p : Shell}
    (h : ∀ i ∈ e.slotOf, p.session.Visits i → p.world.request (p.session.client i) ≠ some .read) : e.ReadsFile p := by
  cases e with
  | slot input i => exact fun hv hr => absurd hr (h i rfl hv)
  | _ => trivial

def closeTwelve : List Byte := be32 closeCmd ++ be16 10 ++ be32 12

/-- A signal comes before the length is complete. -/
def closeInPieces : Sock where
  inflow := ⟨[.data 0xba [0xbe], .data 1 [0x21, 0], .hiccup .EINTR passes_EINTR, .data 10 [0, 0, 0, 12]], .quiet⟩
  outflow := ⟨[], .accepts⟩

theorem closeInPieces_recut : (Sock.delivering closeTwelve).Recut closeInPieces := ⟨⟨by decide, rfl⟩, rfl⟩

def Host.bringing (k : Sock) : Host := { Host.connecting with peer := fun _ _ => k }

theorem relRecut_self (d : Option Desc) : Option.Rel Desc.Recut d d := by
  cases d with
  | none => exact .none
  | some d => exact .some (.same d)

theorem called_recut {k k' : Sock} (h : k.Recut k') : (Shell.called (.bringing k)).Recut (.called (.bringing k')) :=
  ⟨rfl, ⟨(Shell.called (.bringing k)).world.desc, fun _ _ => k', fun _ => none⟩, rfl, fun _ => relRecut_self _,
    fun _ _ => h, fun _ => .none, fun _ => of_noFile⟩

def linkReady : List (Option (Finset Int) × Input) := [(some {10}, ⟨.nothing, []⟩)]

theorem closeTwelve_seamless :
    Alike Shell.Recut ((main false linkReady).run (.called (.bringing (.delivering closeTwelve))))
      ((main false linkReady).run (.called (.bringing closeInPieces))) ∧
    Act.send 10 (be32 closeRly ++ be16 10 ++ be32 (-1)) (some 10) ∈
      ((main false linkReady).run (.called (.bringing closeInPieces))).acts := by
  have hj : ∀ x ∈ journalOf Event.exec (mainEvents false linkReady) (.called (.bringing (.delivering closeTwelve))),
      ∀ i ∈ x.1.slotOf, x.2.session.Visits i → x.2.world.request (x.2.session.client i) ≠ some .read := by
    decide +kernel
  exact ⟨main_seamless (called_recut closeInPieces_recut) false linkReady fun x hx => Event.readsFile_of (hj x hx),
    by decide +kernel⟩

end Pksh
