import Pksh.MainLoop
import Pksh.Relaying
import Pksh.Lib.Compose

/-! What the commands of pksh are made of, as far as descriptors are concerned. -/

namespace Pksh

open Wire Traced

variable {α β : Type}

/-- An act that makes, opens and closes no descriptor, and is no packet taken
up by a handler. -/
def Act.calm : Act → Bool
  | .handle _ | .openFile _ _ | .close _ | .socket _ _ | .connect _ _ | .accept _ | .netfs _ | .unlinked => false
  | _ => true

/-- Calm acts, and no change of the globals besides the packet buffers. -/
def Calm (w : World) (as : List Act) (w' : World) : Prop := w'.wiring = w.wiring ∧ ∀ a ∈ as, a.calm = true

instance : Chains Calm where
  nil _ := ⟨rfl, by simp⟩
  append h h' := ⟨h'.1.trans h.1, fun a ha => (List.mem_append.mp ha).elim (h.2 a) (h'.2 a)⟩

theorem wiring_eq {v v' : Vars} (h : v'.wiring = v.wiring) :
    v'.pkoSrvFd = v.pkoSrvFd ∧ v'.ps2NetfsFd = v.ps2NetfsFd ∧ v'.state = v.state :=
  ⟨congrArg (fun x => x.1) h, congrArg (fun x => x.2.2.1) h, congrArg (fun x => x.2.2.2.1) h⟩

namespace Calm

theorem setVars {f : Vars → Vars} (h : ∀ v, (f v).wiring = v.wiring) : Sat Calm (setVars f) :=
  fun w => ⟨h w.toVars, by simp [Pksh.setVars]⟩

theorem emit {a : Act} {h : a.quiet = true} (ha : a.calm = true) : Sat Calm (emit a h) :=
  fun _ => ⟨rfl, by simpa [Pksh.emit] using ha⟩

theorem asks {answer : World → α} {act : α → Act} {h : ∀ a, (act a).quiet = true} (ha : ∀ a, (act a).calm = true) :
    Sat Calm (asks answer act h) :=
  fun _ => ⟨rfl, by simpa [Pksh.asks] using ha _⟩

theorem sysStat (path : List Byte) : Sat Calm (sysStat path) := asks fun _ => rfl

theorem sysLseek (fd offset whence : Int) : Sat Calm (sysLseek fd offset whence) := asks fun _ => rfl

theorem sysSend (s : Int) (bs : List Byte) : Sat Calm (sysSend s bs) := by
  refine fun w => ⟨congrArg Vars.wiring (sysSend_vars w s bs), ?_⟩
  obtain ⟨ret, ⟨ha, _⟩ | ⟨ha, _⟩⟩ := sysSend_acts w s bs
  · simp [ha, Act.calm]
  · simp [ha, Act.calm]

theorem sysRead (fd : Int) (n : Nat) : Sat Calm (sysRead fd n) :=
  fun w => ⟨congrArg Vars.wiring (sysRead_vars w fd n), sysRead_acts w fd n (fun _ => rfl) (fun _ => rfl) rfl⟩

theorem sysWrite (fd : Int) (bs : List Byte) : Sat Calm (sysWrite fd bs) :=
  fun w => ⟨congrArg Vars.wiring (sysWrite_vars w fd bs), sysWrite_acts w fd bs (fun _ => rfl) rfl⟩

theorem pkoRecvBytes (s : Int) (buf : Buf) (bytes : Int) : Sat Calm (pkoRecvBytes s buf bytes) := by
  intro w
  obtain ⟨bs, hv⟩ := pkoRecvBytes_vars w s buf bytes
  refine ⟨by rw [hv]; cases buf <;> rfl, pkoRecvBytes_acts w s buf bytes (fun _ => rfl) (fun bs _ a ha => ?_) rfl⟩
  cases buf with
  | recvPacket off =>
    obtain rfl : a = .store off bs := by simpa [Buf.stored] using ha
    rfl
  | caller => cases ha

theorem loadPacket : Sat Calm loadPacket := Sat.get.bind fun _ => .pure _

theorem sendReq (sock : Int) (size : Nat) (fields : List (Nat × List Byte)) : Sat Calm (sendReq sock size fields) :=
  Sat.get.bind fun _ => sysSend _ _

end Calm

/-- What goes on while a connection to the file server is used; `own` is a file
opened along the way. -/
inductive Talk (own : Option Int) : (α : Type) → Io α → Prop
  | calm {α : Type} {m : Io α} (h : Sat Calm m) : Talk own α m
  | closeNetfs : Talk own Unit closeNetfs
  | closeOwn {fd : Int} (h : own = some fd) : Talk own Int (sysClose fd)

abbrev Talks (own : Option Int) (m : Io α) : Prop := Composed (Talk own) m

namespace Talks

variable {own : Option Int}

theorem calm {m : Io α} (h : Sat Calm m) : Talks own m := .step (.calm h)

theorem acceptBody (sock : Int) (len : Nat) (pktType : Word) : Talks own (acceptBody sock len pktType) :=
  (calm .loadPacket).bind fun _ => .ite ((Composed.step .closeNetfs).bind fun _ => .pure 0)
    (.ite (.pure 0) ((calm (.pkoRecvBytes _ _ _)).bind fun _ => .pure _))

theorem ps2netfsAcceptPkt (sock : Int) (len : Nat) (pktType : Word) :
    Talks own (ps2netfsAcceptPkt sock len pktType) :=
  (calm (.emit rfl)).bind fun _ => (calm (.pkoRecvBytes _ _ _)).bind fun _ => .ite (.pure (-1)) (acceptBody _ _ _)

theorem netfsCall (fields : List (Nat × List Byte)) {sends : Io Bool} (hs : Sat Calm sends) (len : Nat) (pktType : Word) :
    Talks own (netfsCall fields sends len pktType) := by
  refine (calm (.setVars (by intro v; rfl))).bind fun _ => (calm hs).bind fun sent => ?_
  refine .ite ?_ (.pure none)
  exact .get_bind fun w => (ps2netfsAcceptPkt _ _ _).bind fun _ => .ite (.pure none)
    ((calm .loadPacket).bind fun _ => .pure _)

theorem sendRequest (size : Nat) : Sat Calm (sendRequest size) :=
  Sat.get.bind fun _ => (Calm.sysSend _ _).bind fun _ => .pure true

theorem sendPointer : Sat Calm sendPointer := Sat.get.bind fun _ => (Calm.sysSend _ _).bind fun _ => .pure true

theorem sendWrite (ptr : Mem) (size : Word) : Sat Calm (sendWrite ptr size) :=
  Sat.get.bind fun _ => (Calm.sysSend _ _).bind fun _ => .ite (.pure false)
    ((Calm.sysSend _ _).bind fun _ => .pure _)

theorem request (fields : List (Nat × List Byte)) {sends : Io Bool} (hs : Sat Calm sends) (len : Nat) (pktType : Word)
    (f : Option Mem → β) : Talks own (Pksh.netfsCall fields sends len pktType >>= fun m => pure (f m)) :=
  (netfsCall fields hs len pktType).bind fun _ => .pure _

theorem ps2netfsReqRead (fd size : Word) : Talks own (ps2netfsReqRead fd size) := by
  refine (netfsCall _ (sendRequest _) _ _).bind fun response => ?_
  cases response with
  | none => exact .pure _
  | some m => exact .ite (.get_bind fun _ => (calm (.pkoRecvBytes _ _ _)).bind fun _ => .pure _) (.pure _)

theorem listEntries (fd : Word) (rounds : Nat) : Talks own (listEntries fd rounds) := by
  induction rounds with
  | zero => exact .hang
  | succ rounds ih => exact (request _ (sendRequest _) _ _ _).bind fun _ => .ite ih (.pure ())

theorem listDir (arg : List Byte) : Talks own (listDir arg) :=
  (request _ (sendRequest _) _ _ _).bind fun _ => .ite ((Composed.step .closeNetfs).bind fun _ => .pure (-1))
    (.get_bind fun _ => (listEntries _ _).bind fun _ => .ite
      ((request _ (sendRequest _) _ _ _).bind fun _ => .pure 0) (.pure 0))

theorem fetchLoop {read : Io (List Byte)} {write : List Byte → Io Unit} (hr : Talks own read)
    (hw : ∀ bs, Talks own (write bs)) (rounds : Nat) (buffer : Mem) (size : Int) :
    Talks own (fetchLoop read write rounds buffer size) := by
  induction rounds generalizing buffer size with
  | zero => exact .pure ()
  | succ rounds ih => exact .ite (hr.bind fun _ => (hw _).bind fun _ => ih _ _) (.pure ())

theorem sendLoop {read : Io (Option (List Byte))} {write : Mem → Int → Io Int} (hr : Talks own read)
    (hw : ∀ m n, Talks own (write m n)) (rounds : Nat) (buffer : Mem) (size total : Int) :
    Talks own (sendLoop read write Prog.hang rounds buffer size total) := by
  induction rounds generalizing buffer total with
  | zero => exact .hang
  | succ rounds ih => exact .ite (hr.bind fun _ => (hw _ _).bind fun _ => ih _ _) (.pure ())

end Talks

/-- The steps of the commands to the file server. -/
inductive Netfs : (α : Type) → Io α → Prop
  | reopen : Netfs Unit reopenNetfs
  | talk {α : Type} {m : Io α} (h : Talks none m) : Netfs α m
  | withFile {α : Type} {path : List Byte} {flags : Word} {mode : Nat} {f : Int → Io α}
      (h : ∀ fd, Talks (some fd) (f fd)) : Netfs α (sysOpen path flags mode >>= f)

namespace Netfs

theorem withNetfs {m : Io Int} (h : Composed Netfs m) : Composed Netfs (withNetfs m) :=
  (Composed.step .reopen).bind fun _ => .get_bind fun _ => .ite (.pure 0) h

theorem onDevice (arg : List Byte) {m : Io Int} (h : Composed Netfs m) : Composed Netfs (onDevice arg m) :=
  .ite (withNetfs h) (.pure 0)

theorem ask {fields : List (Nat × List Byte)} {size len : Nat} {pktType : Word} {f : Option Mem → α} {b : β} :
    Composed Netfs ((netfsCall fields (sendRequest size) len pktType >>= fun m => pure (f m)) >>= fun _ => pure b) :=
  .step (.talk ((Talks.request _ (Talks.sendRequest _) _ _ _).bind fun _ => .pure b))

theorem freedStr (i : Nat) : Composed Netfs (freedStr i) := .get_bind fun _ => .pure _

theorem copyFrom : Composed Netfs copyFrom := by
  refine (freedStr 1).bind fun path => .step (.withFile fun fd0 => .ite (.pure (-1)) ?_)
  refine Composed.bind (.get_bind fun _ => .pure _) fun path => (Talks.request _ (Talks.sendRequest _) _ _ _).bind
    fun fd1 => .ite (.pure (-1)) ?_
  refine (Talks.request _ (Talks.sendRequest _) _ _ _).bind fun size =>
    (Talks.request _ (Talks.sendRequest _) _ _ _).bind fun _ => .get_bind fun w => ?_
  refine (Talks.fetchLoop ((Talks.ps2netfsReqRead _ _).bind fun _ => .pure _)
    (fun bs => (Talks.calm (.sysWrite _ _)).bind fun _ => .pure ()) _ _ _).bind fun _ => ?_
  exact (Talks.request _ (Talks.sendRequest _) _ _ _).bind fun _ => (Composed.step (.closeOwn rfl)).bind fun _ => .pure 0

theorem copyTo : Composed Netfs copyTo := by
  refine (freedStr 0).bind fun path => .step (.withFile fun fd0 => .ite (.pure (-1)) ?_)
  refine Composed.bind (.get_bind fun _ => .pure _) fun path => (Talks.request _ (Talks.sendRequest _) _ _ _).bind
    fun fd1 => .ite (.pure (-1)) ?_
  refine (Talks.calm (.sysLseek _ _ _)).bind fun size => (Talks.calm (.sysLseek _ _ _)).bind fun _ =>
    .get_bind fun w => ?_
  refine (Talks.sendLoop (Talks.calm (.sysRead _ _)) (fun m n => Talks.request _ (Talks.sendWrite _ _) _ _ _) _ _ _ _).bind
    fun _ => ?_
  exact (Talks.request _ (Talks.sendRequest _) _ _ _).bind fun _ => (Composed.step (.closeOwn rfl)).bind fun _ => .pure 0

theorem cliCopy (arg : List Byte) : Composed Netfs (cliCopy arg) :=
  .ite (.pure 0) (.ite (withNetfs copyFrom) (.ite (withNetfs copyTo) (.pure 0)))

end Netfs

/-- A request that neither executes anything nor does more than send. -/
def Harmless (m : Io α) : Prop :=
  Sat Calm m ∧ ∀ w, ∀ code ∈ sentCodes (m.run w).acts, code ≠ execeeCmd ∧ code ≠ execiopCmd

theorem Harmless.sendReq {sock : Int} {cmd : Word} {size len : Nat} (fields : List (Nat × List Byte)) (hs : 4 ≤ size)
    (hf : ∀ f ∈ fields, 4 ≤ f.1) (hc : cmd ≠ execeeCmd ∧ cmd ≠ execiopCmd) :
    Harmless (sendReq sock size (reqHdr cmd len ++ fields)) := by
  refine ⟨Calm.sendReq _ _ _, fun w code hm => ?_⟩
  have hem : Emits [cmd] ((Pksh.sendReq sock size (reqHdr cmd len ++ fields)).run w) := emits_sendReq hs hf w
  have hmem := hem.sent.subset hm
  rw [List.mem_singleton] at hmem
  exact hmem ▸ hc

theorem harmless_pkoStartVu (sock : Int) (vpu : Word) : Harmless (pkoStartVu sock vpu) :=
  .sendReq _ (by decide) (by simp) (by decide)

theorem harmless_pkoStopVu (sock : Int) (vpu : Word) : Harmless (pkoStopVu sock vpu) :=
  .sendReq _ (by decide) (by simp) (by decide)

theorem Harmless.pure (a : α) : Harmless (pure a : Io α) := ⟨.pure a, fun _ _ hm => nomatch hm⟩

theorem Harmless.ite {c : Prop} [Decidable c] {p q : Io α} (hp : Harmless p) (hq : Harmless q) :
    Harmless (if c then p else q) := by
  split
  · exact hp
  · exact hq

inductive Contact : (α : Type) → Io α → Prop
  | stat (path : List Byte) : Contact (Bool × Stat) (sysStat path)
  | seekSize (file : List Byte) : Contact Int (seekSize file)
  | command {req : Int → Io Int} (h : ∀ fd, Harmless (req fd)) : Contact Int (command req)
  | reset : Contact Int cliReset
  | execee (arg : List Byte) : Contact Int (cliExecee arg)
  | execeiop (arg : List Byte) : Contact Int (cliExeceiop arg)

namespace Contact

theorem loadPacket : Composed Contact loadPacket := .get_bind fun _ => .pure _

theorem dumpmem (file : List Byte) (offset size : Word) : Contact Int (dumpmem file offset size) :=
  .command fun _ => .sendReq _ (by decide) (by simp) (by decide)

theorem dumpregs (file : List Byte) (regs : Word) : Contact Int (dumpregs file regs) :=
  .command fun _ => .sendReq _ (by decide) (by simp) (by decide)

theorem cliGsexec (arg : List Byte) : Composed Contact (cliGsexec arg) :=
  ((Composed.step (.stat _)).bind fun _ => .pure _).bind fun _ => .ite (.pure (-1)) (.ite (.pure (-1))
    (.get_bind fun _ => (Composed.step (.command fun _ => .sendReq _ (by decide) (by simp) (by decide))).bind
      fun _ => .pure 0))

theorem stopvuCase : Composed Contact stopvuCase :=
  loadPacket.bind fun _ => (Composed.step (.command fun _ => harmless_pkoStopVu _ _)).bind fun _ => .pure ()

theorem relay (c : Cmd) : Composed Contact (relay c) := by
  cases c with
  | dumpmem => exact loadPacket.bind fun _ => (Composed.step (dumpmem _ _ _)).bind fun _ => .pure ()
  | dumpregs => exact loadPacket.bind fun _ => (Composed.step (dumpregs _ _)).bind fun _ => .pure ()
  | gsexec => exact loadPacket.bind fun _ => (cliGsexec _).bind fun _ => stopvuCase
  | stopvu => exact stopvuCase
  | startvu =>
    exact loadPacket.bind fun _ => (Composed.step (.command fun _ => harmless_pkoStartVu _ _)).bind fun _ => .pure ()
  | execee => exact loadPacket.bind fun _ => (Composed.step (.execee _)).bind fun _ => .pure ()
  | execiop => exact loadPacket.bind fun _ => (Composed.step (.execeiop _)).bind fun _ => .pure ()
  | reset => exact (Composed.step .reset).bind fun _ => .pure ()
  | _ => exact .pure ()

theorem cliDumpregs (arg : List Byte) : Composed Contact (cliDumpregs arg) := by
  rw [Pksh.cliDumpregs]
  cases fromSpace (trimInPlace arg) with
  | none => exact .pure (-1)
  | some ptr => exact (Composed.step (dumpregs _ _)).bind fun _ => .pure 0

theorem cliDumpmem (arg : List Byte) : Composed Contact (cliDumpmem arg) := by
  rw [Pksh.cliDumpmem]
  cases fromSpace (trimInPlace arg) with
  | none => exact .pure (-1)
  | some ptr =>
    dsimp only
    cases fromSpace (trim ptr) with
    | none => exact .pure (-1)
    | some ptr' => exact (Composed.step (dumpmem _ _ _)).bind fun _ => .pure 0

theorem cliException (arg : List Byte) : Composed Contact (cliException arg) :=
  (Composed.step (.command fun _ => .ite (.sendReq [] (by decide) (by simp) (by decide))
    (.ite (.sendReq [] (by decide) (by simp) (by decide)) (.pure 0)))).bind fun _ => .pure 0

theorem cliVu {req : Int → Word → Io Int} (h : ∀ fd vpu, Harmless (req fd vpu)) (arg : List Byte) :
    Composed Contact (cliVu req arg) :=
  (Composed.step (.command fun _ => .ite (.pure (-1)) (h _ _))).bind fun _ => .pure 0

theorem cliPoweroff : Composed Contact cliPoweroff :=
  (Composed.step (.command fun _ => .sendReq [] (by decide) (by simp) (by decide))).bind fun _ => .pure 0

theorem cliWritemem (arg : List Byte) : Composed Contact (cliWritemem arg) := by
  rw [Pksh.cliWritemem]
  cases fromSpace (trimInPlace arg) with
  | none => exact .pure (-1)
  | some ptr =>
    exact (Composed.step (.seekSize _)).bind fun _ =>
      (Composed.step (.command fun _ => .sendReq _ (by decide) (by simp) (by decide))).bind fun _ => .pure 0

end Contact

/-- Every function of the command table is made of the steps of one kind. -/
theorem composed_run (f : CliFunc) (arg : List Byte) :
    f = .reconnect ∨ Composed Contact (f.run arg) ∨ Composed Netfs (f.run arg) := by
  cases f with
  | reconnect => exact .inl rfl
  | dumpmem => exact .inr (.inl (Contact.cliDumpmem arg))
  | dumpregs => exact .inr (.inl (Contact.cliDumpregs arg))
  | execee => exact .inr (.inl (.step (.execee arg)))
  | exception => exact .inr (.inl (Contact.cliException arg))
  | execeiop => exact .inr (.inl (.step (.execeiop arg)))
  | gsexec => exact .inr (.inl (Contact.cliGsexec arg))
  | poweroff => exact .inr (.inl Contact.cliPoweroff)
  | reset => exact .inr (.inl (.step .reset))
  | vustart => exact .inr (.inl (Contact.cliVu harmless_pkoStartVu arg))
  | vustop => exact .inr (.inl (Contact.cliVu harmless_pkoStopVu arg))
  | writemem => exact .inr (.inl (Contact.cliWritemem arg))
  | list => exact .inr (.inr (Netfs.onDevice arg (.step (.talk (.listDir arg)))))
  | copy => exact .inr (.inr (Netfs.cliCopy arg))
  | devlist => exact .inr (.inr (Netfs.withNetfs Netfs.ask))
  | ps2format => exact .inr (.inr (Netfs.withNetfs Netfs.ask))
  | mkdir => exact .inr (.inr (Netfs.onDevice arg Netfs.ask))
  | ps2mount => exact .inr (.inr (Netfs.withNetfs Netfs.ask))
  | rmdir => exact .inr (.inr (Netfs.onDevice arg Netfs.ask))
  | rename => exact .inr (.inr (Netfs.onDevice arg Netfs.ask))
  | ps2sync => exact .inr (.inr (Netfs.withNetfs Netfs.ask))
  | ps2umount =>
    exact .inr (.inr (Netfs.withNetfs (.step (.talk (Talks.request _ Talks.sendPointer _ _ _)))))
  | _ => exact .inr (.inl (.pure 0))

theorem CliFunc.call_eq {f : CliFunc} (hq : f ≠ .quit) (hl : f ≠ .log) (arg : List Byte) (s : Session) :
    f.call arg s = f.run arg >>= fun _ => pure s := by
  cases f with
  | quit => exact absurd rfl hq
  | log => exact absurd rfl hl
  | _ => rfl

end Pksh
