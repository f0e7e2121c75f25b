import Pksh.PostedReplies

/-! What pksh puts on its sockets. Every packet tells its own length, and data
follows a packet only when it tells how much. -/

namespace Pksh

open Wire Traced

variable {α β : Type}

namespace Posting

theorem of_bind_pure {m : Io α} {f : α → β} (h : Sat Posting (m >>= fun a => pure (f a))) : Sat Posting m := by
  intro w
  have hw := h w
  rwa [Prog.run_bind_pure] at hw

theorem reqRead (fd size : Word) : Sat Posting (ps2netfsReqRead fd size) :=
  of_bind_pure ((NetfsReq.read fd size).posting rfl)

theorem reqDread (fd : Word) : Sat Posting (ps2netfsReqDread fd) := of_bind_pure ((NetfsReq.dread fd).posting rfl)

theorem reqDevlist : Sat Posting ps2netfsReqDevlist := of_bind_pure (NetfsReq.devlist.posting rfl)

theorem listEntries (fd : Word) (rounds : Nat) : Sat Posting (listEntries fd rounds) := by
  induction rounds with
  | zero => exact .hang
  | succ rounds ih => exact (reqDread fd).bind fun _ => .ite ih (.pure ())

theorem listDir (arg : List Byte) : Sat Posting (listDir arg) :=
  ((NetfsReq.dopen arg).posting rfl).bind fun _ => .ite ((wires .closeNetfs).bind fun _ => .pure (-1))
    (Sat.get.bind fun _ => (listEntries _ _).bind fun _ => .ite
      (((NetfsReq.dclose _).posting rfl).bind fun _ => .pure 0) (.pure 0))

theorem fetchLoop {read : Io (List Byte)} {write : List Byte → Io Unit} (hr : Sat Posting read)
    (hw : ∀ bs, Sat Posting (write bs)) (rounds : Nat) (buffer : Mem) (size : Int) :
    Sat Posting (fetchLoop read write rounds buffer size) := by
  induction rounds generalizing buffer size with
  | zero => exact .pure ()
  | succ rounds ih => exact .ite (hr.bind fun _ => (hw _).bind fun _ => ih _ _) (.pure ())

theorem sendLoop {read : Io (Option (List Byte))} {write : Mem → Int → Io Int} (hr : Sat Posting read)
    (hw : ∀ m n, Sat Posting (write m n)) (rounds : Nat) (buffer : Mem) (size total : Int) :
    Sat Posting (sendLoop read write Prog.hang rounds buffer size total) := by
  induction rounds generalizing buffer total with
  | zero => exact .hang
  | succ rounds ih => exact .ite (hr.bind fun _ => (hw _ _).bind fun _ => ih _ _) (.pure ())

theorem openNetfs : Sat Posting openNetfs :=
  (wires .cmdListener).bind fun _ => (setVars _).bind fun _ => hush (.emit rfl)

theorem withNetfs {m : Io Int} (h : Sat Posting m) : Sat Posting (withNetfs m) := by
  have hopen : Sat Posting reopenNetfs := Sat.get.bind fun _ => .ite openNetfs (.pure ())
  exact hopen.bind fun _ => Sat.get.bind fun _ => .ite (.pure 0) h

theorem onDevice (arg : List Byte) {m : Io Int} (h : Sat Posting m) : Sat Posting (onDevice arg m) :=
  .ite (withNetfs h) (.pure 0)

theorem freedStr (i : Nat) : Sat Posting (freedStr i) := Sat.get.bind fun _ => .pure _

theorem copyFrom : Sat Posting copyFrom := by
  refine (freedStr 1).bind fun path => (sysOpen _ _ _).bind fun fd0 => .ite (.pure (-1)) ?_
  refine (freedStr 0).bind fun path => ((NetfsReq.openFile _ _).posting rfl).bind fun fd1 => .ite (.pure (-1)) ?_
  refine ((NetfsReq.lseek _ _ _).posting rfl).bind fun size => ((NetfsReq.lseek _ _ _).posting rfl).bind fun _ =>
    Sat.get.bind fun w => ?_
  refine (fetchLoop ((reqRead _ _).bind fun _ => .pure _) (fun bs => (sysWrite _ _).bind fun _ => .pure ()) _ _ _).bind
    fun _ => ?_
  exact ((NetfsReq.close _).posting rfl).bind fun _ => (sysClose _).bind fun _ => .pure 0

theorem copyTo : Sat Posting copyTo := by
  refine (freedStr 0).bind fun path => (sysOpen _ _ _).bind fun fd0 => .ite (.pure (-1)) ?_
  refine (freedStr 1).bind fun path => ((NetfsReq.openFile _ _).posting rfl).bind fun fd1 => .ite (.pure (-1)) ?_
  refine (sysLseek _ _ _).bind fun size => (sysLseek _ _ _).bind fun _ => Sat.get.bind fun w => ?_
  refine (sendLoop (hush (.sysRead _ _)) (fun m n => (NetfsReq.write _ m _).posting rfl) _ _ _ _).bind fun _ => ?_
  exact ((NetfsReq.close _).posting rfl).bind fun _ => (sysClose _).bind fun _ => .pure 0

theorem cliCopy (arg : List Byte) : Sat Posting (cliCopy arg) :=
  .ite (.pure 0) (.ite (withNetfs copyFrom) (.ite (withNetfs copyTo) (.pure 0)))

theorem cliDumpregs (arg : List Byte) : Sat Posting (cliDumpregs arg) := by
  rw [Pksh.cliDumpregs]
  cases fromSpace (trimInPlace arg) with
  | none => exact .pure _
  | some ptr => exact (dumpregs _ _).bind fun _ => .pure _

theorem cliDumpmem (arg : List Byte) : Sat Posting (cliDumpmem arg) := by
  rw [Pksh.cliDumpmem]
  cases fromSpace (trimInPlace arg) with
  | none => exact .pure _
  | some ptr =>
    dsimp only
    cases fromSpace (trim ptr) with
    | none => exact .pure _
    | some ptr' => exact (dumpmem _ _ _).bind fun _ => .pure _

theorem cliException (arg : List Byte) : Sat Posting (cliException arg) :=
  (command fun _ => .ite (sendHdr (by decide)) (.ite (sendHdr (by decide)) (.pure _))).bind fun _ => .pure _

theorem cliVu {req : Int → Word → Io Int} (h : ∀ fd vpu, Sat Posting (req fd vpu)) (arg : List Byte) :
    Sat Posting (cliVu req arg) :=
  (command fun _ => .ite (.pure _) (h _ _)).bind fun _ => .pure _

theorem cliWritemem (arg : List Byte) : Sat Posting (cliWritemem arg) := by
  rw [Pksh.cliWritemem]
  cases fromSpace (trimInPlace arg) with
  | none => exact .pure _
  | some ptr =>
    refine Sat.bind ((sysOpen _ _ _).bind fun _ => (sysLseek _ _ _).bind fun _ => (sysClose _).bind fun _ => .pure _)
      fun size => ?_
    exact (command fun _ => sendReq (by decide) (by decide) (by decide) (by simp [pktHdrSize])).bind fun _ => .pure _

theorem cliLog (arg : List Byte) (s : Session) : Sat Posting (cliLog arg s) :=
  .ite (.ite ((sysClose _).bind fun _ => .pure _) (.pure _)) ((sysOpen _ _ _).bind fun _ => .pure _)

end Posting

/-- The functions whose request to the file server is put together wrongly. -/
def CliFunc.misbuilds : CliFunc → Bool
  | .ps2format | .rename | .ps2sync | .ps2umount => true
  | _ => false

namespace Posting

theorem func_run {f : CliFunc} (hf : f.misbuilds = false) (arg : List Byte) : Sat Posting (f.run arg) := by
  cases f with
  | dumpmem => exact cliDumpmem arg
  | dumpregs => exact cliDumpregs arg
  | execee => exact cliExecee arg
  | exception => exact cliException arg
  | execeiop => exact cliExeceiop arg
  | gsexec => exact cliGsexec arg
  | list => exact onDevice arg (listDir arg)
  | poweroff => exact (command fun _ => sendHdr (by decide)).bind fun _ => .pure _
  | reset => exact cliReset
  | vustart => exact cliVu pkoStartVu arg
  | vustop => exact cliVu pkoStopVu arg
  | writemem => exact cliWritemem arg
  | copy => exact cliCopy arg
  | devlist => exact withNetfs (reqDevlist.bind fun _ => .pure 0)
  | mkdir => exact onDevice arg (((NetfsReq.mkdir arg).posting rfl).bind fun _ => .pure 0)
  | ps2mount => exact withNetfs (((NetfsReq.mount _ _ _ _ _).posting rfl).bind fun _ => .pure 0)
  | rmdir => exact onDevice arg (((NetfsReq.rmdir arg).posting rfl).bind fun _ => .pure 0)
  | reconnect => exact cliReconnect
  | ps2format => cases hf
  | rename => cases hf
  | ps2sync => cases hf
  | ps2umount => cases hf
  | _ => exact .pure _

theorem func_call {f : CliFunc} (hf : f.misbuilds = false) (arg : List Byte) (s : Session) : Sat Posting (f.call arg s) := by
  by_cases hq : f = .quit
  · subst hq
    exact .pure _
  by_cases hl : f = .log
  · subst hl
    exact cliLog arg s
  rw [CliFunc.call_eq hq hl]
  exact (func_run hf arg).bind fun _ => .pure s

theorem rlCallbackReadChar {typed : Typed} (h : ∀ f ∈ typed.func, f.1.misbuilds = false) (s : Session) :
    Sat Posting (rlCallbackReadChar typed s) := by
  rw [Pksh.rlCallbackReadChar]
  cases ht : typed.func with
  | none => exact .pure _
  | some f => exact func_call (h f ht) f.2 s

theorem pkoLogRead (text : List Byte) (s : Session) : Sat Posting (pkoLogRead text s) :=
  .ite ((sysWrite _ _).bind fun _ => .pure _) (.pure _)

theorem acceptClient (s : Session) : Sat Posting (acceptClient s) := by
  refine sysAccept.bind fun connfd => ?_
  cases s.freeSlot with
  | none => exact .hang
  | some j => exact .pure _

theorem startUp (dumpscreen : Bool) (s : Session) : Sat Posting (startUp dumpscreen s) := by
  refine (wires .cmdListener).bind fun link => (setVars _).bind fun _ => .ite (.pure _) ?_
  have hcontact : Sat Posting (contactPs2 dumpscreen) := by
    refine openNetfs.bind fun _ => (command ?_).bind fun _ => .pure _
    cases dumpscreen with
    | true => exact fun _ => sendHdr (by decide)
    | false => exact fun _ => sendHdr (by decide)
  exact hcontact.bind fun _ => Sat.get.bind fun _ => .pure _

theorem serveClient (i : Nat) (s : Session) : Sat Posting (serveClient i s) :=
  (pkoSrvRead _).bind fun _ => .ite ((sysClose _).bind fun _ => .pure _) (.pure _)

theorem serveSlot {input : Input} (h : ∀ f ∈ input.typed.func, f.1.misbuilds = false) (i : Nat) (s : Session) :
    Sat Posting (serveSlot input i s) :=
  Sat.get.bind fun _ => .ite (pkoLogRead _ _) (.ite (rlCallbackReadChar h s)
    (.ite ((pkoSrvRead _).bind fun _ => .pure _) (.ite (acceptClient s) (serveClient i s))))

end Posting

/-- What is typed does not run one of the four functions. -/
def Event.Plain (e : Event) : Prop :=
  match e with
  | .slot input _ => ∀ f ∈ input.typed.func, f.1.misbuilds = false
  | _ => True

theorem Event.posting {e : Event} (h : e.Plain) (s : Session) : Sat Posting (e.task s) := by
  cases e with
  | start dumpscreen => exact Posting.startUp dumpscreen s
  | select answer => exact .pure _
  | slot input i => exact .ite (Posting.serveSlot h i s) (.pure s)

theorem Event.exec_posting {e : Event} (h : e.Plain) : Sat (OnWorld Posting) e.exec :=
  fun p => Event.posting h p.session p.world

/-- A run of `main`, whatever the peers send and the calls return: as long as
no function is typed whose request is put together wrongly, everything that is
sent is a parcel, and a peer that gets all of it, and nothing that a `write`
puts on its socket, cuts the stream into the parcels for it. -/
theorem main_posts {p : Shell} (hp : p.world.os.Thrifty) (dumpscreen : Bool)
    {turns : List (Option (Finset Int) × Input)}
    (ht : ∀ t ∈ turns, ∀ f ∈ t.2.typed.func, f.1.misbuilds = false) :
    ∃ ps, Posts ((main dumpscreen turns).run p).acts ps ∧ ∀ s, Whole s ((main dumpscreen turns).run p).acts →
      frames Parcel.next (appended s ((main dumpscreen turns).run p).acts) = some (parcelsTo s ps) := by
  have hplain : ∀ e ∈ mainEvents dumpscreen turns, e.Plain := by
    intro e he
    rcases List.mem_cons.mp he with rfl | he
    · trivial
    · obtain ⟨t, htm, he⟩ := List.mem_flatMap.mp he
      rcases List.mem_cons.mp he with rfl | he
      · trivial
      · obtain ⟨i, _, rfl⟩ := List.mem_map.mp he
        exact ht t htm
  have hrun : Sat (OnWorld Posting) (main dumpscreen turns) := by
    rw [main]
    generalize mainEvents dumpscreen turns = es at hplain
    induction es with
    | nil => exact .pure ()
    | cons e es ih =>
      exact (Event.exec_posting (hplain e List.mem_cons_self)).bind fun _ => ih fun e he => hplain e (List.mem_cons_of_mem _ he)
  obtain ⟨ps, hps⟩ := (hrun p).2 hp
  exact ⟨ps, hps, fun s hs => hps.frames_eq hs⟩

/-- Taken in one piece, or not for `s`. -/
def Act.clean (s : Int) : Act → Bool
  | .send t bs ret => t ≠ s || ret = some bs.length
  | .sendAll t _ | .write t _ _ => t ≠ s
  | _ => true

theorem Whole.of_clean {s : Int} {as : List Act} (h : ∀ a ∈ as, a.clean s = true) : Whole s as where
  send bs ret hm := by simpa [Act.clean] using h _ hm
  data bs ret d hi := by simpa [Act.clean] using h (.sendAll s d) (hi.subset (by simp))
  write bs ret hm := by simpa [Act.clean] using h _ hm

def closeThenStop : List (Option (Finset Int) × Input) :=
  linkReady ++ [(some {0}, ⟨.line (str "vustop 1"), []⟩)]

theorem closeThenStop_posts :
    (∃ ps, Posts ((main false closeThenStop).run (.called (.bringing (.delivering closeTwelve)))).acts ps ∧
      frames Parcel.next (appended 10 ((main false closeThenStop).run (.called (.bringing (.delivering closeTwelve)))).acts) =
        some (parcelsTo 10 ps)) ∧
    appended 10 ((main false closeThenStop).run (.called (.bringing (.delivering closeTwelve)))).acts =
      be32 closeRly ++ be16 10 ++ be32 (-1) := by
  have hw : Whole 10 ((main false closeThenStop).run (.called (.bringing (.delivering closeTwelve)))).acts :=
    .of_clean (by decide +kernel)
  obtain ⟨ps, h, hs⟩ := @main_posts (.called (.bringing (.delivering closeTwelve))) (fun _ _ _ => rfl) false closeThenStop
    (by decide +kernel)
  exact ⟨⟨ps, h, hs 10 hw⟩, by decide +kernel⟩

end Pksh
