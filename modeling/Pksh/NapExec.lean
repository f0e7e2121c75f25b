import Pksh.NapCommands

/-! The argument of `execee` and `execiop`, from the line in which it is typed
to the packet that is sent. -/

namespace Naplink

open Wire Traced Pksh

/-- The command that a function of the table sets with an argument. -/
def CliFunc.executes : CliFunc → Option Command
  | .execee => some .execps2
  | .execeiop => some .execiop
  | _ => none

/-- The first of the strings that `fix_cmd_arg` makes of an argument. -/
def firstWord (isFile : List Byte → Bool) (arg : List Byte) : List Byte :=
  (fixCmdArg isFile arg).1.takeWhile (· ≠ 0)

/-- A packet with a command and its argument is sent. -/
def Delivered (c : Command) (path : List Byte) (r : Result World Act Unit) : Prop :=
  .send { type := c.type, size := path.length + 1, body := path ++ [0] } ∈ r.acts

def Reached (w : World) (es : List Event) (v : World) : Prop :=
  ((runEvents es).run w).value = some () ∧ ((runEvents es).run w).state = v

/-- Events that neither deal with a packet nor come from a command. -/
def Event.idle : Event → Bool
  | .process | .typed (.line _) | .typed (.key _) => false
  | _ => true

theorem fixCmdArgLoop_prefix (isFile : List Byte → Bool) (cmd : List Byte) (rounds pi ai : Nat) (argv : List Byte)
    (argc : Nat) : argv <+: (fixCmdArgLoop isFile cmd rounds pi ai argv argc).1 := by
  induction rounds generalizing pi ai argv argc with
  | zero => exact List.prefix_rfl
  | succ rounds ih =>
    rw [fixCmdArgLoop]
    split
    · exact List.prefix_rfl
    · refine List.IsPrefix.trans ?_ (ih _ _ _ _)
      rw [List.append_assoc]
      exact List.prefix_append _ _

theorem firstWord_ne_nil (isFile : List Byte → Bool) {b : Byte} {bs : List Byte} (h0 : b ≠ 0) (hs : b ≠ space) :
    firstWord isFile (b :: bs) ≠ [] := by
  obtain ⟨k, hk⟩ : ∃ k, runEnd (· ≠ space) (b :: bs) 0 = k + 1 :=
    ⟨(bs.takeWhile (· ≠ space)).length, by simp [runEnd, hs]⟩
  let word := b :: bs.take k
  have hrun : (fixCmdArg isFile (b :: bs)).1 = (fixCmdArgLoop isFile (b :: bs) bs.length
      (runEnd (· = space) (b :: bs) (k + 1)) (k + 1 + 1)
      ((if isFile word && !argDeviceCheck word then str "host:" ++ word else word) ++ [0]) 1).1 := by
    rw [fixCmdArg, List.length_cons, fixCmdArgLoop, if_neg (show charAt (b :: bs) 0 ≠ 0 from h0)]
    simp only [hk]
    rfl
  obtain ⟨tail, ht⟩ := hrun ▸ fixCmdArgLoop_prefix isFile (b :: bs) bs.length _ _ _ _
  rw [firstWord, ← ht]
  split
  · rw [show str "host:" = [0x68, 0x6f, 0x73, 0x74, 0x3a] by decide]
    simp
  · simpa [word] using h0

abbrev KeepsCmd : World → List Act → World → Prop := Fixes fun w : World => w.cmd

namespace KeepsCmd

theorem setVars {f : Vars → Vars} (h : ∀ v, (f v).cmd = v.cmd) : Sat KeepsCmd (setVars f) := fun w => h w.toVars

theorem emit (a : Act) (h : a.still = true) : Sat KeepsCmd (emit a h) := fun _ => rfl

theorem asks {α : Type} (answer : World → α) (act : α → List Act) (h : ∀ r, (act r).all Act.still = true) :
    Sat KeepsCmd (asks answer act h) := fun _ => rfl

theorem recvPacket : Sat KeepsCmd recvPacket := by
  intro w
  cases h : w.incoming <;> simp [Naplink.recvPacket, h, Fixes]

theorem doReturn (rv : Int) (data : List Byte) (count : Int) : Sat KeepsCmd (doReturn rv data count) := fun _ => rfl

theorem npSetCounter (n : Word) : Sat KeepsCmd (npSetCounter n) := setVars fun _ => rfl

theorem npSetProcessing (n : Bool) : Sat KeepsCmd (npSetProcessing n) := setVars fun _ => rfl

theorem exchange (q : Sent) : Sat KeepsCmd (exchange q) := by
  refine (emit _ _).bind fun _ => recvPacket.bind fun p => ?_
  cases p with
  | ret rv data => exact .pure rv
  | _ => exact (emit _ _).bind fun _ => .pure (-1)

theorem doExec (type : Word) (filename : Option (List Byte)) : Sat KeepsCmd (doExec type filename) := by
  cases filename with
  | none => exact .pure (-1)
  | some filename => exact exchange _

theorem openAlong (pathname : List Byte) (flags : Word) (dirs : List (List Byte)) :
    Sat KeepsCmd (openAlong pathname flags dirs) := by
  induction dirs with
  | nil => exact .pure (-1)
  | cons dir dirs ih => exact (asks _ _ _).bind fun rv => .ite (.pure rv) ih

theorem processOpen (flags : Word) (pathname : List Byte) : Sat KeepsCmd (processOpen flags pathname) := by
  have hp : Sat KeepsCmd (openPath pathname (pcFlags flags)) :=
    (asks _ _ _).bind fun rv => .ite (Sat.get.bind fun w => openAlong _ _ _) (.pure rv)
  exact (npSetProcessing true).bind fun _ => (npSetCounter 0).bind fun _ =>
    .ite ((Sat.pure 1).bind fun _ => doReturn _ _ _) (hp.bind fun _ => doReturn _ _ _)

theorem processRead (fd count : Int) : Sat KeepsCmd (processRead fd count) := by
  refine (npSetCounter 0).bind fun _ => Sat.get.bind fun w =>
    .ite ((emit _ _).bind fun _ => doReturn _ _ _) ((asks _ _ _).bind fun r => ?_)
  cases r with
  | none => exact doReturn _ _ _
  | some bytes => exact doReturn _ _ _

theorem processPacket {b : Np Unit} (hb : Sat KeepsCmd b) (p : Packet) : Sat KeepsCmd (processPacket b p) := by
  cases p with
  | «open» flags pathname => exact processOpen flags pathname
  | close fd =>
    exact (npSetProcessing false).bind fun _ => (npSetCounter 0).bind fun _ =>
      .ite ((Sat.pure 0).bind fun _ => doReturn _ _ _) ((asks _ _ _).bind fun _ => doReturn _ _ _)
  | read fd count => exact processRead fd count
  | write fd count data =>
    exact (npSetCounter 0).bind fun _ => Sat.get.bind fun w =>
      .ite ((emit _ _).bind fun _ => doReturn _ _ _) ((asks _ _ _).bind fun _ => doReturn _ _ _)
  | lseek fd offset whence => exact (npSetCounter 0).bind fun _ => (asks _ _ _).bind fun _ => doReturn _ _ _
  | wazzup =>
    have hu : Sat KeepsCmd npUpdateCounter := setVars fun _ => rfl
    have hc : Sat KeepsCmd clearCommand := setVars fun _ => rfl
    refine (Sat.get.bind fun w => .ite (.pure ()) hu).bind fun _ => Sat.get.bind fun w => Sat.bind ?_ fun _ => hc
    rcases w.commandWaiting with _ | _ | _ | _ | _ | _
    · exact doReturn _ _ _
    · exact (exchange _).bind fun _ => .pure ()
    · exact (doExec _ _).bind fun _ => .pure ()
    · exact (doExec _ _).bind fun _ => .pure ()
    · exact (exchange _).bind fun _ => .pure ()
    · exact hb
  | _ => exact .pure ()

theorem recvAndProcess {b : Np Unit} (hb : Sat KeepsCmd b) : Sat KeepsCmd (recvAndProcess b) :=
  recvPacket.bind fun p => (emit _ _).bind fun _ => (processPacket hb p).bind fun _ => .pure p

theorem doBenchmarkWith {loop : Np Unit} (hl : Sat KeepsCmd loop) : Sat KeepsCmd (doBenchmarkWith loop) := by
  have hv (x : Bool) : Sat KeepsCmd (Naplink.setVars fun v => { v with benchmarking := x }) := setVars fun _ => rfl
  exact (emit _ _).bind fun _ => (hv true).bind fun _ => hl.bind fun _ => hv false

theorem benchmarkLoop (n : Nat) : Sat KeepsCmd (benchmarkLoop n) := by
  induction n with
  | zero => exact (emit _ _).bind fun _ => .hang
  | succ n ih => exact (recvAndProcess (doBenchmarkWith ih)).bind fun i => .ite (.pure ()) ih

theorem call (f : CliFunc) (arg : Mem) : Sat KeepsCmd (f.call arg) := by
  have hs (c : Command) : Sat KeepsCmd (setCommand c) := (emit _ _).bind fun _ => setVars fun _ => rfl
  have hb : Sat KeepsCmd setCmdbuf := setVars fun _ => rfl
  have he (c : Command) : Sat KeepsCmd (cliExec c arg) :=
    Sat.get.bind fun _ => (hs c).bind fun _ => hb.bind fun _ => .pure 0
  have hq : Sat KeepsCmd (Naplink.setVars fun v => { v with doloop := false }) := setVars fun _ => rfl
  cases f with
  | execee => exact he .execps2
  | execeiop => exact he .execiop
  | reset => exact (hs .reset).bind fun _ => .pure 0
  | benchmark => exact (hs .benchmark).bind fun _ => .pure 0
  | quit => exact (hs .quit).bind fun _ => hq.bind fun _ => .pure 0
  | _ => exact .pure 0

theorem readChar (i : Input) : Sat KeepsCmd (readChar i) := by
  have hx (line : List Byte) : Sat KeepsCmd (executeLine line) := by
    refine (emit _ _).bind fun _ => (npSetCounter 0).bind fun _ => ?_
    cases findCommand (splitLine line).1 with
    | none => exact .pure (-1)
    | some f => exact call f _
  cases i with
  | line line => exact .ite (.pure ()) ((hx line).bind fun _ => .pure ())
  | key f => exact (call f _).bind fun _ => .pure ()
  | _ => exact .pure ()

theorem exec (e : Event) : Sat KeepsCmd e.exec := by
  cases e with
  | process =>
    exact (Sat.get.bind fun w => recvAndProcess (doBenchmarkWith (benchmarkLoop _))).bind fun _ => .pure ()
  | typed i => exact readChar i
  | expire =>
    have ht : Sat KeepsCmd (setTimedout true) := setVars fun _ => rfl
    exact Sat.get.bind fun w => .ite ((emit _ _).bind fun _ => (npSetCounter 0).bind fun _ => ht) (.pure ())
  | _ => exact fun _ => rfl

theorem runEvents (es : List Event) : Sat KeepsCmd (runEvents es) := by
  induction es with
  | nil => exact .pure ()
  | cons e es ih => exact (exec e).bind fun _ => ih

end KeepsCmd

section Line

variable {w v : World} {line : List Byte} {f : CliFunc} {c : Command}

/-- The state behind a line that asks for something to be executed. -/
def World.ordered (w : World) (c : Command) : World :=
  { w with counter := 0, commandWaiting := some c, commandBuffer := true }

theorem typed_run (w : World) (hf : findCommand (splitLine line).1 = some f) (hc : f.executes = some c)
    (hx : (splitLine line).2 ≠ []) :
    (Event.exec (.typed (.line line))).run w = ⟨some (), w.ordered c, [.execute line, .setCommand c]⟩ := by
  have hl : line ≠ [] := by
    rintro rfl
    exact hx rfl
  have hcall : f.call (memOf (splitLine line).2) = cliExec c (memOf (splitLine line).2) := by
    cases f <;> cases hc <;> rfl
  have hrun : (executeLine line).run w = ⟨some 0, w.ordered c, [.execute line, .setCommand c]⟩ := by
    simp only [executeLine, hf, hcall]
    rfl
  rw [Event.exec, readChar, if_neg hl, Prog.run_bind, hrun]
  rfl

theorem idle_keeps {e : Event} (h : e.idle = true) :
    Sat (Fixes fun w : World => (w.commandWaiting, w.commandBuffer)) e.exec := by
  cases e with
  | process => cases h
  | typed i =>
    cases i with
    | line line => cases h
    | key f => cases h
    | _ => exact fun _ => rfl
  | expire =>
    intro w
    rw [Event.exec, inactivity, Prog.run_bind, Prog.run_get, Result.andThen_mk_some]
    split <;> rfl
  | _ => exact fun _ => rfl

theorem idles_keep {es : List Event} (h : ∀ e ∈ es, e.idle = true) :
    Sat (Fixes fun w : World => (w.commandWaiting, w.commandBuffer)) (runEvents es) := by
  induction es with
  | nil => exact .pure ()
  | cons e es ih =>
    exact (idle_keeps (h e List.mem_cons_self)).bind fun _ => ih fun e' he => h e' (List.mem_cons_of_mem _ he)

theorem ordered_reached (hf : findCommand (splitLine line).1 = some f) (hc : f.executes = some c)
    (hx : (splitLine line).2 ≠ []) {between : List Event} (hb : ∀ e ∈ between, e.idle = true)
    (hv : Reached w (.typed (.line line) :: between) v) :
    v.commandWaiting = some c ∧ v.commandBuffer = true ∧ v.cmd = w.cmd := by
  have hs := hv.2
  rw [runEvents, runAll, Prog.run_bind, typed_run w hf hc hx, Result.andThen_mk_some, Result.after_state] at hs
  obtain ⟨h1, h2⟩ := Prod.mk.inj (idles_keep hb (w.ordered c))
  rw [hs] at h1 h2
  have h3 : _ = (w.ordered c).cmd := KeepsCmd.runEvents between (w.ordered c)
  rw [hs] at h3
  exact ⟨h1, h2, h3⟩

theorem exec_sends_empty (hf : f.executes = some c) (hw : v.commandWaiting = some c) (hb : v.commandBuffer = true)
    (hz : v.cmd = fun _ => 0) {rest : List Packet} (hi : v.incoming = .wazzup :: rest) :
    ∃ n, ((Event.exec .process).run v).acts = [.recv .wazzup, .process .wazzup] ++
      .send { type := c.type, size := 1, body := [0] } :: (getReturn.run ((v.behind rest).counted n)).acts := by
  have hcb : c ≠ .benchmark := by
    rintro rfl
    cases f <;> cases hf
  have he : v.buffered = some [] := by
    rw [World.buffered, if_pos hb, hz, (Mem.cstr_eq_nil_iff (by decide)).mpr rfl]
  have hp : (v.behind rest).packetFor c = some { type := c.type, size := 1, body := [0] } := by
    cases f <;> cases hf
    · rw [World.packetFor, show (v.behind rest).buffered = v.buffered from rfl, he]
      rfl
    · rw [World.packetFor, show (v.behind rest).buffered = v.buffered from rfl, he]
      rfl
  obtain ⟨n, hn⟩ := processWazzup_acts (w := v.behind rest) (b := v.benchmark) hw hcb
  rw [hp, Option.elim_some] at hn
  exact ⟨n, by rw [process_wazzup hi, Result.after_acts, Result.acts_andThen_pure, hn]⟩

theorem getReturn_no_send (w : World) (q : Sent) : .send q ∉ (getReturn.run w).acts := by
  cases hi : w.incoming with
  | nil =>
    rw [getReturn_nil hi]
    simp
  | cons p rest =>
    rw [getReturn_cons hi]
    split <;> simp

theorem splitLine_arg {b : Byte} {bs : List Byte} (h : (splitLine line).2 = b :: bs) :
    b ∈ line ∧ b ≠ space := by
  refine ⟨?_, ?_⟩
  · have hm : b ∈ (splitLine line).2 := h ▸ List.mem_cons_self
    exact (List.dropWhile_sublist _).mem ((List.dropWhile_sublist _).mem ((List.dropWhile_sublist _).mem hm))
  · have hd := List.head?_dropWhile_not whitespace ((line.dropWhile whitespace).dropWhile fun c => !whitespace c)
    rw [show ((line.dropWhile whitespace).dropWhile fun c => !whitespace c).dropWhile whitespace = b :: bs from h,
      List.head?_cons] at hd
    rintro rfl
    exact absurd hd (by decide)

theorem exec_never_delivered {os : Host} {timeout : Word} {pathList : List (List Byte)} {incoming rest : List Packet}
    {before between : List Event} (hw : Reached (.booted os timeout pathList incoming) before w)
    (hf : findCommand (splitLine line).1 = some f) (hc : f.executes = some c) (hx : (splitLine line).2 ≠ [])
    (hz : 0 ∉ line) (hb : ∀ e ∈ between, e.idle = true) (hv : Reached w (.typed (.line line) :: between) v)
    (hi : v.incoming = .wazzup :: rest) :
    ¬Delivered c (firstWord (w.os.isFile w.now) (splitLine line).2) ((Event.exec .process).run v) := by
  obtain ⟨b, bs, hbs⟩ := List.exists_cons_of_ne_nil hx
  obtain ⟨hm, hs⟩ := splitLine_arg hbs
  have hne : firstWord (w.os.isFile w.now) (splitLine line).2 ≠ [] := by
    rw [hbs]
    exact firstWord_ne_nil _ (fun h0 => hz (h0 ▸ hm)) hs
  have hcmd : w.cmd = fun _ => 0 := by
    rw [← hw.2]
    exact KeepsCmd.runEvents before _
  obtain ⟨h1, h2, h3⟩ := ordered_reached hf hc hx hb hv
  obtain ⟨n, hn⟩ := exec_sends_empty hc h1 h2 (h3.trans hcmd) hi
  rw [Delivered, hn]
  intro hmem
  rcases List.mem_append.mp hmem with hmem | hmem
  · simp at hmem
  · rcases List.mem_cons.mp hmem with hmem | hmem
    · exact hne (List.append_left_eq_self.mp (Sent.mk.inj (Act.send.inj hmem)).2.2)
    · exact getReturn_no_send _ _ hmem

def askedOnce : World := .booted .plain 0 [] [.wazzup, .ret 0 []]

theorem exec_never_delivered_execee :
    ¬Delivered .execps2 (firstWord (askedOnce.os.isFile askedOnce.now) (splitLine (str "execee x")).2)
      ((Event.exec .process).run (askedOnce.ordered .execps2)) :=
  exec_never_delivered (f := .execee) (show Reached askedOnce [] askedOnce from ⟨rfl, rfl⟩) (by decide) rfl (by decide)
    (by decide) (by simp)
    (show Reached askedOnce [.typed (.line (str "execee x"))] (askedOnce.ordered .execps2) from ⟨rfl, rfl⟩) rfl

end Line

/-- The argument of `execee x` does not arrive. -/
theorem execee_not_delivered : ¬∀ (before between : List Event) (w v : World) (line : List Byte) (f : CliFunc)
    (c : Command) (rest : List Packet), Reached askedOnce before w → findCommand (splitLine line).1 = some f →
    f.executes = some c → (splitLine line).2 ≠ [] → 0 ∉ line → (∀ e ∈ between, e.idle = true) →
    Reached w (.typed (.line line) :: between) v → v.incoming = .wazzup :: rest →
    Delivered c (firstWord (w.os.isFile w.now) (splitLine line).2) ((Event.exec .process).run v) := by
  intro h
  have hd := h [] [] askedOnce (askedOnce.ordered .execps2) (str "execee x") .execee .execps2 [.ret 0 []] ⟨rfl, rfl⟩
    (by decide) rfl (by decide) (by decide) (by simp) ⟨rfl, rfl⟩ rfl
  exact absurd hd (by unfold Delivered; decide +kernel)

end Naplink
