import Pksh.Naplink

/-! npsh: the commands of its prompt, and its main loop. -/

namespace Naplink

open Wire Traced Pksh

/-- The functions of the command table. -/
inductive CliFunc
  | help | benchmark | cd | delete | debug | execee | execeiop | list | log | make | pwd | quit | rename
  | reset | status | verbose
deriving DecidableEq, Repr

def commands : List (List Byte × CliFunc) :=
  [(str "?", .help), (str "benchmark", .benchmark), (str "cd", .cd), (str "delete", .delete),
    (str "debug", .debug), (str "eeexec", .execee), (str "execee", .execee), (str "execiop", .execeiop),
    (str "help", .help), (str "iopexec", .execeiop), (str "list", .list), (str "log", .log), (str "ls", .list),
    (str "make", .make), (str "pwd", .pwd), (str "quit", .quit), (str "rename", .rename), (str "reset", .reset),
    (str "status", .status), (str "verbose", .verbose)]

def findCommand (name : List Byte) : Option CliFunc := (commands.find? fun c => c.1 = name).map Prod.snd

def setCommand (c : Command) : Np Unit := do
  emit (.setCommand c) rfl
  setVars fun v => { v with commandWaiting := some c }

def setCmdbuf : Np Unit := setVars fun v => { v with commandBuffer := true }

/-- What is in `argv` behind `fix_cmd_arg(argv, cmd, &argvlen)`. -/
def fixInto (isFile : List Byte → Bool) (argv : Mem) (cmd : List Byte) : Mem :=
  argv.store 0 (fixCmdArg isFile cmd).1

/-- `cmd` is what `fix_cmd_arg` reads here, and the typed line what it writes. -/
def cliExec (c : Command) (arg : Mem) : Np Int := do
  let w ← Prog.get
  let _arg := fixInto (w.os.isFile w.now) arg (w.cmd.cstr 0 maxPathLen)
  setCommand c
  setCmdbuf
  pure 0

def cliExeceiop (arg : Mem) : Np Int := cliExec .execiop arg

def cliExecee (arg : Mem) : Np Int := cliExec .execps2 arg

def cliReset : Np Int := do
  setCommand .reset
  pure 0

def cliBenchmark : Np Int := do
  setCommand .benchmark
  pure 0

def cliQuit : Np Int := do
  setCommand .quit
  setVars fun v => { v with doloop := false }
  pure 0

/-- The other functions do nothing about the link. -/
def CliFunc.call (arg : Mem) : CliFunc → Np Int
  | .benchmark => cliBenchmark
  | .execee => cliExecee arg
  | .execeiop => cliExeceiop arg
  | .quit => cliQuit
  | .reset => cliReset
  | _ => pure 0

/-- A string at the start of some memory. -/
def memOf (s : List Byte) : Mem := fun i => s.getD i 0

def executeLine (line : List Byte) : Np Int := do
  emit (.execute line) rfl
  npSetCounter 0
  match findCommand (splitLine line).1 with
  | none => pure (-1)
  | some f => f.call (memOf (splitLine line).2)

/-- What a turn of the loop gets from `select`, and then from the keyboard: a
character that completes nothing, a whole line, or a key bound to a function. -/
inductive Input
  | failed
  | nothing
  | char
  | line (line : List Byte)
  | key (f : CliFunc)
deriving DecidableEq, Repr

def Input.ready : Input → Bool
  | .failed | .nothing => false
  | _ => true

/-- `rl_callback_read_char`, which leads to `cli_handler`. -/
def readChar : Input → Np Unit
  | .line line => if line = [] then pure () else do let _ ← executeLine line
  | .key f => do let _ ← f.call (memOf [])
  | _ => pure ()

def naplinkCheck : Np Unit := do
  let _ ← asks (fun w => w.os.peer w.now) (fun r => if r then [] else [.peerAway]) fun r => by cases r <;> rfl

def initializeNaplink : Np Int := do
  let found ← asks (fun w => w.os.device w.now) (fun r => [.linkUp r]) fun _ => rfl
  pure (if found then 0 else -1)

def naplinkClose (a : Act) (h : a.still = true) : Np Unit := emit a h

def setTimedout (b : Bool) : Np Unit := setVars fun v => { v with timedout := b }

def inactivity : Np Unit := do
  let w ← Prog.get
  if w.timeout > 0 ∧ w.counter > w.timeout then
    naplinkClose .expire rfl
    npSetCounter 0
    setTimedout true
  else pure ()

/-- The link is initialised again when a key is pressed. -/
def reinit : Np Unit := do
  let _ ← initializeNaplink
  npSetCounter 0
  naplinkCheck
  naplinkProcess
  setTimedout false
  npSetProcessing false

def poll : Np Unit := do
  let w ← Prog.get
  if w.timedout then pure ()
  else
    naplinkCheck
    naplinkProcess
    npSetProcessing false

def readInput (i : Input) : Np Unit :=
  if i.ready then do
    let w ← Prog.get
    if w.timedout then
      reinit
      readChar i
    else readChar i
  else pure ()

def processTimes : Nat → Np Unit
  | 0 => pure ()
  | n + 1 => do
    naplinkProcess
    processTimes n

def drain : Np Unit := do
  let w ← Prog.get
  if w.timedout then pure () else processTimes 10

def turn (i : Input) : Np Unit := do
  poll
  readInput i
  drain
  inactivity

/-- As many turns as there are inputs, if `doloop` lasts that long. -/
def turns : List Input → Np Unit
  | [] => pure ()
  | i :: is => do
    let w ← Prog.get
    if w.doloop then
      turn i
      turns is
    else naplinkClose .shut rfl

def main (inputs : List Input) : Np Int := do
  let ret ← initializeNaplink
  if ret ≠ 0 then pure 1
  else
    npSetCounter 0
    naplinkCheck
    naplinkProcess
    turns inputs
    pure 0

inductive Event
  | look
  | process
  | typed (i : Input)
  | check
  | linkUp
  | clearCounter
  | clearProcessing
  | expire
  | resume
  | shut
deriving DecidableEq, Repr

def Event.exec : Event → Np Unit
  | .look => do let _ ← checkTxReq
  | .process => do let _ ← recvAndProcessPacket
  | .typed i => readChar i
  | .check => naplinkCheck
  | .linkUp => do let _ ← initializeNaplink
  | .clearCounter => npSetCounter 0
  | .clearProcessing => npSetProcessing false
  | .expire => inactivity
  | .resume => setTimedout false
  | .shut => naplinkClose .shut rfl

/-- What npsh does besides serving packets. -/
def Act.own : Act → Bool
  | .setCommand _ | .execute _ | .linkUp _ | .peerAway | .expire | .shut => true
  | _ => false

abbrev Own : World → List Act → World → Prop := AllActs fun a => a.own = true

namespace Own

theorem setVars (f : Vars → Vars) : Sat Own (setVars f) := fun _ _ ha => nomatch ha

theorem emit {a : Act} (h : a.still = true) (ha : a.own = true) : Sat Own (emit a h) :=
  fun _ _ hb => List.mem_singleton.mp hb ▸ ha

theorem asks {α : Type} {answer : World → α} {act : α → List Act} {h : ∀ a, (act a).all Act.still = true}
    (ha : ∀ r, ∀ a ∈ act r, a.own = true) : Sat Own (asks answer act h) := fun w => ha (answer w)

theorem setCommand (c : Command) : Sat Own (setCommand c) := (emit _ rfl).bind fun _ => setVars _

theorem call (f : CliFunc) (arg : Mem) : Sat Own (f.call arg) := by
  have he (c : Command) : Sat Own (cliExec c arg) :=
    Sat.get.bind fun _ => (setCommand c).bind fun _ => (setVars _).bind fun _ => .pure 0
  cases f with
  | execee => exact he .execps2
  | execeiop => exact he .execiop
  | reset => exact (setCommand .reset).bind fun _ => .pure 0
  | benchmark => exact (setCommand .benchmark).bind fun _ => .pure 0
  | quit => exact (setCommand .quit).bind fun _ => (setVars _).bind fun _ => .pure 0
  | _ => exact .pure 0

theorem executeLine (line : List Byte) : Sat Own (executeLine line) := by
  refine (emit _ rfl).bind fun _ => (setVars _).bind fun _ => ?_
  cases findCommand (splitLine line).1 with
  | none => exact .pure (-1)
  | some f => exact call f _

theorem readChar (i : Input) : Sat Own (readChar i) := by
  cases i with
  | line line => exact .ite (.pure ()) ((executeLine line).bind fun _ => .pure ())
  | key f => exact (call f _).bind fun _ => .pure ()
  | _ => exact .pure ()

theorem inactivity : Sat Own inactivity :=
  Sat.get.bind fun _ => .ite ((emit _ rfl).bind fun _ => (setVars _).bind fun _ => setVars _) (.pure ())

theorem exec {e : Event} (h : e ≠ .process) : Sat Own e.exec := by
  cases e with
  | process => exact absurd rfl h
  | look => exact (asks (by simp)).bind fun _ => .pure ()
  | typed i => exact readChar i
  | check => exact (asks fun r => by cases r <;> simp [Act.own]).bind fun _ => .pure ()
  | linkUp => exact ((asks fun _ => by simp [Act.own]).bind fun _ => .pure _).bind fun _ => .pure ()
  | expire => exact inactivity
  | shut => exact emit rfl rfl
  | _ => exact fun _ _ ha => nomatch ha

end Own

abbrev runEvents (es : List Event) : Np Unit := runAll Event.exec es

/-- A host on which every call fails, with a peer that always has a packet. -/
def Host.plain : Host where
  device _ := true
  peer _ := true
  txReq _ := true
  openFile _ _ _ := -1
  close _ _ := -1
  read _ _ _ := none
  write _ _ _ := none
  lseek _ _ _ _ := -1
  isFile _ _ := false
  heap _ := fun _ => 0

/-- The state npsh starts in, with the packets that will come. -/
def World.booted (os : Host) (timeout : Word) (pathList : List (List Byte)) (incoming : List Packet) : World where
  commandWaiting := none
  commandBuffer := false
  benchmarking := false
  counter := 0
  processing := false
  doloop := true
  timedout := false
  cmd := fun _ => 0
  os := os
  now := 0
  incoming := incoming
  timeout := timeout
  pathList := pathList

section Unrolls

theorem unrolls_clearCounter : Unrolls Event.exec (npSetCounter 0) := .event Event.clearCounter

theorem unrolls_clearProcessing : Unrolls Event.exec (npSetProcessing false) := .event Event.clearProcessing

theorem unrolls_naplinkCheck : Unrolls Event.exec naplinkCheck := .event Event.check

theorem unrolls_readChar (i : Input) : Unrolls Event.exec (readChar i) := .event (Event.typed i)

theorem unrolls_naplinkProcess : Unrolls Event.exec naplinkProcess := by
  have hl : Unrolls Event.exec checkTxReq :=
    .single .look fun _ => ⟨rfl, rfl, by simp [Event.exec, checkTxReq, asks]⟩
  have hp : Unrolls Event.exec (do let _ ← recvAndProcessPacket : Np Unit) := .event Event.process
  exact hl.bind fun tx => .ite hp (.pure ())

theorem unrolls_initialize : Unrolls Event.exec initializeNaplink :=
  .single .linkUp fun w => by simp [Event.exec, Result.andThen, initializeNaplink, asks]

theorem unrolls_reinit : Unrolls Event.exec reinit := by
  have hr : Unrolls Event.exec (setTimedout false) := .event Event.resume
  exact unrolls_initialize.bind fun _ => unrolls_clearCounter.bind fun _ => unrolls_naplinkCheck.bind fun _ =>
    unrolls_naplinkProcess.bind fun _ => hr.bind fun _ => unrolls_clearProcessing

theorem unrolls_poll : Unrolls Event.exec poll :=
  .get_bind fun _ => .ite (.pure ()) (unrolls_naplinkCheck.bind fun _ =>
    unrolls_naplinkProcess.bind fun _ => unrolls_clearProcessing)

theorem unrolls_readInput (i : Input) : Unrolls Event.exec (readInput i) :=
  .ite (.get_bind fun _ => .ite (unrolls_reinit.bind fun _ => unrolls_readChar i) (unrolls_readChar i)) (.pure ())

theorem unrolls_processTimes (n : Nat) : Unrolls Event.exec (processTimes n) := by
  induction n with
  | zero => exact .pure ()
  | succ n ih => exact unrolls_naplinkProcess.bind fun _ => ih

theorem unrolls_turn (i : Input) : Unrolls Event.exec (turn i) := by
  have hd : Unrolls Event.exec drain := .get_bind fun _ => .ite (.pure ()) (unrolls_processTimes 10)
  have hx : Unrolls Event.exec inactivity := .event Event.expire
  exact unrolls_poll.bind fun _ => (unrolls_readInput i).bind fun _ => hd.bind fun _ => hx

theorem unrolls_turns (is : List Input) : Unrolls Event.exec (turns is) := by
  have hs : Unrolls Event.exec (naplinkClose .shut rfl) := .event Event.shut
  induction is with
  | nil => exact .pure ()
  | cons i is ih => exact .get_bind fun _ => .ite ((unrolls_turn i).bind fun _ => ih) hs

theorem unrolls_main (inputs : List Input) : Unrolls Event.exec (main inputs) :=
  unrolls_initialize.bind fun _ => .ite (.pure 1) (unrolls_clearCounter.bind fun _ =>
    unrolls_naplinkCheck.bind fun _ => unrolls_naplinkProcess.bind fun _ =>
    (unrolls_turns inputs).bind fun _ => .pure 0)

end Unrolls

end Naplink
