import Pksh.Shell
import Pksh.Lib.Watch

/-! The main loop of pksh: the slots that `select` found ready are served one
after the other. The sockets of the log and of the command server are open from
the start; what `main` closes on its way out is left out. -/

namespace Pksh

open Wire Traced

variable {α : Type}

/-- The state of the process while `main` runs. -/
structure Shell where
  world : World
  session : Session

/-- A relation of the worlds before and after. -/
def OnWorld (T : World → List Act → World → Prop) (p : Shell) (as : List Act) (q : Shell) : Prop := T p.world as q.world

instance (T : World → List Act → World → Prop) [Chains T] : Chains (OnWorld T) where
  nil p := Chains.nil (R := T) p.world
  append h h' := Chains.append (R := T) h h'

def Kept (p : Shell) (as : List Act) (q : Shell) : Prop := Accounted p.world as q.world

instance : Chains Kept where
  nil p := Chains.nil (R := Accounted) p.world
  append h h' := Chains.append (R := Accounted) h h'

abbrev Loop := Prog Kept

/-- What is done with the variables of `main` at hand. They are assigned when
it is over. -/
def withSession (f : Session → Io Session) : Loop Unit where
  run p :=
    let r := (f p.session).run p.world
    ⟨r.value.map fun _ => (), ⟨r.state, r.value.getD p.session⟩, r.acts⟩
  keeps p := (f p.session).keeps p.world

/-- `MAX_CLIENTS`. -/
def maxClients : Nat := 10

namespace Session

variable (s : Session)

def started (fds : List Int) : Session :=
  { s with client := fun i => fds.getD i (-1), masterSet := fds.toFinset, maxi := 3, doloop := true }

def freeSlot : Option Nat := (List.range maxClients).find? fun j => s.client j < 0

def accepted (j : Nat) (connfd : Int) : Session :=
  { s with
    client := Function.update s.client j connfd
    masterSet := insert connfd s.masterSet
    maxi := max s.maxi j }

def dropped (i : Nat) : Session :=
  { s with
    client := Function.update s.client i (-1)
    masterSet := s.masterSet.erase (s.client i)
    maxi := s.maxi - 1 }

def Visits (i : Nat) : Prop := i ≤ s.maxi ∧ 0 ≤ s.client i ∧ s.client i ∈ s.readset

instance (i : Nat) : Decidable (s.Visits i) := inferInstanceAs (Decidable (_ ∧ _ ∧ _))

/-- When `select` fails the sets are as before, and the loop is only left when
standard input is not among them. -/
def selected (answer : Option (Finset Int)) : Session :=
  if s.doloop then
    match answer with
    | none => { s with readset := ∅, doloop := decide (0 ∈ s.masterSet) }
    | some ready => { s with readset := ready ∩ s.masterSet }
  else { s with readset := ∅ }

end Session

/-- When all slots are taken the search for a free one runs on behind the table. -/
def acceptClient (s : Session) : Io Session := do
  let connfd ← sysAccept
  match s.freeSlot with
  | none => Prog.hang
  | some j => pure (s.accepted j connfd)

def serveClient (i : Nat) (s : Session) : Io Session := do
  let r ← pkoSrvRead (s.client i)
  if r < 0 then
    let _ ← sysClose (s.client i)
    pure (s.dropped i)
  else pure s

/-- What a character read from standard input brings about. No line and no key
calls `cli_reconnect`. -/
inductive Typed
  | nothing
  | line (l : List Byte)
  | key (c : Byte)
  | reconnect
deriving DecidableEq, Repr

def boundKeys : List (Byte × CliFunc) :=
  [(0x70, .pwd), (0x71, .quit), (0x72, .reset), (0x73, .status), (0x76, .verbose)]

/-- The function that is called, with its argument. -/
def Typed.func : Typed → Option (CliFunc × List Byte)
  | .nothing => none
  | .line l => if l = [] then none else (findCommand (splitLine l).1).map (·, (splitLine l).2)
  | .key c => ((boundKeys.find? fun k => k.1 = c).map Prod.snd).map (·, [])
  | .reconnect => some (.reconnect, [])

def rlCallbackReadChar (typed : Typed) (s : Session) : Io Session :=
  match typed.func with
  | none => pure s
  | some (f, arg) => f.call arg s

theorem rlCallbackReadChar_line {l : List Byte} (h : l ≠ []) (s : Session) :
    rlCallbackReadChar (.line l) s = executeLine l s := by
  rw [rlCallbackReadChar, executeLine, Typed.func, if_neg h]
  cases findCommand (splitLine l).1 <;> rfl

/-- What there is to read while the ready slots are served: from standard
input, and as text for the log. -/
structure Input where
  typed : Typed
  log : List Byte

def pkoLogRead (text : List Byte) (s : Session) : Io Session := do
  if s.logToFile then
    let _ ← sysWrite s.logFFd text
    pure s
  else pure s

def serveSlot (input : Input) (i : Nat) (s : Session) : Io Session := do
  let w ← Prog.get
  if s.client i = w.logFd then pkoLogRead input.log s
  else if s.client i = 0 then rlCallbackReadChar input.typed s
  else if s.client i = w.pkoSrvFd then do
    let _ ← pkoSrvRead w.pkoSrvFd
    pure s
  else if s.client i = w.pkshSrvFd then acceptClient s
  else serveClient i s

/-- What is registered before there are clients. -/
def World.standing (w : World) : List Int := [0, w.pkoSrvFd, w.logFd, w.pkshSrvFd]

/-- The connection to the file server, and where the PS2 is to print. -/
def contactPs2 (dumpscreen : Bool) : Io Unit := do
  openNetfs
  let _ ← command (if dumpscreen then pkoDump2screenReq else pkoDump2pcReq)

/-- `main` up to the loop. When there is no link it returns. -/
def startUp (dumpscreen : Bool) (s : Session) : Io Session := do
  let link ← cmdListener
  setVars fun v => { v with pkoSrvFd := link }
  if link < 0 then pure { s with doloop := false }
  else
    contactPs2 dumpscreen
    let w ← Prog.get
    pure (s.started w.standing)

inductive Event
  | start (dumpscreen : Bool)
  | select (answer : Option (Finset Int))
  | slot (input : Input) (i : Nat)

/-- What an event does with the variables of `main`. -/
def Event.task : Event → Session → Io Session
  | .start dumpscreen, s => startUp dumpscreen s
  | .select answer, s => pure (s.selected answer)
  | .slot input i, s => if s.Visits i then serveSlot input i s else pure s

def Event.exec (e : Event) : Loop Unit := withSession e.task

def turnEvents (t : Option (Finset Int) × Input) : List Event :=
  .select t.1 :: (List.range maxClients).map (.slot t.2)

def mainEvents (dumpscreen : Bool) (turns : List (Option (Finset Int) × Input)) : List Event :=
  .start dumpscreen :: turns.flatMap turnEvents

def main (dumpscreen : Bool) (turns : List (Option (Finset Int) × Input)) : Loop Unit :=
  runAll Event.exec (mainEvents dumpscreen turns)

/-- The state when `main` is called. -/
structure Shell.Initial (p : Shell) : Prop where
  state : p.world.state = 0
  readset : p.session.readset = ∅
  logToFile : p.session.logToFile = false
  log : 0 < p.world.logFd ∧ p.world.desc p.world.logFd = some .plain
  server : 0 < p.world.pkshSrvFd ∧ p.world.desc p.world.pkshSrvFd = some .plain
  stdin : p.world.desc 0 = some .plain
  distinct : p.world.logFd ≠ p.world.pkshSrvFd

theorem Event.exec_acts (e : Event) (p : Shell) : (e.exec.run p).acts = ((e.task p.session).run p.world).acts := rfl

theorem Event.exec_world (e : Event) (p : Shell) :
    (e.exec.run p).state.world = ((e.task p.session).run p.world).state := rfl

theorem Event.exec_value (e : Event) (p : Shell) {u : Unit} (h : (e.exec.run p).value = some u) :
    ((e.task p.session).run p.world).value = some (e.exec.run p).state.session := by
  obtain ⟨s, hs⟩ := Option.map_eq_some_iff.mp h
  have hst : (e.exec.run p).state.session = s := by
    change (((e.task p.session).run p.world).value).getD p.session = s
    rw [hs.1, Option.getD_some]
  rw [hst, hs.1]

/-- Every connection is made at once, and nothing comes over it. -/
def Host.connecting : Host :=
  { Host.refusing with
    socket := fun n => some (10 + n)
    connect := fun _ _ => none
    peer := fun _ _ => .delivering []
    patience := 1 }

/-- The state when `main` is called. -/
def Shell.called (os : Host) : Shell where
  world := { World.linked os 0 [(0, .plain), (4, .plain), (5, .plain)] with ps2NetfsFd := 0 }
  session := ⟨fun _ => -1, 0, ∅, ∅, true, false, -1⟩

theorem initial_called (os : Host) : (Shell.called os).Initial :=
  ⟨rfl, rfl, rfl, ⟨show (0 : Int) < 4 by decide, rfl⟩, ⟨show (0 : Int) < 5 by decide, rfl⟩, rfl,
    show (4 : Int) ≠ 5 by decide⟩

def Shell.entered (os : Host) : Shell := ((Event.start false).exec.run (.called os)).state

end Pksh
