import Pksh.Lib.Mimic
import Pksh.NapServed

/-! npsh over the bytes of its packets: each body is read where the handlers
read it. -/

namespace Naplink

open Wire Traced Pksh

variable {α β : Type}

/-- `cliDebug` and `linkDebug` are `DEBUG` of npsh.c and of naplink.c. What is
in the memory for a body, and how much can be read behind it, is found by the
number of packets that come after. -/
structure RawWorld extends Vars where
  os : Host
  now : Nat
  arriving : List Raw
  timeout : Word
  pathList : List (List Byte)
  malloc : Nat → Mem × Nat
  cliDebug : Bool
  linkDebug : Bool

namespace RawWorld

variable (r : RawWorld)

def world : World where
  toVars := r.toVars
  os := r.os
  now := r.now
  incoming := r.arriving.map Raw.packet
  timeout := r.timeout
  pathList := r.pathList

def withWorld (w : World) : RawWorld := { r with toVars := w.toVars, now := w.now }

/-- The block for the body of the packet that was taken last. -/
def block (p : Raw) : Block := p.block (r.malloc r.arriving.length).1 (r.malloc r.arriving.length).2

end RawWorld

inductive RawAct
  | recv (p : Raw)
  | process (p : Raw)
  | unexpected (p : Raw)
  /-- The body of `p` is at hand. -/
  | body (p : Raw) (u : Use)
  | own (a : Act)

def taken (as : List RawAct) : List Raw :=
  as.filterMap fun
    | .recv p => some p
    | _ => none

def Drawn (r : RawWorld) (as : List RawAct) (r' : RawWorld) : Prop := taken as ++ r'.arriving = r.arriving

instance : Chains Drawn where
  nil _ := rfl
  append h h' := by rw [Drawn, taken, List.filterMap_append, List.append_assoc, ← h, ← h']; rfl

abbrev RawNp := Prog Drawn

namespace Bytes

def onBody (p : Raw) (m : Handler α) : RawNp α where
  run r :=
    let x := m.run r.world
    ⟨x.value, r.withWorld x.state, x.acts.map (.body p)⟩
  keeps r := by simp [Drawn, taken, List.filterMap_map, RawWorld.withWorld]

def own (m : Np α) : RawNp α where
  run r :=
    let x := m.run r.world
    ⟨x.value, r.withWorld x.state, x.acts.map .own⟩
  keeps r := by simp [Drawn, taken, List.filterMap_map, RawWorld.withWorld]

def recvPacket : RawNp Raw where
  run r :=
    match r.arriving with
    | [] => ⟨none, r, [.own .waits]⟩
    | p :: rest => ⟨some p, { r with arriving := rest }, [.recv p]⟩
  keeps r := by
    split
    · rfl
    · rename_i p rest h
      exact h.symm

def process (p : Raw) : RawNp Unit := ⟨fun r => ⟨some (), r, [.process p]⟩, fun _ => rfl⟩

def unexpected (p : Raw) : RawNp Unit := ⟨fun r => ⟨some (), r, [.unexpected p]⟩, fun _ => rfl⟩

def expectReturn (p : Raw) : RawNp Unit := if p.type = packetReturn then pure () else unexpected p

/-- `get_return` without a buffer for the data. -/
def getReturn : RawNp Int := do
  let p ← recvPacket
  expectReturn p
  let r ← Prog.get
  onBody p (rawGetReturn false p.size p.type (r.block p))

def exchange (p : Sent) : RawNp Int := do
  own (sendPacket p)
  getReturn

def doReset : RawNp Int := exchange { type := packetReset, size := 0, body := [] }

def doQuit : RawNp Int := exchange { type := packetQuit, size := 0, body := [] }

def doExec (type : Word) (filename : Option (List Byte)) : RawNp Int :=
  match filename with
  | none => pure (-1)
  | some filename => exchange { type, size := filename.length + 1, body := filename ++ [0] }

def doExecps2 (filename : Option (List Byte)) : RawNp Int := doExec packetExecps2 filename

def doExeciop (filename : Option (List Byte)) : RawNp Int := doExec packetExeciop filename

def sendCommand (benchmark : RawNp Unit) (commandBuffer : Option (List Byte)) : Option Command → RawNp Unit
  | none => own (doReturn 0 [] 0)
  | some .reset => do let _ ← doReset
  | some .execps2 => do let _ ← doExecps2 commandBuffer
  | some .execiop => do let _ ← doExeciop commandBuffer
  | some .quit => do let _ ← doQuit
  | some .benchmark => benchmark

def processWazzup (benchmark : RawNp Unit) : RawNp Unit := do
  own countWazzup
  let r ← Prog.get
  sendCommand benchmark r.world.buffered r.commandWaiting
  own clearCommand

def processPacket (benchmark : RawNp Unit) (p : Raw) : RawNp Unit :=
  if p.type = packetWazzup then processWazzup benchmark
  else do
    let r ← Prog.get
    onBody p (rawProcess r.linkDebug (pure ()) p.type (r.block p))

def recvAndProcess (benchmark : RawNp Unit) : RawNp Word := do
  let p ← recvPacket
  process p
  processPacket benchmark p
  pure p.type

def doBenchmarkWith (loop : RawNp Unit) : RawNp Unit := do
  own (sendPacket { type := packetBenchmark, size := 0, body := [] })
  own (setVars fun v => { v with benchmarking := true })
  loop
  own (setVars fun v => { v with benchmarking := false })

def benchmarkLoop : Nat → RawNp Unit
  | 0 => do
    own (emit .waits rfl)
    Prog.hang
  | rounds + 1 => do
    let i ← recvAndProcess (doBenchmarkWith (benchmarkLoop rounds))
    if i = packetReturn then pure () else benchmarkLoop rounds

def recvAndProcessPacket : RawNp Word := do
  let r ← Prog.get
  recvAndProcess (doBenchmarkWith (benchmarkLoop r.arriving.length))

def naplinkProcess : RawNp Unit := do
  let tx ← own checkTxReq
  if tx then
    let _ ← recvAndProcessPacket
  else pure ()

/-- Over the link `DEBUG` follows the one of the prompt. -/
def cliDebug : RawNp Int :=
  ⟨fun r => ⟨some 0, { r with cliDebug := !r.cliDebug, linkDebug := !r.cliDebug }, []⟩, fun _ => rfl⟩

def call (arg : Mem) : CliFunc → RawNp Int
  | .debug => cliDebug
  | f => own (f.call arg)

theorem still_execute (line : List Byte) : (Act.execute line).still = true := rfl

def executeLine (line : List Byte) : RawNp Int := do
  own (emit (.execute line) (still_execute line))
  own (npSetCounter 0)
  match findCommand (splitLine line).1 with
  | none => pure (-1)
  | some f => call (memOf (splitLine line).2) f

def readChar : Input → RawNp Unit
  | .line line => if line = [] then pure () else do let _ ← executeLine line
  | .key f => do let _ ← call (memOf []) f
  | _ => pure ()

def reinit : RawNp Unit := do
  let _ ← own initializeNaplink
  own (npSetCounter 0)
  own naplinkCheck
  naplinkProcess
  own (setTimedout false)
  own (npSetProcessing false)

def poll : RawNp Unit := do
  let r ← Prog.get
  if r.timedout then pure ()
  else
    own naplinkCheck
    naplinkProcess
    own (npSetProcessing false)

def readInput (i : Input) : RawNp Unit :=
  if i.ready then do
    let r ← Prog.get
    if r.timedout then
      reinit
      readChar i
    else readChar i
  else pure ()

def processTimes : Nat → RawNp Unit
  | 0 => pure ()
  | n + 1 => do
    naplinkProcess
    processTimes n

def drain : RawNp Unit := do
  let r ← Prog.get
  if r.timedout then pure () else processTimes 10

def turn (i : Input) : RawNp Unit := do
  poll
  readInput i
  drain
  own inactivity

def turns : List Input → RawNp Unit
  | [] => pure ()
  | i :: is => do
    let r ← Prog.get
    if r.doloop then
      turn i
      turns is
    else own (naplinkClose .shut rfl)

def main (inputs : List Input) : RawNp Int := do
  let ret ← own initializeNaplink
  if ret ≠ 0 then pure 1
  else
    own (npSetCounter 0)
    own naplinkCheck
    naplinkProcess
    turns inputs
    pure 0

end Bytes

end Naplink
