import Pksh.Lib.Watch
import Pksh.Common

/-! The NapLink side: packets over USB, the dispatcher that serves the requests
of the PS2, and the commands it sends when the PS2 asks for one. -/

namespace Naplink

open Wire Traced Pksh

def packetReset : Word := 0x004d704e
def packetExecps2 : Word := 0x014d704e
def packetExeciop : Word := 0x024d704e
def packetQuit : Word := 0x034d704e
def packetBenchmark : Word := 0x044d704e

def packetOpen : Word := 0x104d704e
def packetClose : Word := 0x114d704e
def packetRead : Word := 0x124d704e
def packetWrite : Word := 0x134d704e
def packetLseek : Word := 0x144d704e
def packetWazzup : Word := 0x154d704e

def packetReturn : Word := 0x204d704e

def packetTypes : List Word :=
  [packetOpen, packetClose, packetRead, packetWrite, packetLseek, packetWazzup, packetReturn]

/-- A packet from the PS2 with the fields of its struct, or one of a type that
the dispatcher does not know. -/
inductive Packet
  | «open» (flags : Word) (pathname : List Byte)
  | close (fd : Int)
  | read (fd count : Int)
  | write (fd count : Int) (data : List Byte)
  | lseek (fd offset whence : Int)
  | wazzup
  | ret (rv : Int) (data : List Byte)
  | bad (type : {t : Word // t ∉ packetTypes})
deriving DecidableEq

namespace Packet

/-- The packets that ask for a file operation. -/
def isRequest : Packet → Bool
  | .open _ _ | .close _ | .read _ _ | .write _ _ _ | .lseek _ _ _ => true
  | _ => false

def isReturn : Packet → Bool
  | .ret _ _ => true
  | _ => false

end Packet

/-- A packet for the PS2; `size` bytes of the body are sent. -/
structure Sent where
  type : Word
  size : Nat
  body : List Byte
deriving DecidableEq

/-- The values of `commandWaiting` besides 0. -/
inductive Command
  | reset | execps2 | execiop | quit | benchmark
deriving DecidableEq, Repr

def Command.type : Command → Word
  | .reset => packetReset
  | .execps2 => packetExecps2
  | .execiop => packetExeciop
  | .quit => packetQuit
  | .benchmark => packetBenchmark

theorem Command.type_ne_return (c : Command) : c.type ≠ packetReturn := by
  cases c <;> decide

/-- What the operating system and the USB device answer, call by call. -/
structure Host where
  /-- Whether a supported device is found. -/
  device : Nat → Bool
  /-- Whether the peer is still there. -/
  peer : Nat → Bool
  /-- Whether the PS2 asks for a transfer. -/
  txReq : Nat → Bool
  openFile : Nat → List Byte → Word → Int
  close : Nat → Int → Int
  read : Nat → Int → Int → Option (List Byte)
  write : Nat → Int → List Byte → Option Nat
  lseek : Nat → Int → Int → Int → Int
  isFile : Nat → List Byte → Bool
  /-- What `malloc` leaves in the memory it returns. -/
  heap : Nat → Mem

/-- The globals that the modelled functions assign. `commandBuffer` is null or
points to `cmd`. -/
structure Vars where
  commandWaiting : Option Command
  commandBuffer : Bool
  benchmarking : Bool
  counter : Word
  processing : Bool
  doloop : Bool
  timedout : Bool
  cmd : Mem

/-- The packets still to come are in the order in which the PS2 sends them. -/
structure World extends Vars where
  os : Host
  now : Nat
  incoming : List Packet
  timeout : Word
  pathList : List (List Byte)

def World.tick (w : World) : World := { w with now := w.now + 1 }

inductive Act
  | recv (p : Packet)
  /-- The dispatcher turns to a packet it has received. -/
  | process (p : Packet)
  | send (p : Sent)
  | openFile (path : List Byte) (flags : Word) (ret : Int)
  | close (fd : Int) (ret : Int)
  | read (fd count : Int) (ret : Option (List Byte))
  | write (fd : Int) (bytes : List Byte) (ret : Option Nat)
  | lseek (fd offset whence : Int) (ret : Int)
  /-- A transfer that is left out while a benchmark is running. -/
  | sham (count : Int) (data : List Byte)
  /-- `get_return` got something else. -/
  | unexpected (p : Packet)
  | setCommand (c : Command)
  | execute (line : List Byte)
  | linkUp (found : Bool)
  | peerAway
  /-- The link is closed for inactivity. -/
  | expire
  | shut
  /-- A wait for a packet that never comes. -/
  | waits
deriving DecidableEq

/-- The packets taken from the device. -/
def received (as : List Act) : List Packet :=
  as.filterMap fun
    | .recv p => some p
    | _ => none

/-- The configuration never changes, and each packet is taken once, in order. -/
structure Fed (w : World) (as : List Act) (w' : World) : Prop where
  os : w'.os = w.os
  timeout : w'.timeout = w.timeout
  pathList : w'.pathList = w.pathList
  incoming : received as ++ w'.incoming = w.incoming

instance : Chains Fed where
  nil _ := ⟨rfl, rfl, rfl, rfl⟩
  append h h' :=
    { os := h'.os.trans h.os
      timeout := h'.timeout.trans h.timeout
      pathList := h'.pathList.trans h.pathList
      incoming := by rw [received, List.filterMap_append, List.append_assoc, ← h.incoming, ← h'.incoming]; rfl }

abbrev Np := Prog Fed

variable {α : Type}

/-- Everything but taking a packet. -/
def Act.still : Act → Bool
  | .recv _ => false
  | _ => true

theorem Fed.of_still {w w' : World} {as : List Act} (ho : w'.os = w.os) (ht : w'.timeout = w.timeout)
    (hp : w'.pathList = w.pathList) (hi : w'.incoming = w.incoming) (h : as.all Act.still = true) : Fed w as w' where
  os := ho
  timeout := ht
  pathList := hp
  incoming := by
    have hr : received as = [] := by
      rw [received, List.filterMap_eq_nil_iff]
      intro a ha
      cases a with
      | recv p => cases List.all_eq_true.mp h _ ha
      | _ => rfl
    rw [hr, hi]
    rfl

def emit (a : Act) (h : a.still = true) : Np Unit :=
  ⟨fun w => ⟨some (), w, [a]⟩, fun _ => .of_still rfl rfl rfl rfl (by simpa using h)⟩

def setVars (f : Vars → Vars) : Np Unit :=
  ⟨fun w => ⟨some (), { w with toVars := f w.toVars }, []⟩, fun _ => .of_still rfl rfl rfl rfl rfl⟩

/-- A call whose answer only depends on the state. -/
def asks (answer : World → α) (act : α → List Act) (h : ∀ a, (act a).all Act.still = true) : Np α :=
  ⟨fun w => ⟨some (answer w), w.tick, act (answer w)⟩, fun _ => .of_still rfl rfl rfl rfl (h _)⟩

def sysOpen (path : List Byte) (flags : Word) : Np Int :=
  asks (fun w => w.os.openFile w.now path flags) (fun r => [.openFile path flags r]) fun _ => rfl

def sysClose (fd : Int) : Np Int :=
  asks (fun w => w.os.close w.now fd) (fun r => [.close fd r]) fun _ => rfl

def sysRead (fd count : Int) : Np (Option (List Byte)) :=
  asks (fun w => (w.os.read w.now fd count).map (·.take count.toNat)) (fun r => [.read fd count r]) fun _ => rfl

def sysWrite (fd : Int) (bytes : List Byte) : Np (Option Nat) :=
  asks (fun w => (w.os.write w.now fd bytes).map (min · bytes.length)) (fun r => [.write fd bytes r]) fun _ => rfl

def sysLseek (fd offset whence : Int) : Np Int :=
  asks (fun w => w.os.lseek w.now fd offset whence) (fun r => [.lseek fd offset whence r]) fun _ => rfl

def recvPacket : Np Packet where
  run w :=
    match w.incoming with
    | [] => ⟨none, w, [.waits]⟩
    | p :: rest => ⟨some p, { w with incoming := rest }, [.recv p]⟩
  keeps w := by
    split
    · exact .of_still rfl rfl rfl rfl rfl
    · rename_i p rest h
      exact ⟨rfl, rfl, rfl, h.symm⟩

def sendPacket (p : Sent) : Np Unit := emit (.send p) rfl

/-- `get_return` without a buffer for the data. -/
def getReturn : Np Int := do
  let ph ← recvPacket
  match ph with
  | .ret rv _ => pure rv
  | ph => do
    emit (.unexpected ph) rfl
    pure (-1)

/-- The bytes of a packet that returns `rv` with `count` bytes of data. -/
def returnPacket (rv : Int) (data : List Byte) (count : Int) : Sent :=
  { type := packetReturn
    size := 4 + count.toNat
    body := le32 (cWord rv) ++ data.take count.toNat }

def doReturn (rv : Int) (data : List Byte) (count : Int) : Np Unit := sendPacket (returnPacket rv data count)

/-- A command is sent, and its return value waited for. -/
def exchange (p : Sent) : Np Int := do
  sendPacket p
  getReturn

def doReset : Np Int := exchange { type := packetReset, size := 0, body := [] }

def doQuit : Np Int := exchange { type := packetQuit, size := 0, body := [] }

/-- `do_execps2` and `do_execiop`. -/
def doExec (type : Word) (filename : Option (List Byte)) : Np Int :=
  match filename with
  | none => pure (-1)
  | some filename => exchange { type, size := filename.length + 1, body := filename ++ [0] }

def doExecps2 (filename : Option (List Byte)) : Np Int := doExec packetExecps2 filename

def doExeciop (filename : Option (List Byte)) : Np Int := doExec packetExeciop filename

def npSetCounter (n : Word) : Np Unit := setVars fun v => { v with counter := n }

def npUpdateCounter : Np Unit := setVars fun v => { v with counter := v.counter + 1 }

def npSetProcessing (n : Bool) : Np Unit := setVars fun v => { v with processing := n }

/-- `MAXPATHLEN`. -/
def maxPathLen : Nat := 4096

def devTty : List Byte := str "/dev/tty"

/-- The flag bits with their values on a Linux host. -/
def pcFlags (flags : Word) : Word :=
  let bit (ps2 host : Word) : Word := if flags &&& ps2 = 0 then 0 else host
  bit 1 0x0 ||| bit 2 0x1 ||| bit 0x100 0x400 ||| bit 0x200 0x40 ||| bit 0x400 0x200

/-- The loop over `path_list`, behind an `open` that failed. -/
def openAlong (pathname : List Byte) (flags : Word) : List (List Byte) → Np Int
  | [] => pure (-1)
  | dir :: dirs => do
    let rv ← sysOpen (dir ++ slash :: pathname) flags
    if rv ≠ -1 then pure rv else openAlong pathname flags dirs

def openPath (pathname : List Byte) (flags : Word) : Np Int := do
  let rv ← sysOpen pathname flags
  if rv = -1 then
    let w ← Prog.get
    openAlong pathname flags w.pathList
  else pure rv

/-- The bytes that a `write` of `count` finds at the data of its packet. -/
def payload (heap : Mem) (count : Int) (data : List Byte) : List Byte := (heap.store 0 data).slice 0 count.toNat

def processOpen (flags : Word) (pathname : List Byte) : Np Unit := do
  npSetProcessing true
  npSetCounter 0
  let rv ← if pathname = devTty then pure 1 else openPath pathname (pcFlags flags)
  doReturn rv [] 0

def processClose (fd : Int) : Np Unit := do
  npSetProcessing false
  npSetCounter 0
  let rv ← if fd ≤ 2 then pure 0 else sysClose fd
  doReturn rv [] 0

def processRead (fd count : Int) : Np Unit := do
  npSetCounter 0
  let w ← Prog.get
  if w.benchmarking then
    let buffer2 := (w.os.heap w.now).slice 0 count.toNat
    emit (.sham count buffer2) rfl
    doReturn count buffer2 count
  else
    let r ← sysRead fd count
    match r with
    | none => doReturn (-1) [] (-1)
    | some buffer2 => doReturn buffer2.length buffer2 buffer2.length

def processWrite (fd count : Int) (data : List Byte) : Np Unit := do
  npSetCounter 0
  let w ← Prog.get
  if w.benchmarking then
    emit (.sham count []) rfl
    doReturn count [] 0
  else
    let r ← sysWrite fd (payload (w.os.heap w.now) count data)
    doReturn (r.elim (-1) fun n => (n : Int)) [] 0

def processLseek (fd offset whence : Int) : Np Unit := do
  npSetCounter 0
  let rv ← sysLseek fd offset whence
  doReturn rv [] 0

/-- The string that `commandBuffer` points to. -/
def World.buffered (w : World) : Option (List Byte) :=
  if w.commandBuffer then some (w.cmd.cstr 0 maxPathLen) else none

/-- The switch over `commandWaiting`. -/
def sendCommand (benchmark : Np Unit) (commandBuffer : Option (List Byte)) : Option Command → Np Unit
  | none => doReturn 0 [] 0
  | some .reset => do let _ ← doReset
  | some .execps2 => do let _ ← doExecps2 commandBuffer
  | some .execiop => do let _ ← doExeciop commandBuffer
  | some .quit => do let _ ← doQuit
  | some .benchmark => benchmark

def clearCommand : Np Unit := setVars fun v => { v with commandWaiting := none }

/-- The command that is waiting, in answer to the question whether there is one. -/
def answerWazzup (benchmark : Np Unit) : Np Unit := do
  let w ← Prog.get
  sendCommand benchmark w.buffered w.commandWaiting
  clearCommand

def countWazzup : Np Unit := do
  let w ← Prog.get
  if w.processing then pure () else npUpdateCounter

def processWazzup (benchmark : Np Unit) : Np Unit := do
  countWazzup
  answerWazzup benchmark

def processPacket (benchmark : Np Unit) : Packet → Np Unit
  | .open flags pathname => processOpen flags pathname
  | .close fd => processClose fd
  | .read fd count => processRead fd count
  | .write fd count data => processWrite fd count data
  | .lseek fd offset whence => processLseek fd offset whence
  | .wazzup => processWazzup benchmark
  | .ret _ _ => pure ()
  | .bad _ => pure ()

/-- `recv_and_process_packet` with what it does to run a benchmark. The value
is the packet, for its type. -/
def recvAndProcess (benchmark : Np Unit) : Np Packet := do
  let packet ← recvPacket
  emit (.process packet) rfl
  processPacket benchmark packet
  pure packet

/-- `do_benchmark`, given the loop that waits for the end of the test. -/
def doBenchmarkWith (loop : Np Unit) : Np Unit := do
  sendPacket { type := packetBenchmark, size := 0, body := [] }
  setVars fun v => { v with benchmarking := true }
  loop
  setVars fun v => { v with benchmarking := false }

/-- The loop of `do_benchmark`. Every round takes a packet, also the rounds of
a benchmark within it, so as many rounds as there are packets are enough. -/
def benchmarkLoop : Nat → Np Unit
  | 0 => do
    emit .waits rfl
    Prog.hang
  | rounds + 1 => do
    let i ← recvAndProcess (doBenchmarkWith (benchmarkLoop rounds))
    if i.isReturn then pure () else benchmarkLoop rounds

def recvAndProcessPacket : Np Packet := do
  let w ← Prog.get
  recvAndProcess (doBenchmarkWith (benchmarkLoop w.incoming.length))

/-- `CHECK_QLF(hnd, TX_REQ)` -/
def checkTxReq : Np Bool := asks (fun w => w.os.txReq w.now) (fun _ => []) fun _ => rfl

def naplinkProcess : Np Unit := do
  let tx ← checkTxReq
  if tx then
    let _ ← recvAndProcessPacket
  else pure ()

end Naplink
