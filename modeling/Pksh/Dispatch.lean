import Pksh.Relay

/-! The dispatchers: one packet is read from a descriptor and handed to its
handler. -/

namespace Pksh

open Wire Traced

/-- The cases of the switch that are the same in `pko_srv_read` and
`batch_io_read`. -/
def fileIo : Cmd → Io Unit
  | .open => do let _ ← pkoOpenFile
  | .close => do let _ ← pkoCloseFile
  | .read => do let _ ← pkoReadFile
  | .write => do let _ ← pkoWriteFile
  | .lseek => do let _ ← pkoLseekFile
  | .dopen => do let _ ← pkoOpenDir
  | .dread => do let _ ← pkoReadDir
  | .dclose => do let _ ← pkoCloseDir
  | _ => pure ()

/-- `ntohs` of the `int` field `vpu`. -/
def packetVpu (m : Mem) : Word := (ntohs ((m.word 6).setWidth 16)).setWidth 32

def stopvuCase : Io Unit := do
  let m ← loadPacket
  let _ ← command fun fd => pkoStopVu fd (packetVpu m)

/-- The command cases of the switch. There is no `break` behind `GSEXEC_CMD`. -/
def relay : Cmd → Io Unit
  | .dumpmem => do
    let m ← loadPacket
    let _ ← dumpmem (packetStr m 14) (ntohl (m.word 6)) (ntohl (m.word 10))
  | .dumpregs => do
    let m ← loadPacket
    let _ ← dumpregs (packetStr m 10) (ntohl (m.word 6))
  | .gsexec => do
    let m ← loadPacket
    let _ ← cliGsexec (packetStr m 8)
    stopvuCase
  | .stopvu => stopvuCase
  | .startvu => do
    let m ← loadPacket
    let _ ← command fun fd => pkoStartVu fd (packetVpu m)
  | .execee => do
    let m ← loadPacket
    let _ ← cliExecee (packetStr m 10)
  | .execiop => do
    let m ← loadPacket
    let _ ← cliExeceiop (packetStr m 10)
  | .reset => do let _ ← cliReset
  | _ => pure ()

def switch (cmd : Option Cmd) : Io Unit :=
  match cmd with
  | none => pure ()
  | some c => if c.isFileIo then fileIo c else relay c

/-- The link is gone: close it and connect again. -/
def linkLost (fd : Int) : Io Unit := do
  let _ ← sysClose fd
  let w ← Prog.get
  awaitLink w.os.patience
  closeNetfs

/-- The body of the packet whose header is in `recv_packet`: `hlen` less the
header, which is negative for a length below the header's. -/
def recvBody (fd : Int) : Io Unit := do
  let m ← loadPacket
  let _ ← pkoRecvBytes fd (.recvPacket pktHdrSize) ((ntohs (m.half 4)).toNat - pktHdrSize)

def packetCmd : Io (Option Cmd) := do
  let m ← loadPacket
  pure (Cmd.ofCode (ntohl (m.word 0)))

/-- Both dispatchers: `eof` is what they do at the end of the stream, `keep`
tells which cases their switch has. -/
def packetRead (fd : Int) (eof : Io Int) (keep : Cmd → Bool) : Io Int := do
  let length ← pkoRecvBytes fd (.recvPacket 0) pktHdrSize
  if length.1 < 0 then pure length.1
  else if length.1 = 0 then eof
  else
    let cmd ← packetCmd
    recvBody fd
    switch (cmd.filter keep)
    pure 0

def srvEof (fd : Int) : Io Int := do
  let w ← Prog.get
  if fd = w.pkoSrvFd then
    linkLost fd
    pure 0
  else
    pure (-1)

def pkoSrvRead (fd : Int) : Io Int := packetRead fd (srvEof fd) fun _ => true

/-- The batch tools only serve file requests. -/
def batchIoRead (fd : Int) : Io Int := packetRead fd (pure 0) Cmd.isFileIo

/-- One call of a dispatcher. -/
inductive Server
  | pksh (fd : Int)
  | batch (fd : Int)
deriving DecidableEq, Repr

def Server.fd : Server → Int
  | .pksh fd => fd
  | .batch fd => fd

def Server.read : Server → Io Int
  | .pksh fd => pkoSrvRead fd
  | .batch fd => batchIoRead fd

/-- The calls of a run, each with the state it starts from. -/
def journal : List Server → World → List (Server × World)
  | [], _ => []
  | c :: cs, w => (c, w) :: match (c.read.run w).value with
    | none => []
    | some _ => journal cs (c.read.run w).state

/-- The calls of a run as one program. -/
def serveAll : List Server → Io Unit
  | [] => pure ()
  | c :: cs => do
    let _ ← c.read
    serveAll cs

theorem head_mem_journal (c : Server) (cs : List Server) (w : World) : (c, w) ∈ journal (c :: cs) w :=
  List.mem_cons_self

def Host.refusing : Host where
  malloc _ _ := false
  openFile _ _ _ _ := none
  close _ _ := -1
  read _ _ _ := none
  write _ _ _ := none
  lseek _ _ _ _ := -1
  opendir _ _ := none
  readdir _ _ := (0, [])
  closedir _ _ := -1
  stat _ _ := (false, ⟨0, 0, 0, 0, 0⟩)
  localtime _ _ := none
  socket _ := none
  connect _ _ := some .ECONNREFUSED
  timesOut _ _ := true
  soError _ _ := none
  peer _ _ := .dead .ENOTCONN
  accept _ := none
  stack _ := fun _ => 0
  patience := 0

/-- A connection on which some bytes have arrived and all that is sent is taken. -/
def Sock.delivering (stream : List Byte) : Sock := ⟨⟨Inflow.push stream [], .quiet⟩, ⟨[], .accepts⟩⟩

/-- The state in which the link is up and other descriptors are as given. -/
def World.linked (os : Host) (link : Int) (desc : List (Int × Desc)) : World where
  recvPacket := fun _ => 0
  sendPacket := fun _ => 0
  pkoSrvFd := link
  cmdFd := -1
  ps2NetfsFd := -1
  state := 0
  pathList := []
  os := os
  now := 0
  desc := fun fd => desc.lookup fd
  pkshSrvFd := 5
  logFd := 4

end Pksh
