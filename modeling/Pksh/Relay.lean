import Pksh.Common

/-! The command side: packets sent to the command port of the PS2, and the
connections to it. -/

namespace Pksh

open Wire Traced

def pkoCmdCon : Io Int := do
  let fd ← sysSocket .dgram
  setVars fun v => { v with cmdFd := fd.getD (-1) }
  match fd with
  | none => pure (-1)
  | some fd =>
    let e ← sysConnect fd
    pure (if e.isSome then -1 else fd)

/-- `cmd_listener` behind its call of `socket`. -/
def cmdListenerOn (fd : Int) : Io Int := do
  let e ← sysConnect fd
  match e with
  | none => pure fd
  | some e =>
    if e ≠ .EINPROGRESS then pure (-1)
    else
      let late ← sysSelectConnect fd
      if late then
        let _ ← sysClose fd
        pure (-1)
      else
        let error ← sysSoError fd
        match error with
        | none => pure (-1)
        | some none => pure fd
        | some (some _) =>
          let _ ← sysClose fd
          pure (-1)

def cmdListener : Io Int := do
  let fd ← sysSocket .stream
  match fd with
  | none => pure (-1)
  | some fd => cmdListenerOn fd

/-- `while(1) { sleep(1); pko_srv_fd = cmd_listener(...); if (pko_srv_fd > 0) break; }` -/
def awaitLink : Nat → Io Unit
  | 0 => do
    emit .unlinked rfl
    Prog.hang
  | attempts + 1 => do
    let fd ← cmdListener
    setVars fun v => { v with pkoSrvFd := fd }
    if fd > 0 then pure () else awaitLink attempts

def closeNetfs : Io Unit := do
  let w ← Prog.get
  let _ ← sysClose w.ps2NetfsFd
  setVars fun v => { v with ps2NetfsFd := -1 }

def sendReq (sock : Int) (size : Nat) (fields : List (Nat × List Byte)) : Io Int := do
  let w ← Prog.get
  let req := (w.os.stack w.now).stores fields
  sysSend sock (req.slice 0 size)

def reqHdr (cmd : Word) (len : Nat) : List (Nat × List Byte) :=
  [(0, le32 (htonl cmd)), (4, le16 (htons (BitVec.ofNat 16 len)))]

def pkoDumpmemoryReq (sock : Int) (file : List Byte) (offset size : Word) : Io Int :=
  sendReq sock pktMemioReqSize (reqHdr dumpmemCmd pktMemioReqSize ++
    [(6, le32 (htonl offset)), (10, le32 (htonl size)), (14, strncpy file maxPath)])

def pkoDumpregsReq (sock : Int) (file : List Byte) (regs : Word) : Io Int :=
  sendReq sock pktDumpregsReqSize (reqHdr dumpregsCmd pktDumpregsReqSize ++
    [(6, le32 (htonl regs)), (10, strncpy file maxPath)])

def pkoExeceeReq (sock : Int) (argv : List Byte) (argc : Word) : Io Int :=
  sendReq sock pktExeceeReqSize (reqHdr execeeCmd pktExeceeReqSize ++
    [(6, le32 (htonl argc)), (10, argv ++ [0])])

def pkoExeciopReq (sock : Int) (argv : List Byte) (argc : Word) : Io Int :=
  sendReq sock pktExeciopReqSize (reqHdr execiopCmd pktExeciopReqSize ++
    [(6, le32 (htonl argc)), (10, argv ++ [0])])

/-- The whole of the caller's `argv` array is copied. -/
def pkoGsexecReq (sock : Int) (file : List Byte) (size : Word) : Io Int :=
  sendReq sock pktGsexecReqSize (reqHdr gsexecCmd pktGsexecReqSize ++
    [(6, le16 (htons (size.setWidth 16))), (8, file)])

def pkoResetReq (sock : Int) : Io Int :=
  sendReq sock pktResetReqSize (reqHdr resetCmd pktResetReqSize)

/-- `req.vpu = htons(vpu)` puts a 16-bit value into an `int`. -/
def pkoStopVu (sock : Int) (vpu : Word) : Io Int :=
  sendReq sock pktStopvuReqSize (reqHdr stopvuCmd pktStopvuReqSize ++
    [(6, le32 ((htons (vpu.setWidth 16)).setWidth 32))])

def pkoStartVu (sock : Int) (vpu : Word) : Io Int :=
  sendReq sock pktStartvuReqSize (reqHdr startvuCmd pktStartvuReqSize ++
    [(6, le32 ((htons (vpu.setWidth 16)).setWidth 32))])

/-- Opens a command socket and sends one request on `cmd_fd`. -/
def command (req : Int → Io Int) : Io Int := do
  let _ ← pkoCmdCon
  let w ← Prog.get
  req w.cmdFd

def dumpmem (file : List Byte) (offset size : Word) : Io Int :=
  command fun fd => pkoDumpmemoryReq fd (argPrependHost file) offset size

def dumpregs (file : List Byte) (regs : Word) : Io Int :=
  command fun fd => pkoDumpregsReq fd (argPrependHost file) regs

def cliReset : Io Int := do
  setVars fun v => { v with state := 0 }
  let _ ← command pkoResetReq
  closeNetfs
  pure 0

def cliReconnect : Io Int := do
  let w ← Prog.get
  let _ ← sysClose w.pkoSrvFd
  let fd ← cmdListener
  setVars fun v => { v with pkoSrvFd := fd }
  closeNetfs
  pure 0

def cliGsexec (arg : List Byte) : Io Int := do
  let arg := trimInPlace arg
  let size ← sizeFile arg
  if size > 16384 then pure (-1)
  else if size = 0 then pure (-1)
  else
    let w ← Prog.get
    let argv := (fixCmdArg w.isFile arg).1
    let file := ((w.os.stack w.now).store 0 argv).slice 0 maxPath
    let _ ← command fun fd => pkoGsexecReq fd file (cWord size)
    pure 0

def cliExeceiop (arg : List Byte) : Io Int := do
  setVars fun v => { v with state := 1 }
  let w ← Prog.get
  let argv := fixCmdArg w.isFile arg
  let _ ← command fun fd => pkoExeciopReq fd argv.1 (BitVec.ofNat 32 argv.2)
  pure 0

/-- The part of `cli_execee` that is run when something was executed before. -/
def resetAndReconnect : Io Unit := do
  let _ ← cliReset
  let w ← Prog.get
  let _ ← sysClose w.pkoSrvFd
  awaitLink w.os.patience

def execee (arg : List Byte) : Io Int := do
  setVars fun v => { v with state := 1 }
  let w ← Prog.get
  let argv := fixCmdArg w.isFile arg
  let _ ← command fun fd => pkoExeceeReq fd argv.1 (BitVec.ofNat 32 argv.2)
  pure 0

def cliExecee (arg : List Byte) : Io Int := do
  let w ← Prog.get
  if w.state = 1 then
    resetAndReconnect
    execee arg
  else
    execee arg

end Pksh
