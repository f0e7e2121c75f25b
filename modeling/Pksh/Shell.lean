import Pksh.Netfs
import Pksh.Copying
import Pksh.Dispatch
import Mathlib.Data.Finset.Basic

/-! The commands typed at the prompt of pksh. -/

namespace Pksh

open Wire Traced

def netdumpCmd : Word := 0xbabe0206
def scrdumpCmd : Word := 0xbabe0205
def writememCmd : Word := 0xbabe020c

def maxpathlen : Nat := 4096

/-- `device` and `filename` behind `split_filename`. -/
def splitFilename (arg : List Byte) : List Byte × List Byte :=
  match strstr (str ":") arg with
  | none => ([], arg)
  | some ptr =>
    let n := arg.length - ptr.length
    (if n > maxpathlen then [] else arg.take (n + 1), ptr.drop 1)

def maxArgv : Nat := 256

/-- The loop of `build_argv`, whose count is one too high when it runs out. -/
def buildArgvLoop : Nat → List Byte → List (List Byte) × Nat
  | 0, _ => ([], 1)
  | n + 1, aptr =>
    let word := aptr.takeWhile (· ≠ space)
    let rest := (aptr.dropWhile (· ≠ space)).dropWhile (· = space)
    if rest = [] then ([word], 1)
    else
      let r := buildArgvLoop n rest
      (word :: r.1, r.2 + 1)

def buildArgv (arg : List Byte) : List (List Byte) × Nat := if arg = [] then ([], 0) else buildArgvLoop maxArgv arg

def fromSpace (s : List Byte) : Option (List Byte) := strstr [space] s

def digitValue (b : Byte) : Nat :=
  if 0x30 ≤ b ∧ b ≤ 0x39 then b.toNat - 0x30
  else if 0x61 ≤ b ∧ b ≤ 0x7a then b.toNat - 0x61 + 10
  else if 0x41 ≤ b ∧ b ≤ 0x5a then b.toNat - 0x41 + 10
  else 36

def isSpace (b : Byte) : Bool := b = space || (0x09 ≤ b && b ≤ 0x0d)

/-- The digits at the start of a string, as a number. -/
def digits (base : Nat) (s : List Byte) : Nat :=
  (s.takeWhile fun b => digitValue b < base).foldl (fun n b => n * base + digitValue b) 0

/-- A number without its sign; base 0 stands for the base the number shows. -/
def unsignedNumber (base : Nat) (s : List Byte) : Nat :=
  let hex := (s.take 2 = str "0x" ∨ s.take 2 = str "0X") ∧ digitValue (s.getD 2 0) < 16
  if base = 0 then
    if hex then digits 16 (s.drop 2) else if s.head? = some 0x30 then digits 8 s else digits 10 s
  else digits base s

/-- `strtol` with a 64-bit `long`. -/
def strtol (base : Nat) (s : List Byte) : Int :=
  let s := s.dropWhile isSpace
  match s with
  | 0x2d :: s => max (-(unsignedNumber base s : Int)) (-2 ^ 63)
  | 0x2b :: s => min (unsignedNumber base s : Int) (2 ^ 63 - 1)
  | s => min (unsignedNumber base s : Int) (2 ^ 63 - 1)

/-- `!strncmp(s, t, n)` -/
def strncmpEq (s t : List Byte) (n : Nat) : Bool := (s ++ [0]).take n = (t ++ [0]).take n

/-- The entries of `DUMP_REG_SYM` before `DUMP_REG_MAX`. -/
def dumpRegSym : List (List Byte) :=
  [str "dma", str "intc", str "timer", str "gs", str "sif", str "fifo", str "gif", str "vif0", str "vif1",
    str "ipu", str "all", str "vu0"]

def getRegisterIndex (s : List Byte) (size : Nat) : Nat := dumpRegSym.findIdx fun sym => strncmpEq s sym size

def pkoDump2pcReq (sock : Int) : Io Int := sendReq sock pktHdrSize (reqHdr netdumpCmd pktHdrSize)

def pkoDump2screenReq (sock : Int) : Io Int := sendReq sock pktHdrSize (reqHdr scrdumpCmd pktHdrSize)

def pkoPoweroffReq (sock : Int) : Io Int := sendReq sock pktHdrSize (reqHdr poweroffCmd pktHdrSize)

def pkoWritememReq (sock : Int) (file : List Byte) (offset size : Word) : Io Int :=
  sendReq sock pktMemioReqSize (reqHdr writememCmd pktMemioReqSize ++
    [(6, le32 (htonl offset)), (10, le32 (htonl size)), (14, strncpy file maxPath)])

def cliDumpregs (arg : List Byte) : Io Int := do
  let arg := trimInPlace arg
  match fromSpace arg with
  | none => pure (-1)
  | some ptr =>
    let n := arg.length - ptr.length
    let _ ← dumpregs (arg.take n) (BitVec.ofNat 32 (getRegisterIndex (ptr.drop 1) n))
    pure 0

/-- What `trim(s)` returns. -/
def trim (s : List Byte) : List Byte := (trimInPlace s).dropWhile (· = space)

def cliDumpmem (arg : List Byte) : Io Int := do
  let arg := trimInPlace arg
  match fromSpace arg with
  | none => pure (-1)
  | some ptr =>
    match fromSpace (trim ptr) with
    | none => pure (-1)
    | some ptr' =>
      let _ ← dumpmem (arg.take (arg.length - ptr.length)) (cWord (strtol 0 ptr)) (cWord (strtol 0 ptr'))
      pure 0

def cliException (arg : List Byte) : Io Int := do
  let _ ← command fun fd =>
    if trimInPlace arg = str "console" then pkoDump2pcReq fd
    else if trimInPlace arg = str "screen" then pkoDump2screenReq fd
    else pure 0
  pure 0

/-- `cli_vustart` and `cli_vustop`. -/
def cliVu (req : Int → Word → Io Int) (arg : List Byte) : Io Int := do
  let vpu := cWord (strtol 10 arg)
  let _ ← command fun fd => if vpu ≠ 0 ∧ vpu ≠ 1 then pure (-1) else req fd vpu
  pure 0

def cliVustart (arg : List Byte) : Io Int := cliVu pkoStartVu arg

def cliVustop (arg : List Byte) : Io Int := cliVu pkoStopVu arg

def cliPoweroff : Io Int := do
  let _ ← command pkoPoweroffReq
  pure 0

def seekSet : Int := 0
def seekEnd : Int := 2

def seekSize (file : List Byte) : Io Int := do
  let fd ← sysOpen file 0 0
  let size ← sysLseek fd 0 seekEnd
  let _ ← sysClose fd
  pure size

def cliWritemem (arg : List Byte) : Io Int := do
  let arg := trimInPlace arg
  match fromSpace arg with
  | none => pure (-1)
  | some ptr =>
    let file := arg.take (arg.length - ptr.length)
    let size ← seekSize file
    let _ ← command fun sock => pkoWritememReq sock (argPrependHost file) (cWord (strtol 0 ptr)) (cWord size)
    pure 0

def ps2netfsOpen : Io Int := cmdListener

/-- `ps2_netfs_fd = ps2netfs_open(...)` -/
def openNetfs : Io Unit := do
  let fd ← ps2netfsOpen
  setVars fun v => { v with ps2NetfsFd := fd }
  emit (.netfs fd) rfl

def reopenNetfs : Io Unit := do
  let w ← Prog.get
  if w.ps2NetfsFd < 0 then openNetfs else pure ()

/-- Every command opens the connection when there is none, and gives up when
there is still none. -/
def withNetfs (m : Io Int) : Io Int := do
  reopenNetfs
  let w ← Prog.get
  if w.ps2NetfsFd < 0 then pure 0 else m

/-- The loop over `ps2netfs_req_dread`. -/
def listEntries (fd : Word) : Nat → Io Unit
  | 0 => Prog.hang
  | rounds + 1 => do
    let ret ← ps2netfsReqDread fd
    if ret.1 > 0 then listEntries fd rounds else pure ()

def listDir (arg : List Byte) : Io Int := do
  let fd ← ps2netfsReqDopen arg
  if fd < 0 then
    closeNetfs
    pure (-1)
  else
    let w ← Prog.get
    listEntries (cWord fd) w.os.patience
    if fd > 0 then
      let _ ← ps2netfsReqDclose (cWord fd)
      pure 0
    else pure 0

/-- The commands for a device and, with `system`, for the host. -/
def onDevice (arg : List Byte) (m : Io Int) : Io Int := if (splitFilename arg).1 ≠ [] then withNetfs m else pure 0

def cliList (arg : List Byte) : Io Int := onDevice arg (listDir arg)

/-- The string behind a pointer that was given back: whatever is there. -/
def freedStr (i : Nat) : Io (List Byte) := do
  let w ← Prog.get
  pure ((w.os.stack w.now).cstr (i * maxpathlen) maxpathlen)

/-- PS2 to host, with `argv` freed before. -/
def copyFrom : Io Int := do
  let fd0 ← sysOpen (← freedStr 1) hostCopyFlags 0o644
  if fd0 < 0 then pure (-1)
  else
    let fd1 ← ps2netfsReqOpen (← freedStr 0) 0x0001
    if fd1 < 0 then pure (-1)
    else
      let size ← ps2netfsReqLseek (cWord fd1) 0 (cWord seekEnd)
      let _ ← ps2netfsReqLseek (cWord fd1) 0 (cWord seekSet)
      let w ← Prog.get
      fetchLoop (do let r ← ps2netfsReqRead (cWord fd1) (BitVec.ofNat 32 blockSize); pure r.2)
        (fun bytes => do let _ ← sysWrite fd0 bytes) size.toNat (w.os.stack w.now) size
      let _ ← ps2netfsReqClose (cWord fd1)
      let _ ← sysClose fd0
      pure 0

def copyTo : Io Int := do
  let fd0 ← sysOpen (← freedStr 0) 0 0
  if fd0 < 0 then pure (-1)
  else
    let fd1 ← ps2netfsReqOpen (← freedStr 1) ps2CopyFlags
    if fd1 < 0 then pure (-1)
    else
      let size ← sysLseek fd0 0 seekEnd
      let _ ← sysLseek fd0 0 seekSet
      let w ← Prog.get
      sendLoop (sysRead fd0 blockSize) (fun buffer n => ps2netfsReqWrite (cWord fd1) buffer (cWord n)) Prog.hang
        w.os.patience (w.os.stack w.now) size 0
      let _ ← ps2netfsReqClose (cWord fd1)
      let _ ← sysClose fd0
      pure 0

def cliCopy (arg : List Byte) : Io Int :=
  let argv := buildArgv arg
  if argv.2 < 2 then pure 0
  else if (splitFilename (argv.1.getD 0 [])).1 ≠ [] then withNetfs copyFrom
  else if (splitFilename (argv.1.getD 1 [])).1 ≠ [] then withNetfs copyTo
  else pure 0

def cliDevlist : Io Int := withNetfs do
  let _ ← ps2netfsReqDevlist
  pure 0

def cliPs2umount (arg : List Byte) : Io Int := withNetfs (ps2netfsReqUmount arg 0)

def cliPs2sync (arg : List Byte) : Io Int := withNetfs do
  let _ ← ps2netfsReqSync arg 0
  pure 0

def cliRmdir (arg : List Byte) : Io Int := onDevice arg do
  let _ ← ps2netfsReqRmdir arg
  pure 0

def cliPs2format (arg : List Byte) : Io Int := withNetfs do
  let _ ← ps2netfsReqFormat (some arg) 0
  pure 0

def cliMkdir (arg : List Byte) : Io Int := onDevice arg do
  let _ ← ps2netfsReqMkdir arg
  pure 0

/-- What is sent is a delete. -/
def cliRename (arg : List Byte) : Io Int := onDevice arg do
  let _ ← ps2netfsReqDelete (some arg) 0
  pure 0

def cliPs2mount (arg : List Byte) : Io Int := withNetfs do
  let _ ← ps2netfsReqMount (splitFilename arg).1 (splitFilename arg).2 0 [] 0
  pure 0

/-- The functions of the command table, and `cli_reconnect`, which is not in it. -/
inductive CliFunc
  | help | cd | debug | dumpmem | dumpregs | quit | execee | exception | execeiop | gsexec | list | log | make
  | poweroff | pwd | reset | setroot | status | verbose | vustart | vustop | writemem | copy | devlist
  | ps2format | mkdir | ps2mount | rmdir | rename | ps2sync | ps2umount | reconnect
deriving DecidableEq, Repr

def commands : List (List Byte × CliFunc) :=
  [(str "?", .help), (str "cd", .cd), (str "debug", .debug), (str "dumpmem", .dumpmem), (str "dumpreg", .dumpregs),
    (str "exit", .quit), (str "eeexec", .execee), (str "exception", .exception), (str "execee", .execee),
    (str "execiop", .execeiop), (str "execgs", .gsexec), (str "gsexec", .gsexec), (str "help", .help),
    (str "iopexec", .execeiop), (str "list", .list), (str "log", .log), (str "ls", .list), (str "make", .make),
    (str "poweroff", .poweroff), (str "pwd", .pwd), (str "quit", .quit), (str "reset", .reset),
    (str "setroot", .setroot), (str "status", .status), (str "verbose", .verbose), (str "vustart", .vustart),
    (str "vustop", .vustop), (str "writemem", .writemem), (str "cp", .copy), (str "devlist", .devlist),
    (str "format", .ps2format), (str "mkdir", .mkdir), (str "ps2mount", .ps2mount), (str "rmdir", .rmdir),
    (str "rm", .rename), (str "ps2sync", .ps2sync), (str "ps2umount", .ps2umount)]

def findCommand (name : List Byte) : Option CliFunc := (commands.find? fun c => c.1 = name).map Prod.snd

/-- The variables of `main`, and the globals that only typed commands assign. -/
structure Session where
  client : Nat → Int
  maxi : Nat
  masterSet : Finset Int
  readset : Finset Int
  doloop : Bool
  logToFile : Bool
  logFFd : Int

/-- `O_WRONLY`, `O_CREAT` and `O_TRUNC`. -/
def logFlags : Word := 0x241

def cliLog (arg : List Byte) (s : Session) : Io Session :=
  let arg := trimInPlace arg
  if arg = str "stdout" ∨ arg = [] then
    if s.logToFile then do
      let _ ← sysClose s.logFFd
      pure { s with logToFile := false }
    else pure { s with logToFile := false }
  else do
    let fd ← sysOpen arg logFlags 0o644
    pure { s with logToFile := true, logFFd := fd }

/-- The functions that leave the session alone; the rest of them do nothing
about descriptors. -/
def CliFunc.run (arg : List Byte) : CliFunc → Io Int
  | .dumpmem => cliDumpmem arg
  | .dumpregs => cliDumpregs arg
  | .execee => cliExecee arg
  | .exception => cliException arg
  | .execeiop => cliExeceiop arg
  | .gsexec => cliGsexec arg
  | .list => cliList arg
  | .poweroff => cliPoweroff
  | .reset => cliReset
  | .vustart => cliVustart arg
  | .vustop => cliVustop arg
  | .writemem => cliWritemem arg
  | .copy => cliCopy arg
  | .devlist => cliDevlist
  | .ps2format => cliPs2format arg
  | .mkdir => cliMkdir arg
  | .ps2mount => cliPs2mount arg
  | .rmdir => cliRmdir arg
  | .rename => cliRename arg
  | .ps2sync => cliPs2sync arg
  | .ps2umount => cliPs2umount arg
  | .reconnect => cliReconnect
  | _ => pure 0

def CliFunc.call (arg : List Byte) (s : Session) : CliFunc → Io Session
  | .quit => pure { s with doloop := false }
  | .log => cliLog arg s
  | f => do
    let _ ← f.run arg
    pure s

/-- Other lines are left to `system`. -/
def executeLine (line : List Byte) (s : Session) : Io Session :=
  match findCommand (splitLine line).1 with
  | none => pure s
  | some f => f.call (splitLine line).2 s

end Pksh
