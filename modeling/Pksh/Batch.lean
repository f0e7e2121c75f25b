import Pksh.Connecting
import Pksh.DumpReg
import Pksh.Eeexec
import Pksh.Shell

/-! The batch tools, up to the request they send: to a running pksh, or to the
PS2 when there is none. -/

namespace Pksh

open Wire Traced

/-- What is left in `*sock`, and the result. -/
def ps2linkOpen : Io (Int × Int) := do
  let sock ← sysSocket .stream
  let e ← sysConnect (sock.getD (-1))
  pure (sock.getD (-1), if e.isSome then -1 else 0)

/-- `close(sock)`, then the request on a command socket of its own. -/
def direct (sock : Int) (req : Int → Io Int) : Io Int := do
  let _ ← sysClose sock
  command req

/-- `strtol` finds a number, so that `end_ptr` is not where the string starts. -/
def isNumber (s : List Byte) : Bool :=
  match s.dropWhile isSpace with
  | 0x2d :: s => digitValue (s.headD 0) < 10
  | 0x2b :: s => digitValue (s.headD 0) < 10
  | s => digitValue (s.headD 0) < 10

def eeexec (cwd path : List Byte) (args : List (List Byte)) : Io Int := do
  let a ← ps2linkOpen
  setVars fun v => { v with cmdFd := a.1 }
  if a.2 < 0 then
    let w ← Prog.get
    let _ ← sysClose w.cmdFd
    let b ← ps2linkOpen
    setVars fun v => { v with cmdFd := b.1 }
    if b.2 < 0 then pure (-1) else execDirect cwd path args
  else execLocal cwd path args

/-- The arguments are counted and not sent. Both requests go to `cmd_fd`, which
is not the socket that `ps2link_open` made. -/
def iopexec (cwd path : List Byte) (args : List (List Byte)) : Io Int := do
  let a ← ps2linkOpen
  if a.2 < 0 then
    let _ ← sysClose a.1
    let b ← ps2linkOpen
    if b.2 < 0 then pure (-1)
    else direct b.1 fun fd => pkoExeciopReq fd (execFile cwd path []) (BitVec.ofNat 32 args.length)
  else
    let w ← Prog.get
    pkoExeciopReq w.cmdFd (execFile cwd path []) 1

/-- `sock` is given what `ps2link_open` returns. -/
def dumpmemMain (cwd path offset size : List Byte) : Io Int := do
  let a ← ps2linkOpen
  let req := fun fd => pkoDumpmemoryReq fd (execFile cwd path []) (cWord (strtol 0 offset)) (cWord (strtol 0 size))
  if a.2 < 0 then
    let b ← ps2linkOpen
    setVars fun v => { v with cmdFd := b.1 }
    if b.2 < 0 then pure (-1)
    else if !isNumber offset || !isNumber size then pure 0
    else direct b.2 req
  else if !isNumber offset || !isNumber size then pure 0
  else req a.2

/-- Whether a word of options ends with `h`, so that the next word is its argument. -/
def wantsArgument (letters : List Byte) : Bool :=
  letters.findIdx? (· = 0x68) == some (letters.length - 1)

/-- What `getopt(argc, argv, "h:")` leaves: words with a minus sign are options,
a negative number as well, up to the word `--`. -/
def operands : List (List Byte) → List (List Byte)
  | [] => []
  | (0x2d :: c :: letters) :: words =>
    if c = 0x2d ∧ letters = [] then words
    else if wantsArgument (c :: letters) then
      match words with
      | [] => []
      | _ :: words => operands words
    else operands words
  | word :: words => word :: operands words

/-- The tool on the words behind its name: it looks for three operands, and
reads a null pointer where there are fewer. -/
def dumpmemTool (cwd : List Byte) (words : List (List Byte)) : Option (Io Int) :=
  if words = [] then some (pure 0)
  else match operands words with
    | path :: offset :: size :: _ => some (dumpmemMain cwd path offset size)
    | _ => none

/-- Here `sock` is given the result of the first call only. -/
def dumpregMain (cwd path regs : List Byte) : Io Int := do
  let a ← ps2linkOpen
  if a.2 < 0 then
    let b ← ps2linkOpen
    if b.2 < 0 then pure (-1) else dumpregTool false b.1 cwd path regs
  else dumpregTool true a.2 cwd path regs

/-- The request for the PS2 goes out on the stream as well. -/
def gsexec (cwd path size : List Byte) : Io Int := do
  let a ← ps2linkOpen
  let req := fun fd => pkoGsexecReq fd (strncpy (execFile cwd path []) maxPath) (cWord (strtol 0 size))
  if a.2 < 0 then
    let b ← ps2linkOpen
    if b.2 < 0 then pure (-1) else if !isNumber size then pure 0 else req b.1
  else if !isNumber size then pure 0
  else req a.2

/-- The numbers are read first. Both requests go to `cmd_fd`. -/
def viewmem (tmpfile offset size : List Byte) : Io Int := do
  if !isNumber offset || !isNumber size then pure 0
  else
    let req := fun fd => pkoDumpmemoryReq fd (str "host:" ++ tmpfile) (cWord (strtol 0 offset)) (cWord (strtol 0 size))
    let a ← ps2linkOpen
    if a.2 < 0 then
      let w ← Prog.get
      let _ ← sysClose w.cmdFd
      let b ← ps2linkOpen
      setVars fun v => { v with cmdFd := b.1 }
      if b.2 < 0 then pure (-1) else direct a.1 req
    else
      let w ← Prog.get
      req w.cmdFd

def reset : Io Int := do
  let a ← ps2linkOpen
  if a.2 < 0 then
    let _ ← sysClose a.1
    let b ← ps2linkOpen
    if b.2 < 0 then pure (-1) else command pkoResetReq
  else pkoResetReq a.1

inductive Tool
  | eeexec (path : List Byte) (args : List (List Byte))
  | iopexec (path : List Byte) (args : List (List Byte))
  | dumpmem (path offset size : List Byte)
  | dumpreg (path regs : List Byte)
  | gsexec (path size : List Byte)
  | viewmem (tmpfile offset size : List Byte)
  | reset

namespace Tool

def main (cwd : List Byte) : Tool → Io Int
  | eeexec path args => Pksh.eeexec cwd path args
  | iopexec path args => Pksh.iopexec cwd path args
  | dumpmem path offset size => dumpmemMain cwd path offset size
  | dumpreg path regs => dumpregMain cwd path regs
  | gsexec path size => Pksh.gsexec cwd path size
  | viewmem tmpfile offset size => Pksh.viewmem tmpfile offset size
  | reset => Pksh.reset

end Tool

inductive Step
  | joined (fd : Int) (made : Bool)
  /-- The command socket, or -1 when there is none. -/
  | cmdSock (fd : Int)
  | sent (fd : Int)
deriving DecidableEq, Repr

def Act.step : Act → Option Step
  | .connect fd made => some (.joined fd made)
  | .socket .dgram ret => some (.cmdSock (ret.getD (-1)))
  | .send s _ _ => some (.sent s)
  | _ => none

def trail (as : List Act) : List Step := as.filterMap Act.step

def cmdSocks (steps : List Step) : List Int :=
  steps.filterMap fun
    | .cmdSock fd => some fd
    | _ => none

theorem trail_append (as bs : List Act) : trail (as ++ bs) = trail as ++ trail bs := List.filterMap_append

section Parts

theorem sysConnect_cases (fd : Int) (w : World) : ∃ e w', (sysConnect fd).run w = ⟨some e, w', [.connect fd e.isNone]⟩ ∧
    w'.toVars = w.toVars := by
  simp only [sysConnect]
  split
  · exact ⟨_, _, rfl, rfl⟩
  · exact ⟨_, _, rfl, rfl⟩
  · exact ⟨_, _, rfl, rfl⟩

/-- The result is that of `connect`, 0 or -1, and never the socket. -/
theorem ps2linkOpen_cases (w : World) : ∃ fd made w' as,
    ps2linkOpen.run w = ⟨some (fd, if made then 0 else -1), w', as⟩ ∧ trail as = [.joined fd made] ∧ w'.toVars = w.toVars := by
  have hsock : ∃ r w₁, (sysSocket .stream).run w = ⟨some r, w₁, [.socket .stream r]⟩ ∧ w₁.toVars = w.toVars := by
    rcases sysSocket_cases .stream w with h | ⟨fd, -, -, h⟩
    · exact ⟨none, _, h, rfl⟩
    · exact ⟨some fd, _, h, rfl⟩
  obtain ⟨r, w₁, hs, hv₁⟩ := hsock
  obtain ⟨e, w₂, hc, hv₂⟩ := sysConnect_cases (r.getD (-1)) w₁
  refine ⟨r.getD (-1), e.isNone, w₂, [.socket .stream r, .connect (r.getD (-1)) e.isNone], ?_, ?_, hv₂.trans hv₁⟩
  · simp only [ps2linkOpen, Prog.run_bind, hs, hc, Result.andThen_mk_some, Prog.run_pure, Result.after_mk]
    cases e <;> rfl
  · rfl

theorem trail_sendReq (sock : Int) (size : Nat) (fields : List (Nat × List Byte)) (w : World) :
    trail ((sendReq sock size fields).run w).acts = [.sent sock] := by
  obtain ⟨ret, rest, hrest, ha⟩ := sysSend_sends w sock (((w.os.stack w.now).stores fields).slice 0 size)
  have hacts : ((sendReq sock size fields).run w).acts = .send sock _ ret :: rest := ha
  have hnone : trail rest = [] := List.filterMap_eq_nil_iff.mpr fun a hr => by
    rw [List.mem_singleton.mp (hrest hr)]
    rfl
  rw [hacts, ← List.singleton_append, trail_append, hnone]
  rfl

end Parts

section Shapes

variable {C : Int × Int → Io Int} {w : World}

end Shapes

section Tools

variable (cwd : List Byte) (w : World)

end Tools

end Pksh
