import Pksh.Plumbing

/-! The commands of batch clients are passed on to the PS2. Each case of the
switch sends the packet it got; the case of GSEXEC runs on into the next. -/

namespace Pksh

open Wire Traced

variable {α β : Type}

/-- A command as a client puts it on the wire. -/
inductive CmdReq
  | dumpmem (offset size : Word) (file : PathField)
  | dumpregs (regs : Word) (file : PathField)
  | gsexec (size : Half) (file : PathField)
  | stopvu (vpu : Word)
  | startvu (vpu : Word)
  | execee (argc : Word) (argv : PathField)
  | execiop (argc : Word) (argv : PathField)
  | reset

namespace CmdReq

def cmd : CmdReq → Cmd
  | dumpmem _ _ _ => .dumpmem
  | dumpregs _ _ => .dumpregs
  | gsexec _ _ => .gsexec
  | stopvu _ => .stopvu
  | startvu _ => .startvu
  | execee _ _ => .execee
  | execiop _ _ => .execiop
  | reset => .reset

def fields : CmdReq → List Byte
  | dumpmem offset size file => be32 offset ++ (be32 size ++ file.bytes)
  | dumpregs regs file => be32 regs ++ file.bytes
  | gsexec size file => be16 size ++ file.bytes
  | stopvu vpu => be32 vpu
  | startvu vpu => be32 vpu
  | execee argc argv => be32 argc ++ argv.bytes
  | execiop argc argv => be32 argc ++ argv.bytes
  | reset => []

def size : CmdReq → Nat
  | dumpmem _ _ _ => pktMemioReqSize
  | dumpregs _ _ => pktDumpregsReqSize
  | gsexec _ _ => pktGsexecReqSize
  | stopvu _ => pktStopvuReqSize
  | startvu _ => pktStartvuReqSize
  | execee _ _ => pktExeceeReqSize
  | execiop _ _ => pktExeciopReqSize
  | reset => pktResetReqSize

def packet (q : CmdReq) : List Byte :=
  be32 q.cmd.code ++ (be16 (BitVec.ofNat 16 q.size) ++ q.fields)

theorem packet_length (q : CmdReq) : q.packet.length = q.size := by
  cases q <;> simp [packet, fields, size, PathField.bytes_length, pktMemioReqSize, pktDumpregsReqSize,
    pktGsexecReqSize, pktStopvuReqSize, pktStartvuReqSize, pktExeceeReqSize, pktExeciopReqSize, pktResetReqSize]

theorem size_bounds (q : CmdReq) : pktHdrSize ≤ q.size ∧ q.size ≤ 270 := by
  cases q <;> exact ⟨Nat.le_of_ble_eq_true rfl, Nat.le_of_ble_eq_true rfl⟩

/-- The data file of a GSEXEC can be had, and has 1 to 16384 bytes. -/
def Ready (os : Host) : CmdReq → Prop
  | gsexec _ file => ∀ n, (os.stat n (trimInPlace file.path)).1 = true ∧
      0 < (os.stat n (trimInPlace file.path)).2.size ∧ (os.stat n (trimInPlace file.path)).2.size ≤ 16384
  | _ => True

end CmdReq

/-- Whether something is executed behind a command: 1 if so. -/
def Cmd.leaves (state : Int) : Cmd → Int
  | .execee | .execiop => 1
  | .reset => 0
  | _ => state

/-- What belongs on the command port for one command: the command, and a reset
before an EXECEE when something was executed before. -/
def Cmd.due (state : Int) (c : Cmd) : List Word :=
  (if c = .execee ∧ state = 1 then [resetCmd] else []) ++ [c.code]

def Cmd.passed (state : Int) (c : Cmd) : List Word :=
  c.due state ++ if c = .gsexec then [stopvuCmd] else []

/-- The same for a whole sequence of commands. -/
def due : Int → List Cmd → List Word
  | _, [] => []
  | state, c :: cs => c.due state ++ due (c.leaves state) cs

def passed : Int → List Cmd → List Word
  | _, [] => []
  | state, c :: cs => c.passed state ++ passed (c.leaves state) cs

abbrev KeepsState : World → List Act → World → Prop := Fixes fun w : World => w.state

/-- A program that returns leaves `state` as `n`. -/
def Ends (n : Int) (m : Io α) : Prop := ∀ w, (m.run w).value ≠ none → (m.run w).state.state = n

namespace Ends

variable {n : Int} {m : Io α}

theorem set {f : Unit → Io α} (h : Sat KeepsState (f ())) :
    Ends n (setVars (fun v => { v with state := n }) >>= f) := fun w _ => h { w with state := n }

theorem bind {f : α → Io β} (h : ∀ a, Ends n (f a)) : Ends n (m >>= f) := by
  intro w hv
  cases hm : (m.run w).value with
  | none =>
    rw [Prog.run_bind, Result.andThen_none _ hm] at hv
    exact absurd rfl hv
  | some a =>
    rw [Prog.run_bind, Result.andThen_some _ hm] at hv ⊢
    exact h a _ hv

theorem ite {c : Prop} [Decidable c] {p q : Io α} (hp : Ends n p) (hq : Ends n q) :
    Ends n (if c then p else q) := by
  split
  · exact hp
  · exact hq

end Ends

section Step

variable {q : CmdReq} {fd : Int} {w : World} {rest : List Byte}

end Step

/-- The calls that serve packets of clients, in the order in which they come. -/
def calls (events : List (Int × CmdReq)) : List Server := events.map fun e => .pksh e.1

/-- The file `x` has one byte. -/
def Host.oneFile : Host := { Host.refusing with stat := fun _ _ => (true, ⟨0, 1, 0, 0, 0⟩) }

end Pksh
