import Pksh.Naplink

/-! The bodies of the packets from the PS2 as they lie in the heap, and the
handlers that read them. The fields are those of the structs of a host with
32-bit ints. -/

namespace Naplink

open Wire Traced Pksh

variable {α β : Type}

/-- A header, and as many bytes as it announces. -/
structure Raw where
  size : Word
  type : Word
  body : List Byte
  sized : body.length = size.toNat

/-- The block that `malloc` returned, with what can be read behind it. There is
none when nothing was announced. -/
structure Block where
  bytes : Mem
  mapped : Nat

def Raw.block (p : Raw) (heap : Mem) (beyond : Nat) : Block :=
  ⟨heap.store 0 p.body, if p.size = 0 then 0 else p.body.length + beyond⟩

/-- A run of bytes of the block that is read, or anything else that is done. -/
inductive Use
  | load (off n : Nat)
  | act (a : Act)
deriving DecidableEq

def acts (us : List Use) : List Act :=
  us.filterMap fun
    | .act a => some a
    | .load _ _ => none

def FedBy (w : World) (us : List Use) (w' : World) : Prop := Fed w (acts us) w'

instance : Chains FedBy where
  nil w := Chains.nil (R := Fed) w
  append h h' := by
    rw [FedBy, acts, List.filterMap_append]
    exact Chains.append (R := Fed) h h'

abbrev Handler := Prog FedBy

def perform (m : Np α) : Handler α where
  run w := ⟨(m.run w).value, (m.run w).state, (m.run w).acts.map .act⟩
  keeps w := by
    have h : acts ((m.run w).acts.map .act) = (m.run w).acts := by
      simp [acts, List.filterMap_map]
    rw [FedBy, h]
    exact m.keeps w

namespace Block

variable (b : Block)

/-- Bytes that are not mapped end the process. -/
def loads (off n : Nat) : Handler (List Byte) where
  run w := ⟨if off + n ≤ b.mapped then some (b.bytes.slice off n) else none, w, [.load off n]⟩
  keeps w := Chains.nil (R := Fed) w

def loadInt (off : Nat) : Handler Word := do
  let _ ← b.loads off 4
  pure (b.bytes.word off)

/-- The string at `off`, with its end. -/
def loadStr (off : Nat) : Handler (List Byte) := do
  let s := b.bytes.cstr off (b.mapped - off)
  let _ ← b.loads off (s.length + 1)
  pure s

/-- Whether the string at `off` is `s`. -/
def strcmp : Nat → List Byte → Handler Bool
  | off, [] => do
    let _ ← b.loads off 1
    pure (decide (b.bytes off = 0))
  | off, c :: s => do
    let _ ← b.loads off 1
    if b.bytes off = c then strcmp (off + 1) s else pure false

def passes (off n : Nat) : Handler (List Byte) where
  run w := ⟨some (b.bytes.slice off n), w, [.load off n]⟩
  keeps w := Chains.nil (R := Fed) w

end Block

def whenDebug (debug : Bool) (m : Handler α) : Handler Unit :=
  if debug then do
    let _ ← m
    pure ()
  else pure ()

def rawOpenAlong (b : Block) (flags : Word) : List (List Byte) → Handler Int
  | [] => pure (-1)
  | dir :: dirs => do
    let pathname ← b.loadStr 4
    let rv ← perform (sysOpen (dir ++ slash :: pathname) flags)
    if rv ≠ -1 then pure rv else rawOpenAlong b flags dirs

def rawOpen (debug : Bool) (b : Block) : Handler Unit := do
  perform (npSetProcessing true)
  perform (npSetCounter 0)
  whenDebug debug (b.loadStr 4)
  whenDebug debug (b.loadInt 0)
  let tty ← b.strcmp 4 devTty
  if tty then perform (doReturn 1 [] 0)
  else
    let flags ← b.loadInt 0
    let pathname ← b.loadStr 4
    let rv ← perform (sysOpen pathname (pcFlags flags))
    if rv = -1 then
      let w ← Prog.get
      let rv ← rawOpenAlong b (pcFlags flags) w.pathList
      perform (doReturn rv [] 0)
    else perform (doReturn rv [] 0)

def rawClose (debug : Bool) (b : Block) : Handler Unit := do
  perform (npSetProcessing false)
  perform (npSetCounter 0)
  whenDebug debug (b.loadInt 0)
  let fd ← b.loadInt 0
  if fd.toInt ≤ 2 then perform (doReturn 0 [] 0)
  else
    let rv ← perform (sysClose fd.toInt)
    perform (doReturn rv [] 0)

def rawRead (debug : Bool) (b : Block) : Handler Unit := do
  perform (npSetCounter 0)
  whenDebug debug (b.loadInt 0)
  whenDebug debug (b.loadInt 4)
  let count ← b.loadInt 4
  let w ← Prog.get
  if w.benchmarking then
    let buffer2 := (w.os.heap w.now).slice 0 count.toInt.toNat
    perform (emit (.sham count.toInt buffer2) rfl)
    perform (doReturn count.toInt buffer2 count.toInt)
  else
    let fd ← b.loadInt 0
    let r ← perform (sysRead fd.toInt count.toInt)
    match r with
    | none => perform (doReturn (-1) [] (-1))
    | some buffer2 => perform (doReturn buffer2.length buffer2 buffer2.length)

/-- The third argument of `write` is a 64-bit `size_t`. -/
def sizeT (count : Word) : Nat := (count.signExtend 64).toNat

theorem sizeT_eq {count : Word} (h : sizeT count < 2 ^ 32) : sizeT count = count.toInt.toNat := by
  have hs := BitVec.toInt_signExtend_of_le (x := count) (show 32 ≤ 64 by decide)
  rw [BitVec.toInt_eq_toNat_cond] at hs
  rw [sizeT] at h ⊢
  rw [← hs]
  split <;> omega

def rawWrite (debug : Bool) (b : Block) : Handler Unit := do
  perform (npSetCounter 0)
  whenDebug debug (b.loadInt 0)
  whenDebug debug (b.loadInt 4)
  let w ← Prog.get
  if w.benchmarking then
    let count ← b.loadInt 4
    perform (emit (.sham count.toInt []) rfl)
    perform (doReturn count.toInt [] 0)
  else
    let fd ← b.loadInt 0
    let count ← b.loadInt 4
    let data ← b.passes 8 (sizeT count)
    let r ← perform (sysWrite fd.toInt data)
    perform (doReturn (r.elim (-1) fun n => (n : Int)) [] 0)

def rawLseek (debug : Bool) (b : Block) : Handler Unit := do
  perform (npSetCounter 0)
  whenDebug debug (b.loadInt 0)
  whenDebug debug (b.loadInt 4)
  whenDebug debug (b.loadInt 8)
  let fd ← b.loadInt 0
  let offset ← b.loadInt 4
  let whence ← b.loadInt 8
  let rv ← perform (sysLseek fd.toInt offset.toInt whence.toInt)
  perform (doReturn rv [] 0)

/-- The switch over the type of a packet whose body is in `b`. -/
def rawProcess (debug : Bool) (benchmark : Np Unit) (type : Word) (b : Block) : Handler Unit :=
  if type = packetOpen then rawOpen debug b
  else if type = packetClose then rawClose debug b
  else if type = packetRead then rawRead debug b
  else if type = packetWrite then rawWrite debug b
  else if type = packetLseek then rawLseek debug b
  else if type = packetWazzup then perform (processWazzup benchmark)
  else pure ()

/-- `get_return`, with or without a buffer for the data. -/
def rawGetReturn (data : Bool) (size type : Word) (b : Block) : Handler Int := do
  if type ≠ packetReturn then pure (-1)
  else if 4 < size.toNat ∧ data = true then
    let _ ← b.loads 4 (size.toNat - 4)
    let rv ← b.loadInt 0
    pure rv.toInt
  else
    let rv ← b.loadInt 0
    pure rv.toInt

def Use.inside (size : Nat) : Use → Prop
  | .load off n => off + n ≤ size
  | .act _ => True

namespace Raw

variable (p : Raw)

/-- The int at `off` of the body. -/
def int (off : Nat) : Word := (Mem.store (fun _ => 0) 0 p.body).word off

/-- The fields that are read lie in the body, the path name ends in it, and
no more is written than it holds. -/
def Fits (benchmarking : Bool) : Prop :=
  if p.type = packetOpen then 0 ∈ p.body.drop 4
  else if p.type = packetClose then 4 ≤ p.body.length
  else if p.type = packetRead then 8 ≤ p.body.length
  else if p.type = packetWrite then 8 ≤ p.body.length ∧ (benchmarking = true ∨ sizeT (p.int 4) ≤ p.body.length - 8)
  else if p.type = packetLseek then 12 ≤ p.body.length
  else True

def FitsReturn : Prop := p.type = packetReturn → 4 ≤ p.body.length

end Raw

end Naplink
