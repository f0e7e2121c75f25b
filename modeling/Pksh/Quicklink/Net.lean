import Mathlib.Logic.Function.Basic
import Pksh.NapBodies

/-! Packets over the quick link, below `recvPacket` and `sendPacket`. Two hosts
share the feature bits `TX_REQ` and `TX_C`, and there is a pipe of bytes each
way. A bulk transfer is one call of the USB library, which takes its time and
whose result is ignored. -/

namespace Naplink

open Wire Traced Pksh

def txReqBit : Byte := 0x02
def txCBit : Byte := 0x04
def txRdyBit : Byte := 0x20

/-- `packet_header_t` in memory. -/
def Raw.header (p : Raw) : List Byte := le32 p.size ++ le32 p.type

def Raw.wire (p : Raw) : List Byte := p.header ++ p.body

@[simp] theorem Raw.header_length (p : Raw) : p.header.length = 8 := rfl

/-- `ph->size` -/
def headerSize (ph : List Byte) : Nat := (joinWord (ph.getD 3 0) (ph.getD 2 0) (ph.getD 1 0) (ph.getD 0 0)).toNat

theorem headerSize_header (p : Raw) : headerSize p.header = p.body.length := by
  have h : headerSize p.header = p.size.toNat := congrArg BitVec.toNat (joinWord_extract _)
  rw [h, p.sized]

/-- A call of `recv_packet` or of `send_packet`. -/
inductive Job
  | recv
  | send (p : Raw)

def Job.packet? : Job → Option Raw
  | .recv => none
  | .send p => some p

/-- Where a host is: between two calls, in `send_packet`, or in `recv_packet`.
A transfer keeps the bytes that it still has to write, or has read. -/
inductive Pc
  | idle
  | awaitRdy (p : Raw)
  | setReq (p : Raw)
  | awaitClear (p : Raw)
  | writeHeader (p : Raw) (left : List Byte)
  | writeBody (p : Raw) (left : List Byte)
  | setDone (p : Raw)
  | awaitReq
  | clearReq
  | readHeader (ph : List Byte)
  | readBody (ph pb : List Byte)
  | awaitDone (ph pb : List Byte)
  | clearDone (ph pb : List Byte)

/-- A host with the calls it has yet to make, and the packets it has received. -/
structure Party where
  pc : Pc
  todo : List Job
  got : List (List Byte × List Byte)

inductive Side
  | pc | ps2
deriving DecidableEq

def Side.other : Side → Side
  | .pc => .ps2
  | .ps2 => .pc

@[simp] theorem Side.other_other (x : Side) : x.other.other = x := by cases x <;> rfl

@[simp] theorem Side.other_ne (x : Side) : x.other ≠ x := by cases x <;> decide

@[simp] theorem Side.ne_other (x : Side) : x ≠ x.other := (x.other_ne).symm

theorem Side.eq_or_other (x y : Side) : y = x ∨ y = x.other := by
  cases x <;> cases y <;> decide

/-- Both hosts, the last message for each of the two bits, and what each host
has written that the other has not read. -/
structure Net where
  party : Side → Party
  req : Bool
  done : Bool
  pipe : Side → List Byte

/-- What the USB library answers: the byte of a poll unless it is -1, whether a
control message is taken, and how many bytes a bulk call moves for now. A bulk
call that is cut short comes back with what it has moved so far, and where
nothing was received the buffer is still what the memory was. -/
structure Usb where
  status : Option Byte
  taken : Bool
  moved : Nat
  cut : Bool
  memory : Mem

def checkQlf (u : Usb) (feature : Byte) : Option Byte := u.status.map (· &&& feature)

def Usb.sees (u : Usb) (feature : Byte) : Bool :=
  match checkQlf u feature with
  | none => false
  | some b => b ≠ 0

/-- The poll has an answer, and the bit is not there. -/
def Usb.misses (u : Usb) (feature : Byte) : Bool := checkQlf u feature = some 0

namespace Net

def goto (x : Side) (pc : Pc) (n : Net) : Net :=
  { n with party := Function.update n.party x { n.party x with pc := pc } }

/-- The call returns, in `recv_packet` with what it has received. -/
def finish (x : Side) (got : List (List Byte × List Byte)) (n : Net) : Net :=
  { n with party := Function.update n.party x { n.party x with pc := .idle, got := (n.party x).got ++ got } }

def call (x : Side) (n : Net) : Net :=
  match (n.party x).todo with
  | [] => n
  | .recv :: todo => { n with party := Function.update n.party x { n.party x with pc := .awaitReq, todo := todo } }
  | .send p :: todo => { n with party := Function.update n.party x { n.party x with pc := .awaitRdy p, todo := todo } }

def put (x : Side) (bs : List Byte) (n : Net) : Net := { n with pipe := Function.update n.pipe x (n.pipe x ++ bs) }

def drop (x : Side) (k : Nat) (n : Net) : Net := { n with pipe := Function.update n.pipe x ((n.pipe x).drop k) }

/-- Where a write of `left` goes on once some of it is moved. -/
def afterWrite (p : Raw) (left : List Byte) : Pc := if left = [] then .setDone p else .writeBody p left

def afterHeader (p : Raw) (left : List Byte) : Pc :=
  if left = [] then afterWrite p p.body else .writeHeader p left

def afterBody (ph pb : List Byte) : Pc := if pb.length = headerSize ph then .awaitDone ph pb else .readBody ph pb

/-- Where a read of a header goes on: behind it comes the body, unless it is empty. -/
def afterRead (ph : List Byte) : Pc := if ph.length = 8 then afterBody ph [] else .readHeader ph

/-- `x` goes on with its call of the USB library, or the caller makes the next one. -/
def advance (x : Side) (u : Usb) (n : Net) : Net :=
  match (n.party x).pc with
  | .idle => n.call x
  | .awaitRdy p => if u.sees txRdyBit then n.goto x (.setReq p) else n
  | .setReq p => if u.taken then { n.goto x (.awaitClear p) with req := true } else n
  | .awaitClear p => if u.misses txReqBit then n.goto x (.writeHeader p p.header) else n
  | .writeHeader p left => (n.put x (left.take u.moved)).goto x (afterHeader p (left.drop u.moved))
  | .writeBody p left => (n.put x (left.take u.moved)).goto x (afterWrite p (left.drop u.moved))
  | .setDone _ => if u.taken then { n.finish x [] with done := true } else n
  | .awaitReq => if u.sees txReqBit then n.goto x .clearReq else n
  | .clearReq => if u.taken then { n.goto x (.readHeader []) with req := false } else n
  | .readHeader ph =>
    let k := min u.moved (8 - ph.length)
    (n.drop x.other k).goto x (afterRead (ph ++ (n.pipe x.other).take k))
  | .readBody ph pb =>
    let k := min u.moved (headerSize ph - pb.length)
    (n.drop x.other k).goto x (afterBody ph (pb ++ (n.pipe x.other).take k))
  | .awaitDone ph pb => if u.sees txCBit then n.goto x (.clearDone ph pb) else n
  | .clearDone ph pb => if u.taken then { n.finish x [(ph, pb)] with done := false } else n

/-- The bulk call of `x` comes back too early, and its result is ignored. -/
def cutShort (x : Side) (u : Usb) (n : Net) : Net :=
  match (n.party x).pc with
  | .writeHeader p _ => n.goto x (afterWrite p p.body)
  | .writeBody p _ => n.goto x (.setDone p)
  | .readHeader ph => n.goto x (afterRead (ph ++ u.memory.slice ph.length (8 - ph.length)))
  | .readBody ph pb => n.goto x (.awaitDone ph (pb ++ u.memory.slice pb.length (headerSize ph - pb.length)))
  | _ => n.advance x u

def step (x : Side) (u : Usb) (n : Net) : Net := if u.cut then n.cutShort x u else n.advance x u

def run (moves : List (Side × Usb)) (n : Net) : Net := moves.foldl (fun n m => n.step m.1 m.2) n

theorem step_of_whole {u : Usb} (h : u.cut = false) (x : Side) (n : Net) : n.step x u = n.advance x u := by
  rw [step, h, if_neg Bool.false_ne_true]

def start (jobs : Side → List Job) : Net where
  party x := { pc := .idle, todo := jobs x, got := [] }
  req := false
  done := false
  pipe _ := []

section Parties

variable (x : Side) (n : Net)

@[simp] theorem goto_party (pc : Pc) : (n.goto x pc).party x = { n.party x with pc := pc } := Function.update_self ..

@[simp] theorem goto_pipe (pc : Pc) : (n.goto x pc).pipe = n.pipe := rfl

@[simp] theorem finish_party (got : List (List Byte × List Byte)) :
    (n.finish x got).party x = { n.party x with pc := .idle, got := (n.party x).got ++ got } := Function.update_self ..

@[simp] theorem finish_pipe (got : List (List Byte × List Byte)) : (n.finish x got).pipe = n.pipe := rfl

@[simp] theorem put_party (bs : List Byte) : (n.put x bs).party = n.party := rfl

@[simp] theorem put_pipe (bs : List Byte) : (n.put x bs).pipe x = n.pipe x ++ bs := Function.update_self ..

@[simp] theorem put_pipe_other (bs : List Byte) : (n.put x bs).pipe x.other = n.pipe x.other :=
  Function.update_of_ne x.other_ne ..

@[simp] theorem drop_party (k : Nat) : (n.drop x k).party = n.party := rfl

@[simp] theorem drop_pipe (k : Nat) : (n.drop x k).pipe x = (n.pipe x).drop k := Function.update_self ..

@[simp] theorem drop_pipe_other (k : Nat) : (n.drop x.other k).pipe x = n.pipe x :=
  Function.update_of_ne x.ne_other ..

@[simp] theorem call_pipe : (n.call x).pipe = n.pipe := by
  unfold call
  split <;> rfl

end Parties

@[simp] theorem goto_party_ne {x y : Side} (h : y ≠ x) (n : Net) (pc : Pc) : (n.goto x pc).party y = n.party y :=
  Function.update_of_ne h ..

@[simp] theorem finish_party_ne {x y : Side} (h : y ≠ x) (n : Net) (got : List (List Byte × List Byte)) :
    (n.finish x got).party y = n.party y := Function.update_of_ne h ..

theorem call_party_ne {x y : Side} (h : y ≠ x) (n : Net) : (n.call x).party y = n.party y := by
  unfold call
  split
  · rfl
  · exact Function.update_of_ne h ..
  · exact Function.update_of_ne h ..

theorem advance_party_ne {x y : Side} (h : y ≠ x) (u : Usb) (n : Net) : (n.advance x u).party y = n.party y := by
  unfold advance
  split
  · exact call_party_ne h n
  all_goals first
    | exact goto_party_ne h _ _
    | split
      · first
        | exact goto_party_ne h _ _
        | exact finish_party_ne h _ _
      · rfl

end Net

end Naplink
