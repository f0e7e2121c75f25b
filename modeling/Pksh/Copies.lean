import Pksh.Transfers

/-! `cp` against a server that gives out a file, or takes one: what arrives at
the other end. The files are opened by what is left of their names. -/

namespace Pksh

open Wire Traced

/-- Each read is answered with as many bytes as are left of the file, up to the
size of a block. -/
def Portion.Filled : Int → List Portion → Prop
  | size, [] => size ≤ 0
  | size, c :: cs => 0 < size ∧ (c.data.length : Int) = min size blockSize ∧ Filled (size - blockSize) cs

/-- A local file that takes whatever is written to it. -/
def Host.Takes (os : Host) (fd0 : Int) : Prop := ∀ t bs, ∃ n, os.write t fd0 bs = some n ∧ bs.length ≤ n

section Loops

variable {fd fd0 : Int} {rest : List Byte} {w : World}

/-- From some call on, reading a local file gives these blocks: three calls make
a round, the read and the two that send a write. -/
def Host.Gives (os : Host) (fd0 : Int) : Nat → List (List Byte) → Prop
  | _, [] => True
  | t, b :: bs => os.read t fd0 blockSize = some b ∧ b ≠ [] ∧ b.length ≤ blockSize ∧ os.Gives fd0 (t + 3) bs

def Reply.Takes (p : Reply) (b : List Byte) : Prop := p.Returns ps2netfsWriteRly ∧ p.retval.toInt = b.length

def NetfsReq.Writes (d : Word) (r : NetfsReq) (b : List Byte) : Prop :=
  ∃ ptr, r = .write d ptr (cWord b.length) ∧ ptr.slice 0 b.length = b

theorem cWord_block {b : List Byte} (hb : b.length ≤ blockSize) : (cWord (b.length : Int)).toInt = b.length := by
  have h : blockSize = 65536 := rfl
  rw [cWord, BitVec.toInt_ofInt, Int.bmod_eq_of_le (by omega) (by omega)]

theorem readBlock_run {b : List Byte} (h : Joined fd fd0 rest w) (hr : w.os.read w.now fd0 blockSize = some b)
    (hb : b.length ≤ blockSize) : (sysRead fd0 blockSize).run w = ⟨some (some b), w.tick, [.read fd0 (some b)]⟩ := by
  simp only [sysRead, h.plain, hr, Option.map_some, List.take_of_length_le hb]

/-- A round of the sending loop. -/
theorem sendLoop_round {p : Reply} {b : List Byte} (d : Word) (rounds : Nat) (buffer : Mem) {size total : Int} (hmore : total < size)
    (h : Joined fd fd0 (p.bytes ++ rest) w) (hp : p.Returns ps2netfsWriteRly) (hr : w.os.read w.now fd0 blockSize = some b)
    (hb : b.length ≤ blockSize) : ∃ v as,
    (sendLoop (sysRead fd0 blockSize) (fun buffer n => ps2netfsReqWrite d buffer (cWord n)) Prog.hang (rounds + 1) buffer size
        total).run w =
      ((sendLoop (sysRead fd0 blockSize) (fun buffer n => ps2netfsReqWrite d buffer (cWord n)) Prog.hang rounds (buffer.store 0 b)
        size (total + p.retval.toInt)).run v).after as ∧
      Joined fd fd0 rest v ∧ v.os = w.os ∧ v.now = w.now + 3 ∧
      Asks fd [.write d (buffer.store 0 b) (cWord (b.length : Int))] (outgoing as) := by
  have hgot := readBlock_run h hr hb
  obtain ⟨v, as, hwrite, hj, hos, hnow, -, hk⟩ := answer_run (.write d (buffer.store 0 b) (cWord (b.length : Int))) hp rfl h.tick
  simp only [NetfsReq.run] at hwrite
  refine ⟨v, .read fd0 (some b) :: as, ?_, hj, hos, hnow, hk⟩
  rw [sendLoop, if_pos hmore, Prog.run_bind, hgot, Result.andThen_mk_some, Prog.run_bind]
  simp only [Option.getD_some, Option.elim_some, hwrite, Result.andThen_mk_some, Result.after_after]
  rfl

end Loops

/-- What the server sends when a file is read from its start to its end. -/
structure Source (src : List Byte) where
  opened : Reply
  sized : Reply
  rewound : Reply
  chunks : List Portion
  closed : Reply
  opens : opened.Returns ps2netfsOpenRly
  granted : 0 ≤ opened.retval.toInt
  sizes : sized.Returns ps2netfsLseekRly
  measured : sized.retval.toInt = src.length
  rewinds : rewound.Returns ps2netfsLseekRly
  filled : Portion.Filled src.length chunks
  contents : Portion.contents chunks = src
  closes : closed.Returns ps2netfsCloseRly

namespace Source

variable {src : List Byte}

def stream (s : Source src) : List Byte :=
  s.opened.bytes ++ (s.sized.bytes ++ (s.rewound.bytes ++ (Portion.stream s.chunks ++ s.closed.bytes)))

def requests (s : Source src) (path : List Byte) : List NetfsReq :=
  [.openFile path 0x0001, .lseek s.opened.retval 0 (cWord seekEnd), .lseek s.opened.retval 0 (cWord seekSet)] ++
    ((s.chunks.map fun _ => .read s.opened.retval (BitVec.ofNat 32 blockSize)) ++ [.close s.opened.retval])

end Source

section Copies

variable {fd fd0 : Int} {rest src : List Byte} {w : World}

/-- What the server sends when a file is written block by block. -/
structure Sink (blocks : List (List Byte)) where
  opened : Reply
  written : List Reply
  closed : Reply
  opens : opened.Returns ps2netfsOpenRly
  granted : 0 ≤ opened.retval.toInt
  takes : List.Forall₂ Reply.Takes written blocks
  closes : closed.Returns ps2netfsCloseRly

def Sink.stream {blocks : List (List Byte)} (s : Sink blocks) : List Byte :=
  s.opened.bytes ++ (Reply.stream s.written ++ s.closed.bytes)

/-- A local file behind a call of `open`: its size, which fits an `int`, and its
blocks. -/
structure Host.Holds (os : Host) (fd0 : Int) (t : Nat) (blocks : List (List Byte)) : Prop where
  size : os.lseek (t + 1) fd0 0 seekEnd = blocks.flatten.length
  small : blocks.flatten.length < 2 ^ 31
  gives : os.Gives fd0 (t + 3) blocks

theorem NetfsReq.Writes.sendable {d : Word} {r : NetfsReq} {b : List Byte} (h : r.Writes d b) (hb : b.length ≤ blockSize) : r.Sendable := by
  obtain ⟨ptr, rfl, -⟩ := h
  refine ⟨by simp [NetfsReq.PathsFit, NetfsReq.args], rfl, fun _ _ _ he => ?_⟩
  cases he
  rw [cWord_block hb]
  omega

theorem NetfsReq.Writes.delivered {d : Word} {r : NetfsReq} {b : List Byte} {q : Delivered} (h : r.Writes d b)
    (hb : b.length ≤ blockSize) (hc : r.awaits = ofBe32 q.struct + 1) (hd : q.data = r.payload.getD []) :
    ofBe32 q.struct = ps2netfsWriteCmd ∧ q.data = b := by
  obtain ⟨ptr, rfl, hp⟩ := h
  have hn : sizeT (cWord (b.length : Int)).toInt = b.length := by
    have h : blockSize = 65536 := rfl
    rw [cWord_block hb, sizeT]
    omega
  refine ⟨(BitVec.add_left_inj (z := 1)).mp hc.symm, ?_⟩
  rw [hd, NetfsReq.payload, Option.getD_some, hn, hp]

theorem Host.Gives.le {os : Host} {t : Nat} {blocks : List (List Byte)} (h : os.Gives fd0 t blocks) :
    ∀ b ∈ blocks, b.length ≤ blockSize := by
  induction blocks generalizing t with
  | nil => exact fun b hb => absurd hb List.not_mem_nil
  | cons c blocks ih =>
    intro b hb
    rcases List.mem_cons.mp hb with rfl | hb
    · exact h.2.2.1
    · exact ih h.2.2.2 b hb

theorem writes_sendable {d : Word} {rs : List NetfsReq} {blocks : List (List Byte)}
    (h : List.Forall₂ (NetfsReq.Writes d) rs blocks) (hb : ∀ b ∈ blocks, b.length ≤ blockSize) : ∀ r ∈ rs, r.Sendable := by
  induction h with
  | nil => exact fun r hr => absurd hr List.not_mem_nil
  | @cons r b rs blocks hw _ ih =>
    intro r' hr'
    rcases List.mem_cons.mp hr' with rfl | hr'
    · exact NetfsReq.Writes.sendable hw (hb b List.mem_cons_self)
    · exact ih (fun b' hb' => hb b' (List.mem_cons_of_mem _ hb')) r' hr'

/-- Memory in which two strings are left where they were. -/
def leftAlone (a b : List Byte) : Mem := Mem.store (Mem.store (fun _ => 0) 0 a) maxpathlen b

end Copies

end Pksh
