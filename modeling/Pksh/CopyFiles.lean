import Pksh.Connecting
import Pksh.Copies

/-! What a run makes of the files on the host and of those on the PS2. -/

namespace Pksh

open Wire Traced

abbrev Files := List Byte → List Byte

/-- The files of the host, and which of them is open behind a number, and how
far it is written. -/
structure Disk where
  files : Files
  opened : Int → Option (List Byte × Nat)

def Act.connecting : Act → Bool
  | .openFile _ _ => false
  | .send _ _ _ => false
  | _ => true

theorem outgoing_connecting {as : List Act} (h : ∀ a ∈ as, a.connecting = true) : outgoing as = [] := by
  rw [outgoing, List.filterMap_eq_nil_iff]
  intro a ha
  have hc := h a ha
  cases a with
  | send s bytes ret => cases hc
  | _ => rfl

namespace Disk

/-- A system call of `cp`, which opens with `hostCopyFlags`. -/
def act (d : Disk) : Act → Disk
  | .openFile path (some fd) => {
      files := Function.update d.files path (kept hostCopyFlags hostTrunc (d.files path))
      opened := Function.update d.opened fd (some (path, 0)) }
  | .write fd bytes (some n) =>
    match d.opened fd with
    | none => d
    | some (path, off) => {
        files := Function.update d.files path (overwrite (d.files path) off (bytes.take n))
        opened := Function.update d.opened fd (some (path, off + n)) }
  | .close fd => { d with opened := Function.update d.opened fd none }
  | _ => d

def behind (files : Files) (as : List Act) : Files := (as.foldl act ⟨files, fun _ => none⟩).files

theorem foldl_talks {d : Disk} {as : List Act} (h : ∀ a ∈ as, a.talks = true) : as.foldl act d = d := by
  induction as with
  | nil => rfl
  | cons a as ih =>
    obtain ⟨ha, has⟩ := List.forall_mem_cons.mp h
    have hd : d.act a = d := by
      cases a with
      | openFile path ret | write fd bytes ret | close fd => cases ha
      | _ => rfl
    rw [List.foldl_cons, hd, ih has]

theorem foldl_connecting {files : Files} {as : List Act} (h : ∀ a ∈ as, a.connecting = true) :
    as.foldl act ⟨files, fun _ => none⟩ = ⟨files, fun _ => none⟩ := by
  induction as with
  | nil => rfl
  | cons a as ih =>
    obtain ⟨ha, has⟩ := List.forall_mem_cons.mp h
    have hd : act ⟨files, fun _ => none⟩ a = ⟨files, fun _ => none⟩ := by
      cases a with
      | openFile path ret => cases ha
      | write fd bytes ret => cases ret <;> rfl
      | close fd => exact congrArg (Disk.mk files) (Function.update_eq_self fd _)
      | _ => rfl
    rw [List.foldl_cons, hd, ih has]

end Disk

/-- The files of the PS2, the one that is open there, and how many writes were
taken. -/
structure Ps2Disk where
  files : Files
  opened : Option (List Byte × Nat)
  round : Nat

/-- What the server reads from the field for a path. -/
def fieldName (field : List Byte) : List Byte := (field.take maxPath).takeWhile (· ≠ 0)

namespace Ps2Disk

/-- A request of `cp`; each write takes as much as it likes of its data. -/
def serve (writes : Nat → Nat) (d : Ps2Disk) (q : Delivered) : Ps2Disk :=
  if ofBe32 q.struct = ps2netfsOpenCmd then
    let name := fieldName (q.struct.drop 10)
    { d with
      files := Function.update d.files name (kept (ofBe32 (q.struct.drop 6)) ps2Trunc (d.files name))
      opened := some (name, 0) }
  else if ofBe32 q.struct = ps2netfsWriteCmd then
    match d.opened with
    | none => d
    | some (name, off) =>
      let n := moved (writes d.round) q.data.length
      { files := Function.update d.files name (overwrite (d.files name) off (q.data.take n))
        opened := some (name, off + n)
        round := d.round + 1 }
  else d

def behind (writes : Nat → Nat) (files : Files) (as : List Act) : Files :=
  (((frames Delivered.next ((outgoing as).flatMap Prod.snd)).getD []).foldl (serve writes) ⟨files, none, 0⟩).files

end Ps2Disk

/-- What is left of a string of `argv` in the memory that `free_argv` gave back. -/
def leftOf (stack : Nat → Mem) (t i : Nat) : List Byte := (stack t).cstr (i * maxpathlen) maxpathlen

theorem World.freed_eq (w : World) (i : Nat) : w.freed i = leftOf w.os.stack w.now i := rfl

def wireName (path : List Byte) : List Byte := fieldName (strncpy path maxPath)

section Reads

variable (src : List Byte) (reads : Nat → Nat)

def readAt (k : Nat) : List Byte :=
  (src.drop (readPos src.length reads k)).take (moved (reads k) (min blockSize (src.length - readPos src.length reads k)))

theorem readAt_le (k : Nat) : (readAt src reads k).length ≤ blockSize := by
  rw [readAt, List.length_take]
  exact (Nat.min_le_left _ _).trans ((moved_le _ _).trans (Nat.min_le_left _ _))

theorem readAt_length (k : Nat) :
    (readAt src reads k).length = moved (reads k) (min blockSize (src.length - readPos src.length reads k)) := by
  have h := moved_le (reads k) (min blockSize (src.length - readPos src.length reads k))
  rw [readAt, List.length_take, List.length_drop]
  omega

end Reads

theorem Reply.value_retval (cmd v : Word) : (Reply.value cmd v).retval = v := ofBe32_be32 v

theorem toInt_ofNat_small {n : Nat} (h : n < 2 ^ 31) : (BitVec.ofNat 32 n).toInt = n := by
  rw [BitVec.toInt_ofNat']
  exact Int.bmod_eq_of_le (by omega) (by omega)

/-- The connection is opened where there is none, and then the copy goes on from there. -/
theorem withNetfs_after {w u : World} {as : List Act} (hopen : reopenNetfs.run w = ⟨some (), u, as⟩)
    (h : 0 ≤ u.ps2NetfsFd) (m : Io Int) : (withNetfs m).run w = (m.run u).after as := by
  rw [withNetfs, Prog.run_bind, hopen, Result.andThen_mk_some, Prog.run_bind, Prog.run_get, Result.andThen_mk_some,
    if_neg (Int.not_lt.mpr h)]
  rfl

theorem replicate_eq {n m : Nat} (h : List.replicate m (0 : Byte) = List.replicate n 1) : n = 0 ∧ m = 0 := by
  have hl : m = n := by simpa using congrArg List.length h
  subst hl
  cases m with
  | zero => exact ⟨rfl, rfl⟩
  | succ k => exact absurd (List.cons.inj h).1 (by decide)

theorem reopenNetfs_connecting : Sat (AllActs fun a => a.connecting = true) reopenNetfs := by
  have hl : Sat (AllActs fun a : Act => a.connecting = true) cmdListener := by
    intro w
    obtain ⟨v, w', as, hrun, -, hl⟩ := cmdListener_listened w
    rw [hrun]
    generalize w'.desc = desc at hl
    cases hl with
    | unmade => simp [AllActs, Act.connecting]
    | linked fd k waits h0 hn hw => rcases hw with rfl | rfl <;> simp [AllActs, Act.connecting]
    | closed fd waits h0 hn hw => rcases hw with rfl | rfl <;> simp [AllActs, Act.connecting]
    | left fd waits h0 hn hw => rcases hw with rfl | rfl <;> simp [AllActs, Act.connecting]
  have ho : Sat (AllActs fun a : Act => a.connecting = true) openNetfs :=
    hl.bind fun fd => Sat.bind (fun w => by simp [setVars, AllActs]) fun _ => fun w => by simp [emit, AllActs, Act.connecting]
  exact Sat.get.bind fun w => .ite ho (.pure ())

end Pksh
