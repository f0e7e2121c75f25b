import Pksh.Shell
import Pksh.Words

/-! The array that `build_argv` fills: the pointers in it and the blocks they
lead to. -/

namespace Pksh

open Wire

/-- A pointer. Blocks are numbered in the order `malloc` gave them out. -/
inductive Ptr where
  | null
  | block (id : Nat)
  | other (bits : Nat)
deriving DecidableEq

/-- A block: the size asked for, and the bytes written from its start on. -/
structure Block where
  size : Nat
  stored : List Byte

/-- The memory from `argv` on, one pointer a slot, and the blocks taken. -/
structure ArgMem where
  slot : Nat → Ptr
  blocks : List Block

def ArgMem.store (m : ArgMem) (i : Nat) (word : List Byte) : ArgMem where
  slot j := if j = i then .block m.blocks.length else m.slot j
  -- the terminator goes to `argv[i][ai]`, one behind the `ai` bytes asked for
  blocks := m.blocks ++ [⟨word.length, word ++ [0]⟩]

def ArgMem.entry (m : ArgMem) (i : Nat) : Option (List Byte) :=
  match m.slot i with
  | .block id => m.blocks[id]?.map fun b => b.stored.takeWhile (· ≠ 0)
  | _ => none

def ArgMem.entries (m : ArgMem) (n : Nat) : List (Option (List Byte)) := (List.range n).map m.entry

def buildArgvAtLoop : Nat → Nat → List Byte → ArgMem → ArgMem × Nat
  | 0, i, _, m => (m, i + 1)
  | n + 1, i, aptr, m =>
    let word := aptr.takeWhile (· ≠ space)
    let rest := (aptr.dropWhile (· ≠ space)).dropWhile (· = space)
    if rest = [] then (m.store i word, i + 1) else buildArgvAtLoop n (i + 1) rest (m.store i word)

/-- `build_argv` in an array whose slots hold anything before. -/
def buildArgvAt (slot : Nat → Ptr) (arg : List Byte) : ArgMem × Nat :=
  if arg = [] then (⟨fun j => if j = 0 then .null else slot j, []⟩, 0) else buildArgvAtLoop maxArgv 0 arg ⟨slot, []⟩

namespace ArgMem

def storeAll : ArgMem → Nat → List (List Byte) → ArgMem
  | m, _, [] => m
  | m, i, word :: words => (m.store i word).storeAll (i + 1) words

theorem storeAll_blocks (m : ArgMem) (i : Nat) (words : List (List Byte)) :
    (m.storeAll i words).blocks = m.blocks ++ words.map fun word => ⟨word.length, word ++ [0]⟩ := by
  induction words generalizing m i with
  | nil => simp [storeAll]
  | cons word words ih =>
    rw [storeAll, ih]
    simp [store]

end ArgMem

theorem buildArgvAtLoop_eq (n i : Nat) (aptr : List Byte) (m : ArgMem) :
    buildArgvAtLoop n i aptr m = (m.storeAll i (buildArgvLoop n aptr).1, i + (buildArgvLoop n aptr).2) := by
  induction n generalizing i aptr m with
  | zero => rfl
  | succ n ih =>
    rw [buildArgvAtLoop, buildArgvLoop]
    split
    · rfl
    · rw [ih, Nat.add_assoc, Nat.add_comm 1]
      rfl

theorem buildArgvAt_eq (slot : Nat → Ptr) {arg : List Byte} (hne : arg ≠ []) :
    buildArgvAt slot arg = (ArgMem.storeAll ⟨slot, []⟩ 0 (buildArgv arg).1, (buildArgv arg).2) := by
  rw [buildArgvAt, if_neg hne, buildArgv, if_neg hne, buildArgvAtLoop_eq, Nat.zero_add]

theorem buildArgvAt_overrun {slot : Nat → Ptr} {arg : List Byte} {b : Block} (hb : b ∈ (buildArgvAt slot arg).1.blocks) :
    b.stored.length = b.size + 1 := by
  by_cases hne : arg = []
  · rw [buildArgvAt, if_pos hne] at hb
    cases hb
  · rw [buildArgvAt_eq slot hne, ArgMem.storeAll_blocks, List.nil_append, List.mem_map] at hb
    obtain ⟨word, -, rfl⟩ := hb
    simp

theorem dropWhile_word {word rest : List Byte} (hw : space ∉ word) (hr : rest = [] ∨ rest.head? = some space) :
    (word ++ rest).dropWhile (· ≠ space) = rest := by
  have ht := List.takeWhile_append_dropWhile (p := (· ≠ space)) (l := word ++ rest)
  rw [takeWhile_word hw hr] at ht
  exact List.append_cancel_left ht

/-- The loop on a line of words: it stores as many as it has rounds for, and
counts one more when the rounds run out. -/
theorem buildArgvLoop_spelled (n : Nat) {word : List Byte} {rest : List (Nat × List Byte)} (behind : Nat)
    (hw : space ∉ word) (hs : ∀ p ∈ rest, IsWord p.2) :
    buildArgvLoop n (spelled word rest ++ List.replicate behind space) =
      ((word :: rest.map Prod.snd).take n, if rest.length < n then rest.length + 1 else n + 1) := by
  induction n generalizing word rest with
  | zero => rfl
  | succ n ih =>
    cases rest with
    | nil =>
      have hr : List.replicate behind space = [] ∨ (List.replicate behind space).head? = some space := by
        cases behind with
        | zero => exact .inl rfl
        | succ behind => exact .inr rfl
      have hend : (List.replicate behind space).dropWhile (· = space) = [] :=
        List.dropWhile_eq_nil_iff.mpr eq_of_mem_gap
      rw [spelled, buildArgvLoop, takeWhile_word hw hr, dropWhile_word hw hr, hend, if_pos rfl]
      simp
    | cons p rest =>
      obtain ⟨gap, next⟩ := p
      have hnext : IsWord next := hs _ List.mem_cons_self
      have hrest : ∀ p ∈ rest, IsWord p.2 := fun p hp => hs p (List.mem_cons_of_mem _ hp)
      have hhead := @head_spelled_append next rest hnext (List.replicate behind space)
      have hskip := dropWhile_gap (b := space) (gap + 1) (spelled next rest ++ List.replicate behind space)
      rw [dropWhile_of_head hhead, List.replicate_succ, List.cons_append] at hskip
      rw [spelled, List.append_assoc, List.cons_append, List.append_assoc, buildArgvLoop, takeWhile_word hw (.inr rfl),
        dropWhile_word hw (.inr rfl), hskip, if_neg (line_ne_nil hnext _), ih hnext.2.1 hrest]
      split <;> simp_all

section Kept

variable {word : List Byte} {rest : List (Nat × List Byte)} {behind : Nat}

end Kept

end Pksh
