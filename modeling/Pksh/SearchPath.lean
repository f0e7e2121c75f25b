import Pksh.Writing
import Pksh.Words

/-! The search path, and the file that an open request is answered with. -/

namespace Pksh

open Wire Traced

/-- What `open` returns for each path, as long as nothing else is opened. -/
structure FileSystem (w : World) (flags : Word) (fs : List Byte → Option Int) : Prop where
  opens : ∀ n path, w.os.openFile n path flags openMode = fs path
  fresh : ∀ path fd, fs path = some fd → w.unused fd = true ∧ fd < 2 ^ 31

/-- The first of some paths that can be opened, and its descriptor. -/
def firstOpen (fs : List Byte → Option Int) (paths : List (List Byte)) : Option (List Byte × Int) :=
  paths.findSome? fun path => (fs path).map (path, ·)

def descriptor (found : Option (List Byte × Int)) : Int := found.elim (-1) Prod.snd

def openedPaths (as : List Act) : List (List Byte × Int) :=
  as.filterMap fun
    | .openFile path (some fd) => some (path, fd)
    | _ => none

section Search

variable {w : World} {flags : Word} {fs : List Byte → Option Int}

theorem FileSystem.ne_neg_one (h : FileSystem w flags fs) {path : List Byte} {fd : Int} (hp : fs path = some fd) :
    fd ≠ -1 := by
  have hu := World.unused_iff.mp (h.fresh path fd hp).1
  omega

theorem FileSystem.sysOpen_run (h : FileSystem w flags fs) (path : List Byte) :
    ∃ v, (sysOpen path flags openMode).run w = ⟨some ((fs path).getD (-1)), v, [.openFile path (fs path)]⟩ ∧
      v.pathList = w.pathList ∧ (fs path = none → FileSystem v flags fs) := by
  cases hp : fs path with
  | none =>
    refine ⟨w.tick, ?_, rfl, fun _ => ⟨h.opens, h.fresh⟩⟩
    simp only [sysOpen, h.opens, hp]
    rfl
  | some fd =>
    have hf : (some fd).filter w.unused = some fd := by
      rw [Option.filter_some, if_pos (h.fresh path fd hp).1]
    refine ⟨w.tick.setDesc fd (some .plain), ?_, rfl, fun hn => by cases hn⟩
    simp only [sysOpen, h.opens, hp, hf]
    rfl

theorem FileSystem.openAlong_run (h : FileSystem w flags fs) (name : List Byte) (dirs : List (List Byte)) :
    ∃ v as, (openAlong name flags dirs).run w =
        ⟨some (descriptor (firstOpen fs (dirs.map (· ++ slash :: name)))), v, as⟩ ∧
      openedPaths as = (firstOpen fs (dirs.map (· ++ slash :: name))).toList ∧ sentPackets as = [] := by
  induction dirs generalizing w with
  | nil => exact ⟨w, [], rfl, rfl, rfl⟩
  | cons dir dirs ih =>
    obtain ⟨v, hrun, -, hnext⟩ := h.sysOpen_run (dir ++ slash :: name)
    rw [openAlong, Prog.run_bind, hrun, Result.andThen_mk_some, List.map_cons, firstOpen, List.findSome?_cons]
    cases hp : fs (dir ++ slash :: name) with
    | none =>
      obtain ⟨v', as, hr, ho, hs⟩ := ih (hnext hp)
      rw [Option.getD_none, if_neg (not_not.mpr rfl), hr]
      exact ⟨v', .openFile (dir ++ slash :: name) none :: as, rfl, ho, hs⟩
    | some fd =>
      rw [Option.getD_some, if_pos (h.ne_neg_one hp)]
      exact ⟨v, [.openFile (dir ++ slash :: name) (some fd)], rfl, rfl, rfl⟩

end Search

def found (fs : List Byte → Option Int) (paths : List (List Byte)) : Option (List Byte) :=
  paths.find? fun path => (fs path).isSome

end Pksh
