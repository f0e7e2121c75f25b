import Pksh.Lib.Fields
import Pksh.DirEntries
import Pksh.Shell

/-! What `cli_list` prints of a directory on the PS2. -/

namespace Pksh

open Wire Traced

def byteOf (c : Char) : Byte := BitVec.ofNat 8 c.toNat

/-- `%04x` -/
def hex4 (n : Word) : List Byte := (numeral byteOf 16 n.toNat).leftpad 4 (byteOf '0')

/-- `%d` in a column -/
def decimal (width : Nat) (i : Int) : List Byte := (signed byteOf 10 i).leftpad width space

/-- `%02d` of a byte -/
def decimal2 (b : Byte) : List Byte := (numeral byteOf 10 b.toNat).leftpad 2 (byteOf '0')

/-- `%-20s` -/
def column20 (s : List Byte) : List Byte := s.rightpad 20 space

def fioSIfdir : Half := 0x1000

def fioSIflnk : Half := 0x4000

def modeChar (mode : Half) (i : Nat) : Byte :=
  if (1 : Half) <<< i &&& mode ≠ 0 then
    if i = 9 then byteOf 's'
    else if i % 3 = 2 then byteOf 'r'
    else if i % 3 = 1 then byteOf 'w'
    else byteOf 'x'
  else byteOf '-'

def ps2netfsShowMode (mode : Half) : List Byte :=
  (if mode &&& fioSIfdir ≠ 0 then byteOf 'd' else if mode &&& fioSIflnk ≠ 0 then byteOf 'l' else byteOf '-') ::
    [8, 7, 6, 5, 4, 3, 2, 1, 0].map (modeChar mode)

def strMonth : List (List Byte) :=
  [str "Jan", str "Feb", str "Mar", str "Apr", str "May", str "Jun", str "Jul", str "Aug", str "Sep", str "Oct", str "Nov",
    str "Dec"]

/-- A byte of `mtime`. -/
def Dirent.mtime (d : Dirent) (i : Nat) : Byte := d.times.getD (16 + i) 0

/-- The month is an index that is not checked. -/
def ps2netfsShowStat (d : Dirent) : Option (List Byte) :=
  if d.mtime 5 = 0 then none
  else strMonth[(d.mtime 5).toNat - 1]?.map fun month =>
    ps2netfsShowMode (d.mode.setWidth 16) ++ (str " 0x" ++ (hex4 d.attr ++ (str " " ++
      (decimal 9 (d.fullSize.setWidth 32).toInt ++ (str " " ++ (month ++ (str " " ++ (decimal 2 (d.mtime 4).toNat ++
        (str " " ++ (decimal 2 (d.mtime 3).toNat ++ (str ":" ++ decimal2 (d.mtime 2))))))))))))

/-- The string in an array: there is none without its terminator. -/
def arrayStr (bytes : List Byte) : Option (List Byte) :=
  if 0 ∈ bytes then some (bytes.takeWhile (· ≠ 0)) else none

theorem arrayStr_strncpy {s : List Byte} (h0 : 0 ∉ s) (hs : s.length < maxPath) : arrayStr (strncpy s maxPath) = some s := by
  have hmem : (0 : Byte) ∈ strncpy s maxPath := by
    rw [strncpy_of_lt hs]
    simp
  rw [arrayStr, if_pos hmem, takeWhile_strncpy h0, List.take_of_length_le (Nat.le_of_lt hs)]

/-- What `cli_list` prints at a time. -/
inductive Printed
  | noServer
  | failed (arg : List Byte)
  | heading (arg : List Byte)
  | entry (d : Dirent)

def Printed.text : Printed → Option (List Byte)
  | noServer => some (str "PS2Net FS connection failed, make sure ps2netfs.irx is loaded\n")
  | failed arg => some (str "failed to open " ++ (arg ++ str "\n"))
  | heading arg => some (str "[" ++ (arg ++ str "]\n"))
  | entry d => do
    let stat ← ps2netfsShowStat d
    let name ← arrayStr d.name
    some (stat ++ (str " " ++ (column20 name ++ str " \n")))

def Printed.texts : List Printed → Option (List Byte)
  | [] => some []
  | s :: ss => do
    let t ← s.text
    let ts ← texts ss
    some (t ++ ts)

/-- The loop over `ps2netfs_req_dread`, with what it prints. -/
def showEntries (fd : Word) : Nat → Io (List Printed)
  | 0 => Prog.hang
  | rounds + 1 => do
    let ret ← ps2netfsReqDread fd
    if ret.1 > 0 then
      let shown ← showEntries fd rounds
      pure (ret.2.toList.map .entry ++ shown)
    else pure []

def showDir (arg : List Byte) : Io (Int × List Printed) := do
  let fd ← ps2netfsReqDopen arg
  if fd < 0 then
    closeNetfs
    pure (-1, [.failed arg])
  else
    let w ← Prog.get
    let shown ← showEntries (cWord fd) w.os.patience
    if fd > 0 then
      let _ ← ps2netfsReqDclose (cWord fd)
      pure (0, .heading arg :: shown)
    else pure (0, shown)

/-- `cli_list` with what it prints. -/
def showList (arg : List Byte) : Io (Int × List Printed) :=
  if (splitFilename arg).1 ≠ [] then do
    reopenNetfs
    let w ← Prog.get
    if w.ps2NetfsFd < 0 then pure (0, [.noServer]) else showDir arg
  else pure (0, [])

theorem showEntries_forgets (fd : Word) (rounds : Nat) (w : World) :
    (showEntries fd rounds >>= fun _ => pure ()).run w = (listEntries fd rounds).run w := by
  induction rounds generalizing w with
  | zero => rfl
  | succ rounds ih =>
    rw [showEntries, listEntries, Prog.run_bind, Prog.run_bind, Prog.run_bind, Result.andThen_assoc]
    congr 1
    funext ret v
    by_cases hpos : ret.1 > 0
    · rw [if_pos hpos, if_pos hpos, ← ih, Prog.run_bind, Result.andThen_assoc]
      rfl
    · rw [if_neg hpos, if_neg hpos]
      rfl

theorem showDir_forgets (arg : List Byte) (w : World) :
    (showDir arg >>= fun r => pure r.1).run w = (listDir arg).run w := by
  rw [showDir, listDir, Prog.run_bind, Prog.run_bind, Prog.run_bind, Result.andThen_assoc]
  congr 1
  funext fd v
  by_cases hneg : fd < 0
  · rw [if_pos hneg, if_pos hneg]
    rfl
  · rw [if_neg hneg, if_neg hneg, Prog.run_bind, Prog.run_bind, Prog.run_get, Result.andThen_mk_some, Result.andThen_mk_some,
      Prog.run_bind, Prog.run_bind, ← showEntries_forgets, Prog.run_bind]
    have hnil {β : Type} (x : Result World Act β) : x.after [] = x := rfl
    by_cases hpos : fd > 0
    · simp only [if_pos hpos, Prog.run_bind, Prog.run_pure, hnil, Result.andThen_assoc, Result.andThen_mk_some]
      rfl
    · simp only [if_neg hpos, hnil, Result.andThen_assoc]
      rfl

/-- Without what it prints it is `cli_list`. -/
theorem showList_forgets (arg : List Byte) (w : World) :
    (showList arg >>= fun r => pure r.1).run w = (cliList arg).run w := by
  rw [showList, cliList, onDevice]
  by_cases hdev : (splitFilename arg).1 ≠ []
  · rw [if_pos hdev, if_pos hdev, withNetfs, Prog.run_bind, Prog.run_bind, Prog.run_bind, Result.andThen_assoc]
    congr 1
    funext _ v
    by_cases hneg : v.ps2NetfsFd < 0
    · simp only [Prog.run_bind, Prog.run_get, Result.andThen_mk_some, if_pos hneg]
      rfl
    · simp only [Prog.run_bind, Prog.run_get, Result.andThen_mk_some, if_neg hneg, ← showDir_forgets]
      rfl
  · rw [if_neg hdev, if_neg hdev]
    rfl

end Pksh
