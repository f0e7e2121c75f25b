import Pksh.DirEntries

/-! The entries of a directory, one DREAD after another. -/

namespace Pksh

open Wire Traced

inductive FileType
  | directory
  | link
  | regular
  | other
deriving DecidableEq, Repr

/-- `st_mode & S_IFMT` -/
def Stat.type (st : Stat) : FileType :=
  if st.mode &&& 0xF000 = 0x4000 then .directory
  else if st.mode &&& 0xF000 = 0xA000 then .link
  else if st.mode &&& 0xF000 = 0x8000 then .regular
  else .other

/-- Second, minute, hour, day, month and year in a byte each. The months count
from 1, the years from 1900. -/
def Tm.low (tm : Tm) : List Byte :=
  [.ofInt 8 tm.sec, .ofInt 8 tm.min, .ofInt 8 tm.hour, .ofInt 8 tm.mday, .ofInt 8 (tm.mon + 1), .ofInt 8 tm.year]

/-- The six bytes of a stamp that are between its first and its last say this time. -/
def Tm.StampedOn (tm : Tm) (stamp : List Byte) : Prop := (stamp.drop 1).take 6 = tm.low

/-- The entry is this file, under this name: its type in the bits 5, 4 and 3 of
the mode, the permissions of others in the bits 2 to 0, its size and its times. -/
structure Dirent.Describes (d : Dirent) (zone : Int → Option Tm) (st : Stat) (name : List Byte) : Prop where
  name : d.name = strncpy name maxPath
  directory : d.mode.getLsbD 5 = true ↔ st.type = .directory
  regular : d.mode.getLsbD 4 = true ↔ st.type = .regular
  link : d.mode.getLsbD 3 = true ↔ st.type = .link
  permissions : ∀ i < 3, d.mode.getLsbD i = st.mode.getLsbD i
  size : (d.fullSize.toNat : Int) = st.size
  ctime : ∃ tm, zone st.ctime = some tm ∧ tm.StampedOn (d.times.take 8)
  atime : ∃ tm, zone st.atime = some tm ∧ tm.StampedOn ((d.times.drop 8).take 8)
  mtime : ∃ tm, zone st.mtime = some tm ∧ tm.StampedOn (d.times.drop 16)

/-- The time that was found is told by the same bytes as the right one; or it
cannot be told, and the bytes that were there before tell the right one. -/
def SameTime (zone : Int → Option Tm) (before : List Byte) (found right : Int) : Prop :=
  ∃ tm, zone right = some tm ∧
    match zone found with
    | some tm' => tm'.low = tm.low
    | none => tm.StampedOn before

/-- The file that was found passes for the right one. -/
structure LooksLike (w : World) (zone : Int → Option Tm) (found right : Stat) : Prop where
  type : found.type = right.type
  permissions : ∀ i < 3, found.mode.getLsbD i = right.mode.getLsbD i
  size : found.size % 2 ^ 32 = right.size
  ctime : SameTime zone (w.sendPacket.slice 22 8) found.ctime right.ctime
  atime : SameTime zone (w.sendPacket.slice 30 8) found.atime right.atime
  mtime : SameTime zone (w.sendPacket.slice 38 8) found.mtime right.mtime

theorem type_eq (st : Stat) : (isDirMode st.mode = true ↔ st.type = .directory) ∧
    (isLnkMode st.mode = true ↔ st.type = .link) ∧ (isRegMode st.mode = true ↔ st.type = .regular) := by
  rw [isDirMode, isLnkMode, isRegMode, Stat.type]
  generalize st.mode &&& 0xF000 = format
  by_cases hd : format = 0x4000
  · subst hd
    decide
  by_cases hl : format = 0xA000
  · subst hl
    decide
  by_cases hr : format = 0x8000
  · subst hr
    decide
  · rw [if_neg hd, if_neg hl, if_neg hr]
    simp only [decide_eq_true_eq, hd, hl, hr, reduceCtorEq, iff_self, and_self]

theorem dreadMode_bits (m : Word) : (dreadMode m).getLsbD 5 = isDirMode m ∧ (dreadMode m).getLsbD 4 = isRegMode m ∧
    (dreadMode m).getLsbD 3 = isLnkMode m ∧ ∀ i < 3, (dreadMode m).getLsbD i = m.getLsbD i := by
  have hbit (b : Bool) (v : Word) (i : Nat) : (if b = true then v else 0).getLsbD i = (b && v.getLsbD i) := by
    cases b <;> simp
  have hmask : ∀ i, (dreadMode m).getLsbD i = ((m.getLsbD i && (0x07 : Word).getLsbD i) ||
      (isDirMode m && (0x20 : Word).getLsbD i) || (isLnkMode m && (0x08 : Word).getLsbD i) ||
      (isRegMode m && (0x10 : Word).getLsbD i)) := by
    intro i
    rw [dreadMode]
    simp only [BitVec.getLsbD_or, BitVec.getLsbD_and, hbit]
  refine ⟨?_, ?_, ?_, fun i hi => ?_⟩
  · rw [hmask]
    simp
  · rw [hmask]
    simp
  · rw [hmask]
    simp
  · rw [hmask]
    have hi : i = 0 ∨ i = 1 ∨ i = 2 := by omega
    rcases hi with rfl | rfl | rfl <;> simp

section Times

variable {w : World} {zone : Int → Option Tm} (clock : ∀ n t, w.os.localtime n t = zone t)

include clock

theorem stampedOn_iff (off n : Nat) (time : Int) (tm : Tm) : tm.StampedOn (w.stamp off n time) ↔
    match zone time with
    | some tm' => tm'.low = tm.low
    | none => tm.StampedOn (w.sendPacket.slice off 8) := by
  rw [Tm.StampedOn, World.stamp, clock]
  cases zone time with
  | none => rw [stampBytes, Option.elim_none, Mem.store_nil, Tm.StampedOn]
  | some tm' =>
    have hlow : stampBytes (some tm') = tm'.low := rfl
    rw [hlow, Mem.slice_drop _ _ (by decide), Mem.slice_take _ _ (by decide),
      Mem.slice_store_eq _ _ (show tm'.low.length = 6 from rfl)]

theorem sameTime_iff (off n : Nat) (found right : Int) :
    (∃ tm, zone right = some tm ∧ tm.StampedOn (w.stamp off n found)) ↔
      SameTime zone (w.sendPacket.slice off 8) found right := by
  simp only [stampedOn_iff clock, SameTime]

end Times

theorem stamps_parts (w : World) (st : Stat) : (w.stamps st).take 8 = w.stamp 22 2 st.ctime ∧
    ((w.stamps st).drop 8).take 8 = w.stamp 30 3 st.atime ∧ (w.stamps st).drop 16 = w.stamp 38 4 st.mtime := by
  have hl (off n : Nat) (time : Int) : (w.stamp off n time).length = 8 := Mem.slice_length _ _ _
  rw [World.stamps, List.append_assoc]
  refine ⟨List.take_left' (hl _ _ _), ?_, ?_⟩
  · rw [List.drop_left' (hl _ _ _), List.take_left' (hl _ _ _)]
  · rw [← List.append_assoc, List.drop_left' (by rw [List.length_append, hl, hl])]

/-- The reply describes a file exactly when what `stat` finds passes for it. -/
theorem describes_iff {w : World} {m : Mem} (h : w.nextEntry.1 ≠ 0) (h0 : 0 ∉ w.nextEntry.2) (hm : DreadReply w m)
    {zone : Int → Option Tm} (clock : ∀ n t, w.os.localtime n t = zone t) (st : Stat) :
    (Dirent.ofReply m).Describes zone st w.nextEntry.2 ↔ LooksLike w zone w.statEntry.2 st := by
  obtain ⟨hdir, hreg, hlnk, hperm⟩ := dreadMode_bits w.statEntry.2.mode
  obtain ⟨tdir, tlnk, treg⟩ := type_eq w.statEntry.2
  obtain ⟨hc, ha, hm'⟩ := stamps_parts w w.statEntry.2
  have hmode : w.dreadEntry.mode = dreadMode w.statEntry.2.mode := rfl
  have htimes : w.dreadEntry.times = w.stamps w.statEntry.2 := rfl
  rw [ofReply_dread h h0 hm]
  constructor
  · rintro ⟨-, d, r, l, p, s, c, a, t⟩
    rw [hmode, hdir, tdir] at d
    rw [hmode, hreg, treg] at r
    rw [hmode, hlnk, tlnk] at l
    refine ⟨?_, fun i hi => ?_, (dreadEntry_fullSize w).symm.trans s, ?_, ?_, ?_⟩
    · cases hf : w.statEntry.2.type with
      | directory => exact (d.mp hf).symm
      | link => exact (l.mp hf).symm
      | regular => exact (r.mp hf).symm
      | other =>
        cases hs : st.type with
        | directory => exact absurd (hf.symm.trans (d.mpr hs)) (by decide)
        | link => exact absurd (hf.symm.trans (l.mpr hs)) (by decide)
        | regular => exact absurd (hf.symm.trans (r.mpr hs)) (by decide)
        | other => rfl
    · rw [← hperm i hi, ← p i hi, hmode]
    · rwa [htimes, hc, sameTime_iff clock] at c
    · rwa [htimes, ha, sameTime_iff clock] at a
    · rwa [htimes, hm', sameTime_iff clock] at t
  · rintro ⟨ty, p, s, c, a, t⟩
    refine ⟨rfl, ?_, ?_, ?_, fun i hi => ?_, (dreadEntry_fullSize w).trans s, ?_, ?_, ?_⟩
    · rw [hmode, hdir, tdir, ty]
    · rw [hmode, hreg, treg, ty]
    · rw [hmode, hlnk, tlnk, ty]
    · rw [hmode, hperm i hi, p i hi]
    · rwa [htimes, hc, sameTime_iff clock]
    · rwa [htimes, ha, sameTime_iff clock]
    · rwa [htimes, hm', sameTime_iff clock]

/-- The directories of the host: the names in each, and what there is under a path. -/
structure FileTree where
  names : List Byte → Option (List (List Byte))
  attrs : List Byte → Option Stat
  /-- A name is a string. -/
  terminated : ∀ dir ns, names dir = some ns → ∀ n ∈ ns, 0 ∉ n

/-- A path as it is looked up from the working directory. -/
def absolute (cwd path : List Byte) : List Byte := if path.head? = some slash then path else cwd ++ slash :: path

/-- A DOPEN of `path` in the state `w` gives `dir`, and the DREADs of `dir` are
served in the states `x 0`, `x 1` and so on. The host hands the names out in
order, looks paths up in the tree and tells the time of one zone. -/
structure Browses (tree : FileTree) (zone : Int → Option Tm) (cwd path : List Byte) (dir : Word)
    (names : List (List Byte)) (w : World) (x : Nat → World) : Prop where
  opened : .opendir path (some dir) ∈ (pkoOpenDir.run w).acts
  listed : tree.names (absolute cwd path) = some names
  os : ∀ k, (x k).os = w.os
  asked : ∀ k, ntohl ((x k).recvPacket.word 6) = dir
  next : ∀ k (hk : k < names.length), (w.os.readdir (x k).now dir).1 ≠ 0 ∧ (w.os.readdir (x k).now dir).2 = names[k]
  found : ∀ t p st, tree.attrs (absolute cwd p) = some st → w.os.stat t p = (true, st)
  clock : ∀ n t, w.os.localtime n t = zone t

section Browse

variable {tree : FileTree} {zone : Int → Option Tm} {cwd path : List Byte} {dir : Word} {names : List (List Byte)}
  {w : World} {x : Nat → World}

theorem Browses.nextEntry (h : Browses tree zone cwd path dir names w x) {k : Nat} (hk : k < names.length) :
    (x k).nextEntry.1 ≠ 0 ∧ (x k).nextEntry.2 = names[k] := by
  rw [World.nextEntry, h.os, h.asked]
  exact h.next k hk

theorem Browses.replied (h : Browses tree zone cwd path dir names w x) {k : Nat} (hk : k < names.length) :
    DreadReply (x k) (x k).dreadReply := ⟨_, pkoReadDir_sends (h.nextEntry hk).1⟩

theorem Browses.describes_iff (h : Browses tree zone cwd path dir names w x) {k : Nat} (hk : k < names.length) {m : Mem}
    {st : Stat} (hm : DreadReply (x k) m) :
    (Dirent.ofReply m).Describes zone st names[k] ↔ LooksLike (x k) zone (x k).statEntry.2 st := by
  obtain ⟨hne, hname⟩ := h.nextEntry hk
  have h0 : 0 ∉ (x k).nextEntry.2 := hname ▸ tree.terminated _ _ h.listed _ (List.getElem_mem hk)
  rw [← hname]
  exact Pksh.describes_iff hne h0 hm (h.os k ▸ h.clock) st

/-- The DREADs describe the files of the directory exactly when `stat`, which
is asked for the bare names, finds files that pass for them. -/
theorem dread_entries_iff (h : Browses tree zone cwd path dir names w x) :
    (∀ k (hk : k < names.length) m st, tree.attrs (absolute cwd path ++ slash :: names[k]) = some st →
        DreadReply (x k) m → (Dirent.ofReply m).Describes zone st names[k]) ↔
      ∀ k (hk : k < names.length) st, tree.attrs (absolute cwd path ++ slash :: names[k]) = some st →
        LooksLike (x k) zone (x k).statEntry.2 st := by
  constructor
  · intro hall k hk st hst
    exact (h.describes_iff hk (h.replied hk)).mp (hall k hk _ st hst (h.replied hk))
  · exact fun hall k hk m st hst hm => (h.describes_iff hk hm).mpr (hall k hk st hst)

end Browse

theorem pkoFixPath_bind {α : Type} (off : Nat) (f : Unit → Io α) (v : World) :
    (pkoFixPath off >>= f).run v = (f ()).run ((pkoFixPath off).run v).state := rfl

theorem pkoOpenDir_opens {w : World} {dir : Word}
    (h : w.os.opendir w.now (fixedPath (packetStr w.recvPacket 10)) = some dir) :
    .opendir (fixedPath (packetStr w.recvPacket 10)) (some dir) ∈ (pkoOpenDir.run w).acts := by
  rw [← packetStr_fixPath w] at h ⊢
  rw [show pkoOpenDir.run w = _ from (loadPacket_bind _ w).trans (emit_bind _ rfl _ w)]
  rw [putWord, putSend_bind, putHalf, putSend_bind, pkoFixPath_bind, loadPacket_bind, sysOpendir_bind]
  rw [Result.after_acts, Result.after_acts]
  refine List.mem_append_right _ (List.mem_append_left _ (List.mem_singleton.mpr ?_))
  exact congrArg (Act.opendir _) h.symm

theorem packetStr_store {p : List Byte} (h0 : 0 ∉ p) (hl : p.length < packetMaxsize - 10) (m : Mem) :
    packetStr (m.store 10 (p ++ [0])) 10 = p := by
  obtain ⟨k, hk⟩ : ∃ k, packetMaxsize - 10 = (p ++ [0]).length + k := Nat.exists_eq_add_of_le (by simpa using Nat.succ_le_of_lt hl)
  have hs : (m.store 10 (p ++ [0])).slice 10 (packetMaxsize - 10) =
      p ++ 0 :: (m.store 10 (p ++ [0])).slice (10 + (p ++ [0]).length) k := by
    rw [hk, Mem.slice_add, Mem.slice_store, List.append_assoc, List.singleton_append]
  exact Mem.cstr_of_slice hs h0

def firstMinute (t : Int) : Option Tm := if 0 ≤ t ∧ t < 60 then some ⟨70, 0, 1, 0, 0, t⟩ else none

/-- A host with a tree and a working directory, where every directory holds one name. -/
def Host.serving (tree : FileTree) (cwd name : List Byte) : Host :=
  { Host.refusing with
    opendir := fun _ path => if (tree.names (absolute cwd path)).isSome then some 1 else none
    readdir := fun _ _ => (1, name)
    stat := fun _ path => (tree.attrs (absolute cwd path)).elim (false, ⟨0, 0, 0, 0, 0⟩) (true, ·)
    localtime := fun _ t => firstMinute t }

/-- A directory with a file in it, and another file of that name elsewhere. -/
def sampleTree : FileTree where
  names dir := if dir = str "/d" then some [str "a.elf"] else none
  attrs path :=
    if path = str "/d/a.elf" then some ⟨0x81a4, 20, 3, 2, 1⟩
    else if path = str "/w/a.elf" then some ⟨0x81a4, 7, 3, 2, 1⟩
    else none
  terminated := by
    intro dir ns h n hn
    split at h
    · cases h
      rw [List.mem_singleton.mp hn]
      decide
    · cases h

/-- The host is asked to open `/d`, then to read it. -/
def World.opening (cwd : List Byte) : World :=
  { World.linked (.serving sampleTree cwd (str "a.elf")) 7 [] with
    recvPacket := Mem.store (fun _ => 0) 10 (str "/d" ++ [0]) }

def World.browsing (cwd : List Byte) : World :=
  { World.linked (.serving sampleTree cwd (str "a.elf")) 7 [] with recvPacket := Mem.store (fun _ => 0) 6 (be32 1) }

theorem browses_sample (cwd : List Byte) :
    Browses sampleTree firstMinute cwd (str "/d") 1 [str "a.elf"] (World.opening cwd) fun _ => World.browsing cwd where
  opened := by
    have hp : packetStr (World.opening cwd).recvPacket 10 = str "/d" := packetStr_store (by decide) (by decide) _
    have ho := @pkoOpenDir_opens (World.opening cwd) 1 (by rw [hp]; rfl)
    rw [hp] at ho
    exact ho
  listed := rfl
  os _ := rfl
  asked _ := by
    rw [World.browsing, Mem.ntohl_word_eq_iff]
    exact Mem.slice_store _ 6 (be32 1)
  next k hk := by
    have h0 : k = 0 := by simpa using hk
    subst h0
    exact ⟨show (1 : Word) ≠ 0 by decide, rfl⟩
  found t p st h := by simp [World.opening, World.linked, Host.serving, h]
  clock _ _ := rfl

theorem dread_entries_sample :
    (∀ k (hk : k < [str "a.elf"].length) m st,
        sampleTree.attrs (absolute (str "/d") (str "/d") ++ slash :: [str "a.elf"][k]) = some st →
        DreadReply (World.browsing (str "/d")) m → (Dirent.ofReply m).Describes firstMinute st [str "a.elf"][k]) ↔
      ∀ k (hk : k < [str "a.elf"].length) st,
        sampleTree.attrs (absolute (str "/d") (str "/d") ++ slash :: [str "a.elf"][k]) = some st →
        LooksLike (World.browsing (str "/d")) firstMinute (World.browsing (str "/d")).statEntry.2 st :=
  dread_entries_iff (browses_sample (str "/d"))

/-- With another directory as the working one, the size is that of the file there. -/
theorem dread_elsewhere : ¬ ∀ (tree : FileTree) (zone : Int → Option Tm) (cwd path : List Byte) (dir : Word)
    (names : List (List Byte)) (w : World) (x : Nat → World), Browses tree zone cwd path dir names w x →
    ∀ k (hk : k < names.length) m st, tree.attrs (absolute cwd path ++ slash :: names[k]) = some st →
      DreadReply (x k) m → (Dirent.ofReply m).Describes zone st names[k] := by
  intro h
  have hb := browses_sample (str "/w")
  have hm := hb.replied (show 0 < 1 by decide)
  have hs := h _ _ _ _ _ _ _ _ hb 0 (by decide) _ ⟨0x81a4, 20, 3, 2, 1⟩ rfl hm
  have hl := (hb.describes_iff (by decide) hm).mp hs
  exact absurd hl.size (by decide)

/-- In `/d` itself it is described. -/
example : ∀ m, DreadReply (World.browsing (str "/d")) m →
    (Dirent.ofReply m).Describes firstMinute ⟨0x81a4, 20, 3, 2, 1⟩ (str "a.elf") := fun _ hm =>
  ((browses_sample (str "/d")).describes_iff (show 0 < 1 by decide) hm).mpr
    ⟨by decide, by decide, by decide, ⟨_, rfl, rfl⟩, ⟨_, rfl, rfl⟩, ⟨_, rfl, rfl⟩⟩

end Pksh
