import Pksh.Netfs
import Pksh.Dispatch

/-! What a DREAD reply says of an entry: the reply as `pko_read_dir` builds it,
and as `ps2netfs_req_dread` takes the same struct apart. -/

namespace Pksh

open Wire Traced

/-- What `ps2netfs_req_dread` copies out of a reply. -/
def Dirent.ofReply (m : Mem) : Dirent where
  mode := ntohl (m.word 10)
  attr := ntohl (m.word 14)
  size := ntohl (m.word 18)
  times := m.slice 22 24
  hisize := ntohl (m.word 46)
  name := strncpy (m.cstr 50 maxPath) maxPath

theorem ps2netfsReqDread_eq (fd : Word) :
    ps2netfsReqDread fd =
      (netfsCall (reqHdr ps2netfsDreadCmd pktDreadReqSize ++ [(6, le32 (htonl fd))]) (sendRequest pktDreadReqSize)
        pktDreadRlySize ps2netfsDreadRly >>= fun response => pure (retval response, response.map .ofReply)) := rfl

/-- `((unsigned long int)hisize << 32) | size` -/
def Dirent.fullSize (d : Dirent) : BitVec 64 := d.hisize.setWidth 64 <<< 32 ||| d.size.setWidth 64

/-- The `struct dirent` that comes next, and its name. -/
def World.nextEntry (w : World) : Word × List Byte := w.os.readdir w.now (ntohl (w.recvPacket.word 6))

/-- What `stat` makes of `d_name`. -/
def World.statEntry (w : World) : Bool × Stat := w.os.stat (w.now + 1) w.nextEntry.2

def stampBytes (tm : Option Tm) : List Byte :=
  tm.elim [] fun tm => [tm.sec, tm.min, tm.hour, tm.mday, tm.mon + 1, tm.year].map (BitVec.ofInt 8)

/-- `ctime`, `atime` and `mtime` of the reply, when the file has these times.
The first and the last byte of each are what `send_packet` held before. -/
def World.stamp (w : World) (off n : Nat) (time : Int) : List Byte :=
  (w.sendPacket.store (off + 1) (stampBytes (w.os.localtime (w.now + n) time))).slice off 8

def World.stamps (w : World) (st : Stat) : List Byte :=
  w.stamp 22 2 st.ctime ++ w.stamp 30 3 st.atime ++ w.stamp 38 4 st.mtime

def dreadFields (w : World) : List (Nat × List Byte) :=
  [(0, le32 (htonl dreadRly)), (4, le16 (htons (BitVec.ofNat 16 pktDreadRlySize))), (6, le32 (htonl w.nextEntry.1)),
    (10, le32 (htonl (dreadMode w.statEntry.2.mode))), (14, le32 (htonl 0)),
    (18, le32 (htonl (cWord w.statEntry.2.size))),
    (23, stampBytes (w.os.localtime (w.now + 2) w.statEntry.2.ctime)),
    (31, stampBytes (w.os.localtime (w.now + 3) w.statEntry.2.atime)),
    (39, stampBytes (w.os.localtime (w.now + 4) w.statEntry.2.mtime)), (46, le32 (htonl 0)),
    (50, strncpy w.nextEntry.2 256)]

/-- `send_packet` when the reply is sent. -/
def World.dreadReply (w : World) : Mem := w.sendPacket.stores (dreadFields w)

/-- An entry as the reply shows it: a file with these attributes and this name. -/
structure Dirent.Shows (d : Dirent) (w : World) (st : Stat) (name : List Byte) : Prop where
  mode : d.mode = dreadMode st.mode
  attr : d.attr = 0
  size : (d.fullSize.toNat : Int) = st.size
  times : d.times = w.stamps st
  name : d.name = strncpy name maxPath

section Reply

variable {w : World}

def World.fill (w : World) (off : Nat) (bs : List Byte) : World := { w with sendPacket := w.sendPacket.store off bs }

@[simp] theorem World.fill_os (off : Nat) (bs : List Byte) : (w.fill off bs).os = w.os := rfl

@[simp] theorem World.fill_now (off : Nat) (bs : List Byte) : (w.fill off bs).now = w.now := rfl

theorem putSend_bind {α : Type} (off : Nat) (bs : List Byte) (f : Unit → Io α) (v : World) :
    (putSend off bs >>= f).run v = (f ()).run (v.fill off bs) := rfl

theorem putTime_bind {α : Type} (off : Nat) (time : Int) (f : Unit → Io α) (v : World) :
    (putTime off time >>= f).run v =
      (f ()).run (v.fill (off + 1) (stampBytes (v.os.localtime v.now time))).tick := by
  rw [Prog.run_bind, putTime, Prog.run_bind]
  cases h : v.os.localtime v.now time with
  | none =>
    simp only [sysLocaltime, h, Result.andThen_mk_some, Prog.run_pure, stampBytes, World.fill, Option.elim_none,
      Mem.store_nil]
    rfl
  | some tm =>
    simp only [sysLocaltime, h, Result.andThen_mk_some, putSend, setVars, stampBytes, Option.elim_some]
    rfl

theorem acts_sendReply (n : Nat) (v : World) : ∃ ret, ∃ rest ⊆ [Act.blocks v.pkoSrvFd],
    ((sendReply n >>= fun _ => (pure 0 : Io Int)).run v).acts = .send v.pkoSrvFd (v.sendPacket.slice 0 n) ret :: rest := by
  have hacts : ((sendReply n >>= fun _ => (pure 0 : Io Int)).run v).acts =
      ((sysSend v.pkoSrvFd (v.sendPacket.slice 0 n)).run v).acts :=
    (Result.acts_andThen_pure _ _).trans (Result.acts_andThen_pure _ _)
  rw [hacts]
  exact sysSend_sends v v.pkoSrvFd _

theorem pkoReadDir_run (h : w.nextEntry.1 ≠ 0) :
    pkoReadDir.run w = ((sendReply pktDreadRlySize >>= fun _ => pure 0).run
      { w with sendPacket := w.dreadReply, now := w.now + 5 }).after
        [.handle (.readDir (ntohl (w.recvPacket.word 6))), .readdir (ntohl (w.recvPacket.word 6)),
          .stat w.nextEntry.2 w.statEntry.1] := by
  have hentry : w.os.readdir w.now (ntohl (w.recvPacket.word 6)) = w.nextEntry := rfl
  refine (loadPacket_bind _ w).trans ((emit_bind _ rfl _ w).trans ?_)
  rw [putWord, putSend_bind, putHalf, putSend_bind, sysReaddir_bind, putWord, putSend_bind]
  simp only [World.fill_os, World.fill_now, hentry]
  rw [if_neg h, sysStat_bind, putWord, putSend_bind, putWord, putSend_bind, putWord, putSend_bind, putTime_bind,
    putTime_bind, putTime_bind, putWord, putSend_bind, putSend_bind, Result.after_after, Result.after_after]
  simp only [World.fill, World.tick, World.dreadReply, World.statEntry, dreadFields, Mem.stores, List.foldl_cons, List.foldl_nil,
    Nat.add_assoc, Nat.reduceAdd, List.cons_append, List.nil_append]

theorem pkoReadDir_sent (h : w.nextEntry.1 ≠ 0) {fd : Int} {bs : List Byte} {ret : Option Nat}
    (hs : .send fd bs ret ∈ (pkoReadDir.run w).acts) :
    fd = w.pkoSrvFd ∧ bs = w.dreadReply.slice 0 pktDreadRlySize := by
  obtain ⟨ret', rest, hrest, ha⟩ := acts_sendReply pktDreadRlySize
    { w with sendPacket := w.dreadReply, now := w.now + 5 }
  rw [pkoReadDir_run h, Result.after_acts, ha] at hs
  rcases List.mem_append.mp hs with hs | hs
  · simp at hs
  · rcases List.mem_cons.mp hs with hs | hs
    · cases hs
      exact ⟨rfl, rfl⟩
    · cases List.mem_singleton.mp (hrest hs)

theorem pkoReadDir_sends (h : w.nextEntry.1 ≠ 0) :
    ∃ ret, .send w.pkoSrvFd (w.dreadReply.slice 0 pktDreadRlySize) ret ∈ (pkoReadDir.run w).acts := by
  obtain ⟨ret, rest, -, ha⟩ := acts_sendReply pktDreadRlySize
    { w with sendPacket := w.dreadReply, now := w.now + 5 }
  rw [pkoReadDir_run h, Result.after_acts, ha]
  exact ⟨ret, List.mem_append_right _ List.mem_cons_self⟩

theorem stampBytes_length (tm : Option Tm) : (stampBytes tm).length ≤ 6 := by
  cases tm with
  | none => exact Nat.zero_le 6
  | some tm => exact Nat.le_refl 6

theorem dreadFields_ordered (w : World) : (dreadFields w).Pairwise fun f g => f.1 + f.2.length ≤ g.1 := by
  have hc := stampBytes_length (w.os.localtime (w.now + 2) w.statEntry.2.ctime)
  have ha := stampBytes_length (w.os.localtime (w.now + 3) w.statEntry.2.atime)
  have hm := stampBytes_length (w.os.localtime (w.now + 4) w.statEntry.2.mtime)
  simp only [dreadFields, List.pairwise_cons, List.mem_cons, List.not_mem_nil, or_false, forall_eq_or_imp, forall_eq,
    le16, le32, List.length_cons, List.length_nil]
  refine ⟨?_, ?_, ?_, ?_, ?_, ?_, ?_, ?_, ?_, ?_, by simp, .nil⟩ <;> omega

theorem word_of_field {m : Mem} (hm : m.slice 0 pktDreadRlySize = w.dreadReply.slice 0 pktDreadRlySize)
    {off : Nat} {v : Word} (ho : off + 4 ≤ pktDreadRlySize) (hf : (off, le32 (htonl v)) ∈ dreadFields w) :
    ntohl (m.word off) = v := by
  have hs : w.dreadReply.slice off (le32 (htonl v)).length = le32 (htonl v) := Mem.slice_stores (dreadFields_ordered w) hf
  rw [le32_length, le32_htonl] at hs
  rw [Mem.ntohl_word_eq_iff, Mem.slice_inside hm ho, hs]

theorem slice_stamp {front back : List (Nat × List Byte)} {off n : Nat} {time : Int}
    (hd : dreadFields w = front ++ (off + 1, stampBytes (w.os.localtime (w.now + n) time)) :: back)
    (hf : ∀ g ∈ front, g.1 + g.2.length ≤ off) (hb : ∀ g ∈ back, off + 8 ≤ g.1) :
    w.dreadReply.slice off 8 = w.stamp off n time := by
  rw [World.dreadReply, hd, Mem.slice_stores_amid hf hb, World.stamp]

theorem slice_times (w : World) : w.dreadReply.slice 22 24 = w.stamps w.statEntry.2 := by
  have hle (n : Nat) (time : Int) := stampBytes_length (w.os.localtime (w.now + n) time)
  have hc := @slice_stamp w ((dreadFields w).take 6) ((dreadFields w).drop 7) 22 2 _ rfl (by simp [dreadFields])
    (by simp [dreadFields])
  have ha := @slice_stamp w ((dreadFields w).take 7) ((dreadFields w).drop 8) 30 3 _ rfl
    (by have := hle 2 w.statEntry.2.ctime; simp [dreadFields]; omega) (by simp [dreadFields])
  have hm := @slice_stamp w ((dreadFields w).take 8) ((dreadFields w).drop 9) 38 4 _ rfl
    (by have := hle 2 w.statEntry.2.ctime; have := hle 3 w.statEntry.2.atime; simp [dreadFields]; omega)
    (by simp [dreadFields])
  rw [show (24 : Nat) = 8 + 8 + 8 from rfl, Mem.slice_add, Mem.slice_add, hc, ha, hm, World.stamps]

end Reply

theorem strncpy_takeWhile {s : List Byte} (h0 : 0 ∉ s) (n : Nat) :
    strncpy ((strncpy s n).takeWhile (· ≠ 0)) n = strncpy s n := by
  have hlen : n - min n s.length = n - s.length := by omega
  rw [takeWhile_strncpy h0, strncpy, strncpy, List.take_take, Nat.min_self, List.length_take, hlen]

theorem fullSize_toNat {d : Dirent} (h : d.hisize = 0) : d.fullSize.toNat = d.size.toNat := by
  have hlt := d.size.isLt
  rw [Dirent.fullSize, h]
  simp
  omega

def DreadReply (w : World) (m : Mem) : Prop :=
  ∃ fd ret, .send fd (m.slice 0 pktDreadRlySize) ret ∈ (pkoReadDir.run w).acts

/-- What there is to be copied out of the reply. -/
def World.dreadEntry (w : World) : Dirent where
  mode := dreadMode w.statEntry.2.mode
  attr := 0
  size := cWord w.statEntry.2.size
  times := w.stamps w.statEntry.2
  hisize := 0
  name := strncpy w.nextEntry.2 maxPath

theorem ofReply_dread {w : World} {m : Mem} (h : w.nextEntry.1 ≠ 0) (h0 : 0 ∉ w.nextEntry.2) (hm : DreadReply w m) :
    Dirent.ofReply m = w.dreadEntry := by
  obtain ⟨fd, ret, hs⟩ := hm
  have hbytes := (pkoReadDir_sent h hs).2
  have hmode : ntohl (m.word 10) = dreadMode w.statEntry.2.mode := word_of_field hbytes (by decide) (by simp [dreadFields])
  have hattr : ntohl (m.word 14) = 0 := word_of_field hbytes (by decide) (by simp [dreadFields])
  have hsize : ntohl (m.word 18) = cWord w.statEntry.2.size := word_of_field hbytes (by decide) (by simp [dreadFields])
  have hhi : ntohl (m.word 46) = 0 := word_of_field hbytes (by decide) (by simp [dreadFields])
  have htimes : m.slice 22 24 = w.stamps w.statEntry.2 := (Mem.slice_inside hbytes (by decide)).trans (slice_times w)
  have hname : strncpy (m.cstr 50 maxPath) maxPath = strncpy w.nextEntry.2 maxPath := by
    have hf : w.dreadReply.slice 50 256 = strncpy w.nextEntry.2 256 := by
      have hs := Mem.slice_stores (m := w.sendPacket) (f := (50, strncpy w.nextEntry.2 256)) (dreadFields_ordered w)
        (by simp [dreadFields])
      rwa [strncpy_length] at hs
    rw [← Mem.slice_inside hbytes (by decide)] at hf
    rw [Mem.cstr, show maxPath = 256 from rfl, hf, strncpy_takeWhile h0]
  rw [Dirent.ofReply, hmode, hattr, hsize, hhi, htimes, hname, World.dreadEntry]

theorem dreadEntry_fullSize (w : World) : (w.dreadEntry.fullSize.toNat : Int) = w.statEntry.2.size % 2 ^ 32 := by
  rw [fullSize_toNat rfl, World.dreadEntry, cWord, BitVec.toNat_ofInt]
  omega

/-- A size comes back exactly when it fits in the 32 bits of `size`. -/
theorem dread_size_iff {w : World} {m : Mem} (h : w.nextEntry.1 ≠ 0) (h0 : 0 ∉ w.nextEntry.2) (hm : DreadReply w m)
    (hpos : 0 ≤ w.statEntry.2.size) :
    (Dirent.ofReply m).Shows w w.statEntry.2 w.nextEntry.2 ↔ w.statEntry.2.size < 2 ^ 32 := by
  rw [ofReply_dread h h0 hm]
  constructor
  · intro hs
    rw [← hs.size, dreadEntry_fullSize]
    exact Int.emod_lt_of_pos _ (by decide)
  · intro hlt
    exact ⟨rfl, rfl, (dreadEntry_fullSize w).trans (Int.emod_eq_of_lt hpos hlt), rfl, rfl⟩

/-- The link is up, and a request for the next entry of a directory finds a
file of a given size. -/
def World.reading (size : Int) : World :=
  World.linked { Host.refusing with
    readdir := fun _ _ => (1, str "a.elf")
    stat := fun _ _ => (true, ⟨0x81a4, size, 0, 0, 0⟩) } 7 []

theorem dread_size_small : (Dirent.ofReply (World.reading 20).dreadReply).Shows (World.reading 20)
    (World.reading 20).statEntry.2 (World.reading 20).nextEntry.2 :=
  (dread_size_iff (by decide) (by decide) ⟨7, pkoReadDir_sends (by decide)⟩ (by decide)).mpr (by decide)

theorem dread_size_lost : ¬ ∀ (w : World) (m : Mem), w.nextEntry.1 ≠ 0 → 0 ∉ w.nextEntry.2 → DreadReply w m →
    0 ≤ w.statEntry.2.size → w.statEntry.2.size < 2 ^ 63 → (Dirent.ofReply m).Shows w w.statEntry.2 w.nextEntry.2 := by
  intro h
  have hm : DreadReply (World.reading (2 ^ 32)) (World.reading (2 ^ 32)).dreadReply := ⟨7, pkoReadDir_sends (by decide)⟩
  have hs := h (World.reading (2 ^ 32)) _ (by decide) (by decide) hm (by decide) (by decide)
  rw [ofReply_dread (by decide) (by decide) hm] at hs
  exact absurd ((dreadEntry_fullSize _).symm.trans hs.size) (by decide)

end Pksh
