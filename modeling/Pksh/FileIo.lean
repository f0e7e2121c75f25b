import Pksh.Syscalls

/-! The eight file request handlers. Each reads its request from the start of
`recv_packet`, builds its reply in `send_packet` and sends it to the link. -/

namespace Pksh

open Wire Traced

def loadPacket : Io Mem := do
  let w ← Prog.get
  pure w.recvPacket

theorem loadPacket_bind {α : Type} (f : Mem → Io α) (v : World) : (loadPacket >>= f).run v = (f v.recvPacket).run v := rfl

/-- The string at an offset of `recv_packet`, read up to the end of the buffer. -/
def packetStr (m : Mem) (off : Nat) : List Byte := m.cstr off (packetMaxsize - off)

def putSend (off : Nat) (bs : List Byte) : Io Unit :=
  setVars fun v => { v with sendPacket := v.sendPacket.store off bs }

def putWord (off : Nat) (v : Word) : Io Unit := putSend off (le32 v)

def putHalf (off : Nat) (v : Half) : Io Unit := putSend off (le16 v)

def cWord (i : Int) : Word := BitVec.ofInt 32 i

/-- `cmd`, `len` and `retval` of a `pkt_file_rly`. -/
def putFileRly (cmd : Word) (retval : Word) : Io Unit := do
  putWord 0 (htonl cmd)
  putHalf 4 (htons (BitVec.ofNat 16 pktFileRlySize))
  putWord 6 (htonl retval)

def sendReply (size : Nat) : Io Unit := do
  let w ← Prog.get
  let _ ← sysSend w.pkoSrvFd (w.sendPacket.slice 0 size)
  pure ()

/-- The last steps of a handler whose reply is a `pkt_file_rly`. -/
def answer (cmd : Word) (retval : Word) : Io Int := do
  putFileRly cmd retval
  sendReply pktFileRlySize
  pure 0

def slash : Byte := 0x2f
def backslash : Byte := 0x5c

/-- `pko_fix_path` on the string at `off` of `recv_packet`. -/
def pkoFixPath (off : Nat) : Io Unit :=
  setVars fun v =>
    let m := if v.recvPacket off = 0 then v.recvPacket.store off [0x2e, 0] else v.recvPacket
    { v with recvPacket := m.store off ((packetStr m off).map fun c => if c = backslash then slash else c) }

/-- What `pko_fix_path` makes of a path. -/
def fixedPath (p : List Byte) : List Byte := (if p = [] then [0x2e] else p).map fun c => if c = backslash then slash else c

theorem packetStr_fixPath (w : World) :
    packetStr ((pkoFixPath 10).run w).state.recvPacket 10 = fixedPath (packetStr w.recvPacket 10) := by
  have hput (m : Mem) : packetStr (m.store 10 ((packetStr m 10).map fun c => if c = backslash then slash else c)) 10 =
      (packetStr m 10).map fun c => if c = backslash then slash else c := by
    refine Mem.cstr_store (List.length_map _) fun b hb => ?_
    obtain ⟨c, hc, rfl⟩ := List.mem_map.mp hb
    split
    · exact (by decide : slash ≠ 0)
    · exact Mem.ne_zero_of_mem_cstr hc
  have hnil : packetStr w.recvPacket 10 = [] ↔ w.recvPacket 10 = 0 := Mem.cstr_eq_nil_iff (by decide)
  change packetStr ((if w.recvPacket 10 = 0 then w.recvPacket.store 10 [0x2e, 0] else w.recvPacket).store 10 _) 10 = _
  rw [hput, fixedPath]
  by_cases h : w.recvPacket 10 = 0
  · have hdot : packetStr (w.recvPacket.store 10 [0x2e, 0]) 10 = [0x2e] := by
      rw [packetStr, Mem.cstr, show packetMaxsize - 10 = 2 + 4084 from rfl, Mem.slice_add,
        Mem.slice_store_eq _ _ (show ([0x2e, 0] : List Byte).length = 2 from rfl)]
      simp
    rw [if_pos h, if_pos (hnil.mpr h), hdot]
  · rw [if_neg h, if_neg (fun hn => h (hnil.mp hn))]

/-- The flag bits with their values on a Linux host. -/
def pkoFixFlags (flags : Word) : Word :=
  let bit (ps2 host : Word) : Word := if flags &&& ps2 = 0 then 0 else host
  bit 0x0001 0x0 ||| bit 0x0002 0x1 ||| bit 0x0010 0x800 ||| bit 0x0100 0x400 |||
    bit 0x0200 0x40 ||| bit 0x0400 0x200 |||
    (flags &&& ~~~ (0x0003 ||| 0x0010 ||| 0x0100 ||| 0x0200 ||| 0x0400))

/-- `S_IRUSR|S_IWUSR|S_IRGRP|S_IWGRP|S_IROTH|S_IWOTH`. -/
def openMode : Nat := 0o666

def openAlong (name : List Byte) (flags : Word) : List (List Byte) → Io Int
  | [] => pure (-1)
  | dir :: rest => do
    let retval ← sysOpen (dir ++ slash :: name) flags openMode
    if retval ≠ -1 then pure retval else openAlong name flags rest

def pkoOpenFile : Io Int := do
  let m ← loadPacket
  let flags := ntohl (m.word 6)
  emit (.handle (.openFile flags (packetStr m 10))) rfl
  pkoFixPath 10
  let m ← loadPacket
  let path := packetStr m 10
  let first ← sysOpen path (pkoFixFlags flags) openMode
  let w ← Prog.get
  let retval ← if first = -1 then openAlong path (pkoFixFlags flags) w.pathList else pure first
  answer openRly (cWord retval)

def pkoOpenDir : Io Int := do
  let m ← loadPacket
  emit (.handle (.openDir (packetStr m 10))) rfl
  putWord 0 (htonl dopenRly)
  putHalf 4 (htons (BitVec.ofNat 16 pktFileRlySize))
  pkoFixPath 10
  let m ← loadPacket
  let dirp ← sysOpendir (packetStr m 10)
  match dirp with
  | none => pure (-1)
  | some dirp =>
    putWord 6 (htonl dirp)
    sendReply pktFileRlySize
    pure 0

def isDirMode (m : Word) : Bool := m &&& 0xF000 = 0x4000
def isLnkMode (m : Word) : Bool := m &&& 0xF000 = 0xA000
def isRegMode (m : Word) : Bool := m &&& 0xF000 = 0x8000

def dreadMode (m : Word) : Word :=
  (m &&& 0x07) ||| (if isDirMode m then 0x20 else 0) ||| (if isLnkMode m then 0x08 else 0) |||
    (if isRegMode m then 0x10 else 0)

/-- Bytes 1 to 6 of a time stamp; bytes 0 and 7 are left as they are. -/
def putTime (off : Nat) (time : Int) : Io Unit := do
  let tm ← sysLocaltime time
  match tm with
  | none => pure ()
  | some tm =>
    putSend (off + 1) ([tm.sec, tm.min, tm.hour, tm.mday, tm.mon + 1, tm.year].map (BitVec.ofInt 8))

/-- `strncpy(dst, src, n)`. -/
def strncpy (src : List Byte) (n : Nat) : List Byte :=
  src.take n ++ List.replicate (n - src.length) 0

section Strncpy

variable {src : List Byte} {n : Nat}

@[simp] theorem strncpy_length (src : List Byte) (n : Nat) : (strncpy src n).length = n := by
  simp only [strncpy, List.length_append, List.length_take, List.length_replicate]
  omega

theorem strncpy_of_lt (h : src.length < n) : strncpy src n = src ++ 0 :: List.replicate (n - src.length - 1) 0 := by
  obtain ⟨k, rfl⟩ := Nat.exists_eq_add_of_lt h
  rw [strncpy, List.take_of_length_le (Nat.le_of_lt h), ← List.replicate_succ]
  congr 2
  omega

theorem takeWhile_strncpy (h0 : 0 ∉ src) (n : Nat) : (strncpy src n).takeWhile (· ≠ 0) = src.take n := by
  by_cases h : src.length < n
  · rw [strncpy_of_lt h, takeWhile_ne_append_cons h0, List.take_of_length_le (Nat.le_of_lt h)]
  · have hlen : n - src.length = 0 := Nat.sub_eq_zero_of_le (Nat.le_of_not_lt h)
    rw [strncpy, hlen, List.replicate_zero, List.append_nil]
    exact List.takeWhile_eq_self_iff.mpr (ne_of_not_mem fun hm => h0 (List.mem_of_mem_take hm))

theorem strncpy_zero {k : Nat} {b : Byte} (hk : src.length ≤ k) (hb : (strncpy src n)[k]? = some b) : b = 0 := by
  have htake : (src.take n).length ≤ k := (List.take_prefix n src).length_le.trans hk
  rw [strncpy, List.getElem?_append_right htake] at hb
  exact List.eq_of_mem_replicate (List.mem_of_getElem? hb)

end Strncpy

def pkoReadDir : Io Int := do
  let m ← loadPacket
  let dir := ntohl (m.word 6)
  emit (.handle (.readDir dir)) rfl
  putWord 0 (htonl dreadRly)
  putHalf 4 (htons (BitVec.ofNat 16 pktDreadRlySize))
  let entry ← sysReaddir dir
  putWord 6 (htonl entry.1)
  if entry.1 = 0 then
    sendReply pktDreadRlySize
    pure 0
  else
    let st ← sysStat entry.2
    putWord 10 (htonl (dreadMode st.2.mode))
    putWord 14 (htonl 0)
    putWord 18 (htonl (cWord st.2.size))
    putTime 22 st.2.ctime
    putTime 30 st.2.atime
    putTime 38 st.2.mtime
    putWord 46 (htonl 0)
    putSend 50 (strncpy entry.2 256)
    sendReply pktDreadRlySize
    pure 0

def pkoCloseDir : Io Int := do
  let m ← loadPacket
  let dir := ntohl (m.word 6)
  emit (.handle (.closeDir dir)) rfl
  let retval ← sysClosedir dir
  answer dcloseRly (cWord retval)

def pkoCloseFile : Io Int := do
  let m ← loadPacket
  let fd := (ntohl (m.word 6)).toInt
  emit (.handle (.closeFile fd)) rfl
  let retval ← sysClose fd
  answer closeRly (cWord retval)

/-- An `int` passed where a `size_t` is expected. -/
def sizeT (n : Int) : Nat := (n % 2 ^ 64).toNat

def pkoReadFile : Io Int := do
  let m ← loadPacket
  let nbytes := (ntohl (m.word 10)).toInt
  let fd := (ntohl (m.word 6)).toInt
  emit (.handle (.readFile fd nbytes)) rfl
  putWord 0 (htonl readRly)
  putHalf 4 (htons (BitVec.ofNat 16 pktReadRlySize))
  putWord 6 (htonl (cWord fd))
  let ok ← sysMalloc (sizeT nbytes)
  if ok then
    let filebuf ← sysRead fd (sizeT nbytes)
    let readbytes : Int := match filebuf with
      | none => -1
      | some bs => bs.length
    putWord 10 (htonl (cWord readbytes))
    sendReply pktReadRlySize
    let w ← Prog.get
    let _ ← pkoSendBytes w.pkoSrvFd (filebuf.getD []) readbytes
    pure 0
  else
    pure (-1)

/-- The loop of `pko_write_file`; the value is `bytes_left` when it is left.
It goes round again only after a whole segment of at least one byte, so
`nbytes + 1` rounds are enough. -/
def writeSegments (fd : Int) : Nat → Int → Io Int
  | 0, bytesLeft => pure bytesLeft
  | rounds + 1, bytesLeft => do
    let w ← Prog.get
    let readBytes := if bytesLeft > packetMaxsize then (packetMaxsize : Int) else bytesLeft
    let received ← pkoRecvBytes w.pkoSrvFd (.recvPacket 0) readBytes
    if received.1 ≤ 0 then
      pure bytesLeft
    else
      let m ← loadPacket
      let written ← sysWrite fd (m.slice 0 received.1.toNat)
      match written with
      | none => pure bytesLeft
      | some n =>
        if (n : Int) < received.1 then pure (bytesLeft - n)
        else if bytesLeft - n > 0 then writeSegments fd rounds (bytesLeft - n)
        else pure (bytesLeft - n)

def pkoWriteFile : Io Int := do
  let m ← loadPacket
  let fd := (ntohl (m.word 6)).toInt
  let nbytes := (ntohl (m.word 10)).toInt
  emit (.handle (.writeFile fd nbytes)) rfl
  let bytesLeft ← writeSegments fd (nbytes.toNat + 1) nbytes
  answer writeRly (cWord (nbytes - bytesLeft))

def pkoLseekFile : Io Int := do
  let m ← loadPacket
  let fd := (ntohl (m.word 6)).toInt
  let offset := (ntohl (m.word 10)).toInt
  let whence := (ntohl (m.word 14)).toInt
  emit (.handle (.lseekFile fd offset whence)) rfl
  let retval ← sysLseek fd offset whence
  answer lseekRly (cWord retval)

end Pksh
