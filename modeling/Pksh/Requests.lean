import Pksh.Netfs
import Pksh.Relaying

/-! What the requests to the file server put on the wire. -/

namespace Pksh

open Wire Traced

/-- One call of a request function with its arguments. -/
inductive NetfsReq
  | openFile (path : List Byte) (mode : Word)
  | close (fd : Word)
  | read (fd size : Word)
  | write (fd : Word) (ptr : Mem) (size : Word)
  | lseek (fd offset whence : Word)
  | dopen (path : List Byte)
  | dread (fd : Word)
  | dclose (fd : Word)
  | devlist
  | mount (fsname devname : List Byte) (flag : Word) (arg : List Byte) (arglen : Word)
  | umount (path : List Byte) (flags : Word)
  | mkdir (path : List Byte)
  | rmdir (path : List Byte)
  | sync (path : List Byte) (flag : Word)
  | delete (path : Option (List Byte)) (flags : Word)
  | format (path : Option (List Byte)) (flags : Word)

namespace NetfsReq

def run : NetfsReq → Io Int
  | openFile path mode => ps2netfsReqOpen path mode
  | close fd => ps2netfsReqClose fd
  | read fd size => do
    let r ← ps2netfsReqRead fd size
    pure r.1
  | write fd ptr size => ps2netfsReqWrite fd ptr size
  | lseek fd offset whence => ps2netfsReqLseek fd offset whence
  | dopen path => ps2netfsReqDopen path
  | dread fd => do
    let r ← ps2netfsReqDread fd
    pure r.1
  | dclose fd => ps2netfsReqDclose fd
  | devlist => do
    let r ← ps2netfsReqDevlist
    pure r.1
  | mount fsname devname flag arg arglen => ps2netfsReqMount fsname devname flag arg arglen
  | umount path flags => ps2netfsReqUmount path flags
  | mkdir path => ps2netfsReqMkdir path
  | rmdir path => ps2netfsReqRmdir path
  | sync path flag => ps2netfsReqSync path flag
  | delete path flags => ps2netfsReqDelete path flags
  | format path flags => ps2netfsReqFormat path flags

def fields : NetfsReq → List (Nat × List Byte)
  | openFile path mode => reqHdr ps2netfsOpenCmd pktFileReqSize ++ [(6, le32 (htonl mode)), (10, strncpy path maxPath)]
  | close fd => reqHdr ps2netfsCloseCmd pktCloseReqSize ++ [(6, le32 (htonl fd))]
  | read fd size => reqHdr ps2netfsReadCmd pktReadReqSize ++ [(6, le32 (htonl fd)), (10, le32 (htonl size))]
  | write fd _ size => reqHdr ps2netfsWriteCmd pktWriteReqSize ++ [(6, le32 (htonl fd)), (10, le32 (htonl size))]
  | lseek fd offset whence => reqHdr ps2netfsLseekCmd pktLseekReqSize ++
      [(6, le32 (htonl fd)), (10, le32 (htonl offset)), (14, le32 (htonl whence))]
  | dopen path => reqHdr ps2netfsDopenCmd pktFileReqSize ++ [(10, strncpy path maxPath)]
  | dread fd => reqHdr ps2netfsDreadCmd pktDreadReqSize ++ [(6, le32 (htonl fd))]
  | dclose fd => reqHdr ps2netfsDcloseCmd pktCloseReqSize ++ [(6, le32 (htonl fd))]
  | devlist => reqHdr ps2netfsDevlistCmd pktDevlistReqSize ++ [(10, [0]), (11, [0])]
  | mount fsname devname flag arg arglen => reqHdr ps2netfsMountCmd pktMountReqSize ++
      [(6, strncpy fsname maxPath), (262, strncpy devname maxPath), (518, le32 (htonl flag)),
        (522, strncpy arg maxPath), (778, le32 (htonl arglen))]
  | umount path flags => reqHdr ps2netfsUmountCmd pointerSize ++ [(6, le32 flags), (10, strncpy path maxPath)]
  | mkdir path => reqHdr ps2netfsMkdirCmd pktFileReqSize ++ [(10, strncpy path maxPath)]
  | rmdir path => reqHdr ps2netfsRmdirCmd pktFileReqSize ++ [(6, le32 (htonl 0)), (10, strncpy path maxPath)]
  | sync path flag => reqHdr ps2netfsSyncCmd pktFileReqSize ++ [(6, le32 (htonl flag)), (10, strncpy path maxPath)]
  | delete path flags | format path flags =>
    reqHdrLong ps2netfsRemoveCmd pktFileReqSize ++ (6, le32 (htonl flags)) :: optionalPath path

def size : NetfsReq → Nat
  | close _ | dclose _ => pktCloseReqSize
  | read _ _ => pktReadReqSize
  | write _ _ _ => pktWriteReqSize
  | lseek _ _ _ => pktLseekReqSize
  | dread _ => pktDreadReqSize
  | mount _ _ _ _ _ => pktMountReqSize
  | _ => pktFileReqSize

def sends : NetfsReq → Io Bool
  | write _ ptr size => sendWrite ptr size
  | umount _ _ => sendPointer
  | sync _ _ => sendRequest pktFileRlySize
  | r => sendRequest r.size

def room : NetfsReq → Nat
  | read _ _ => pktReadRlySize
  | dread _ => pktDreadRlySize
  | devlist => pktDevlistRlySize
  | mount _ _ _ _ _ => pktMountReqSize
  | _ => pktFileRlySize

def awaits : NetfsReq → Word
  | openFile _ _ => ps2netfsOpenRly
  | close _ => ps2netfsCloseRly
  | read _ _ => ps2netfsReadRly
  | write _ _ _ => ps2netfsWriteRly
  | lseek _ _ _ => ps2netfsLseekRly
  | dopen _ => ps2netfsDopenRly
  | dread _ => ps2netfsDreadRly
  | dclose _ => ps2netfsDcloseRly
  | devlist => ps2netfsDevlistRly
  | mount _ _ _ _ _ => ps2netfsMountRly
  | umount _ _ => ps2netfsUmountRly
  | mkdir _ => ps2netfsMkdirRly
  | rmdir _ => ps2netfsRmdirRly
  | sync _ _ => ps2netfsSyncRly
  | delete _ _ => ps2netfsRemoveRly
  | format _ _ => ps2netfsFormatRly

/-- What is done with the reply: a read takes its data off the stream. -/
def finish : NetfsReq → Option Mem → Io Int
  | read _ _, some m => do
    if ntohl (m.word 6) > 0 then
      let w ← Prog.get
      let _ ← pkoRecvBytes w.ps2NetfsFd .caller (ntohl (m.word 6)).toInt
      pure (retval (some m))
    else pure (retval (some m))
  | _, response => pure (retval response)

theorem run_eq (r : NetfsReq) (w : World) :
    r.run.run w = ((netfsCall r.fields r.sends r.room r.awaits).run w).andThen fun m => (r.finish m).run := by
  cases r with
  | read fd size =>
    refine (Result.andThen_assoc _ _ _).trans (congrArg (Result.andThen _) ?_)
    funext response v
    cases response with
    | none => rfl
    | some m =>
      change ((if ntohl (m.word 6) > 0 then _ else _ : Io (Int × List Byte)).run v).andThen _ =
        (if ntohl (m.word 6) > 0 then _ else _ : Io Int).run v
      split
      · exact Result.andThen_assoc _ _ _
      · rfl
  | dread fd => exact Result.andThen_assoc _ _ _
  | devlist => exact Result.andThen_assoc _ _ _
  | _ => rfl

end NetfsReq

variable {α β : Type}

section Steps

variable {S : World → List Act → World → Prop} [Chains S] {pktType : Word}

theorem sat_accept {sock : Int} {len : Nat} (hawait : Sat S (emit (.await pktType) rfl)) (hclose : Sat S closeNetfs)
    (hhead : Sat S (pkoRecvBytes sock (.recvPacket 0) pktHdrSize))
    (hbody : ∀ hlen : Nat, hlen ≤ len → Sat S (pkoRecvBytes sock (.recvPacket pktHdrSize) (hlen - pktHdrSize))) :
    Sat S (ps2netfsAcceptPkt sock len pktType) := by
  refine hawait.bind fun _ => hhead.bind fun _ => .ite (.pure _) ?_
  refine (Sat.get.bind fun _ => .pure _).bind fun hdr => .ite (hclose.bind fun _ => .pure _) ?_
  by_cases hl : (ntohs (hdr.half 4)).toNat > len
  · rw [if_pos hl]
    exact .pure _
  · rw [if_neg hl]
    exact (hbody _ (Nat.le_of_not_lt hl)).bind fun _ => .pure _

theorem sat_netfsCall {fields : List (Nat × List Byte)} {sends : Io Bool} {len : Nat}
    (hfill : Sat S (setVars fun v => { v with sendPacket := v.sendPacket.stores fields })) (hsends : Sat S sends)
    (haccept : ∀ sock, Sat S (ps2netfsAcceptPkt sock len pktType)) : Sat S (netfsCall fields sends len pktType) :=
  hfill.bind fun _ => hsends.bind fun _ => .ite (Sat.get.bind fun _ => (haccept _).bind fun _ =>
    .ite (.pure _) ((Sat.get.bind fun _ => .pure _).bind fun _ => .pure _)) (.pure _)

theorem sat_sendRequest (size : Nat) (hsend : ∀ s bytes, Sat S (sysSend s bytes)) : Sat S (sendRequest size) :=
  Sat.get.bind fun _ => (hsend _ _).bind fun _ => .pure _

theorem NetfsReq.sat_sends (r : NetfsReq) (hsend : ∀ s bytes, Sat S (sysSend s bytes)) : Sat S r.sends := by
  cases r with
  | write fd ptr size =>
    exact Sat.get.bind fun _ => (hsend _ _).bind fun _ => .ite (.pure _) ((hsend _ _).bind fun _ => .pure _)
  | umount path flags => exact Sat.get.bind fun _ => (hsend _ _).bind fun _ => .pure _
  | _ => exact sat_sendRequest _ hsend

theorem NetfsReq.sat_finish (r : NetfsReq) (response : Option Mem)
    (hdata : ∀ s bytes, Sat S (pkoRecvBytes s .caller bytes)) : Sat S (r.finish response) := by
  cases r with
  | read fd size =>
    cases response with
    | none => exact .pure _
    | some m => exact .ite (Sat.get.bind fun _ => (hdata _ _).bind fun _ => .pure _) (.pure _)
  | _ => exact .pure _

end Steps

/-- The bytes handed to `send`, with the sockets they are for. -/
def outgoing (as : List Act) : List (Int × List Byte) :=
  as.filterMap fun
    | .send s bytes _ => some (s, bytes)
    | _ => none

@[simp] theorem outgoing_append (as bs : List Act) : outgoing (as ++ bs) = outgoing as ++ outgoing bs := by
  simp [outgoing]

/-- Waiting for a reply: nothing is sent, and what was sent stays where it is. -/
def Hears (pktType : Word) (w : World) (as : List Act) (w' : World) : Prop :=
  w'.sendPacket = w.sendPacket ∧ (∀ t, .await t ∈ as → t = pktType) ∧ outgoing as = []

instance (pktType : Word) : Chains (Hears pktType) where
  nil _ := ⟨rfl, by simp, rfl⟩
  append h h' := by
    refine ⟨h'.1.trans h.1, fun t ht => ?_, by rw [outgoing_append, h.2.2, h'.2.2]; rfl⟩
    exact (List.mem_append.mp ht).elim (h.2.1 t) (h'.2.1 t)

namespace Hears

variable {pktType : Word}

theorem pkoRecvBytes (s : Int) (buf : Buf) (bytes : Int) : Sat (Hears pktType) (pkoRecvBytes s buf bytes) := by
  refine fun w => ⟨?_, fun t ht => ?_, ?_⟩
  · obtain ⟨bs, hv⟩ := pkoRecvBytes_vars w s buf bytes
    rw [hv]
    cases buf <;> rfl
  · have h : ∀ a ∈ ((Pksh.pkoRecvBytes s buf bytes).run w).acts, a ≠ .await t :=
      pkoRecvBytes_acts w s buf bytes (by simp) (by cases buf <;> simp [Buf.stored]) (by simp)
    exact absurd rfl (h _ ht)
  · rw [outgoing, List.filterMap_eq_nil_iff]
    exact pkoRecvBytes_acts w s buf bytes (fun _ => rfl) (by cases buf <;> simp [Buf.stored]) rfl

theorem closeNetfs : Sat (Hears pktType) closeNetfs := fun w =>
  ⟨rfl, by simp [Pksh.closeNetfs, sysClose, setVars], by simp [Pksh.closeNetfs, sysClose, setVars, outgoing]⟩

theorem ps2netfsAcceptPkt (sock : Int) (len : Nat) :
    Sat (Hears pktType) (ps2netfsAcceptPkt sock len pktType) := by
  have hawait : Sat (Hears pktType) (emit (.await pktType) rfl) := fun _ => ⟨rfl, by simp [emit], rfl⟩
  exact sat_accept hawait closeNetfs (pkoRecvBytes _ _ _) fun _ _ => pkoRecvBytes _ _ _

theorem finish (r : NetfsReq) (response : Option Mem) : Sat (Hears pktType) (r.finish response) :=
  r.sat_finish response fun s bytes => pkoRecvBytes s .caller bytes

end Hears

def NetfsReq.filled (r : NetfsReq) (w : World) : World :=
  { w with sendPacket := w.sendPacket.stores r.fields }

/-- What a request sends, in the state in which its struct is filled in. -/
structure Sends (request : List Byte) (payload : Option (List Byte)) (w : World) (r : Result World Act Bool) :
    Prop where
  sendPacket : r.state.sendPacket = w.sendPacket
  awaits : ∀ t, .await t ∉ r.acts
  outgoing : outgoing r.acts = [(w.ps2NetfsFd, request)] ∨
    ∃ bs, payload = some bs ∧ outgoing r.acts = [(w.ps2NetfsFd, request), (w.ps2NetfsFd, bs)]

theorem outgoing_sysSend (w : World) (s : Int) (bs : List Byte) :
    outgoing ((sysSend s bs).run w).acts = [(s, bs)] ∧ ∀ t, .await t ∉ ((sysSend s bs).run w).acts := by
  obtain ⟨ret, ⟨ha, _⟩ | ⟨ha, _⟩⟩ := sysSend_acts w s bs
  · simp [ha, outgoing]
  · simp [ha, outgoing]

theorem sends_once (w : World) (bs : List Byte) (payload : Option (List Byte)) :
    Sends bs payload w ((do
      let _ ← sysSend w.ps2NetfsFd bs
      pure true : Io Bool).run w) := by
  obtain ⟨ho, ha⟩ := outgoing_sysSend w w.ps2NetfsFd bs
  have hs := congrArg Vars.sendPacket (sysSend_vars w w.ps2NetfsFd bs)
  cases hv : ((sysSend w.ps2NetfsFd bs).run w).value with
  | none =>
    rw [Prog.run_bind, Result.andThen_none _ hv]
    exact ⟨hs, ha, .inl ho⟩
  | some v =>
    rw [Prog.run_bind, Result.andThen_some _ hv]
    exact ⟨hs, by simpa using ha, .inl (by simpa using ho)⟩

theorem sends_write (w : World) (ptr : Mem) (size : Word) :
    Sends (w.sendPacket.slice 0 pktWriteReqSize) (some (ptr.slice 0 (sizeT size.toInt))) w
      ((sendWrite ptr size).run w) := by
  obtain ⟨ho, ha⟩ := outgoing_sysSend w w.ps2NetfsFd (w.sendPacket.slice 0 pktWriteReqSize)
  have hvars := sysSend_vars w w.ps2NetfsFd (w.sendPacket.slice 0 pktWriteReqSize)
  rw [sendWrite, Prog.run_bind, Prog.run_get, Result.andThen_mk_some, Prog.run_bind]
  generalize (sysSend w.ps2NetfsFd (w.sendPacket.slice 0 pktWriteReqSize)).run w = x at *
  obtain ⟨_ | ret, u, as⟩ := x
  · exact ⟨congrArg Vars.sendPacket hvars, ha, .inl ho⟩
  · rw [Result.andThen_mk_some]
    by_cases hr : ret < 0
    · rw [if_pos hr]
      exact ⟨congrArg Vars.sendPacket hvars, by simpa using ha, .inl (by simpa using ho)⟩
    · obtain ⟨ho', ha'⟩ := outgoing_sysSend u w.ps2NetfsFd (ptr.slice 0 (sizeT size.toInt))
      have hvars' := sysSend_vars u w.ps2NetfsFd (ptr.slice 0 (sizeT size.toInt))
      rw [if_neg hr, Prog.run_bind]
      generalize (sysSend w.ps2NetfsFd (ptr.slice 0 (sizeT size.toInt))).run u = y at *
      obtain ⟨_ | ret', v, bs⟩ := y
      · exact ⟨congrArg Vars.sendPacket (hvars'.trans hvars), by simpa using fun t => ⟨ha t, ha' t⟩,
          .inr ⟨_, rfl, by simp_all⟩⟩
      · exact ⟨congrArg Vars.sendPacket (hvars'.trans hvars), by simpa using fun t => ⟨ha t, ha' t⟩,
          .inr ⟨_, rfl, by simp_all⟩⟩

/-- The bytes a request puts on the wire before any payload. -/
def NetfsReq.wire (r : NetfsReq) (w : World) : List Byte :=
  match r with
  | umount _ _ => (w.os.stack w.now).slice 0 pktFileReqSize
  | sync _ _ => w.sendPacket.slice 0 pktFileRlySize
  | r => w.sendPacket.slice 0 r.size

def NetfsReq.payload : NetfsReq → Option (List Byte)
  | write _ ptr size => some (ptr.slice 0 (sizeT size.toInt))
  | _ => none

theorem NetfsReq.sends_spec (r : NetfsReq) (w : World) : Sends (r.wire w) r.payload w (r.sends.run w) := by
  cases r with
  | write fd ptr size => exact sends_write w ptr size
  | _ => exact sends_once w _ _

def NetfsReq.response (r : NetfsReq) (sent : Bool) : Io (Option Mem) :=
  if sent then do
    let w ← Prog.get
    let accepted ← ps2netfsAcceptPkt w.ps2NetfsFd r.room r.awaits
    if accepted = 0 then pure none
    else
      let response ← loadPacket
      pure (some response)
  else pure none

theorem NetfsReq.run_split (r : NetfsReq) (w : World) :
    r.run.run w = (r.sends.run (r.filled w)).andThen fun sent => (r.response sent >>= r.finish).run := by
  rw [r.run_eq]
  exact Result.andThen_assoc (r.sends.run (r.filled w)) (fun sent => (r.response sent).run) _

theorem Hears.response (r : NetfsReq) (sent : Bool) : Sat (Hears r.awaits) (r.response sent) :=
  .ite (Sat.get.bind fun _ => (ps2netfsAcceptPkt _ _).bind fun _ =>
    .ite (.pure _) ((Sat.get.bind fun _ => .pure _).bind fun _ => .pure _)) (.pure _)

theorem NetfsReq.run_sends (r : NetfsReq) (w : World) :
    (r.run.run w).state.sendPacket = (r.filled w).sendPacket ∧
      (∀ t, .await t ∈ (r.run.run w).acts → t = r.awaits) ∧
      (outgoing (r.run.run w).acts = [(w.ps2NetfsFd, r.wire (r.filled w))] ∨ ∃ bs, r.payload = some bs ∧
        outgoing (r.run.run w).acts = [(w.ps2NetfsFd, r.wire (r.filled w)), (w.ps2NetfsFd, bs)]) := by
  obtain ⟨hs, ha, ho⟩ := r.sends_spec (r.filled w)
  rw [r.run_split]
  cases hv : (r.sends.run (r.filled w)).value with
  | none =>
    rw [Result.andThen_none _ hv]
    exact ⟨hs, fun t ht => absurd ht (ha t), ho⟩
  | some sent =>
    obtain ⟨hs', ha', ho'⟩ := (Hears.response r sent).bind (Hears.finish r) (r.sends.run (r.filled w)).state
    rw [Result.andThen_some _ hv]
    refine ⟨hs'.trans hs, fun t ht => ?_, ?_⟩
    · exact (List.mem_append.mp ht).elim (fun h => absurd h (ha t)) (ha' t)
    · rw [Result.after_acts, outgoing_append, ho', List.append_nil]
      exact ho

/-- An argument and the place in the struct where it belongs. -/
inductive Arg
  | word (off : Nat) (v : Word)
  | path (off : Nat) (p : List Byte)

/-- Reading the place in network order, or as a string, gives the argument. -/
def Arg.Decodes (bytes : List Byte) : Arg → Prop
  | word off v => ofBe32 (bytes.drop off) = v
  | path off p => ((bytes.drop off).take maxPath).takeWhile (· ≠ 0) = p

namespace NetfsReq

def args : NetfsReq → List Arg
  | openFile path mode => [.word 6 mode, .path 10 path]
  | close fd => [.word 6 fd]
  | read fd size => [.word 6 fd, .word 10 size]
  | write fd _ size => [.word 6 fd, .word 10 size]
  | lseek fd offset whence => [.word 6 fd, .word 10 offset, .word 14 whence]
  | dopen path => [.path 10 path]
  | dread fd => [.word 6 fd]
  | dclose fd => [.word 6 fd]
  | devlist => [.path 10 []]
  | mount fsname devname flag arg arglen =>
    [.path 6 fsname, .path 262 devname, .word 518 flag, .path 522 arg, .word 778 arglen]
  | umount path flags => [.word 6 flags, .path 10 path]
  | mkdir path => [.path 10 path]
  | rmdir path => [.word 6 0, .path 10 path]
  | sync path flag => [.word 6 flag, .path 10 path]
  | delete path flags => .word 6 flags :: path.toList.map (.path 10)
  | format path flags => .word 6 flags :: path.toList.map (.path 10)

/-- The paths are strings shorter than `MAX_PATH`. -/
def PathsFit (r : NetfsReq) : Prop := ∀ off p, .path off p ∈ r.args → (∀ b ∈ p, b ≠ 0) ∧ p.length < maxPath

/-- What is put on the wire before any payload is the struct that was filled
in: `len` is its size, each argument decodes from its place, and the reply
waited for is that of its command. -/
def WellSent (r : NetfsReq) (w : World) : Prop :=
  ∃ bytes,
    (outgoing (r.run.run w).acts = [(w.ps2NetfsFd, bytes)] ∨ ∃ bs, r.payload = some bs ∧
      outgoing (r.run.run w).acts = [(w.ps2NetfsFd, bytes), (w.ps2NetfsFd, bs)]) ∧
    bytes = (r.run.run w).state.sendPacket.slice 0 r.size ∧
    (ofBe16 (bytes.drop 4)).toNat = bytes.length ∧ bytes.length = r.size ∧
    (∀ a ∈ r.args, a.Decodes bytes) ∧
    ∀ t, .await t ∈ (r.run.run w).acts → t = ofBe32 bytes + 1

/-- The four requests that are put together wrongly. -/
def misbuilt : NetfsReq → Bool
  | umount _ _ | sync _ _ | delete _ _ | format _ _ => true
  | _ => false

end NetfsReq

section Struct

variable {m : Mem} {size off : Nat} {fields : List (Nat × List Byte)}

theorem field_slice {bs : List Byte} (ho : fields.Pairwise fun f g => f.1 + f.2.length ≤ g.1)
    (hf : (off, bs) ∈ fields) (hs : off + bs.length ≤ size) :
    (((m.stores fields).slice 0 size).drop off).take bs.length = bs := by
  rw [Mem.slice_drop _ _ (by omega), Nat.zero_add, Mem.slice_take _ _ (by omega)]
  exact Mem.slice_stores ho hf

theorem word_decodes {v : Word} (ho : fields.Pairwise fun f g => f.1 + f.2.length ≤ g.1)
    (hf : (off, le32 (htonl v)) ∈ fields) (hs : off + 4 ≤ size) :
    (Arg.word off v).Decodes ((m.stores fields).slice 0 size) := by
  have h := field_slice (m := m) ho hf hs
  rw [le32_length, le32_htonl] at h
  rw [Arg.Decodes, ← ofBe32_take _ (Nat.le_refl 4), h, ofBe32_be32]

theorem path_decodes {p : List Byte} (ho : fields.Pairwise fun f g => f.1 + f.2.length ≤ g.1)
    (hf : (off, strncpy p maxPath) ∈ fields) (hs : off + maxPath ≤ size)
    (hp : (∀ b ∈ p, b ≠ 0) ∧ p.length < maxPath) :
    (Arg.path off p).Decodes ((m.stores fields).slice 0 size) := by
  have h : (((m.stores fields).slice 0 size).drop off).take (strncpy p maxPath).length = strncpy p maxPath :=
    field_slice ho hf (by rwa [strncpy_length])
  rw [strncpy_length] at h
  rw [Arg.Decodes, h]
  have h0 : 0 ∉ p := fun h => hp.1 0 h rfl
  rw [takeWhile_strncpy h0, List.take_of_length_le (Nat.le_of_lt hp.2)]

theorem len_decodes {n : Nat} (ho : fields.Pairwise fun f g => f.1 + f.2.length ≤ g.1)
    (hf : (4, le16 (htons (BitVec.ofNat 16 n))) ∈ fields) (hs : 6 ≤ size) (hn : n < 2 ^ 16) :
    (ofBe16 (((m.stores fields).slice 0 size).drop 4)).toNat = n := by
  have h := field_slice (m := m) ho hf hs
  rw [le16_length, le16_htons] at h
  rw [← ofBe16_take _ (Nat.le_refl 2), h, ofBe16_be16, BitVec.toNat_ofNat]
  omega

end Struct

def Arg.field : Arg → Nat × List Byte
  | word off v => (off, le32 (htonl v))
  | path off p => (off, strncpy p maxPath)

namespace NetfsReq

theorem fields_ordered (r : NetfsReq) : r.fields.Pairwise fun f g => f.1 + f.2.length ≤ g.1 := by
  cases r with
  | delete path flags => cases path <;> simp [fields, reqHdrLong, optionalPath]
  | format path flags => cases path <;> simp [fields, reqHdrLong, optionalPath]
  | _ => simp [fields, reqHdr, maxPath]

theorem header_of_not_misbuilt {r : NetfsReq} (h : r.misbuilt = false) :
    ∃ cmd fs, r.fields = reqHdr cmd r.size ++ fs ∧ r.awaits = cmd + 1 ∧
      ∀ u : World, r.wire u = u.sendPacket.slice 0 r.size := by
  cases r with
  | umount path flags => cases h
  | sync path flag => cases h
  | delete path flags => cases h
  | format path flags => cases h
  | _ => exact ⟨_, _, rfl, rfl, fun _ => rfl⟩

theorem size_bounds (r : NetfsReq) : 6 ≤ r.size ∧ r.size < 2 ^ 16 := by
  cases r <;> exact ⟨Nat.le_of_ble_eq_true rfl, Nat.le_of_ble_eq_true rfl⟩

theorem args_decode {r : NetfsReq} (h : r.misbuilt = false) (hp : r.PathsFit) (m : Mem) :
    ∀ a ∈ r.args, a.Decodes ((m.stores r.fields).slice 0 r.size) := by
  have key (hl : ∀ a ∈ r.args, a.field ∈ r.fields ∧ a.field.1 + a.field.2.length ≤ r.size) :
      ∀ a ∈ r.args, a.Decodes ((m.stores r.fields).slice 0 r.size) := by
    intro a ha
    obtain ⟨hf, hs⟩ := hl a ha
    cases a with
    | word off v => exact word_decodes r.fields_ordered hf hs
    | path off p => exact path_decodes r.fields_ordered hf (by simpa [Arg.field] using hs) (hp off p ha)
  cases r with
  | umount path flags => cases h
  | sync path flag => cases h
  | delete path flags => cases h
  | format path flags => cases h
  | devlist =>
    -- only the terminator of the path is put there
    intro a ha
    obtain rfl : a = .path 10 [] := by simpa [args] using ha
    have hz : (m.stores devlist.fields).slice 10 1 = [0] :=
      Mem.slice_stores (f := (10, [0])) devlist.fields_ordered (by simp [fields])
    have hs : (m.stores devlist.fields).slice 10 maxPath = 0 :: (m.stores devlist.fields).slice 11 255 := by
      rw [show maxPath = 1 + 255 from rfl, Mem.slice_add, hz]
      rfl
    rw [Arg.Decodes, Mem.slice_drop _ _ (by decide), Nat.zero_add, Mem.slice_take _ _ (by decide), hs]
    rfl
  | _ => exact key (by simp [args, fields, Arg.field, reqHdr, size, maxPath, pktFileReqSize, pktCloseReqSize,
      pktReadReqSize, pktWriteReqSize, pktLseekReqSize, pktDreadReqSize, pktMountReqSize])

end NetfsReq

theorem outgoing_head {x : Int × List Byte} {l : List (Int × List Byte)} {payload : Option (List Byte)} {s : Int}
    (h : l = [x] ∨ ∃ bs, payload = some bs ∧ l = [x, (s, bs)]) : l.head? = some x := by
  rcases h with h | ⟨bs, _, h⟩ <;> simp [h]

theorem wellSent_of_not_misbuilt {r : NetfsReq} {w : World} (hp : r.PathsFit) (h : r.misbuilt = false) :
    r.WellSent w := by
  obtain ⟨hsp, haw, hout⟩ := r.run_sends w
  obtain ⟨cmd, fs, hf, hc, hw⟩ := NetfsReq.header_of_not_misbuilt h
  have hb : r.wire (r.filled w) = (w.sendPacket.stores r.fields).slice 0 r.size := hw _
  have hcode : (Arg.word 0 cmd).Decodes (r.wire (r.filled w)) := by
    rw [hb]
    exact word_decodes r.fields_ordered (by simp [hf, reqHdr]) (by have := r.size_bounds; omega)
  refine ⟨r.wire (r.filled w), hout, ?_, ?_, ?_, ?_, fun t ht => ?_⟩
  · rw [hsp]
    exact hb
  · rw [hb, Mem.slice_length]
    exact len_decodes r.fields_ordered (by simp [hf, reqHdr]) r.size_bounds.1 r.size_bounds.2
  · rw [hb, Mem.slice_length]
  · rw [hb]
    exact NetfsReq.args_decode h hp _
  · rw [haw t ht, hc]
    exact congrArg (· + 1) hcode.symm

theorem len_reqHdrLong {r : NetfsReq} {w : World} {cmd : Word} {fs : List (Nat × List Byte)}
    (hf : r.fields = reqHdrLong cmd pktFileReqSize ++ fs) :
    (ofBe16 (((w.sendPacket.stores r.fields).slice 0 r.size).drop 4)).toNat = 0 := by
  have hz : le16 ((htonl (BitVec.ofNat 32 pktFileReqSize)).setWidth 16) = [0, 0] := by decide
  have hm : (4, [0, 0]) ∈ r.fields := by simp [hf, reqHdrLong, hz]
  rw [← ofBe16_take _ (Nat.le_refl 2)]
  exact congrArg (fun bs => (ofBe16 bs).toNat) (field_slice r.fields_ordered hm r.size_bounds.1)

theorem misbuilt_of_wellSent {r : NetfsReq} {w : World} (hws : r.WellSent w) : r.misbuilt = false := by
  obtain ⟨bytes, ho, hst, hlen, hsz, _, _⟩ := hws
  obtain ⟨hsp, _, hout⟩ := r.run_sends w
  have hb : bytes = r.wire (r.filled w) := by
    have he := (outgoing_head ho).symm.trans (outgoing_head hout)
    simpa using he
  rw [hsp] at hst
  cases r with
  | umount path flags =>
    have h8 : (ofBe16 (bytes.drop 4)).toNat = 8 := by
      rw [hst]
      exact len_decodes (NetfsReq.umount path flags).fields_ordered (by simp [NetfsReq.fields, reqHdr, pointerSize])
        (NetfsReq.umount path flags).size_bounds.1 (by decide)
    rw [hlen, hsz] at h8
    cases h8
  | sync path flag =>
    rw [hb, NetfsReq.wire, Mem.slice_length] at hsz
    cases hsz
  | delete path flags =>
    have h0 : (ofBe16 (bytes.drop 4)).toNat = 0 := by
      rw [hst]
      exact len_reqHdrLong rfl
    rw [hlen, hsz] at h0
    cases h0
  | format path flags =>
    have h0 : (ofBe16 (bytes.drop 4)).toNat = 0 := by
      rw [hst]
      exact len_reqHdrLong rfl
    rw [hlen, hsz] at h0
    cases h0
  | _ => rfl

/-- A request puts its struct on the wire as it should exactly when it is none
of the four that are put together wrongly. -/
theorem request_wellSent_iff (r : NetfsReq) (w : World) (hp : r.PathsFit) :
    r.WellSent w ↔ r.misbuilt = false :=
  ⟨misbuilt_of_wellSent, wellSent_of_not_misbuilt hp⟩

theorem dopen_wellSent :
    (NetfsReq.dopen (str "mc0:/")).WellSent (.linked .refusing 3 []) ↔ (NetfsReq.dopen (str "mc0:/")).misbuilt = false := by
  refine request_wellSent_iff (.dopen (str "mc0:/")) _ fun off p hp => ?_
  simp only [NetfsReq.args, List.mem_cons, List.not_mem_nil, or_false, Arg.path.injEq] at hp
  obtain ⟨-, rfl⟩ := hp
  decide

/-- A delete announces a length of 0. -/
theorem delete_not_wellSent : ¬∀ (r : NetfsReq) (w : World), r.PathsFit → r.WellSent w := by
  intro h
  have hp : (NetfsReq.delete none 0).PathsFit := by simp [NetfsReq.PathsFit, NetfsReq.args]
  have := misbuilt_of_wellSent (h (.delete none 0) (.linked .refusing 3 []) hp)
  cases this

end Pksh
