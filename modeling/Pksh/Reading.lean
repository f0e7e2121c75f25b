import Pksh.Isolation
import Pksh.Lib.Frames

/-! The reply to a read request: a header that announces what the read
returned, and the bytes behind it. -/

namespace Pksh

open Wire Traced

/-- What a read request is answered: the descriptor, and what `read` returned,
`none` for an error. -/
structure ReadRly where
  fd : Word
  result : Option (List Byte)
  fits : ∀ bs, result = some bs → bs.length < 2 ^ 31

namespace ReadRly

/-- The result of `read` as an `int`. -/
def count (r : ReadRly) : Int :=
  match r.result with
  | none => -1
  | some bs => bs.length

def data (r : ReadRly) : List Byte := r.result.getD []

def header (r : ReadRly) : List Byte :=
  be32 readRly ++ (be16 (BitVec.ofNat 16 pktReadRlySize) ++ (be32 r.fd ++ be32 (cWord r.count)))

def wire (r : ReadRly) : List Byte := r.header ++ r.data

/-- The first reply of a stream, and what is behind it. -/
def next (bs : List Byte) : Option (ReadRly × List Byte) :=
  if pktReadRlySize ≤ bs.length ∧ ofBe32 bs = readRly ∧ (ofBe16 (bs.drop 4)).toNat = pktReadRlySize then
    let fd := ofBe32 (bs.drop 6)
    let nbytes := ofBe32 (bs.drop 10)
    let rest := bs.drop pktReadRlySize
    if nbytes.toInt = -1 then some (⟨fd, none, nofun⟩, rest)
    else if h : nbytes.toNat < 2 ^ 31 ∧ nbytes.toNat ≤ rest.length then
      some (⟨fd, some (rest.take nbytes.toNat), fun bs hb => by
        obtain rfl := Option.some.inj hb
        exact Nat.lt_of_le_of_lt (List.length_take_le _ _) h.1⟩, rest.drop nbytes.toNat)
    else none
  else none

theorem header_length (r : ReadRly) : r.header.length = pktReadRlySize := rfl

theorem wire_ne_nil (r : ReadRly) : r.wire ≠ [] := by
  refine List.append_ne_nil_of_left_ne_nil (List.ne_nil_of_length_pos ?_) _
  rw [header_length]
  decide

theorem next_wire (r : ReadRly) (rest : List Byte) : next (r.wire ++ rest) = some (r, rest) := by
  have h0 : ofBe32 (r.wire ++ rest) = readRly := by
    rw [wire, header]
    simp only [List.append_assoc]
    exact ofBe32_be32_append _ _
  have h4 : ofBe16 ((r.wire ++ rest).drop 4) = BitVec.ofNat 16 pktReadRlySize := by
    rw [wire, header]
    simp only [List.append_assoc]
    exact ofBe16_be16_append _ _
  have h6 : ofBe32 ((r.wire ++ rest).drop 6) = r.fd := by
    rw [wire, header]
    simp only [List.append_assoc]
    exact ofBe32_be32_append _ _
  have h10 : ofBe32 ((r.wire ++ rest).drop 10) = cWord r.count := by
    rw [wire, header]
    simp only [List.append_assoc]
    exact ofBe32_be32_append _ _
  have hd : (r.wire ++ rest).drop pktReadRlySize = r.data ++ rest := by
    rw [wire, List.append_assoc]
    exact List.drop_left' r.header_length
  have hlen : pktReadRlySize ≤ (r.wire ++ rest).length := by
    rw [wire, List.append_assoc, List.length_append, header_length]
    omega
  rw [next, if_pos ⟨hlen, h0, by rw [h4]; rfl⟩]
  simp only [h6, h10, hd]
  obtain ⟨fd, result, fits⟩ := r
  cases result with
  | none => rfl
  | some bs =>
    have hb := fits bs rfl
    have hw : (cWord (ReadRly.count ⟨fd, some bs, fits⟩)).toNat = bs.length := by
      rw [cWord, show ReadRly.count ⟨fd, some bs, fits⟩ = bs.length from rfl, BitVec.toNat_ofInt]
      omega
    have hi := BitVec.toInt_eq_toNat_of_lt (x := cWord (ReadRly.count ⟨fd, some bs, fits⟩)) (by omega)
    have hne : (cWord (ReadRly.count ⟨fd, some bs, fits⟩)).toInt ≠ -1 := by omega
    rw [if_neg hne]
    simp only [hw, data, Option.getD_some, List.take_left, List.drop_left]
    rw [dif_pos ⟨hb, by rw [List.length_append]; omega⟩]

theorem frames_wire (rs : List ReadRly) : frames next (rs.flatMap wire) = some rs :=
  frames_flatMap next_wire wire_ne_nil rs

end ReadRly

/-- The bytes an act puts on the stream of `s`. -/
def Act.puts (s : Int) : Act → List Byte
  | .send s' bytes (some n) | .write s' bytes (some n) => if s' = s then bytes.take n else []
  | .sendAll s' bytes => if s' = s then bytes else []
  | _ => []

/-- The bytes appended to the stream of `s`, in order. -/
def appended (s : Int) (as : List Act) : List Byte := as.flatMap (Act.puts s)

@[simp] theorem appended_append (s : Int) (as bs : List Act) : appended s (as ++ bs) = appended s as ++ appended s bs := by
  simp [appended]

theorem appended_sysRead (w : World) (fd s : Int) (n : Nat) : appended s ((sysRead fd n).run w).acts = [] := by
  rw [appended, List.flatMap_eq_nil_iff]
  exact sysRead_acts w fd n (fun _ => rfl) (fun _ => rfl) rfl

theorem sysRead_outflow (w : World) (fd s : Int) (n : Nat) :
    ((sysRead fd n).run w).state.outflow s = w.outflow s := by
  simp only [sysRead]
  split
  · rfl
  · split
    · rfl
    · split
      · rfl
      · exact putInflow_outflow w.tick s fd _
  · rfl

theorem sysRead_value {w v : World} (hd : w.desc = v.desc) (ho : w.os = v.os) (hn : w.now = v.now) (fd : Int) (n : Nat) :
    ((sysRead fd n).run w).value = ((sysRead fd n).run v).value := by
  simp only [sysRead, hd, ho, hn]
  split
  · rfl
  · split
    · rfl
    · split <;> rfl
  · rfl

/-- A read request gets its buffer, `read` returns what the reply says, and the
link takes the header in one piece and the rest in any pieces. -/
structure World.Reads (w : World) (r : ReadRly) : Prop where
  fd : r.fd = ntohl (w.recvPacket.word 6)
  granted : w.os.malloc w.now (sizeT (ntohl (w.recvPacket.word 10)).toInt) = true
  returned : ((sysRead (ntohl (w.recvPacket.word 6)).toInt (sizeT (ntohl (w.recvPacket.word 10)).toInt)).run w.tick).value =
    some r.result
  whole : ∃ g, (w.outflow w.pkoSrvFd).send pktReadRlySize = some (.ok pktReadRlySize, g)
  delivers : (w.outflow w.pkoSrvFd).Delivers

theorem sysRead_length {w : World} {fd : Int} {n : Nat} {bs : List Byte}
    (h : ((sysRead fd n).run w).value = some (some bs)) : bs.length ≤ n := by
  revert h
  simp only [sysRead]
  split
  · intro h
    obtain ⟨cs, _, rfl⟩ := Option.map_eq_some_iff.mp (Option.some.inj h)
    exact List.length_take_le n cs
  · split
    · intro h
      cases h
      exact Nat.zero_le _
    · split
      · exact nofun
      · rename_i r f hr
        intro h
        exact Inflow.recv_length hr (Option.some.inj h)
  · exact nofun

/-- Whatever a read with a count that is not negative returns can be announced. -/
theorem World.Reads.of_returned {w : World} {result : Option (List Byte)}
    (hn : 0 ≤ (ntohl (w.recvPacket.word 10)).toInt)
    (hm : w.os.malloc w.now (sizeT (ntohl (w.recvPacket.word 10)).toInt) = true)
    (hr : ((sysRead (ntohl (w.recvPacket.word 6)).toInt (sizeT (ntohl (w.recvPacket.word 10)).toInt)).run w.tick).value =
      some result)
    (hs : ∃ g, (w.outflow w.pkoSrvFd).send pktReadRlySize = some (.ok pktReadRlySize, g))
    (hd : (w.outflow w.pkoSrvFd).Delivers) : ∃ r : ReadRly, r.result = result ∧ w.Reads r := by
  have hlt := (ntohl (w.recvPacket.word 10)).toInt_lt
  have hfits : ∀ bs, result = some bs → bs.length < 2 ^ 31 := by
    rintro bs rfl
    have hle := sysRead_length hr
    rw [sizeT] at hle
    omega
  exact ⟨⟨ntohl (w.recvPacket.word 6), result, hfits⟩, rfl, rfl, hm, hr, hs, hd⟩

theorem readHeader_slice (r : ReadRly) (m : Mem) :
    (m.stores [(0, le32 (htonl readRly)), (4, le16 (htons (BitVec.ofNat 16 pktReadRlySize))), (6, le32 (htonl r.fd)),
      (10, le32 (htonl (cWord r.count)))]).slice 0 pktReadRlySize = r.header := by
  refine (@Mem.Tiles.slice pktReadRlySize 0 _ ?_ m).trans ?_
  · simp [Mem.Tiles, pktReadRlySize]
  · simp [ReadRly.header]

theorem readReply_appended {S : World} {r : ReadRly} {m : Mem} {g : Outflow Errno.drops}
    (hm : S.sendPacket = m.stores [(0, le32 (htonl readRly)), (4, le16 (htons (BitVec.ofNat 16 pktReadRlySize))),
      (6, le32 (htonl r.fd))])
    (hs : (S.outflow S.pkoSrvFd).send pktReadRlySize = some (.ok pktReadRlySize, g)) (hg : g.Delivers) :
    appended S.pkoSrvFd ((readReply r.result).run S).acts = r.wire := by
  let S' : World := { S with sendPacket := S.sendPacket.store 10 (le32 (htonl (cWord r.count))) }
  have hslice : S'.sendPacket.slice 0 pktReadRlySize = r.header := by
    rw [← readHeader_slice r m]
    change (S.sendPacket.store _ _).slice _ _ = _
    rw [hm]
    rfl
  have hsend : (sysSend S.pkoSrvFd r.header).run S' =
      ⟨some pktReadRlySize, S'.tick.putOutflow S.pkoSrvFd g, [.send S.pkoSrvFd r.header (some pktReadRlySize)]⟩ := by
    have hs' : (S'.outflow S.pkoSrvFd).send r.header.length = some (.ok pktReadRlySize, g) := hs
    simp only [sysSend, hs']
    rfl
  have hout : (S'.tick.putOutflow S.pkoSrvFd g).outflow S.pkoSrvFd = g := putOutflow_send S'.tick S.pkoSrvFd hs
  obtain ⟨hfull, hall⟩ := hg.write r.count.toNat
  have hdata : r.data.take r.count.toNat = r.data := by
    refine List.take_of_length_le ?_
    obtain ⟨fd, result, fits⟩ := r
    cases result with
    | none => exact Nat.zero_le _
    | some bs => exact Nat.le_refl _
  have hrun : ((readReply r.result).run S).acts =
      [.send S.pkoSrvFd r.header (some pktReadRlySize), .sendAll S.pkoSrvFd r.data] := by
    have hput : (putWord 10 (htonl (cWord r.count))).run S = ⟨some (), S', []⟩ := rfl
    have hreply : (sendReply pktReadRlySize).run S' = ⟨some (), S'.tick.putOutflow S.pkoSrvFd g,
        [.send S.pkoSrvFd r.header (some pktReadRlySize)]⟩ := by
      have hl : S'.pkoSrvFd = S.pkoSrvFd := rfl
      simp only [sendReply, Prog.run_bind, Prog.run_get, Result.andThen_mk_some, hl, hslice, hsend, Prog.run_pure,
        Result.after_mk, List.nil_append, List.append_nil]
    have hdel : ∃ v, (pkoSendBytes S.pkoSrvFd r.data r.count).run (S'.tick.putOutflow S.pkoSrvFd g) =
        ⟨some r.count, v, [.sendAll S.pkoSrvFd r.data]⟩ := by
      refine ⟨(S'.tick.putOutflow S.pkoSrvFd g).putOutflow S.pkoSrvFd (g.write r.count.toNat).2.2, ?_⟩
      simp only [pkoSendBytes, hout, hfull, hall, hdata, writingValue]
      rfl
    obtain ⟨v, hdel⟩ := hdel
    have hl : (S'.tick.putOutflow S.pkoSrvFd g).pkoSrvFd = S.pkoSrvFd := by
      rw [World.putOutflow_toVars]
      rfl
    change ((putWord 10 (htonl (cWord r.count)) >>= fun _ => sendReply pktReadRlySize >>= fun _ => Prog.get >>= fun w =>
      pkoSendBytes w.pkoSrvFd r.data r.count >>= fun _ => pure (0 : Int) : Io Int).run S).acts = _
    simp only [Prog.run_bind, hput, hreply, Result.andThen_mk_some, Prog.run_get, hl, hdel, Prog.run_pure,
      Result.after_mk, List.nil_append, List.append_nil, List.singleton_append]
  rw [hrun]
  simp only [appended, List.flatMap_cons, List.flatMap_nil, Act.puts, if_true, List.append_nil, ReadRly.wire]
  rw [List.take_of_length_le (Nat.le_of_eq r.header_length)]

/-- One header that announces what `read` returned, and exactly those bytes. -/
theorem readFile_appended {w : World} {r : ReadRly} (h : w.Reads r) :
    appended w.pkoSrvFd (pkoReadFile.run w).acts = r.wire := by
  obtain ⟨g, hg⟩ := h.whole
  have hv := (sysRead_value (show w.readStarted.desc = w.tick.desc from rfl) rfl rfl _ _).trans h.returned
  have hvars := sysRead_vars w.readStarted (ntohl (w.recvPacket.word 6)).toInt (sizeT (ntohl (w.recvPacket.word 10)).toInt)
  have hout := fun s => sysRead_outflow w.readStarted (ntohl (w.recvPacket.word 6)).toInt s
    (sizeT (ntohl (w.recvPacket.word 10)).toInt)
  have hread := fun s => appended_sysRead w.readStarted (ntohl (w.recvPacket.word 6)).toInt s
    (sizeT (ntohl (w.recvPacket.word 10)).toInt)
  rw [pkoReadFile_granted h.granted, Prog.run_bind, Result.andThen_some _ hv, Result.after_acts, Result.after_acts,
    appended_append, appended_append, hread]
  generalize ((sysRead _ _).run w.readStarted).state = S at hvars hout ⊢
  have hlink : S.pkoSrvFd = w.pkoSrvFd := by
    rw [hvars]
    rfl
  rw [← hlink]
  refine readReply_appended (m := w.sendPacket) (g := g) ?_ ?_ (h.delivers.of_send hg)
  · have hfd : cWord (ntohl (w.recvPacket.word 6)).toInt = r.fd := by rw [cWord, BitVec.ofInt_toInt, h.fd]
    rw [hvars, ← hfd]
    rfl
  · rw [hout, hlink]
    exact hg

/-- Every read request that gets its buffer appends one reply with the result
of its `read`, and any sequence of them is parsed back. -/
theorem readFile_replies {rs : List (World × ReadRly)} (h : ∀ e ∈ rs, e.1.Reads e.2) :
    (∀ e ∈ rs, appended e.1.pkoSrvFd (pkoReadFile.run e.1).acts = e.2.header ++ e.2.data) ∧
      frames ReadRly.next (rs.flatMap fun e => appended e.1.pkoSrvFd (pkoReadFile.run e.1).acts) =
        some (rs.map Prod.snd) := by
  have ha : ∀ e ∈ rs, appended e.1.pkoSrvFd (pkoReadFile.run e.1).acts = e.2.wire :=
    fun e he => readFile_appended (h e he)
  refine ⟨ha, ?_⟩
  have hw : (rs.flatMap fun e => appended e.1.pkoSrvFd (pkoReadFile.run e.1).acts) =
      (rs.map Prod.snd).flatMap ReadRly.wire := by
    rw [List.flatMap_map]
    exact List.flatMap_congr ha
  rw [hw, ReadRly.frames_wire]

def pieces : Outflow Errno.drops := ⟨[.takes 14, .hiccup .EINTR passes_EINTR, .takes 1, .takes 1], .accepts⟩

/-- A read from a file with two bytes left, over a link that takes the header,
is interrupted, and takes one byte at a time. -/
def readLink : World :=
  let w := World.linked { Host.refusing with malloc := fun _ _ => true, read := fun _ _ _ => some [0x61, 0x62] } 3
    [(3, .sock ⟨⟨[], .quiet⟩, pieces⟩), (7, .plain)]
  { w with recvPacket := w.recvPacket.store 0 (be32 readCmd ++ (be16 14 ++ (be32 7 ++ be32 5))) }

def readLinkRly : ReadRly := ⟨7, some [0x61, 0x62], by decide⟩

theorem readLink_reads : readLink.Reads readLinkRly where
  fd := by decide
  granted := rfl
  returned := by decide
  whole := ⟨_, rfl⟩
  delivers := (⟨by simp [pieces], rfl⟩ : pieces.Delivers)

theorem readFile_replies_two :
    (∀ e ∈ [(readLink, readLinkRly), (readLink, readLinkRly)],
      appended e.1.pkoSrvFd (pkoReadFile.run e.1).acts = e.2.header ++ e.2.data) ∧
    frames ReadRly.next ([(readLink, readLinkRly), (readLink, readLinkRly)].flatMap fun e =>
      appended e.1.pkoSrvFd (pkoReadFile.run e.1).acts) = some [readLinkRly, readLinkRly] :=
  readFile_replies (by simpa using readLink_reads)

end Pksh
