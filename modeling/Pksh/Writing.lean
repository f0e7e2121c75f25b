import Pksh.Framing

/-! What a write request does with its payload: how much of it reaches the
file, what the reply says about that, and where it leaves the stream. -/

namespace Pksh

open Wire Traced

/-- The bytes a write to `fd` took. -/
def Act.accepts (fd : Int) : Act → List Byte
  | .write fd' bytes (some n) => if fd' = fd then bytes.take n else []
  | _ => []

/-- The bytes the file at `fd` received, in order. -/
def accepted (fd : Int) (as : List Act) : List Byte := as.flatMap (Act.accepts fd)

@[simp] theorem accepted_append (fd : Int) (as bs : List Act) :
    accepted fd (as ++ bs) = accepted fd as ++ accepted fd bs := by
  simp [accepted]

def sentPackets (as : List Act) : List (List Byte) :=
  as.filterMap fun
    | .send _ bytes _ => some bytes
    | _ => none

@[simp] theorem sentPackets_append (as bs : List Act) : sentPackets (as ++ bs) = sentPackets as ++ sentPackets bs := by
  simp [sentPackets]

theorem World.segment_of_full {w : World} {bytesLeft : Int}
    (full : (w.segment bytesLeft).length = segmentLength bytesLeft) :
    segmentLength bytesLeft ≤ (w.pending w.pkoSrvFd).length := by
  rw [segment, List.length_take] at full
  omega

theorem segmentLength_le (bytesLeft : Int) : segmentLength bytesLeft ≤ bytesLeft.toNat := Nat.min_le_right _ _

/-- The file receives a front part of the payload, and what is left to do says
how long it is. -/
theorem writeSegments_accepted (fd : Int) (rounds : Nat) (bytesLeft : Int) (w : World) :
    ∃ k ≤ bytesLeft.toNat, k ≤ (w.pending w.pkoSrvFd).length ∧
      accepted fd ((writeSegments fd rounds bytesLeft).run w).acts = (w.pending w.pkoSrvFd).take k ∧
      ∀ left, ((writeSegments fd rounds bytesLeft).run w).value = some left → left = bytesLeft - k := by
  induction rounds generalizing bytesLeft w with
  | zero => exact ⟨0, Nat.zero_le _, Nat.zero_le _, rfl, fun left h => by simp_all [writeSegments]⟩
  | succ rounds ih =>
    have hround := writeSegments_round fd rounds bytesLeft w
    have hle := segmentLength_le bytesLeft
    generalize (writeSegments fd (rounds + 1) bytesLeft).run w = r at hround ⊢
    cases hround with
    | short less => exact ⟨0, Nat.zero_le _, Nat.zero_le _, rfl, by simp⟩
    | starved less => exact ⟨0, Nat.zero_le _, Nat.zero_le _, rfl, by simp⟩
    | blocked pos full => exact ⟨0, Nat.zero_le _, Nat.zero_le _, by simp [accepted, Act.accepts], by simp⟩
    | @last ret left v pos full took stops left_eq =>
      have hstream := w.segment_of_full full
      cases ret with
      | none => exact ⟨0, Nat.zero_le _, Nat.zero_le _, by simp [accepted, Act.accepts], by simp [left_eq]⟩
      | some m =>
        have hm := took m rfl
        refine ⟨m, by omega, by omega, ?_, by simp [left_eq]⟩
        simp [accepted, Act.accepts, World.segment, List.take_take, Nat.min_eq_left hm]
    | again pos full more link rest =>
      have hstream := w.segment_of_full full
      obtain ⟨k, h1, h2, h3, h4⟩ := ih (bytesLeft - segmentLength bytesLeft) _
      rw [link, rest, List.length_drop] at h2
      refine ⟨segmentLength bytesLeft + k, by omega, by omega, ?_, ?_⟩
      · rw [Result.after_acts, accepted_append, h3, link, rest, List.take_add]
        simp [accepted, Act.accepts, World.segment, List.take_take]
      · intro left hv
        have := h4 left hv
        omega

/-- A reply that is a `pkt_file_rly`. -/
def fileRly (cmd retval : Word) : List Byte := be32 cmd ++ (be16 (BitVec.ofNat 16 pktFileRlySize) ++ be32 retval)

def fileRlyFields (cmd retval : Word) : List (Nat × List Byte) :=
  [(0, le32 (htonl cmd)), (4, le16 (htons (BitVec.ofNat 16 pktFileRlySize))), (6, le32 (htonl retval))]

theorem putFileRly_run (cmd retval : Word) (v : World) :
    (putFileRly cmd retval).run v =
      ⟨some (), { v with sendPacket := v.sendPacket.stores (fileRlyFields cmd retval) }, []⟩ := by
  simp only [putFileRly, putWord, putHalf, putSend, setVars, Prog.run_bind, Result.andThen_mk_some, Result.after_mk,
    List.append_nil, fileRlyFields, Mem.stores, List.foldl_cons, List.foldl_nil]

theorem fileRly_slice (cmd retval : Word) (m : Mem) :
    (m.stores (fileRlyFields cmd retval)).slice 0 pktFileRlySize = fileRly cmd retval := by
  have ht : Mem.Tiles pktFileRlySize 0 (fileRlyFields cmd retval) := by
    simp [fileRlyFields, Mem.Tiles, pktFileRlySize]
  refine (ht.slice m).trans ?_
  simp [fileRlyFields, fileRly]

theorem sendReply_acts (size : Nat) (v : World) :
    ∃ ret, ((sendReply size).run v).acts = [.send v.pkoSrvFd (v.sendPacket.slice 0 size) ret] ∨
      ((sendReply size).run v).acts = [.send v.pkoSrvFd (v.sendPacket.slice 0 size) ret, .blocks v.pkoSrvFd] := by
  have hrun : ((sendReply size).run v).acts = ((sysSend v.pkoSrvFd (v.sendPacket.slice 0 size)).run v).acts :=
    Result.acts_andThen_pure _ _
  rw [hrun]
  obtain ⟨ret, ⟨ha, _⟩ | ⟨ha, _⟩⟩ := sysSend_acts v v.pkoSrvFd (v.sendPacket.slice 0 size)
  · exact ⟨ret, .inl ha⟩
  · exact ⟨ret, .inr ha⟩

theorem answer_acts (cmd retval : Word) (v : World) :
    ∃ ret, ((answer cmd retval).run v).acts = [.send v.pkoSrvFd (fileRly cmd retval) ret] ∨
      ((answer cmd retval).run v).acts = [.send v.pkoSrvFd (fileRly cmd retval) ret, .blocks v.pkoSrvFd] := by
  have hrun : ((answer cmd retval).run v).acts = ((sendReply pktFileRlySize).run
      { v with sendPacket := v.sendPacket.stores (fileRlyFields cmd retval) }).acts := by
    rw [answer, Prog.run_bind, putFileRly_run]
    exact Result.acts_andThen_pure _ _
  rw [hrun, ← fileRly_slice cmd retval v.sendPacket]
  exact sendReply_acts _ _

theorem sentPackets_of_mute {as : List Act} (h : ∀ a ∈ as, a.mute = true) : sentPackets as = [] := by
  rw [sentPackets, List.filterMap_eq_nil_iff]
  intro a ha
  cases a with
  | send s bs ret => cases h _ ha
  | _ => rfl

/-- The result field of a `pkt_file_rly`. -/
def rlyRetval (rly : List Byte) : Int := (ofBe32 (rly.drop 6)).toInt

theorem rlyRetval_fileRly (cmd retval : Word) : rlyRetval (fileRly cmd retval) = retval.toInt := by
  have hd : (fileRly cmd retval).drop 6 = be32 retval := rfl
  rw [rlyRetval, hd, ofBe32_be32]

theorem pkoWriteFile_parts (w : World) :
    let fd := (ntohl (w.recvPacket.word 6)).toInt
    let nbytes := (ntohl (w.recvPacket.word 10)).toInt
    pkoWriteFile.run w = (((writeSegments fd (nbytes.toNat + 1) nbytes).run w).andThen fun bytesLeft =>
      (answer writeRly (cWord (nbytes - bytesLeft))).run).after [.handle (.writeFile fd nbytes)] := rfl

theorem accepted_answer (fd : Int) (cmd retval : Word) (v : World) :
    accepted fd ((answer cmd retval).run v).acts = [] := by
  obtain ⟨ret, ha | ha⟩ := answer_acts cmd retval v
  · rw [ha]
    rfl
  · rw [ha]
    rfl

theorem sentPackets_answer (cmd retval : Word) (v : World) :
    sentPackets ((answer cmd retval).run v).acts = [fileRly cmd retval] := by
  obtain ⟨ret, ha | ha⟩ := answer_acts cmd retval v
  · rw [ha]
    rfl
  · rw [ha]
    rfl

/-- The file receives a front part of the payload, and the reply says how much. -/
theorem writeFile_retval (w : World) :
    let fd := (ntohl (w.recvPacket.word 6)).toInt
    let nbytes := (ntohl (w.recvPacket.word 10)).toInt
    let r := pkoWriteFile.run w
    ∃ k : Nat, (k : Int) ≤ max nbytes 0 ∧ k ≤ (w.pending w.pkoSrvFd).length ∧
      accepted fd r.acts = (w.pending w.pkoSrvFd).take k ∧
      (sentPackets r.acts = [] ∧ Stuck r ∨ ∃ rly, sentPackets r.acts = [rly] ∧ rlyRetval rly = k) := by
  intro fd nbytes r
  have hr : r = _ := pkoWriteFile_parts w
  have hnb : nbytes < 2 ^ 31 := BitVec.toInt_lt
  obtain ⟨k, h1, h2, h3, h4⟩ := writeSegments_accepted fd (nbytes.toNat + 1) nbytes w
  obtain ⟨hmute, _, hstuck⟩ := silent_writeSegments fd (nbytes.toNat + 1) nbytes w
  have hsent := sentPackets_of_mute hmute
  refine ⟨k, by omega, h2, ?_⟩
  rw [hr]
  cases hv : ((writeSegments fd (nbytes.toNat + 1) nbytes).run w).value with
  | none =>
    rw [Result.andThen_none _ hv]
    obtain ⟨_, a, ha, hs⟩ := hstuck hv
    exact ⟨h3, .inl ⟨hsent, rfl, a, List.mem_cons_of_mem _ ha, hs⟩⟩
  | some left =>
    rw [Result.andThen_some _ hv]
    refine ⟨?_, .inr ⟨fileRly writeRly (cWord k), ?_, ?_⟩⟩
    · rw [Result.after_acts, Result.after_acts, accepted_append, accepted_append, h3, accepted_answer,
        List.append_nil]
      rfl
    · rw [Result.after_acts, Result.after_acts, sentPackets_append, sentPackets_append, hsent, sentPackets_answer, h4 left hv,
        Int.sub_sub_self]
      rfl
    · rw [rlyRetval_fileRly, cWord, BitVec.toInt_ofInt]
      exact Int.bmod_eq_of_le (by omega) (by omega)

/-- Each write of a run: what it was given and what it returned. -/
def writes (as : List Act) : List (List Byte × Option Nat) :=
  as.filterMap fun
    | .write _ bytes ret => some (bytes, ret)
    | _ => none

@[simp] theorem writes_append (as bs : List Act) : writes (as ++ bs) = writes as ++ writes bs := by
  simp [writes]

/-- Every write with a segment behind it took its whole segment. -/
def FullButLast (nbytes : Int) (ws : List (List Byte × Option Nat)) : Prop :=
  ∀ (i : Nat) (bytes : List Byte) (ret : Option Nat), ws[i]? = some (bytes, ret) →
    packetMaxsize * ((i : Int) + 1) < nbytes → ret = some bytes.length

theorem fullButLast_nil (nbytes : Int) : FullButLast nbytes [] := by
  intro i bytes ret h
  cases h

theorem fullButLast_cons {nbytes : Int} {bytes : List Byte} {ret : Option Nat} {ws : List (List Byte × Option Nat)} :
    FullButLast nbytes ((bytes, ret) :: ws) ↔
      (packetMaxsize < nbytes → ret = some bytes.length) ∧ FullButLast (nbytes - packetMaxsize) ws := by
  constructor
  · intro h
    refine ⟨fun hn => h 0 bytes ret rfl (by omega), fun i bs ret' hi hn => h (i + 1) bs ret' hi ?_⟩
    rw [Int.natCast_add, Int.natCast_one, Int.mul_add]
    omega
  · rintro ⟨h0, hs⟩ i bs ret' hi hn
    cases i with
    | zero =>
      cases hi
      exact h0 (by omega)
    | succ i =>
      refine hs i bs ret' hi ?_
      rw [Int.natCast_add, Int.natCast_one, Int.mul_add] at hn
      omega

/-- The loop takes the whole payload exactly when no segment before the last
one fails. -/
theorem writeSegments_taken_iff {fd : Int} {rounds : Nat} {bytesLeft : Int} {w : World}
    (hp : bytesLeft.toNat ≤ (w.pending w.pkoSrvFd).length) (hr : bytesLeft.toNat < rounds) :
    taken w.pkoSrvFd ((writeSegments fd rounds bytesLeft).run w).acts = (w.pending w.pkoSrvFd).take bytesLeft.toNat ↔
      FullButLast bytesLeft (writes ((writeSegments fd rounds bytesLeft).run w).acts) := by
  induction rounds generalizing bytesLeft w with
  | zero => omega
  | succ rounds ih =>
    have hround := writeSegments_round fd rounds bytesLeft w
    have hle := segmentLength_le bytesLeft
    have hmax : packetMaxsize = 4096 := rfl
    have hseg : segmentLength bytesLeft = min packetMaxsize bytesLeft.toNat := rfl
    have hlen : (w.segment bytesLeft).length = segmentLength bytesLeft := by
      rw [World.segment, List.length_take]
      omega
    have hall : w.segment bytesLeft = (w.pending w.pkoSrvFd).take bytesLeft.toNat ↔ bytesLeft ≤ packetMaxsize := by
      constructor
      · intro he
        have := congrArg List.length he
        rw [hlen, List.length_take] at this
        omega
      · intro hb
        rw [World.segment, show segmentLength bytesLeft = bytesLeft.toNat by omega]
    generalize (writeSegments fd (rounds + 1) bytesLeft).run w = r at hround ⊢
    cases hround with
    | short less =>
      have ht : taken w.pkoSrvFd [.recv w.pkoSrvFd (w.segment bytesLeft), .store 0 (w.segment bytesLeft)] =
          w.segment bytesLeft := by simp [taken]
      rw [ht, hall]
      exact iff_of_true (by omega) (fullButLast_nil _)
    | starved less => omega
    | blocked pos full =>
      have ht : taken w.pkoSrvFd [.recv w.pkoSrvFd (w.segment bytesLeft), .store 0 (w.segment bytesLeft),
          .write fd (w.segment bytesLeft) none, .blocks fd] = w.segment bytesLeft := by simp [taken]
      rw [ht, hall]
      refine Iff.trans ?_ fullButLast_cons.symm
      constructor
      · exact fun hb => ⟨fun hn => by omega, fullButLast_nil _⟩
      · intro hb
        by_contra hn
        exact absurd (hb.1 (by omega)) (by simp)
    | @last ret left v pos full took stops left_eq =>
      have ht : taken w.pkoSrvFd [.recv w.pkoSrvFd (w.segment bytesLeft), .store 0 (w.segment bytesLeft),
          .write fd (w.segment bytesLeft) ret] = w.segment bytesLeft := by simp [taken]
      rw [ht, hall]
      refine Iff.trans ?_ fullButLast_cons.symm
      constructor
      · exact fun hb => ⟨fun hn => by omega, fullButLast_nil _⟩
      · intro hb
        by_contra hn
        have := stops (full ▸ hb.1 (by omega))
        omega
    | @again v pos full more link rest =>
      have ht : ∀ as, taken w.pkoSrvFd ([.recv w.pkoSrvFd (w.segment bytesLeft), .store 0 (w.segment bytesLeft),
          .write fd (w.segment bytesLeft) (some (segmentLength bytesLeft))] ++ as) =
          w.segment bytesLeft ++ taken w.pkoSrvFd as := by simp [taken]
      have hn : segmentLength bytesLeft = packetMaxsize := by omega
      have hsplit : (w.pending w.pkoSrvFd).take bytesLeft.toNat =
          w.segment bytesLeft ++ ((w.pending w.pkoSrvFd).drop (segmentLength bytesLeft)).take
            (bytesLeft - segmentLength bytesLeft).toNat := by
        rw [World.segment, ← List.take_add]
        congr 1
        omega
      have hih := @ih (bytesLeft - segmentLength bytesLeft) v (by rw [link, rest, List.length_drop]; omega) (by omega)
      rw [link, rest] at hih
      rw [Result.after_acts, ht, hsplit, List.append_cancel_left_eq, hih]
      refine Iff.trans ?_ fullButLast_cons.symm
      rw [hn]
      exact ⟨fun h => ⟨fun _ => by rw [hlen, hn], h⟩, fun h => h.2⟩

def beforeReply (as : List Act) : List Act :=
  as.takeWhile fun
    | .send _ _ _ => false
    | _ => true

theorem beforeReply_append {as : List Act} (h : ∀ a ∈ as, a.mute = true) (bs : List Act) :
    beforeReply (as ++ bs) = as ++ beforeReply bs := by
  refine List.takeWhile_append_of_pos fun a ha => ?_
  have hm := h a ha
  cases a with
  | send s bytes ret => cases hm
  | _ => rfl

theorem beforeReply_mute {as : List Act} (h : ∀ a ∈ as, a.mute = true) : beforeReply as = as := by
  have hb := beforeReply_append h []
  rwa [List.append_nil, show beforeReply [] = [] from rfl, List.append_nil] at hb

/-- The payload, and nothing else, is off the link before the reply goes out. -/
def Consumes (link : Int) (payload : List Byte) (as : List Act) : Prop :=
  taken link (beforeReply as) = payload ∧ taken link as = payload

theorem consumes_answer {link : Int} {payload : List Byte} {as : List Act} (h : ∀ a ∈ as, a.mute = true)
    (cmd retval : Word) (v : World) :
    (Consumes link payload (as ++ ((answer cmd retval).run v).acts) ↔ taken link as = payload) ∧
      writes (as ++ ((answer cmd retval).run v).acts) = writes as := by
  rw [Consumes, beforeReply_append h, writes_append]
  obtain ⟨ret, ha | ha⟩ := answer_acts cmd retval v
  · rw [ha]
    simp [beforeReply, taken, writes]
  · rw [ha]
    simp [beforeReply, taken, writes]

/-- A write request leaves the stream at the end of its payload exactly when
every segment but the last reaches the file whole. -/
theorem writeFile_consumes_iff {w : World} {nbytes : Int} (hn : nbytes = (ntohl (w.recvPacket.word 10)).toInt)
    (hp : nbytes.toNat ≤ (w.pending w.pkoSrvFd).length) :
    Consumes w.pkoSrvFd ((w.pending w.pkoSrvFd).take nbytes.toNat) (pkoWriteFile.run w).acts ↔
      FullButLast nbytes (writes (pkoWriteFile.run w).acts) := by
  set fd := (ntohl (w.recvPacket.word 6)).toInt with hfd
  have hrun : pkoWriteFile.run w = (((writeSegments fd (nbytes.toNat + 1) nbytes).run w).andThen fun bytesLeft =>
      (answer writeRly (cWord (nbytes - bytesLeft))).run).after [.handle (.writeFile fd nbytes)] := by
    rw [hn]
    exact pkoWriteFile_parts w
  have hiff : taken w.pkoSrvFd ((writeSegments fd (nbytes.toNat + 1) nbytes).run w).acts = _ ↔ _ :=
    writeSegments_taken_iff hp (Nat.lt_succ_self _)
  have hmute : ∀ a ∈ .handle (.writeFile fd nbytes) :: ((writeSegments fd (nbytes.toNat + 1) nbytes).run w).acts,
      a.mute = true :=
    List.forall_mem_cons.mpr ⟨rfl, (silent_writeSegments fd (nbytes.toNat + 1) nbytes w).1⟩
  rw [hrun]
  generalize (writeSegments fd (nbytes.toNat + 1) nbytes).run w = r at hiff hmute ⊢
  cases hv : r.value with
  | none =>
    rw [Result.andThen_none _ hv, Result.after_mk, List.singleton_append, Consumes, beforeReply_mute hmute, and_self]
    exact hiff
  | some left =>
    obtain ⟨h1, h2⟩ := @consumes_answer w.pkoSrvFd ((w.pending w.pkoSrvFd).take nbytes.toNat) _ hmute
      writeRly (cWord (nbytes - left)) r.state
    rw [Result.andThen_some _ hv, Result.after_acts, Result.after_acts, List.singleton_append, ← List.cons_append,
      h1, h2]
    exact hiff

/-- A request to write to the file at 7 whose payload has come. -/
def writeLink (os : Host) (payload : List Byte) : World :=
  let w := World.linked os 3 [(3, .sock (.delivering payload)), (7, .plain)]
  let req := be32 writeCmd ++ (be16 14 ++ (be32 7 ++ be32 (BitVec.ofNat 32 payload.length)))
  { w with recvPacket := w.recvPacket.store 0 req }

/-- A host whose files take whatever is written. -/
def willing : Host := { Host.refusing with write := fun _ _ bytes => some bytes.length }

theorem writeFile_consumes_iff_segments :
    Consumes 3 (((writeLink willing (List.replicate 5000 0x61)).pending 3).take 5000)
        (pkoWriteFile.run (writeLink willing (List.replicate 5000 0x61))).acts ↔
      FullButLast 5000 (writes (pkoWriteFile.run (writeLink willing (List.replicate 5000 0x61))).acts) :=
  @writeFile_consumes_iff (writeLink willing (List.replicate 5000 0x61)) 5000 (by decide +kernel) (by decide +kernel)

/-- The file takes nothing of the first of two segments. -/
theorem payload_left_behind : ¬∀ (w : World) (nbytes : Int), nbytes = (ntohl (w.recvPacket.word 10)).toInt →
    nbytes.toNat ≤ (w.pending w.pkoSrvFd).length →
    Consumes w.pkoSrvFd ((w.pending w.pkoSrvFd).take nbytes.toNat) (pkoWriteFile.run w).acts := by
  intro h
  have hc := h (writeLink .refusing (List.replicate 4097 0x61)) 4097 (by decide +kernel) (by decide +kernel)
  exact absurd (congrArg List.length hc.2) (by decide +kernel)

end Pksh
