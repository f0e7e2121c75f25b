import Pksh.Talking

/-! Conversations with the file server on the PS2: every request finds the reply
that was sent to it. -/

namespace Pksh

open Wire Traced

def following (struct : List Byte) : Nat :=
  if ofBe32 struct = ps2netfsWriteCmd then (ofBe32 (struct.drop 10)).toNat else 0

/-- A request as it comes off the stream: a struct as long as it says, and
behind the struct of a write its data. -/
structure Delivered where
  struct : List Byte
  data : List Byte
  header : pktHdrSize ≤ struct.length
  len : (ofBe16 (struct.drop 4)).toNat = struct.length
  whole : ofBe32 struct = ps2netfsWriteCmd → pktWriteReqSize ≤ struct.length
  measured : data.length = following struct

namespace Delivered

def wire (q : Delivered) : List Byte := q.struct ++ q.data

variable {bs : List Byte} {n : Nat}

theorem following_take (h : 6 ≤ n) (hw : ofBe32 bs = ps2netfsWriteCmd → pktWriteReqSize ≤ n) :
    following (bs.take n) = following bs := by
  have h14 : pktWriteReqSize = 14 := rfl
  rw [following, following, ofBe32_take _ (by omega)]
  by_cases hc : ofBe32 bs = ps2netfsWriteCmd
  · have hn := hw hc
    rw [if_pos hc, if_pos hc, List.drop_take, ofBe32_take _ (by omega)]
  · rw [if_neg hc, if_neg hc]

/-- The first request of a stream, and what is behind it. -/
def next (bs : List Byte) : Option (Delivered × List Byte) :=
  let len := (ofBe16 (bs.drop 4)).toNat
  if h : pktHdrSize ≤ len ∧ (ofBe32 bs = ps2netfsWriteCmd → pktWriteReqSize ≤ len) ∧ len + following bs ≤ bs.length then
    some ({
      struct := bs.take len
      data := (bs.drop len).take (following bs)
      header := by
        rw [List.length_take]
        omega
      len := by
        have h6 : pktHdrSize = 6 := rfl
        rw [List.drop_take, ofBe16_take _ (by omega), List.length_take]
        omega
      whole := fun hc => by
        have h6 : pktHdrSize = 6 := rfl
        rw [ofBe32_take _ (by omega)] at hc
        have := h.2.1 hc
        rw [List.length_take]
        omega
      measured := by
        rw [following_take h.1 h.2.1, List.length_take, List.length_drop]
        omega }, bs.drop (len + following bs))
  else none

theorem wire_ne_nil (q : Delivered) : q.wire ≠ [] := by
  have h := q.header
  have h6 : pktHdrSize = 6 := rfl
  exact List.append_ne_nil_of_left_ne_nil (List.ne_nil_of_length_pos (by omega)) _

theorem next_wire (q : Delivered) (rest : List Byte) : next (q.wire ++ rest) = some (q, rest) := by
  obtain ⟨struct, data, header, len, whole, measured⟩ := q
  have h6 : pktHdrSize = 6 := rfl
  have htake : (struct ++ data ++ rest).take struct.length = struct := by rw [List.append_assoc, List.take_left]
  have hlen : (ofBe16 ((struct ++ data ++ rest).drop 4)).toNat = struct.length := by
    rw [← ofBe16_take (n := struct.length - 4) _ (by omega), ← List.drop_take, htake, len]
  have hcmd : ofBe32 (struct ++ data ++ rest) = ofBe32 struct := by
    rw [← ofBe32_take (n := struct.length) _ (by omega), htake]
  have hsize : following (struct ++ data ++ rest) = data.length := by
    rw [← following_take (n := struct.length) (by omega) (fun hc => whole (hcmd ▸ hc)), htake, measured]
  have hrest : (struct ++ data ++ rest).drop (struct.length + data.length) = rest :=
    List.drop_left' (List.length_append ..)
  have hdata : ((struct ++ data ++ rest).drop struct.length).take data.length = data := by
    rw [List.append_assoc, List.drop_left, List.take_left]
  rw [next]
  simp only [wire, hlen, hsize, hcmd]
  rw [dif_pos ⟨header, whole, by rw [List.length_append, List.length_append]; omega⟩]
  simp only [htake, hdata, hrest]

theorem frames_wire (qs : List Delivered) : frames next (qs.flatMap wire) = some qs := frames_flatMap next_wire wire_ne_nil qs

end Delivered

def NetfsReq.ArrivesAs (r : NetfsReq) (q : Delivered) : Prop :=
  r.awaits = ofBe32 q.struct + 1 ∧ (∀ a ∈ r.args, a.Decodes q.struct) ∧ q.data = r.payload.getD []

/-- A request that is put together rightly, from paths that fit and, for a
write, a size that is not negative. -/
structure NetfsReq.Sendable (r : NetfsReq) : Prop where
  paths : r.PathsFit
  built : r.misbuilt = false
  size : ∀ d ptr size, r = .write d ptr size → 0 ≤ size.toInt

theorem sizeT_of_nonneg {n : Word} (h : 0 ≤ n.toInt) : sizeT n.toInt = n.toNat := by
  have hn := n.isLt
  have hi : n.toInt = n.toNat := by
    rw [BitVec.toInt_eq_toNat_cond] at h ⊢
    omega
  rw [sizeT, hi]
  omega

theorem NetfsReq.write_of_awaits {r : NetfsReq} (h : r.awaits = ps2netfsWriteRly) : ∃ d ptr size, r = .write d ptr size := by
  cases r with
  | write d ptr size => exact ⟨d, ptr, size, rfl⟩
  | _ => cases h

theorem NetfsReq.payload_of_ne_write {r : NetfsReq} (h : r.awaits ≠ ps2netfsWriteRly) : r.payload = none := by
  cases r with
  | write d ptr size => exact absurd rfl h
  | _ => rfl

/-- The struct and the data of a request that is sent. -/
structure NetfsReq.SentAs (r : NetfsReq) (q : Delivered) : Prop where
  struct : ∃ u, q.struct = r.wire (r.filled u)
  cmd : r.awaits = ofBe32 q.struct + 1
  data : q.data = r.payload.getD []

theorem NetfsReq.delivered {r : NetfsReq} (hb : r.misbuilt = false) (hn : ∀ d ptr size, r = .write d ptr size → 0 ≤ size.toInt)
    (u : World) : ∃ q : Delivered, q.wire = r.wire (r.filled u) ++ r.payload.getD [] ∧ r.SentAs q := by
  obtain ⟨cmd, fs, hf, hc, hw⟩ := header_of_not_misbuilt hb
  have hb' : r.wire (r.filled u) = (u.sendPacket.stores r.fields).slice 0 r.size := hw _
  have hsize := r.size_bounds
  have hcode : ofBe32 (r.wire (r.filled u)) = cmd := by
    rw [hb']
    have hmem : (0, le32 (htonl cmd)) ∈ r.fields := by simp [hf, reqHdr]
    have hdec : (Arg.word 0 cmd).Decodes ((u.sendPacket.stores r.fields).slice 0 r.size) :=
      word_decodes r.fields_ordered hmem (by omega)
    exact hdec
  have hlen : (ofBe16 ((r.wire (r.filled u)).drop 4)).toNat = r.size := by
    rw [hb']
    exact len_decodes r.fields_ordered (by simp [hf, reqHdr]) hsize.1 hsize.2
  have hl : (r.wire (r.filled u)).length = r.size := by rw [hb', Mem.slice_length]
  have hwrite : cmd = ps2netfsWriteCmd → r.awaits = ps2netfsWriteRly := fun hc' => by rw [hc, hc']; rfl
  refine ⟨⟨r.wire (r.filled u), r.payload.getD [], hl ▸ hsize.1, hlen.trans hl.symm, fun hc' => ?_, ?_⟩, rfl,
    ⟨u, rfl⟩, hc.trans (congrArg (· + 1) hcode.symm), rfl⟩
  · obtain ⟨d, ptr, size, rfl⟩ := write_of_awaits (hwrite (hcode ▸ hc'))
    exact Nat.le_of_eq hl.symm
  · rw [following, hcode]
    by_cases hc' : cmd = ps2netfsWriteCmd
    · obtain ⟨d, ptr, size, rfl⟩ := write_of_awaits (hwrite hc')
      have hargs : (Arg.word 10 size).Decodes ((u.sendPacket.stores (NetfsReq.write d ptr size).fields).slice 0 pktWriteReqSize) :=
        word_decodes (NetfsReq.write d ptr size).fields_ordered (by simp [fields]) (by decide)
      have hlast : ofBe32 (((NetfsReq.write d ptr size).wire ((NetfsReq.write d ptr size).filled u)).drop 10) = size := by
        rw [hb']
        exact hargs
      rw [if_pos hc', hlast, payload, Option.getD_some, Mem.slice_length, sizeT_of_nonneg (hn _ _ _ rfl)]
    · rw [if_neg hc', payload_of_ne_write]
      · rfl
      · rw [hc]
        exact fun hr => hc' ((BitVec.add_left_inj (z := 1)).mp hr)

theorem NetfsReq.SentAs.arrives {r : NetfsReq} {q : Delivered} (hq : r.SentAs q) (h : r.Sendable) : r.ArrivesAs q := by
  obtain ⟨⟨u, hs⟩, hc, hd⟩ := hq
  obtain ⟨cmd, fs, hf, -, hw⟩ := header_of_not_misbuilt h.built
  have hb : r.wire (r.filled u) = (u.sendPacket.stores r.fields).slice 0 r.size := hw _
  exact ⟨hc, hs ▸ hb ▸ args_decode h.built h.paths _, hd⟩

/-- The server gets the requests one by one from the bytes that are sent. -/
theorem Asks.delivered {fd : Int} {rs : List NetfsReq} {sent : List (Int × List Byte)} (h : Asks fd rs sent)
    (hb : ∀ r ∈ rs, r.misbuilt = false) (hn : ∀ d ptr size, .write d ptr size ∈ rs → 0 ≤ size.toInt) :
    ∃ qs, frames Delivered.next (sent.flatMap Prod.snd) = some qs ∧ List.Forall₂ NetfsReq.SentAs rs qs := by
  suffices hq : ∃ qs : List Delivered, qs.flatMap Delivered.wire = sent.flatMap Prod.snd ∧
      List.Forall₂ NetfsReq.SentAs rs qs by
    obtain ⟨qs, hq, hr⟩ := hq
    exact ⟨qs, hq ▸ Delivered.frames_wire qs, hr⟩
  induction h with
  | nil => exact ⟨[], rfl, .nil⟩
  | @cons r rs sent u _ ih =>
    obtain ⟨q, hq, hr⟩ := NetfsReq.delivered (hb r List.mem_cons_self)
      (fun d ptr size he => hn d ptr size (he ▸ List.mem_cons_self)) u
    obtain ⟨qs, hqs, hrs⟩ := ih (fun r' hr' => hb r' (List.mem_cons_of_mem _ hr'))
      fun d ptr size hm => hn d ptr size (List.mem_cons_of_mem _ hm)
    refine ⟨q :: qs, ?_, .cons hr hrs⟩
    have hp : (r.payload.toList.map fun bs => (fd, bs)).flatMap Prod.snd = r.payload.getD [] := by
      cases r.payload with
      | none => rfl
      | some bs => exact List.append_nil bs
    rw [List.flatMap_cons, hqs, List.flatMap_append, List.map_cons, List.flatMap_cons, hp, hq]

theorem Asks.frames {fd : Int} {rs : List NetfsReq} {sent : List (Int × List Byte)} (h : Asks fd rs sent)
    (hs : ∀ r ∈ rs, r.Sendable) : ∃ qs, frames Delivered.next (sent.flatMap Prod.snd) = some qs ∧
      List.Forall₂ NetfsReq.ArrivesAs rs qs := by
  obtain ⟨qs, hq, hr⟩ := h.delivered (fun r hm => (hs r hm).built) fun d ptr size hm => (hs _ hm).size d ptr size rfl
  refine ⟨qs, hq, ?_⟩
  clear h hq
  induction hr with
  | nil => exact .nil
  | cons hrq _ ih =>
    obtain ⟨hr, hrs⟩ := List.forall_mem_cons.mp hs
    exact .cons (hrq.arrives hr) (ih hrs)

/-- However long a conversation is and whatever it asks for, each request
returns what its own reply says, and the stream is left behind the last one. -/
theorem netfs_session {fd : Int} (es : List Exchange) {rest : List Byte} {w : World}
    (h : Talking fd (es.flatMap Exchange.bytes ++ rest) w) : ∃ v as,
    (askAll (es.map Exchange.request)).run w = ⟨some (es.map fun e => e.reply.retval.toInt), v, as⟩ ∧
      Talking fd rest v := by
  obtain ⟨v, as, hrun, hv, -⟩ := askAll_run es h
  exact ⟨v, as, hrun, hv⟩

/-- A connection to the file server on which some bytes have arrived. -/
def World.served (os : Host) (fd : Int) (stream : List Byte) (desc : List (Int × Desc)) : World :=
  { World.linked os 3 ((fd, .sock (.delivering stream)) :: desc) with ps2NetfsFd := fd }

theorem Talking.served {os : Host} {fd : Int} (h : 0 ≤ fd) (stream : List Byte) (desc : List (Int × Desc)) :
    Talking fd stream (.served os fd stream desc) := by
  refine ⟨h, rfl, .delivering stream, ?_, ?_, rfl⟩
  · simp [World.served, World.linked]
  · exact (Inflow.live_push stream [] .quiet).trans (List.append_nil stream)

def Reply.three : Reply := ⟨ps2netfsReadRly, 14, be32 3 ++ be32 3, rfl⟩

theorem Reply.three_fits : pktFileRlySize ≤ Reply.three.len.toNat ∧ Reply.three.len.toNat ≤ pktReadRlySize := by decide

theorem Reply.three_measured : ([7, 8, 9] : List Byte).length = Reply.three.retval.toInt.toNat := rfl

def writeReadClose : List Exchange :=
  [⟨.write 2 (Mem.store (fun _ => 0) 0 [5, 6]) 2, .value ps2netfsWriteRly 2, [], ⟨rfl, by decide, by decide⟩,
      List.length_nil⟩,
    ⟨.read 2 16, .three, [7, 8, 9], ⟨rfl, Reply.three_fits⟩, Reply.three_measured⟩,
    ⟨.close 2, .value ps2netfsCloseRly 0, [], ⟨rfl, by decide, by decide⟩, List.length_nil⟩]

theorem writeReadClose_session : ∃ v as, (askAll (writeReadClose.map Exchange.request)).run
      (.served .refusing 7 (writeReadClose.flatMap Exchange.bytes ++ [1]) []) = ⟨some [2, 3, 0], v, as⟩ ∧
    Talking 7 [1] v :=
  netfs_session writeReadClose (.served (by decide) _ _)

/-- The server that reads these requests off the stream gets them one by one,
with their arguments and the data of every write. -/
theorem netfs_session_sent {fd : Int} (es : List Exchange) {rest : List Byte} {w : World}
    (h : Talking fd (es.flatMap Exchange.bytes ++ rest) w) (hs : ∀ e ∈ es, e.request.Sendable) :
    (∀ p ∈ outgoing ((askAll (es.map Exchange.request)).run w).acts, p.1 = fd) ∧ ∃ qs,
      frames Delivered.next ((outgoing ((askAll (es.map Exchange.request)).run w).acts).flatMap Prod.snd) = some qs ∧
        List.Forall₂ NetfsReq.ArrivesAs (es.map Exchange.request) qs := by
  obtain ⟨v, as, hrun, -, ha⟩ := askAll_run es h
  rw [hrun]
  refine ⟨ha.socket, ha.frames ?_⟩
  intro r hr
  obtain ⟨e, he, rfl⟩ := List.mem_map.mp hr
  exact hs e he

theorem writeReadClose_sendable : ∀ e ∈ writeReadClose, e.request.Sendable := by
  intro e he
  simp only [writeReadClose, List.mem_cons, List.not_mem_nil, or_false] at he
  rcases he with rfl | rfl | rfl
  · exact ⟨by simp [NetfsReq.PathsFit, NetfsReq.args], rfl, fun _ _ _ h => by cases h; decide⟩
  · exact ⟨by simp [NetfsReq.PathsFit, NetfsReq.args], rfl, fun _ _ _ h => by cases h⟩
  · exact ⟨by simp [NetfsReq.PathsFit, NetfsReq.args], rfl, fun _ _ _ h => by cases h⟩

theorem writeReadClose_sent :
    let r := (askAll (writeReadClose.map Exchange.request)).run
      (.served .refusing 7 (writeReadClose.flatMap Exchange.bytes ++ [1]) [])
    (∀ p ∈ outgoing r.acts, p.1 = 7) ∧ ∃ qs, frames Delivered.next ((outgoing r.acts).flatMap Prod.snd) = some qs ∧
      List.Forall₂ NetfsReq.ArrivesAs (writeReadClose.map Exchange.request) qs :=
  netfs_session_sent writeReadClose (.served (by decide) _ _) writeReadClose_sendable

end Pksh
