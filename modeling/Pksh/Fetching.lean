import Pksh.Verdicts

/-! What a read from the file server puts into the caller's memory: as many
bytes as the server says, whatever was asked for. -/

namespace Pksh

open Wire Traced Listening

/-- The reply is accepted, and the wait for it comes to an end. -/
def Listening.Answered (x : Listening) (len : Nat) (pktType : Word) : Prop :=
  x.verdict len pktType = .passed ∧ (x.stop = .never → x.asked ≤ x.stream.length)

/-- What `ps2netfs_accept_pkt` does with it. -/
inductive Answer (len : Nat) (pktType : Word) (u : World) : Result World Act Int → Prop
  | taken {x : Int} {v : World} {as : List Act} (answered : u.listening.Answered len pktType) (nonzero : x ≠ 0)
      (next : v.listening = u.listening.next) (netfs : v.ps2NetfsFd = u.ps2NetfsFd) :
      Answer len pktType u ⟨some x, v, as⟩
  | missing {r : Result World Act Int} (unanswered : ¬u.listening.Answered len pktType)
      (value : r.value = none ∨ r.value = some 0) : Answer len pktType u r

section Reply

variable {u v : World} {len : Nat} {pktType : Word}

theorem received_next (hl : v.listening = u.listening.headed) :
    (v.received v.ps2NetfsFd (.recvPacket pktHdrSize) (u.listening.hlen - pktHdrSize)).listening =
      u.listening.next := by
  have hto : ((u.listening.hlen : Int) - pktHdrSize).toNat = u.listening.hlen - pktHdrSize := by omega
  rw [received_listening, hl, hto]
  exact u.listening.recv_recv pktHdrSize _

theorem answerBody (hl : v.listening = u.listening.headed) (hn : v.ps2NetfsFd = u.ps2NetfsFd)
    (he : ¬(u.listening.stream.length < pktHdrSize ∧ u.listening.stop = .eof))
    (hw : u.listening.stop = .never → pktHdrSize ≤ u.listening.stream.length) (as : List Act) :
    Answer len pktType u (((acceptBody u.ps2NetfsFd len pktType).run v).after as) := by
  have hbuf : v.recvPacket = u.listening.headed.buffer := congrArg Listening.buffer hl
  have hp : v.pending v.ps2NetfsFd = u.listening.headed.stream := congrArg Listening.stream hl
  have hst : (v.inflow v.ps2NetfsFd).stop = u.listening.headed.stop := congrArg Listening.stop hl
  have hlen : (ntohs (v.recvPacket.half 4)).toNat = u.listening.hlen := by rw [hbuf, Listening.hlen]
  have hdrop : u.listening.headed.stream.length = u.listening.stream.length - pktHdrSize := List.length_drop
  have hpassed := (@verdict_passed_iff u.listening len pktType).trans (or_iff_right he)
  by_cases ht : ntohl (u.listening.headed.buffer.word 0) = pktType ∧ u.listening.hlen ≤ len
  · have htype : ntohl (v.recvPacket.word 0) = pktType := by
      rw [hbuf]
      exact ht.1
    obtain ⟨bs, hrun, -⟩ := acceptBody_takes v.ps2NetfsFd htype hlen ht.2
    rw [← hn, hrun, Result.after_mk, hp, hst]
    by_cases hfull : u.listening.hlen - pktHdrSize ≤ u.listening.headed.stream.length
    · rw [if_pos hfull]
      by_cases h6 : u.listening.hlen = pktHdrSize
      · exact .missing (fun h => (hpassed.mp h.1).2.2.1 h6) (.inr (congrArg some (if_pos h6)))
      · have hanswered : u.listening.Answered len pktType := by
          refine ⟨hpassed.mpr ⟨ht.1, ht.2, h6, fun h => Nat.not_lt.mpr hfull h.1⟩, fun h => ?_⟩
          have h6' := hw h
          rw [Listening.asked]
          omega
        rw [if_neg h6]
        exact .taken hanswered (by decide) (received_next hl) ((received_netfs v _ _).trans hn)
    · have hshort := Nat.lt_of_not_le hfull
      rw [if_neg hfull]
      cases hs : u.listening.headed.stop with
      | full => exact absurd (hst.trans hs) Inflow.stop_ne_full
      | never =>
        have hnever : u.listening.stop = .never := by
          by_contra hne
          exact stop_recv_ne hne 0 pktHdrSize hs
        refine .missing (fun h => ?_) (.inl rfl)
        have hasked := h.2 hnever
        rw [Listening.asked] at hasked
        omega
      | eof => exact .missing (fun h => (hpassed.mp h.1).2.2.2 ⟨hshort, hs⟩) (.inr rfl)
      | dropped e =>
        have hopen : u.listening.stop ≠ .never := by
          intro hnever
          have hsame : u.listening.headed.ending = u.listening.ending := if_pos (hw hnever)
          rw [Listening.stop, hsame] at hs
          exact absurd (hnever.symm.trans hs) (by simp)
        have hverdict : u.listening.verdict len pktType = .passed :=
          hpassed.mpr ⟨ht.1, ht.2, by omega, fun h => absurd (hs.symm.trans h.2) (by simp)⟩
        exact .taken ⟨hverdict, fun h => absurd h hopen⟩ (by decide) (received_next hl)
          ((received_netfs v _ _).trans hn)
  · obtain ⟨w, bs, hrun, -⟩ := @acceptBody_refuses v.ps2NetfsFd len pktType v (by
      rw [hbuf, ← Listening.hlen]
      exact (not_and_or.mp ht).imp_right Nat.lt_of_not_le)
    rw [← hn, hrun, Result.after_mk]
    exact .missing (fun h => ht ⟨(hpassed.mp h.1).1, (hpassed.mp h.1).2.1⟩) (.inr rfl)

theorem accept_answer (len : Nat) (pktType : Word) (u : World) :
    Answer len pktType u ((ps2netfsAcceptPkt u.ps2NetfsFd len pktType).run u) := by
  have hl := received_listening u 0 pktHdrSize
  have hn := received_netfs u 0 pktHdrSize
  rw [Int.toNat_natCast] at hl
  by_cases h6 : pktHdrSize ≤ u.listening.stream.length
  · rw [accept_header h6]
    exact answerBody hl hn (fun h => Nat.not_lt.mpr h6 h.1) (fun _ => h6) _
  · have hshort := Nat.lt_of_not_le h6
    have hasked : u.listening.stream.length < u.listening.asked := Nat.lt_of_lt_of_le hshort (Nat.le_add_right _ _)
    rw [accept_short hshort]
    cases hs : (u.inflow u.ps2NetfsFd).stop with
    | full => exact absurd hs Inflow.stop_ne_full
    | never => exact .missing (fun h => Nat.not_lt.mpr (h.2 hs) hasked) (.inl rfl)
    | eof =>
      have hverdict : u.listening.verdict len pktType = .passed := verdict_passed_iff.mpr (.inl ⟨hshort, hs⟩)
      refine .taken ⟨hverdict, fun h => absurd (hs.symm.trans h) (by simp)⟩ (by decide) ?_ hn
      rw [hl, Listening.next, ← u.listening.recv_short hshort hasked]
    | dropped e =>
      exact answerBody hl hn (fun h => absurd (hs.symm.trans h.2) (by simp))
        (fun h => absurd (hs.symm.trans h) (by simp)) _

end Reply

/-- The bytes put into the caller's memory: those of the receives that are not
followed by a store into `recv_packet`. -/
def toCaller : List Act → List Byte
  | .recv _ _ :: .store _ _ :: as => toCaller as
  | .recv _ bytes :: as => bytes ++ toCaller as
  | _ :: as => toCaller as
  | [] => []

def SparesCaller (_ : World) (as : List Act) (_ : World) : Prop := ∀ bs, toCaller (as ++ bs) = toCaller bs

instance : Chains SparesCaller where
  nil _ _ := rfl
  append {s t u as bs} h h' cs := by rw [List.append_assoc, h (bs ++ cs), h' cs]

namespace SparesCaller

theorem pkoRecvBytes (s : Int) (off : Nat) (bytes : Int) :
    Sat SparesCaller (pkoRecvBytes s (.recvPacket off) bytes) := by
  intro w bs
  simp only [Pksh.pkoRecvBytes, Buf.stored, endless]
  split
  · rfl
  · rfl

theorem sysSend (s : Int) (bytes : List Byte) : Sat SparesCaller (sysSend s bytes) := by
  intro w bs
  obtain ⟨ret, ⟨ha, -⟩ | ⟨ha, -⟩⟩ := sysSend_acts w s bytes
  · rw [ha]
    rfl
  · rw [ha]
    rfl

theorem netfsCall (fields : List (Nat × List Byte)) (size len : Nat) (pktType : Word) :
    Sat SparesCaller (netfsCall fields (sendRequest size) len pktType) := by
  have hfill : Sat SparesCaller (setVars fun v => { v with sendPacket := v.sendPacket.stores fields }) := fun _ _ => rfl
  have hawait : Sat SparesCaller (emit (.await pktType) rfl) := fun _ _ => rfl
  have hclose : Sat SparesCaller closeNetfs := fun _ _ => rfl
  exact sat_netfsCall hfill (sat_sendRequest size sysSend) fun sock =>
    sat_accept hawait hclose (pkoRecvBytes sock 0 _) fun _ _ => pkoRecvBytes sock pktHdrSize _

end SparesCaller

/-- What `ps2netfs_req_read` does with a response. -/
def readData (response : Option Mem) : Io (Int × List Byte) :=
  match response with
  | none => pure (-1, [])
  | some m =>
    if ntohl (m.word 6) > 0 then do
      let w ← Prog.get
      let got ← pkoRecvBytes w.ps2NetfsFd .caller (ntohl (m.word 6)).toInt
      pure (retval response, got.2)
    else pure (retval response, [])

theorem readData_run (v : World) :
    toCaller ((readData (some v.recvPacket)).run v).acts = v.listening.stream.take v.listening.field.toNat ∧
      ((readData (some v.recvPacket)).run v).value =
        if v.listening.field.toNat ≤ v.listening.stream.length ∨ v.listening.stop ≠ .never then
          some (v.listening.field, v.listening.stream.take v.listening.field.toNat) else none := by
  have hfield : v.listening.field = (ntohl (v.recvPacket.word 6)).toInt := rfl
  by_cases hpos : ntohl (v.recvPacket.word 6) > 0
  · have hrun : (readData (some v.recvPacket)).run v =
        ((pkoRecvBytes v.ps2NetfsFd .caller v.listening.field).run v).andThen fun got =>
          (pure (v.listening.field, got.2) : Io (Int × List Byte)).run := by
      rw [readData]
      simp only [if_pos hpos]
      rfl
    rw [hrun]
    generalize v.listening.field = n
    by_cases hn : n.toNat ≤ v.listening.stream.length
    · rw [pkoRecvBytes_full v v.ps2NetfsFd .caller hn, if_pos (.inl hn)]
      exact ⟨List.append_nil _, rfl⟩
    · have hs := Nat.lt_of_not_le hn
      have htake : v.listening.stream.take n.toNat = v.pending v.ps2NetfsFd := List.take_of_length_le (Nat.le_of_lt hs)
      rw [pkoRecvBytes_short v v.ps2NetfsFd .caller hs, htake]
      by_cases hst : v.listening.stop = .never
      · rw [if_neg (not_or.mpr ⟨hn, not_not.mpr hst⟩), show (v.inflow v.ps2NetfsFd).stop = .never from hst]
        exact ⟨List.append_nil _, rfl⟩
      · rw [if_pos (.inr hst)]
        cases hs' : (v.inflow v.ps2NetfsFd).stop with
        | never => exact absurd hs' hst
        | full => exact ⟨List.append_nil _, rfl⟩
        | eof => exact ⟨List.append_nil _, rfl⟩
        | dropped e => exact ⟨List.append_nil _, rfl⟩
  · have hz : v.listening.field = 0 := by
      have : ntohl (v.recvPacket.word 6) = 0 := by simpa using hpos
      rw [hfield, this]
      rfl
    have hrun : (readData (some v.recvPacket)).run v = ⟨some (v.listening.field, []), v, []⟩ := by
      rw [readData]
      simp only [if_neg hpos]
      rfl
    rw [hrun, hz]
    exact ⟨rfl, (if_pos (.inl (Nat.zero_le _))).symm⟩

/-- No more is stored than was asked for, and a count is that of the bytes stored. -/
def ReadsWell (size : Word) (r : Result World Act (Int × List Byte)) : Prop :=
  (toCaller r.acts).length ≤ size.toInt.toNat ∧
    ∀ n bytes, r.value = some (n, bytes) → 0 ≤ n → toCaller r.acts = bytes ∧ (bytes.length : Int) = n

def readFields (fd size : Word) : List (Nat × List Byte) :=
  reqHdr ps2netfsReadCmd pktReadReqSize ++ [(6, le32 (htonl fd)), (10, le32 (htonl size))]

theorem ps2netfsReqRead_run (fd size : Word) (w : World) : (ps2netfsReqRead fd size).run w =
    ((netfsCall (readFields fd size) (sendRequest pktReadReqSize) pktReadRlySize ps2netfsReadRly).run w).andThen
      fun response => (readData response).run := rfl

/-- What a call does by what becomes of its reply. -/
inductive Fetched (w : World) : Result World Act (Option Mem) → Prop
  | taken {v : World} {as : List Act} (sent : (w.outflow w.ps2NetfsFd).next ≠ none)
      (answered : w.listening.Answered pktReadRlySize ps2netfsReadRly) (next : v.listening = w.listening.next) :
      Fetched w ⟨some (some v.recvPacket), v, as⟩
  | missing {r : Result World Act (Option Mem)}
      (unanswered : ¬((w.outflow w.ps2NetfsFd).next ≠ none ∧ w.listening.Answered pktReadRlySize ps2netfsReadRly))
      (value : r.value = none ∨ r.value = some none) : Fetched w r

theorem netfsCall_fetched (fields : List (Nat × List Byte)) (w : World) :
    Fetched w ((netfsCall fields (sendRequest pktReadReqSize) pktReadRlySize ps2netfsReadRly).run w) := by
  let v : World := { w with sendPacket := w.sendPacket.stores fields }
  obtain ⟨hv, hvars, hi, -⟩ := awaiting_request v pktReadReqSize
  have hrun : (netfsCall fields (sendRequest pktReadReqSize) pktReadRlySize ps2netfsReadRly).run w =
      ((sendRequest pktReadReqSize).run v).andThen fun sent => ((NetfsReq.read 0 0).response sent).run := rfl
  have hnext : (v.outflow v.ps2NetfsFd).next = (w.outflow w.ps2NetfsFd).next := rfl
  rw [hnext] at hv
  rw [hrun]
  generalize (sendRequest pktReadReqSize).run v = r at hv hvars hi
  obtain ⟨sent, u, as⟩ := r
  have hfd : u.ps2NetfsFd = w.ps2NetfsFd := (congrArg Vars.ps2NetfsFd hvars).trans rfl
  have hl : u.listening = w.listening := by
    have hm : u.recvPacket = w.recvPacket := (congrArg Vars.recvPacket hvars).trans rfl
    have hin : u.inflow w.ps2NetfsFd = w.inflow w.ps2NetfsFd := hi
    rw [World.listening, World.pending, hfd, hin, hm]
    rfl
  cases hn : (w.outflow w.ps2NetfsFd).next with
  | none =>
    obtain rfl : sent = none := hv.trans (by rw [hn]; rfl)
    exact .missing (fun h => h.1 hn) (.inl rfl)
  | some g =>
    obtain rfl : sent = some true := hv.trans (by rw [hn]; rfl)
    have hresponse : ((NetfsReq.read 0 0).response true).run u =
        ((ps2netfsAcceptPkt u.ps2NetfsFd pktReadRlySize ps2netfsReadRly).run u).andThen fun accepted t =>
          if accepted = 0 then ⟨some none, t, []⟩ else ⟨some (some t.recvPacket), t, []⟩ := by
      refine congrArg (Result.andThen ((ps2netfsAcceptPkt u.ps2NetfsFd pktReadRlySize ps2netfsReadRly).run u))
        (funext fun accepted => funext fun t => ?_)
      by_cases h0 : accepted = 0
      · simp only [if_pos h0]
        rfl
      · simp only [if_neg h0]
        rfl
    have hanswer := accept_answer pktReadRlySize ps2netfsReadRly u
    rw [Result.andThen_mk_some, hresponse]
    generalize (ps2netfsAcceptPkt u.ps2NetfsFd pktReadRlySize ps2netfsReadRly).run u = r at hanswer
    cases hanswer with
    | taken answered nonzero next netfs =>
      rw [Result.andThen_mk_some, if_neg nonzero, Result.after_mk, Result.after_mk]
      exact .taken (by simp [hn]) (hl ▸ answered) (next.trans (congrArg Listening.next hl))
    | missing unanswered value =>
      refine .missing (fun h => unanswered (hl.symm ▸ h.2)) ?_
      rcases value with hnone | hzero
      · exact .inl (congrArg Result.value (congrArg (Result.after as) (Result.andThen_none _ hnone)))
      · exact .inr (by rw [Result.after_value, Result.andThen_some _ hzero]; rfl)

/-- No more data arrive than were asked for, and all of them do, or the call waits for the rest. -/
def Listening.Fits (x : Listening) (size : Word) : Prop :=
  min x.field.toNat x.stream.length ≤ size.toInt.toNat ∧ (x.field.toNat ≤ x.stream.length ∨ x.stop = .never)

theorem readsWell_readData {size : Word} {v u : World} {as : List Act} (h : SparesCaller u as v) :
    ReadsWell size (((readData (some v.recvPacket)).run v).after as) ↔ v.listening.Fits size := by
  obtain ⟨hacts, hvalue⟩ := readData_run v
  rw [ReadsWell, Result.after_acts, Result.after_value, h, hacts, hvalue, List.length_take, Listening.Fits]
  refine and_congr_right fun _ => ?_
  generalize v.listening.field = n
  generalize hstream : v.listening.stream = stream
  by_cases hc : n.toNat ≤ stream.length ∨ v.listening.stop ≠ .never
  · rw [if_pos hc]
    refine ⟨fun hall => ?_, fun hfull m bytes he hm => ?_⟩
    · by_contra hno
      have hlt := Nat.lt_of_not_le (not_or.mp hno).1
      have hn := (hall n (stream.take n.toNat) rfl (by omega)).2
      rw [List.length_take] at hn
      omega
    · obtain ⟨rfl, rfl⟩ := Prod.mk.inj (Option.some.inj he)
      have hle : n.toNat ≤ stream.length := hc.elim id fun h' => hfull.resolve_right h'
      rw [List.length_take]
      exact ⟨rfl, by omega⟩
  · rw [if_neg hc]
    exact iff_of_true nofun (.inr (not_not.mp (not_or.mp hc).2))

theorem req_read_iff (fd size : Word) (w : World) : ReadsWell size ((ps2netfsReqRead fd size).run w) ↔
    ((w.outflow w.ps2NetfsFd).next ≠ none → w.listening.Answered pktReadRlySize ps2netfsReadRly →
      w.listening.next.Fits size) := by
  have hspares := SparesCaller.netfsCall (readFields fd size) pktReadReqSize pktReadRlySize ps2netfsReadRly w
  have hfetched := netfsCall_fetched (readFields fd size) w
  rw [ps2netfsReqRead_run]
  generalize (netfsCall (readFields fd size) (sendRequest pktReadReqSize) pktReadRlySize ps2netfsReadRly).run w = r at *
  cases hfetched with
  | @taken v as sent answered next =>
    rw [Result.andThen_mk_some, readsWell_readData hspares, next]
    exact ⟨fun h _ _ => h, fun h => h sent answered⟩
  | missing unanswered value =>
    refine iff_of_true ?_ fun hs ha => absurd ⟨hs, ha⟩ unanswered
    have hnone : toCaller r.acts = [] := by
      have h := hspares []
      rwa [List.append_nil] at h
    rcases value with hv | hv
    · rw [Result.andThen_none _ hv, ReadsWell, hnone]
      exact ⟨Nat.zero_le _, nofun⟩
    · rw [Result.andThen_some _ hv, ReadsWell, Result.after_acts, hspares]
      refine ⟨Nat.zero_le _, fun n bytes he hn => ?_⟩
      obtain ⟨rfl, rfl⟩ := Prod.mk.inj (Option.some.inj he)
      exact absurd hn (by decide)

/-- The server sends 20 bytes, whatever it is asked for. -/
def generous : World :=
  { World.linked .refusing 3 [(7, .sock (.delivering
      (be32 ps2netfsReadRly ++ (be16 14 ++ (be32 20 ++ (be32 20 ++ List.replicate 20 0))))))] with ps2NetfsFd := 7 }

/-- A read of 10 bytes stores 20. -/
theorem read_not_within : ¬∀ fd size w, ReadsWell size ((ps2netfsReqRead fd size).run w) :=
  fun h => absurd (h 5 10 generous).1 (by decide +kernel)

end Pksh
