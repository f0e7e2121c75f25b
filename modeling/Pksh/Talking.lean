import Pksh.Lib.Frames
import Pksh.Fetching
import Pksh.Resync
import Pksh.Writing

/-! Requests to the file server on the PS2 over a stream that brings the
replies. -/

namespace Pksh

open Wire Traced

/-- `ntohl(response->retval)` of a packet as long as that. -/
def Reply.retval (p : Reply) : Word := ofBe32 p.body

def Reply.Answers (p : Reply) (r : NetfsReq) : Prop :=
  p.cmd = r.awaits ∧ pktFileRlySize ≤ p.len.toNat ∧ p.len.toNat ≤ r.room

structure Reply.Returns (p : Reply) (cmd : Word) : Prop where
  cmd : p.cmd = cmd
  len : p.len.toNat = pktFileRlySize

def Reply.value (cmd value : Word) : Reply := ⟨cmd, 10, be32 value, rfl⟩

theorem Reply.value_returns (cmd value : Word) : (Reply.value cmd value).Returns cmd := ⟨rfl, rfl⟩

/-- A request, the reply to it, and the data behind the reply. -/
structure Exchange where
  request : NetfsReq
  reply : Reply
  data : List Byte
  answers : reply.Answers request
  measured : data.length = request.data reply.retval

def Exchange.bytes (e : Exchange) : List Byte := e.reply.bytes ++ e.data

/-- The connection to the file server: what is still to arrive on it, and that
it takes what is sent. -/
structure Talking (fd : Int) (stream : List Byte) (w : World) : Prop where
  nonneg : 0 ≤ fd
  netfs : w.ps2NetfsFd = fd
  sock : ∃ k, w.desc fd = some (.sock k) ∧ k.inflow.live = stream ∧ k.outflow = ⟨[], .accepts⟩

theorem received_now (w : World) (s : Int) (buf : Buf) (bytes : Int) : (w.received s buf bytes).now = w.now := by
  change (w.putInflow s ((w.inflow s).read bytes.toNat).2.2).now = w.now
  rw [World.putInflow, World.putSock]
  split <;> rfl

theorem withPacket_now (w : World) (fd : Int) : (w.withPacket fd).now = w.now :=
  (received_now _ _ _ _).trans (received_now _ _ _ _)

namespace Talking

variable {fd : Int} {stream : List Byte} {w v : World}

theorem pending (h : Talking fd stream w) : w.pending fd = stream := by
  obtain ⟨k, hk, hs, -⟩ := h.sock
  rw [World.pending, World.inflow, World.sockAt_sock hk, hs]

theorem outflow (h : Talking fd stream w) : w.outflow fd = ⟨[], .accepts⟩ := by
  obtain ⟨k, hk, -, ho⟩ := h.sock
  rw [World.outflow, World.sockAt_sock hk, ho]

theorem of_desc (h : Talking fd stream w) (hn : v.ps2NetfsFd = w.ps2NetfsFd) (hd : v.desc fd = w.desc fd) :
    Talking fd stream v := by
  obtain ⟨k, hk, hs⟩ := h.sock
  exact ⟨h.nonneg, hn.trans h.netfs, k, hd.trans hk, hs⟩

theorem sysSend_run (h : Talking fd stream w) (bs : List Byte) :
    (sysSend fd bs).run w = ⟨some bs.length, w.tick, [.send fd bs (some bs.length)]⟩ := by
  obtain ⟨k, hk, -, ho⟩ := h.sock
  have hw : w.tick.putOutflow fd ⟨[], .accepts⟩ = w.tick := by
    have hs : ({ w.tick.sockAt fd with outflow := ⟨[], .accepts⟩ } : Sock) = k := by
      rw [World.sockAt_sock (show w.tick.desc fd = some (.sock k) from hk), ← ho]
    rw [World.putOutflow, hs, World.putSock]
    simp only [show w.tick.desc fd = some (.sock k) from hk]
    rw [← hk, show w.desc = w.tick.desc from rfl, Function.update_eq_self]
  simp only [sysSend, h.outflow, Outflow.send, hw]
  rfl

theorem received (h : Talking fd stream w) (buf : Buf) (bytes : Int) :
    Talking fd (stream.drop bytes.toNat) (w.received fd buf bytes) := by
  obtain ⟨k, hk, hs, ho⟩ := h.sock
  obtain ⟨k', hk'⟩ := ((received_accounted w fd buf bytes).pending ⟨k, hk⟩ (by cases buf <;> simp [Buf.stored])).1
  have hp := received_pending w fd buf bytes
  have hf := received_outflow w fd buf bytes
  rw [World.pending, World.inflow, World.sockAt_sock hk', h.pending] at hp
  rw [World.outflow, World.sockAt_sock hk', h.outflow] at hf
  refine ⟨h.nonneg, ?_, k', hk', hp, hf⟩
  rw [received_vars]
  cases buf <;> exact h.netfs

end Talking

def Act.talks : Act → Bool
  | .send _ _ _ | .await _ | .recv _ _ | .store _ _ | .starves _ | .blocks _ => true
  | _ => false

def Converses (w : World) (as : List Act) (w' : World) : Prop :=
  w'.ps2NetfsFd = -1 ∨ w'.ps2NetfsFd = w.ps2NetfsFd ∧ ∀ a ∈ as, a.talks = true

instance : Chains Converses where
  nil _ := .inr ⟨rfl, by simp⟩
  append h h' := by
    rcases h' with h' | ⟨hn', ha'⟩
    · exact .inl h'
    · rcases h with h | ⟨hn, ha⟩
      · exact .inl (hn'.trans h)
      · exact .inr ⟨hn'.trans hn, fun a hm => (List.mem_append.mp hm).elim (ha a) (ha' a)⟩

namespace Converses

theorem pkoRecvBytes (s : Int) (buf : Buf) (bytes : Int) : Sat Converses (pkoRecvBytes s buf bytes) := by
  refine fun w => .inr ⟨?_, pkoRecvBytes_acts w s buf bytes (fun _ => rfl) (by cases buf <;> simp [Buf.stored, Act.talks]) rfl⟩
  obtain ⟨bs, hv⟩ := pkoRecvBytes_vars w s buf bytes
  rw [hv]
  cases buf <;> rfl

theorem sysSend (s : Int) (bytes : List Byte) : Sat Converses (sysSend s bytes) := by
  refine fun w => .inr ⟨congrArg Vars.ps2NetfsFd (sysSend_vars w s bytes), fun a ha => ?_⟩
  obtain ⟨ret, ⟨hs, -⟩ | ⟨hs, -⟩⟩ := sysSend_acts w s bytes
  · rw [hs, List.mem_singleton] at ha
    rw [ha]
    rfl
  · rw [hs, List.mem_cons, List.mem_singleton] at ha
    rcases ha with rfl | rfl <;> rfl

theorem netfsCall (r : NetfsReq) : Sat Converses (netfsCall r.fields r.sends r.room r.awaits) := by
  have hfill : Sat Converses (setVars fun v => { v with sendPacket := v.sendPacket.stores r.fields }) :=
    fun _ => .inr ⟨rfl, by simp [setVars]⟩
  have hawait : Sat Converses (emit (.await r.awaits) rfl) := fun _ => .inr ⟨rfl, by simp [emit, Act.talks]⟩
  have hclose : Sat Converses closeNetfs := fun _ => .inl rfl
  exact sat_netfsCall hfill (r.sat_sends sysSend) fun sock =>
    sat_accept hawait hclose (pkoRecvBytes sock _ _) fun _ _ => pkoRecvBytes sock _ _

theorem run (r : NetfsReq) : Sat Converses r.run := by
  intro w
  rw [r.run_eq]
  exact Sat.bind (netfsCall r) (fun response => r.sat_finish response fun s bytes => pkoRecvBytes s .caller bytes) w

theorem plain {w v : World} {as : List Act} {s : Int} (hk : Accounted w as v) (ht : Converses w as v) (hv : 0 ≤ v.ps2NetfsFd)
    (hs : w.desc s = some .plain) : v.desc s = some .plain ∧ ∀ a ∈ as, a.talks = true := by
  obtain ⟨-, ha⟩ := ht.resolve_left (by omega)
  obtain ⟨d, hd, hf⟩ := hk.kept s _ hs fun hc => by cases ha _ hc
  exact ⟨hd.trans (congrArg some hf), ha⟩

end Converses

section Call

variable {fd : Int} {rest : List Byte} {w : World} {r : NetfsReq} {p : Reply}

theorem sendOnce_run {stream : List Byte} (h : Talking fd stream w) (bs : List Byte) :
    (do
      let _ ← sysSend w.ps2NetfsFd bs
      pure true : Io Bool).run w = ⟨some true, { w with now := w.now + 1 }, [.send fd bs (some bs.length)]⟩ := by
  rw [h.netfs, Prog.run_bind, h.sysSend_run]
  rfl

/-- How often `send` is called for a request. -/
def NetfsReq.calls (r : NetfsReq) : Nat := r.payload.toList.length + 1

theorem sends_once_of {r : NetfsReq} (hp : r.payload = none) (w : World) : r.sends.run w = (do
    let _ ← sysSend w.ps2NetfsFd (r.wire w)
    pure true : Io Bool).run w := by
  cases r with
  | write d ptr size => cases hp
  | _ => rfl

theorem sends_run {stream : List Byte} (r : NetfsReq) (h : Talking fd stream w) :
    r.sends.run w = ⟨some true, { w with now := w.now + r.calls },
      (r.wire w :: r.payload.toList).map fun bs => .send fd bs (some bs.length)⟩ := by
  have hn (bs : List Byte) : ¬(bs.length : Int) < 0 := by omega
  cases r with
  | write d ptr size =>
    have h1 := h.sysSend_run (w.sendPacket.slice 0 pktWriteReqSize)
    have h2 := (h.of_desc (v := w.tick) rfl rfl).sysSend_run (ptr.slice 0 (sizeT size.toInt))
    rw [NetfsReq.sends, sendWrite, Prog.run_bind, Prog.run_get, Result.andThen_mk_some, h.netfs, Prog.run_bind, h1,
      Result.andThen_mk_some, if_neg (hn _), Prog.run_bind, h2, Result.andThen_mk_some]
    simp only [if_neg (hn _)]
    rfl
  | _ => exact (sends_once_of rfl w).trans (sendOnce_run h _)

theorem response_run (h : Talking fd (p.bytes ++ rest) w) (ha : p.Answers r) : ∃ as,
    (r.response true).run w = ⟨some (some (w.withPacket fd).recvPacket), w.withPacket fd, as⟩ ∧
      (w.withPacket fd).recvPacket.slice 0 p.len.toNat = p.bytes ∧ Talking fd rest (w.withPacket fd) := by
  obtain ⟨hc, hlo, hhi⟩ := ha
  have h10 : pktFileRlySize = 10 := rfl
  have h6 : pktHdrSize = 6 := rfl
  obtain ⟨hl, hcmd, hlen, hbody⟩ := Reply.header_read h.pending
  have hbytes : p.bytes.length = p.len.toNat := by
    have := p.whole
    rw [Reply.bytes, List.length_append, List.length_append, be32_length, be16_length]
    omega
  have hle : w.hlen fd ≤ (w.pending fd).length := by
    rw [hlen, h.pending, List.length_append]
    omega
  obtain ⟨as, hrun, -⟩ := accept_takes hl (hcmd.trans hc) (hlen ▸ hhi)
  rw [if_pos hle, if_neg (by omega)] at hrun
  refine ⟨as, ?_, ?_, ?_⟩
  · rw [NetfsReq.response, if_pos rfl, Prog.run_bind, Prog.run_get, Result.andThen_mk_some, h.netfs, Prog.run_bind, hrun]
    simp only [Result.andThen_mk_some]
    rw [if_neg (by decide), loadPacket_bind, Prog.run_pure, Result.after_mk, Result.after_mk, List.append_nil,
      List.nil_append]
  · rw [← hlen, withPacket_slice (by omega) hle, hlen, h.pending, ← hbytes, List.take_left]
  · have hr := (h.received (.recvPacket 0) pktHdrSize).received (.recvPacket pktHdrSize) (w.hlen fd - pktHdrSize)
    have hn : (pktHdrSize : Int).toNat + ((w.hlen fd : Int) - pktHdrSize).toNat = p.bytes.length := by omega
    rw [List.drop_drop, hn, List.drop_left] at hr
    exact hr

theorem call_run (h : Talking fd (p.bytes ++ rest) w) (ha : p.Answers r) : ∃ v as,
    (netfsCall r.fields r.sends r.room r.awaits).run w = ⟨some (some v.recvPacket), v, as⟩ ∧
      v.recvPacket.slice 0 p.len.toNat = p.bytes ∧ Talking fd rest v ∧ v.now = w.now + r.calls ∧
        outgoing as = (r.wire (r.filled w) :: r.payload.toList).map fun bs => (fd, bs) := by
  have hf : Talking fd (p.bytes ++ rest) (r.filled w) := h.of_desc rfl rfl
  have hs := sends_run r hf
  have hn : Talking fd (p.bytes ++ rest) { r.filled w with now := (r.filled w).now + r.calls } := hf.of_desc rfl rfl
  obtain ⟨as, hr, hm, ht⟩ := response_run hn ha
  have hrun : (netfsCall r.fields r.sends r.room r.awaits).run w =
      (r.sends.run (r.filled w)).andThen fun sent => (r.response sent).run := rfl
  have hears := (Hears.response r true { r.filled w with now := (r.filled w).now + r.calls }).2.2
  rw [hs, Result.andThen_mk_some, hr] at hrun
  rw [hr] at hears
  refine ⟨_, _, hrun, hm, ht, withPacket_now _ _, ?_⟩
  rw [outgoing_append, hears, List.append_nil]
  rw [outgoing, List.filterMap_map]
  exact congrFun List.filterMap_eq_map _

theorem retval_of_slice {m : Mem} (hm : m.slice 0 p.len.toNat = p.bytes) (hl : pktFileRlySize ≤ p.len.toNat) :
    ntohl (m.word 6) = p.retval := by
  have hw : ntohl (m.word 6) = ofBe32 (p.bytes.drop 6) := word_of_slice hm hl
  have hd : p.bytes.drop 6 = p.body := by
    rw [Reply.bytes, ← List.append_assoc]
    exact List.drop_left' (by rw [List.length_append, be32_length, be16_length])
  rw [hw, hd, Reply.retval]

theorem recvData_run {data : List Byte} {bytes : Int} (h : Talking fd (data ++ rest) w) (hd : data.length = bytes.toNat) :
    ∃ as, (pkoRecvBytes fd .caller bytes).run w = ⟨some (bytes, data), w.received fd .caller bytes, as⟩ ∧
      Talking fd rest (w.received fd .caller bytes) := by
  have hl : bytes.toNat ≤ (w.pending fd).length := by
    rw [h.pending, List.length_append]
    omega
  have ht := h.received .caller bytes
  rw [← hd, List.drop_left] at ht
  have hrun := pkoRecvBytes_full w fd .caller hl
  rw [h.pending, ← hd, List.take_left] at hrun
  exact ⟨_, hrun, ht⟩

theorem readData_finds {data : List Byte} {m : Mem} (h : Talking fd (data ++ rest) w) (hm : ntohl (m.word 6) = p.retval)
    (hd : data.length = p.retval.toInt.toNat) : ∃ v as,
    (readData (some m)).run w = ⟨some (p.retval.toInt, data), v, as⟩ ∧ Talking fd rest v ∧ v.now = w.now := by
  have hret : retval (some m) = p.retval.toInt := by rw [retval, Option.elim_some, hm]
  by_cases hpos : ntohl (m.word 6) > 0
  · obtain ⟨as, hrun, ht⟩ := recvData_run h hd
    have hread : (readData (some m)).run w =
        ((pkoRecvBytes fd .caller p.retval.toInt).run w).andThen fun got =>
          (pure (p.retval.toInt, got.2) : Io (Int × List Byte)).run := by
      rw [readData, if_pos hpos, Prog.run_bind, Prog.run_get, Result.andThen_mk_some, h.netfs, hm, hret]
      rfl
    rw [hrun, Result.andThen_mk_some, Prog.run_pure, Result.after_mk] at hread
    exact ⟨_, _, hread, ht, received_now _ _ _ _⟩
  · have hz : p.retval = 0 := by simpa [hm] using hpos
    obtain rfl : data = [] := List.length_eq_zero_iff.mp (by rw [hd, hz]; rfl)
    refine ⟨w, [], ?_, h, rfl⟩
    rw [readData, if_neg hpos, hret]
    rfl

theorem finish_run {data : List Byte} {m : Mem} (h : Talking fd (data ++ rest) w) (hm : ntohl (m.word 6) = p.retval)
    (hd : data.length = r.data p.retval) : ∃ v as,
    (r.finish (some m)).run w = ⟨some p.retval.toInt, v, as⟩ ∧ Talking fd rest v ∧ v.now = w.now := by
  have hret : retval (some m) = p.retval.toInt := by rw [retval, Option.elim_some, hm]
  cases r with
  | read d size =>
    obtain ⟨v, as, hrun, ht, hnow⟩ := readData_finds h hm hd
    have hfin : ((NetfsReq.read d size).finish (some m)).run w = ((readData (some m)).run w).andThen fun x =>
        (pure x.1 : Io Int).run := by
      rw [NetfsReq.finish, readData]
      by_cases hpos : ntohl (m.word 6) > 0
      · rw [if_pos hpos, if_pos hpos]
        have hnil {β : Type} (x : Result World Act β) : x.after [] = x := rfl
        simp only [Prog.run_bind, Prog.run_get, Result.andThen_mk_some, hnil, Result.andThen_assoc]
        rfl
      · rw [if_neg hpos, if_neg hpos]
        rfl
    rw [hrun, Result.andThen_mk_some, Prog.run_pure, Result.after_mk] at hfin
    exact ⟨_, _, hfin, ht, hnow⟩
  | _ =>
    obtain rfl : data = [] := List.length_eq_zero_iff.mp hd
    exact ⟨w, [], by simp only [NetfsReq.finish, hret]; rfl, h, rfl⟩

/-- The bytes that are handed to `send` for some requests. -/
inductive Asks (fd : Int) : List NetfsReq → List (Int × List Byte) → Prop
  | nil : Asks fd [] []
  | cons {r : NetfsReq} {rs : List NetfsReq} {sent : List (Int × List Byte)} (u : World) (rest : Asks fd rs sent) :
      Asks fd (r :: rs) ((r.wire (r.filled u) :: r.payload.toList).map (fun bs => (fd, bs)) ++ sent)

theorem Asks.append {rs rs' : List NetfsReq} {sent sent' : List (Int × List Byte)} (h : Asks fd rs sent)
    (h' : Asks fd rs' sent') : Asks fd (rs ++ rs') (sent ++ sent') := by
  induction h with
  | nil => exact h'
  | cons u _ ih =>
    rw [List.cons_append, List.append_assoc]
    exact .cons u ih

theorem Asks.socket {rs : List NetfsReq} {sent : List (Int × List Byte)} (h : Asks fd rs sent) : ∀ p ∈ sent, p.1 = fd := by
  induction h with
  | nil => exact fun p hp => absurd hp List.not_mem_nil
  | cons u _ ih =>
    intro p hp
    rcases List.mem_append.mp hp with hp | hp
    · obtain ⟨bs, -, rfl⟩ := List.mem_map.mp hp
      rfl
    · exact ih p hp

theorem Asks.of_call {as bs : List Act} (ha : outgoing as = (r.wire (r.filled w) :: r.payload.toList).map fun bs => (fd, bs))
    (hb : outgoing bs = []) : Asks fd [r] (outgoing (as ++ bs)) := by
  rw [outgoing_append, ha, hb]
  exact .cons w .nil

theorem exchange_run (e : Exchange) (h : Talking fd (e.bytes ++ rest) w) : ∃ v as,
    e.request.run.run w = ⟨some e.reply.retval.toInt, v, as⟩ ∧ Talking fd rest v ∧ v.now = w.now + e.request.calls ∧
      Asks fd [e.request] (outgoing as) := by
  rw [Exchange.bytes, List.append_assoc] at h
  obtain ⟨v, as, hcall, hm, ht, hcalls, ho⟩ := call_run h e.answers
  obtain ⟨u, bs, hfin, hu, hnow⟩ := finish_run ht (retval_of_slice hm e.answers.2.1) e.measured
  have hears := ((Hears.finish e.request (some v.recvPacket) : Sat (Hears e.request.awaits) _) v).2.2
  rw [hfin] at hears
  refine ⟨u, as ++ bs, ?_, hu, hnow.trans hcalls, .of_call ho hears⟩
  rw [e.request.run_eq, hcall, Result.andThen_mk_some, hfin, Result.after_mk]

end Call

def askAll : List NetfsReq → Io (List Int)
  | [] => pure []
  | r :: rs => do
    let ret ← r.run
    let rets ← askAll rs
    pure (ret :: rets)

theorem askAll_run {fd : Int} (es : List Exchange) {rest : List Byte} {w : World}
    (h : Talking fd (es.flatMap Exchange.bytes ++ rest) w) : ∃ v as,
    (askAll (es.map Exchange.request)).run w = ⟨some (es.map fun e => e.reply.retval.toInt), v, as⟩ ∧
      Talking fd rest v ∧ Asks fd (es.map Exchange.request) (outgoing as) := by
  induction es generalizing w with
  | nil => exact ⟨w, [], rfl, h, .nil⟩
  | cons e es ih =>
    rw [List.flatMap_cons, List.append_assoc] at h
    obtain ⟨v, as, hrun, hv, -, ha⟩ := exchange_run e h
    obtain ⟨u, bs, hall, hu, hb⟩ := ih hv
    refine ⟨u, as ++ bs, ?_, hu, ?_⟩
    · rw [List.map_cons, askAll, Prog.run_bind, hrun, Result.andThen_mk_some, Prog.run_bind, hall, Result.andThen_mk_some,
        Prog.run_pure, Result.after_mk, Result.after_mk, List.append_nil, List.map_cons]
    · rw [outgoing_append, List.map_cons]
      exact ha.append hb

end Pksh
