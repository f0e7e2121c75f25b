import Pksh.Lib.Transfer
import Pksh.Retrying

/-! `pko_send_bytes` and `pko_recv_bytes` at the two ends of a connection, with
the buffers they move. -/

namespace Pksh

open Wire Traced

/-- At most `calls` turns of the loop of `pko_send_bytes` over a buffer. -/
def sendBytesTurns (buf : Mem) (bytes : Int) (calls : Nat) (f : Outflow Errno.drops) : Option (Sent Errno.drops) :=
  sendFrom buf bytes calls bytes f

/-- At most `calls` turns of the loop of `pko_recv_bytes` over a buffer. -/
def recvBytesTurns (buf : Mem) (bytes : Int) (calls : Nat) (f : Inflow Byte Errno.drops) :
    Option (Received Errno.drops) :=
  recvInto bytes calls bytes buf f

/-- Receives one after another, each with its count and its buffer. -/
def recvEach (calls : Nat) : List (Nat × Mem) → Inflow Byte Errno.drops → Option (List (Received Errno.drops))
  | [], _ => some []
  | (bytes, buf) :: reads, f => do
    let r ← recvBytesTurns buf bytes calls f
    let rs ← recvEach calls reads r.rest
    some (r :: rs)

section Turns

variable {buf : Mem} {bytes : Int} {calls n : Nat}

/-- A call of `pko_recv_bytes` that comes back has taken the bytes and left the
stream that `pkoRecvBytes` says. -/
theorem recvBytesTurns_moved {f : Inflow Byte Errno.drops} {r : Received Errno.drops}
    (h : recvBytesTurns buf bytes calls f = some r) :
    r.taken = (f.read bytes.toNat).2.1 ∧ r.rest = (f.read bytes.toNat).2.2 ∧ r.buf = buf.store 0 r.taken := by
  have hm := recvInto_moved (Int.le_refl bytes) h
  rwa [Int.sub_self] at hm

theorem readingValue_pos {reading : Reading Errno} {v : Int} (h : readingValue bytes reading = some v) (hv : 0 < v) :
    reading = .full ∧ v = bytes := by
  cases reading with
  | full => exact ⟨rfl, (Option.some.inj h).symm⟩
  | eof => exact absurd (Option.some.inj h) (by omega)
  | dropped e => exact absurd (Option.some.inj h) (by omega)
  | never => cases h

theorem recvBytesTurns_value {f : Inflow Byte Errno.drops} {r : Received Errno.drops}
    (h : recvBytesTurns buf bytes calls f = some r) : readingValue bytes (f.read bytes.toNat).1 = some r.value := by
  refine (recvTurns_value f).mp ⟨calls, ?_⟩
  rw [recvTurns, ← recvInto_value buf]
  exact congrArg (Option.map Received.value) h

theorem recvBytesTurns_full {f : Inflow Byte Errno.drops} (hn : n ≤ f.live.length) (hc : f.arrivals.length + 1 < calls) :
    recvBytesTurns buf n calls f = some ⟨n, buf.store 0 (f.live.take n), f.live.take n, (f.read n).2.2⟩ := by
  have hvalue : (recvInto n calls n buf f).map Received.value = _ := recvInto_value buf f
  rw [retry_read f.ending f.arrivals hc] at hvalue
  have hfull : (Inflow.readFrom f.ending n f.arrivals).1 = .full := (Inflow.read_full hn).1
  rw [hfull, readingValue] at hvalue
  obtain ⟨⟨value, buf', taken, rest⟩, hr, rfl⟩ := Option.map_eq_some_iff.mp hvalue
  obtain ⟨rfl, rfl, hbuf⟩ := recvBytesTurns_moved hr
  obtain rfl : buf' = buf.store 0 (f.read (n : Int).toNat).2.1 := hbuf
  rw [recvBytesTurns, hr, Int.toNat_natCast, (Inflow.read_full hn).2.1]

theorem sendBytesTurns_full {f : Outflow Errno.drops} (hf : f.Delivers) (hc : f.intakes.length + 1 < calls) :
    sendBytesTurns buf n calls f = some ⟨n, buf.slice 0 n, (f.write n).2.2⟩ := by
  have hvalue : (sendFrom buf n calls n f).map Sent.value = _ := sendFrom_value buf f
  rw [retry_write f.sink f.intakes hc] at hvalue
  have hfull : (Outflow.writeFrom f.sink n f.intakes).1 = .full := (hf.write n).1
  rw [hfull, writingValue] at hvalue
  obtain ⟨⟨value, taken, rest⟩, hs, rfl⟩ := Option.map_eq_some_iff.mp hvalue
  obtain ⟨rfl, rfl⟩ := sendFrom_moved (Int.le_refl _) hs
  rw [sendBytesTurns, hs, Int.sub_self, Int.toNat_natCast, (hf.write n).2]
  rfl

theorem recvEach_full {reads : List (Nat × Mem)} {f : Inflow Byte Errno.drops}
    (h : (reads.map Prod.fst).sum ≤ f.live.length) :
    ∃ rs, (∃ enough, ∀ calls, enough < calls → recvEach calls reads f = some rs) ∧
      rs.map Received.value = reads.map (fun r => (r.1 : Int)) ∧
      rs.flatMap (fun r => r.buf.slice 0 r.value.toNat) = f.live.take (reads.map Prod.fst).sum := by
  induction reads generalizing f with
  | nil => exact ⟨[], ⟨0, fun _ _ => rfl⟩, rfl, rfl⟩
  | cons p reads ih =>
    obtain ⟨n, buf⟩ := p
    rw [List.map_cons, List.sum_cons] at h
    have hn : n ≤ f.live.length := Nat.le_of_add_right_le h
    obtain ⟨-, -, hlive, -⟩ := Inflow.read_full hn
    obtain ⟨rs, ⟨enough, hrun⟩, hvalues, hbytes⟩ := @ih (f.read n).2.2 (by rw [hlive, List.length_drop]; omega)
    have hone (calls : Nat) (hc : f.arrivals.length + 1 < calls) :
        recvBytesTurns buf n calls f = some ⟨n, buf.store 0 (f.live.take n), f.live.take n, (f.read n).2.2⟩ :=
      recvBytesTurns_full hn hc
    refine ⟨⟨n, buf.store 0 (f.live.take n), f.live.take n, (f.read n).2.2⟩ :: rs,
      ⟨max enough (f.arrivals.length + 1), fun calls hc => ?_⟩, ?_, ?_⟩
    · rw [recvEach, hone calls (by omega), Option.bind_eq_bind, Option.bind_some, hrun calls (by omega)]
      rfl
    · rw [List.map_cons, hvalues, List.map_cons]
    · have hlen : (f.live.take n).length = n := by rw [List.length_take, Nat.min_eq_left hn]
      rw [List.flatMap_cons, Int.toNat_natCast, Mem.slice_store_eq buf 0 hlen, hbytes, hlive, List.map_cons,
        List.sum_cons, List.take_add]

end Turns

/-- However the two ends cut the stream up, what one sends the other receives,
and a receive that reports a count has stored so many bytes, those that came
next, from the start of its buffer on. -/
theorem bytes_conveyed :
    (∀ (buf : Mem) (n : Nat) (out : Outflow Errno.drops), out.Delivers →
      ∃ sent, (∃ enough, ∀ calls, enough < calls → sendBytesTurns buf n calls out = some sent) ∧ sent.value = n ∧
        ∀ (inp : Inflow Byte Errno.drops) (reads : List (Nat × Mem)),
          sent.taken <+: inp.live → (reads.map Prod.fst).sum = n →
          ∃ rs, (∃ enough, ∀ calls, enough < calls → recvEach calls reads inp = some rs) ∧
            rs.map Received.value = reads.map (fun r => (r.1 : Int)) ∧
            rs.flatMap (fun r => r.buf.slice 0 r.value.toNat) = buf.slice 0 n) ∧
    ∀ (inp : Inflow Byte Errno.drops) (buf : Mem) (bytes : Int) (calls : Nat) (r : Received Errno.drops),
      recvBytesTurns buf bytes calls inp = some r → 0 < r.value →
      r.value = bytes ∧ r.taken.length = bytes.toNat ∧ r.buf = buf.store 0 r.taken ∧ r.taken ++ r.rest.live = inp.live := by
  constructor
  · intro buf n out ho
    refine ⟨_, ⟨out.intakes.length + 1, fun calls hc => sendBytesTurns_full ho hc⟩, rfl, ?_⟩
    intro inp reads hlive hsum
    have hlen := hlive.length_le
    rw [Mem.slice_length] at hlen
    obtain ⟨rs, hrun, hvalues, hbytes⟩ := recvEach_full (f := inp) (hsum.trans_le hlen)
    refine ⟨rs, hrun, hvalues, ?_⟩
    rw [hbytes, hsum]
    have htake := List.prefix_iff_eq_take.mp hlive
    rw [Mem.slice_length] at htake
    exact htake.symm
  · intro inp buf bytes calls r hr hpos
    obtain ⟨htaken, hrest, hbuf⟩ := recvBytesTurns_moved hr
    obtain ⟨hfull, hv⟩ := readingValue_pos (recvBytesTurns_value hr) hpos
    have hlive : r.taken ++ r.rest.live = inp.live := by rw [htaken, hrest, Inflow.read_append]
    have hn : bytes.toNat ≤ inp.live.length := by
      by_contra hlt
      rw [Inflow.read_short (Nat.lt_of_not_le hlt)] at hfull
      exact Inflow.stop_ne_full hfull
    refine ⟨hv, ?_, hbuf, hlive⟩
    rw [htaken, Inflow.read_got_length, Nat.min_eq_left hn]

def seven : Mem := Mem.store (fun _ => 0) 0 [1, 2, 3, 4, 5, 6, 7]

/-- They arrive in three pieces with an error between them, and more behind. -/
def cutStream : Inflow Byte Errno.drops := ⟨[.data 1 [2], .hiccup .EINTR passes_EINTR, .data 3 [4, 5, 6], .data 7 [8]], .quiet⟩

/-- The bytes are sent in two pieces around an error, and received as three and four. -/
theorem bytes_conveyed_pieces : ∃ sent,
    (∃ enough, ∀ calls, enough < calls →
      sendBytesTurns seven 7 calls ⟨[.takes 3, .hiccup .EINTR passes_EINTR, .takes 9], .accepts⟩ = some sent) ∧ sent.value = 7 ∧
      sent.taken <+: cutStream.live ∧
        ∃ rs, (∃ enough, ∀ calls, enough < calls → recvEach calls [(3, fun _ => 0), (4, fun _ => 9)] cutStream = some rs) ∧
          rs.map Received.value = [3, 4] ∧ rs.flatMap (fun r => r.buf.slice 0 r.value.toNat) = seven.slice 0 7 := by
  have hd : Outflow.Delivers (⟨[.takes 3, .hiccup .EINTR passes_EINTR, .takes 9], .accepts⟩ : Outflow Errno.drops) := ⟨by simp, rfl⟩
  obtain ⟨sent, ⟨enough, hsent⟩, hv, hrecv⟩ :=
    bytes_conveyed.1 seven 7 ⟨[.takes 3, .hiccup .EINTR passes_EINTR, .takes 9], .accepts⟩ hd
  have htaken : sent.taken = seven.slice 0 7 := by
    have h := (hsent (max enough 4 + 1) (by omega)).symm.trans (sendBytesTurns_full hd (Nat.lt_succ_of_le (Nat.le_max_right _ _)))
    rw [Option.some.inj h]
  have hlive : sent.taken <+: cutStream.live := ⟨[8], by rw [htaken]; decide⟩
  exact ⟨sent, ⟨enough, hsent⟩, hv, hlive, hrecv cutStream [(3, fun _ => 0), (4, fun _ => 9)] hlive rfl⟩

section Run

variable {v : Int} {bytes : Int} (w : World) (s : Int)

theorem recvBytesTurns_run (dest : Buf) (buf : Mem) (bs : List Byte) :
    (∃ calls r, recvBytesTurns buf bytes calls (w.inflow s) = some r ∧ r.value = v ∧ r.taken = bs) ↔
      ((pkoRecvBytes s dest bytes).run w).value = some (v, bs) := by
  have hrun : ((pkoRecvBytes s dest bytes).run w).value =
      (readingValue bytes ((w.inflow s).read bytes.toNat).1).map (·, ((w.inflow s).read bytes.toNat).2.1) := rfl
  rw [hrun]
  constructor
  · rintro ⟨calls, r, hr, rfl, rfl⟩
    rw [recvBytesTurns_value hr, (recvBytesTurns_moved hr).1, Option.map_some]
  · intro h
    obtain ⟨u, hu, he⟩ := Option.map_eq_some_iff.mp h
    cases he
    obtain ⟨calls, hc⟩ := (recvTurns_value (w.inflow s)).mpr hu
    rw [recvTurns, ← recvInto_value buf] at hc
    obtain ⟨r, hr, rfl⟩ := Option.map_eq_some_iff.mp hc
    exact ⟨calls, r, hr, rfl, (recvBytesTurns_moved hr).1⟩

theorem sendBytesTurns_run (buf : Mem) (data : List Byte) :
    (∃ calls t, sendBytesTurns buf bytes calls (w.outflow s) = some t ∧ t.value = v) ↔
      ((pkoSendBytes s data bytes).run w).value = some v := by
  rw [← sendTurns_iff w s data]
  refine exists_congr fun calls => ?_
  rw [sendTurns, ← sendFrom_value buf, Option.map_eq_some_iff]
  rfl

end Run

end Pksh
