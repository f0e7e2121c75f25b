import Pksh.Lib.Retry
import Pksh.Syscalls

/-! `pko_recv_bytes` and `pko_send_bytes` call by call: which errors they give
up on, and which they retry for ever. -/

namespace Pksh

open Wire Traced

/-- At most `calls` turns of the loop of `pko_recv_bytes`. -/
def recvTurns (bytes : Int) (calls : Nat) (f : Inflow Byte Errno.drops) : Option Int × List Errno :=
  retry Inflow.call Errno.drops bytes calls bytes f

/-- At most `calls` turns of the loop of `pko_send_bytes`. -/
def sendTurns (bytes : Int) (calls : Nat) (f : Outflow Errno.drops) : Option Int × List Errno :=
  retry Outflow.send Errno.drops bytes calls bytes f

section Turns

variable {bytes left v : Int} {calls n : Nat}

theorem retry_read (ending : Ending Errno) (as : List (Arrival Byte Errno.drops)) (hc : as.length + 1 < calls) :
    (retry Inflow.call Errno.drops bytes calls n (⟨as, ending⟩ : Inflow Byte Errno.drops)).1 =
      readingValue bytes (Inflow.readFrom ending n as).1 := by
  induction as generalizing n calls with
  | nil =>
    obtain ⟨calls, rfl⟩ : ∃ k, calls = k + 2 := Nat.exists_eq_add_of_le' hc
    cases n with
    | zero => rfl
    | succ n =>
      have hn : 0 < n + 1 := Nat.succ_pos n
      cases ending with
      | quiet => exact retry_blocks hn rfl
      | eof => exact congrArg Prod.fst (retry_closed hn rfl)
      | fail e sticky =>
        rw [Inflow.readFrom, Ending.stop]
        cases he : e.drops with
        | true => exact congrArg Prod.fst (retry_drops hn rfl he)
        | false =>
          cases sticky with
          | true => exact (FailsFor.now hn rfl).spins he _
          | false =>
            have failed : Inflow.call (n + 1) (⟨[], .fail e false⟩ : Inflow Byte Errno.drops) =
                some (.error e, ⟨[], .eof⟩) := rfl
            rw [retry_passes hn failed he]
            exact congrArg Prod.fst (retry_closed hn rfl)
  | cons a as ih =>
    obtain ⟨calls, rfl⟩ := Nat.exists_eq_add_one_of_ne_zero (Nat.ne_zero_of_lt hc)
    have hcalls : as.length + 1 < calls := Nat.lt_of_succ_lt_succ hc
    cases n with
    | zero => rfl
    | succ n =>
      cases a with
      | hiccup e he =>
        rw [retry_passes (Nat.succ_pos n) rfl he]
        exact ih hcalls
      | data b bs =>
        by_cases hb : bs.length < n + 1
        · have hlen : (b :: bs).length ≤ n + 1 := hb
          have took : Inflow.call (n + 1) (⟨.data b bs :: as, ending⟩ : Inflow Byte Errno.drops) =
              some (.ok (bs.length + 1), ⟨as, ending⟩) := by
            simp only [Inflow.call, Inflow.recv, Option.map_some, List.take_of_length_le hlen,
              List.drop_of_length_le hlen, Inflow.push, List.length_cons]
          rw [retry_moves took hb, Nat.add_sub_add_right, ih hcalls]
          simp only [Inflow.readFrom, hb, if_true]
        · have hlen : ((b :: bs).take (n + 1)).length = n + 1 := by
            rw [List.length_take, List.length_cons]
            omega
          have took : Inflow.call (n + 1) (⟨.data b bs :: as, ending⟩ : Inflow Byte Errno.drops) =
              some (.ok (n + 1), ⟨Inflow.push ((b :: bs).drop (n + 1)) as, ending⟩) := by
            simp only [Inflow.call, Inflow.recv, Option.map_some, hlen]
          obtain ⟨calls, rfl⟩ := Nat.exists_eq_add_one_of_ne_zero (Nat.ne_zero_of_lt hcalls)
          rw [retry_moves took (Nat.le_refl _), retry_done (by omega)]
          simp only [Inflow.readFrom, hb, if_false, readingValue]

theorem retry_write (sink : Sink Errno) (is : List (Intake Errno.drops)) (hc : is.length + 1 < calls) :
    (retry Outflow.send Errno.drops bytes calls n (⟨is, sink⟩ : Outflow Errno.drops)).1 =
      writingValue bytes (Outflow.writeFrom sink n is).1 := by
  induction is generalizing n calls with
  | nil =>
    obtain ⟨calls, rfl⟩ : ∃ k, calls = k + 2 := Nat.exists_eq_add_of_le' hc
    cases n with
    | zero => rfl
    | succ n =>
      have hn : 0 < n + 1 := Nat.succ_pos n
      cases sink with
      | accepts =>
        have took : Outflow.send (n + 1) (⟨[], .accepts⟩ : Outflow Errno.drops) =
            some (.ok (n + 1), ⟨[], .accepts⟩) := rfl
        rw [retry_moves took (Nat.le_refl _), retry_done (by omega)]
        rfl
      | blocks => exact retry_blocks hn rfl
      | fail e =>
        rw [Outflow.writeFrom]
        cases he : e.drops with
        | true => exact congrArg Prod.fst (retry_drops hn rfl he)
        | false => exact (FailsFor.now hn rfl).spins he _
  | cons i is ih =>
    obtain ⟨calls, rfl⟩ := Nat.exists_eq_add_one_of_ne_zero (Nat.ne_zero_of_lt hc)
    have hcalls : is.length + 1 < calls := Nat.lt_of_succ_lt_succ hc
    cases n with
    | zero => rfl
    | succ n =>
      cases i with
      | hiccup e he =>
        rw [retry_passes (Nat.succ_pos n) rfl he]
        exact ih hcalls
      | takes k =>
        cases k with
        | zero =>
          have closed : Outflow.send (n + 1) (⟨.takes 0 :: is, sink⟩ : Outflow Errno.drops) =
              some (.ok 0, ⟨is, sink⟩) := by
            simp only [Outflow.send, Nat.zero_min]
          exact congrArg Prod.fst (retry_closed (Nat.succ_pos n) closed)
        | succ k =>
          by_cases hk : k < n
          · have hmin : min (k + 1) (n + 1) = k + 1 := Nat.min_eq_left (Nat.succ_le_succ (Nat.le_of_lt hk))
            have took : Outflow.send (n + 1) (⟨.takes (k + 1) :: is, sink⟩ : Outflow Errno.drops) =
                some (.ok (k + 1), ⟨is, sink⟩) := by
              simp only [Outflow.send, hmin]
            rw [retry_moves took (Nat.succ_le_succ (Nat.le_of_lt hk)), Nat.add_sub_add_right, ih hcalls]
            simp only [Outflow.writeFrom, hk, if_true]
          · have hmin : min (k + 1) (n + 1) = n + 1 := Nat.min_eq_right (by omega)
            have took : Outflow.send (n + 1) (⟨.takes (k + 1) :: is, sink⟩ : Outflow Errno.drops) =
                some (.ok (n + 1), ⟨is, sink⟩) := by
              simp only [Outflow.send, hmin]
            obtain ⟨calls, rfl⟩ := Nat.exists_eq_add_one_of_ne_zero (Nat.ne_zero_of_lt hcalls)
            rw [retry_moves took (Nat.le_refl _), retry_done (by omega)]
            simp only [Outflow.writeFrom, hk, if_false, writingValue]

/-- What enough turns return is all that some number of turns can return. -/
theorem turns_iff {σ : Type} {call : Nat → σ → Option (Except Errno Nat × σ)} {s : σ} {k : Nat} {value : Option Int}
    (h : ∀ calls, k < calls → (retry call Errno.drops bytes calls left s).1 = value) :
    (∃ calls, (retry call Errno.drops bytes calls left s).1 = some v) ↔ value = some v := by
  constructor
  · rintro ⟨calls, hv⟩
    rw [← h (max calls (k + 1)) (by omega)]
    exact retry_mono hv (Nat.le_max_left _ _)
  · rintro rfl
    exact ⟨k + 1, h (k + 1) (Nat.lt_succ_self k)⟩

theorem retry_toNat {σ : Type} {call : Nat → σ → Option (Except Errno Nat × σ)} {s : σ} (hc : 0 < calls) :
    retry call Errno.drops bytes calls left s = retry call Errno.drops bytes calls left.toNat s := by
  obtain ⟨calls, rfl⟩ := Nat.exists_eq_add_one_of_ne_zero (Nat.ne_of_gt hc)
  by_cases hl : left > 0
  · rw [Int.toNat_of_nonneg (Int.le_of_lt hl)]
  · rw [retry_done hl, retry_done (by omega)]

theorem recvTurns_value (f : Inflow Byte Errno.drops) : (∃ calls, (recvTurns bytes calls f).1 = some v) ↔
    readingValue bytes (f.read bytes.toNat).1 = some v := by
  refine turns_iff (k := f.arrivals.length + 1) fun calls hc => ?_
  rw [retry_toNat (Nat.zero_lt_of_lt hc)]
  exact retry_read _ _ hc

theorem sendTurns_value (f : Outflow Errno.drops) : (∃ calls, (sendTurns bytes calls f).1 = some v) ↔
    writingValue bytes (f.write bytes.toNat).1 = some v := by
  refine turns_iff (k := f.intakes.length + 1) fun calls hc => ?_
  rw [retry_toNat (Nat.zero_lt_of_lt hc)]
  exact retry_write _ _ hc

variable (w : World) (s : Int)

theorem recvTurns_iff (buf : Buf) : (∃ calls, (recvTurns bytes calls (w.inflow s)).1 = some v) ↔
    ((pkoRecvBytes s buf bytes).run w).value.map Prod.fst = some v := by
  have hvalue : ((pkoRecvBytes s buf bytes).run w).value.map Prod.fst =
      readingValue bytes ((w.inflow s).read bytes.toNat).1 := by
    rw [pkoRecvBytes, Option.map_map]
    exact Option.map_id'
  rw [hvalue]
  exact recvTurns_value (w.inflow s)

theorem sendTurns_iff (buf : List Byte) : (∃ calls, (sendTurns bytes calls (w.outflow s)).1 = some v) ↔
    ((pkoSendBytes s buf bytes).run w).value = some v :=
  sendTurns_value (w.outflow s)

end Turns

def Errno.Transient (e : Errno) : Prop := e = .EINTR ∨ e = .EAGAIN

def RecvGivesUp (bytes : Int) (f : Inflow Byte Errno.drops) : Prop :=
  GivesUp Inflow.call Errno.drops Errno.Transient bytes f

def SendGivesUp (bytes : Int) (f : Outflow Errno.drops) : Prop :=
  GivesUp Outflow.send Errno.drops Errno.Transient bytes f

/-- On an error that stays, whatever was moved before, both loops give up
exactly when it is one of the three they know and nothing but `EINTR` and
`EAGAIN` has come in between. -/
theorem permanent_error_iff (e : Errno) :
    (∀ (f : Inflow Byte Errno.drops) (bytes : Int), f.ending = .fail e true → f.live.length < bytes →
      (RecvGivesUp bytes f ↔ e.drops = true ∧ ∀ x ∈ f.passing, x.Transient)) ∧
    ∀ (f : Outflow Errno.drops) (bytes : Int), f.sink = .fail e → .takes 0 ∉ f.intakes → f.room < bytes →
      (SendGivesUp bytes f ↔ e.drops = true ∧ ∀ x ∈ f.passing, x.Transient) := by
  constructor
  · intro f bytes hf hlt
    obtain ⟨n, rfl⟩ : ∃ n : Nat, bytes = n := ⟨bytes.toNat, by omega⟩
    exact (Inflow.failsFor hf (Int.ofNat_lt.mp hlt)).givesUp_iff Errno.Transient
  · intro f bytes hf hm hlt
    obtain ⟨n, rfl⟩ : ∃ n : Nat, bytes = n := ⟨bytes.toNat, by omega⟩
    exact (Outflow.failsFor hf hm (Int.ofNat_lt.mp hlt)).givesUp_iff Errno.Transient

theorem permanent_error_iff_reset :
    (RecvGivesUp 6 ⟨[.data 1 [2], .hiccup .EINTR rfl], .fail .ECONNRESET true⟩ ↔
      Errno.ECONNRESET.drops = true ∧ ∀ x ∈ [Errno.EINTR], x.Transient) ∧
    (SendGivesUp 10 ⟨[.takes 4, .hiccup .ETIMEDOUT rfl], .fail .ECONNRESET⟩ ↔
      Errno.ECONNRESET.drops = true ∧ ∀ x ∈ [Errno.ETIMEDOUT], x.Transient) :=
  ⟨(permanent_error_iff .ECONNRESET).1 ⟨[.data 1 [2], .hiccup .EINTR rfl], .fail .ECONNRESET true⟩ 6 rfl (by decide),
    (permanent_error_iff .ECONNRESET).2 ⟨[.takes 4, .hiccup .ETIMEDOUT rfl], .fail .ECONNRESET⟩ 10 rfl (by simp)
      (by decide)⟩

/-- A descriptor that was closed and set to -1 is retried for ever. -/
theorem closed_descriptor_spins : ¬∀ e : Errno,
    (∀ (f : Inflow Byte Errno.drops) (bytes : Int), f.ending = .fail e true → f.live.length < bytes →
      RecvGivesUp bytes f) ∧
    ∀ (f : Outflow Errno.drops) (bytes : Int), f.sink = .fail e → .takes 0 ∉ f.intakes → f.room < bytes →
      SendGivesUp bytes f := by
  intro h
  obtain ⟨⟨calls, v, hv, _⟩, _⟩ := (h .EBADF).1 (Sock.dead .EBADF).inflow 6 rfl (by decide)
  have hfails : FailsFor Inflow.call Errno.drops .EBADF 6 (Sock.dead .EBADF).inflow [] :=
    Inflow.failsFor (f := (Sock.dead .EBADF).inflow) rfl (by decide)
  rw [show (6 : Int) = (6 : Nat) from rfl, hfails.spins rfl] at hv
  cases hv

end Pksh
