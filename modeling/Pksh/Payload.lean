import Pksh.OneReply
import Pksh.Serving

/-! The payload behind a write request: what of it is taken off the link, what
of it reaches the file, and what the reply says. -/

namespace Pksh

open Wire Traced

theorem Accounted.pending {w w' : World} {as : List Act} {s : Int} (h : Accounted w as w')
    (hk : ∃ k, w.desc s = some (.sock k)) (hc : .close s ∉ as) :
    (∃ k, w'.desc s = some (.sock k)) ∧ taken s as ++ w'.pending s = w.pending s := by
  obtain ⟨k, hk⟩ := hk
  obtain ⟨d, hd, k', rfl, hl, _⟩ := h.kept s _ hk hc
  refine ⟨⟨k', hd⟩, ?_⟩
  rw [World.pending, World.inflow, World.sockAt_sock hd, World.pending, World.inflow,
    World.sockAt_sock hk]
  exact hl

/-- How many bytes a round of the payload loop asks for. -/
def segmentLength (bytesLeft : Int) : Nat := min packetMaxsize bytesLeft.toNat

def World.segment (w : World) (bytesLeft : Int) : List Byte :=
  (w.pending w.pkoSrvFd).take (segmentLength bytesLeft)

/-- One round of the payload loop: the segment does not come, its write is the
last one, or the loop goes round again. -/
inductive Round (fd : Int) (rounds : Nat) (bytesLeft : Int) (w : World) : Result World Act Int → Prop
  | short {v : World} (less : bytesLeft ≤ 0 ∨ (w.pending w.pkoSrvFd).length < segmentLength bytesLeft) :
      Round fd rounds bytesLeft w
        ⟨some bytesLeft, v, [.recv w.pkoSrvFd (w.segment bytesLeft), .store 0 (w.segment bytesLeft)]⟩
  | starved {v : World} (less : (w.pending w.pkoSrvFd).length < segmentLength bytesLeft) :
      Round fd rounds bytesLeft w
        ⟨none, v, [.recv w.pkoSrvFd (w.segment bytesLeft), .store 0 (w.segment bytesLeft), .starves w.pkoSrvFd]⟩
  | blocked {v : World} (pos : 0 < segmentLength bytesLeft)
      (full : (w.segment bytesLeft).length = segmentLength bytesLeft) :
      Round fd rounds bytesLeft w
        ⟨none, v, [.recv w.pkoSrvFd (w.segment bytesLeft), .store 0 (w.segment bytesLeft),
          .write fd (w.segment bytesLeft) none, .blocks fd]⟩
  | last {ret : Option Nat} {left : Int} {v : World} (pos : 0 < segmentLength bytesLeft)
      (full : (w.segment bytesLeft).length = segmentLength bytesLeft)
      (took : ∀ m, ret = some m → m ≤ segmentLength bytesLeft)
      (stops : ret = some (segmentLength bytesLeft) → bytesLeft ≤ segmentLength bytesLeft)
      (left_eq : left = bytesLeft - ret.getD 0) :
      Round fd rounds bytesLeft w
        ⟨some left, v, [.recv w.pkoSrvFd (w.segment bytesLeft),
          .store 0 (w.segment bytesLeft), .write fd (w.segment bytesLeft) ret]⟩
  | again {v : World} (pos : 0 < segmentLength bytesLeft)
      (full : (w.segment bytesLeft).length = segmentLength bytesLeft)
      (more : segmentLength bytesLeft < bytesLeft) (link : v.pkoSrvFd = w.pkoSrvFd)
      (rest : v.pending w.pkoSrvFd = (w.pending w.pkoSrvFd).drop (segmentLength bytesLeft)) :
      Round fd rounds bytesLeft w
        (((writeSegments fd rounds (bytesLeft - segmentLength bytesLeft)).run v).after
          [.recv w.pkoSrvFd (w.segment bytesLeft), .store 0 (w.segment bytesLeft),
            .write fd (w.segment bytesLeft) (some (segmentLength bytesLeft))])

/-- A write that returns takes no more than it was given; one that does not is
on record as taking nothing. -/
theorem sysWrite_cases (w : World) (fd : Int) (bs : List Byte) :
    ∃ ret : Option Nat, (∀ m, ret = some m → m ≤ bs.length) ∧
      (((sysWrite fd bs).run w).value = some ret ∧ ((sysWrite fd bs).run w).acts = [.write fd bs ret] ∨
        ret = none ∧ ((sysWrite fd bs).run w).value = none ∧
          ((sysWrite fd bs).run w).acts = [.write fd bs none, .blocks fd]) := by
  simp only [sysWrite]
  split
  · refine ⟨_, ?_, .inl ⟨rfl, rfl⟩⟩
    intro m hm
    obtain ⟨k, _, rfl⟩ := Option.map_eq_some_iff.mp hm
    exact Nat.min_le_right _ _
  · split
    · exact ⟨none, by simp, .inr ⟨rfl, rfl, rfl⟩⟩
    · rename_i r f hr
      refine ⟨_, ?_, .inl ⟨rfl, rfl⟩⟩
      intro m hm
      cases r with
      | error e => cases hm
      | ok k =>
        cases hm
        exact (Outflow.send_le hr)
  · exact ⟨none, by simp, .inl ⟨rfl, rfl⟩⟩

theorem sock_of_pending {w : World} {s : Int} (h : w.pending s ≠ []) : ∃ k, w.desc s = some (.sock k) := by
  by_contra hn
  refine h ?_
  rw [World.pending, World.inflow, World.sockAt]
  split
  · exact absurd ⟨_, ‹_›⟩ hn
  · rfl
  · rfl
  · rfl

theorem writeSegments_round (fd : Int) (rounds : Nat) (bytesLeft : Int) (w : World) :
    Round fd rounds bytesLeft w ((writeSegments fd (rounds + 1) bytesLeft).run w) := by
  have hb : (if bytesLeft > packetMaxsize then (packetMaxsize : Int) else bytesLeft) =
      if bytesLeft ≤ 0 then bytesLeft else (segmentLength bytesLeft : Int) := by
    have : packetMaxsize = 4096 := rfl
    rw [segmentLength]
    split
    · split <;> omega
    · split <;> omega
  rw [writeSegments]
  simp only [Prog.run_bind, Prog.run_get, Result.andThen_mk_some, hb]
  by_cases hneg : bytesLeft ≤ 0
  · have hz : bytesLeft.toNat = segmentLength bytesLeft := by rw [segmentLength]; omega
    have hr := pkoRecvBytes_full w w.pkoSrvFd (.recvPacket 0)
      (show bytesLeft.toNat ≤ (w.pending w.pkoSrvFd).length by omega)
    rw [if_pos hneg, hr, Result.andThen_mk_some, if_pos hneg, hz]
    exact .short (w := w) (.inl hneg)
  · have hpos : 0 < segmentLength bytesLeft := by
      have : packetMaxsize = 4096 := rfl
      rw [segmentLength]
      omega
    rw [if_neg hneg]
    by_cases hlen : (w.pending w.pkoSrvFd).length < segmentLength bytesLeft
    · have hseg : w.segment bytesLeft = w.pending w.pkoSrvFd := List.take_of_length_le (Nat.le_of_lt hlen)
      have hr := pkoRecvBytes_short w w.pkoSrvFd (.recvPacket 0)
        (show _ < ((segmentLength bytesLeft : Int)).toNat from hlen)
      rw [hr, ← hseg]
      cases hs : (w.inflow w.pkoSrvFd).stop with
      | full => exact absurd hs Inflow.stop_ne_full
      | eof => exact .short (.inr hlen)
      | dropped e => exact .short (.inr hlen)
      | never => exact .starved hlen
    · have hle := Nat.le_of_not_lt hlen
      have hfull : (w.segment bytesLeft).length = segmentLength bytesLeft := by
        rw [World.segment, List.length_take, Nat.min_eq_left hle]
      have hr := pkoRecvBytes_full w w.pkoSrvFd (.recvPacket 0)
        (show ((segmentLength bytesLeft : Int)).toNat ≤ _ from hle)
      rw [Int.toNat_natCast, ← World.segment] at hr
      have hacc := (pkoRecvBytes w.pkoSrvFd (.recvPacket 0) (segmentLength bytesLeft)).keeps w
      rw [hr] at hacc
      have hk := sock_of_pending (List.ne_nil_of_length_pos (Nat.lt_of_lt_of_le hpos hle))
      obtain ⟨hk1, _⟩ := hacc.pending hk (by simp [Buf.stored])
      have hslice : (w.received w.pkoSrvFd (.recvPacket 0) (segmentLength bytesLeft)).recvPacket.slice 0
          (segmentLength bytesLeft) = w.segment bytesLeft := by
        rw [received_vars, Int.toNat_natCast]
        exact Mem.slice_store_eq w.recvPacket 0 hfull
      have hrest := received_pending w w.pkoSrvFd (.recvPacket 0) (segmentLength bytesLeft)
      rw [Int.toNat_natCast] at hrest
      have hlink : (w.received w.pkoSrvFd (.recvPacket 0) (segmentLength bytesLeft)).pkoSrvFd = w.pkoSrvFd := by
        rw [received_vars]
        rfl
      rw [hr, Result.andThen_mk_some, if_neg (by omega)]
      simp only [Prog.run_bind, loadPacket, Prog.run_get, Result.andThen_mk_some, Prog.run_pure,
        Result.after_mk, Int.toNat_natCast, hslice]
      generalize w.received w.pkoSrvFd (.recvPacket 0) (segmentLength bytesLeft) = v at hk1 hrest hlink
      have hkeeps := (sysWrite fd (w.segment bytesLeft)).keeps v
      have hvars := sysWrite_vars v fd (w.segment bytesLeft)
      obtain ⟨ret, hret, ⟨hv, ha⟩ | ⟨rfl, hv, ha⟩⟩ := sysWrite_cases v fd (w.segment bytesLeft)
      · rw [hfull] at hret
        rw [Result.andThen_some _ hv, ha]
        cases ret with
        | none => exact .last hpos hfull hret (by simp) (by simp)
        | some m =>
          by_cases hm : m < segmentLength bytesLeft
          · simp only [if_pos (Int.ofNat_lt.mpr hm)]
            exact .last hpos hfull hret (fun he => absurd (Option.some.inj he) (Nat.ne_of_lt hm)) rfl
          · obtain rfl : m = segmentLength bytesLeft := Nat.le_antisymm (hret m rfl) (Nat.le_of_not_lt hm)
            simp only [if_neg (Int.lt_irrefl _)]
            by_cases hmore : bytesLeft - segmentLength bytesLeft > 0
            · rw [if_pos hmore]
              refine .again hpos hfull (by omega) ?_ ?_
              · rw [hvars]
                exact hlink
              · rw [ha] at hkeeps
                exact (hkeeps.pending hk1 (by simp)).2.trans hrest
            · rw [if_neg hmore]
              exact .last hpos hfull hret (fun _ => by omega) rfl
      · rw [Result.andThen_none _ hv, ha]
        exact .blocked hpos hfull

end Pksh
