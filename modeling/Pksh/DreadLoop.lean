import Pksh.Legible
import Pksh.Verdicts

/-! The loop over `ps2netfs_req_dread` on a stream that comes to an end: the
replies it goes through, and what it prints of them. -/

namespace Pksh

open Wire Traced

/-- The replies come to one that ends the loop, behind whole ones that are
printed. The flag tells whether the connection is still open then. -/
inductive Stops (len : Nat) (pktType : Word) : Listening → List (List Byte) → Bool → Prop
  | closed {x : Listening} (judged : x.verdict len pktType = .closed) : Stops len pktType x [] false
  | refused {x : Listening} (judged : x.verdict len pktType = .refused) : Stops len pktType x [] true
  | last {x : Listening} (judged : x.verdict len pktType = .passed) (nonpos : x.next.field ≤ 0) :
      Stops len pktType x [] true
  | more {x : Listening} {rs : List (List Byte)} {b : Bool} (judged : x.verdict len pktType = .passed)
      (pos : 0 < x.next.field) (whole : x.asked ≤ x.stream.length) (rest : Stops len pktType x.next rs b) :
      Stops len pktType x (x.stream.take x.asked :: rs) b

namespace Stops

variable {len : Nat} {pktType : Word} {x : Listening} {rs rs' : List (List Byte)} {b b' : Bool}

theorem unique (h : Stops len pktType x rs b) (h' : Stops len pktType x rs' b') : rs = rs' ∧ b = b' := by
  induction h generalizing rs' b' with
  | closed judged =>
    cases h' with
    | closed => exact ⟨rfl, rfl⟩
    | refused judged' => cases judged.symm.trans judged'
    | last judged' => cases judged.symm.trans judged'
    | more judged' => cases judged.symm.trans judged'
  | refused judged =>
    cases h' with
    | closed judged' => cases judged.symm.trans judged'
    | refused => exact ⟨rfl, rfl⟩
    | last judged' => cases judged.symm.trans judged'
    | more judged' => cases judged.symm.trans judged'
  | last judged nonpos =>
    cases h' with
    | closed judged' => cases judged.symm.trans judged'
    | refused judged' => cases judged.symm.trans judged'
    | last => exact ⟨rfl, rfl⟩
    | more _ pos => exact absurd pos (Int.not_lt.mpr nonpos)
  | more judged pos whole rest ih =>
    cases h' with
    | closed judged' => cases judged.symm.trans judged'
    | refused judged' => cases judged.symm.trans judged'
    | last _ nonpos => exact absurd pos (Int.not_lt.mpr nonpos)
    | more _ _ _ rest' =>
      obtain ⟨rfl, rfl⟩ := ih rest'
      exact ⟨rfl, rfl⟩

theorem front (h : Stops len pktType x rs b) : rs.flatten <+: x.stream := by
  induction h with
  | closed => exact List.nil_prefix
  | refused => exact List.nil_prefix
  | last => exact List.nil_prefix
  | @more x rs b judged pos whole rest ih =>
    have hcut : x.stream = x.stream.take x.asked ++ x.next.stream := (List.take_append_drop _ _).symm
    rw [List.flatten_cons]
    conv_rhs => rw [hcut]
    exact (List.prefix_append_right_inj _).mpr ih

end Stops

theorem Listening.pktHdrSize_le_asked (x : Listening) : pktHdrSize ≤ x.asked := Nat.le_add_right _ _

section Whole

variable {x : Listening} {len : Nat} {pktType : Word}

theorem wholeReply_of_passed (judged : x.verdict len pktType = .passed) (whole : x.asked ≤ x.stream.length) :
    WholeReply pktType (x.stream.take x.asked) := by
  have h6 := Nat.le_trans x.pktHdrSize_le_asked whole
  obtain ⟨h0, h4⟩ := header_store x.buffer h6
  have hlen : x.hlen = announced x.stream := congrArg BitVec.toNat h4
  have hl : (x.stream.take x.asked).length = x.asked := List.length_take_of_le whole
  have ht : ofBe32 x.stream = pktType := by
    rcases Listening.verdict_passed_iff.mp judged with hs | hs
    · exact absurd hs.1 (Nat.not_lt.mpr h6)
    · exact h0.symm.trans hs.1
  refine ⟨by rw [hl]; exact x.pktHdrSize_le_asked, ?_, ?_⟩
  · rw [ofBe32_take _ (Nat.le_trans (by decide) x.pktHdrSize_le_asked), ht]
  · rw [hl, announced_take x.pktHdrSize_le_asked, Listening.asked, hlen]

theorem Stops.whole {rs : List (List Byte)} {b : Bool} (h : Stops len pktType x rs b) :
    ∀ r ∈ rs, WholeReply pktType r := by
  induction h with
  | closed => exact nofun
  | refused => exact nofun
  | last => exact nofun
  | more judged pos whole rest ih => exact List.forall_mem_cons.mpr ⟨wholeReply_of_passed judged whole, ih⟩

theorem copied_of_next : Copied (x.stream.take x.asked) (.ofReply x.next.buffer) :=
  ⟨x.next.buffer, Mem.slice_store_eq x.buffer 0 rfl, rfl⟩

end Whole

section Dread

variable (fd : Word) (rounds : Nat) (w : World)

/-- The request in a call of `ps2netfs_req_dread`. -/
def dreadCall : Io (Option Mem) :=
  netfsCall (reqHdr ps2netfsDreadCmd pktDreadReqSize ++ [(6, le32 (htonl fd))]) (sendRequest pktDreadReqSize)
    pktDreadRlySize ps2netfsDreadRly

def entryAhead (response : Option Mem) (shown : List Printed) : List Printed :=
  (response.map Dirent.ofReply).toList.map .entry ++ shown

theorem showEntries_step : (showEntries fd (rounds + 1)).run w =
    ((dreadCall fd).run w).andThen fun response v =>
      if 0 < retval response then
        ((showEntries fd rounds).run v).andThen fun shown u => ⟨some (entryAhead response shown), u, []⟩
      else ⟨some [], v, []⟩ := by
  have hrun : (ps2netfsReqDread fd).run w = _ := Prog.run_bind_pure _ _ w
  rw [showEntries, Prog.run_bind, hrun]
  change Result.andThen ⟨((dreadCall fd).run w).value.map _, ((dreadCall fd).run w).state, ((dreadCall fd).run w).acts⟩ _ = _
  obtain ⟨_ | response, v, as⟩ := (dreadCall fd).run w
  · rfl
  · rw [Option.map_some, Result.andThen_mk_some, Result.andThen_mk_some]
    by_cases hpos : 0 < retval response
    · rw [if_pos hpos]
      simp only [if_pos hpos]
      rfl
    · rw [if_neg hpos]
      simp only [if_neg hpos]
      rfl

variable {w}

theorem showEntries_ends (hw : w.Ends) (h : w.listening.verdict pktDreadRlySize ps2netfsDreadRly ≠ .passed) :
    ∃ v as, (w.listening.verdict pktDreadRlySize ps2netfsDreadRly = .refused → v.Ends) ∧
      (w.listening.verdict pktDreadRlySize ps2netfsDreadRly = .closed → v.ps2NetfsFd = -1) ∧
      ∀ rounds, (showEntries fd (rounds + 1)).run w = ⟨some [], v, as⟩ := by
  have hc : Called pktDreadRlySize ps2netfsDreadRly w ((dreadCall fd).run w) := called _ _ _ _ hw
  have hstep := fun rounds => showEntries_step fd rounds w
  generalize (dreadCall fd).run w = r at hc hstep
  have hnone : ¬0 < retval none := by decide
  cases hc with
  | @closed v as judged shut =>
    refine ⟨v, as, fun hr => absurd (judged.symm.trans hr) nofun, fun _ => shut, fun rounds => (hstep rounds).trans ?_⟩
    rw [Result.andThen_mk_some, if_neg hnone, Result.after_mk, List.append_nil]
  | @refused v as judged ends =>
    refine ⟨v, as, fun _ => ends, fun hr => absurd (judged.symm.trans hr) nofun, fun rounds => (hstep rounds).trans ?_⟩
    rw [Result.andThen_mk_some, if_neg hnone, Result.after_mk, List.append_nil]
  | passed judged => exact absurd judged h

/-- A reply that passes is printed, and the next one asked for, as long as the
field in the buffer is positive. -/
theorem showEntries_goes (hw : w.Ends) (h : w.listening.verdict pktDreadRlySize ps2netfsDreadRly = .passed) :
    ∃ v as, v.Ends ∧ v.listening = w.listening.next ∧ ∀ rounds, (showEntries fd (rounds + 1)).run w =
      if 0 < w.listening.next.field then
        (((showEntries fd rounds).run v).andThen fun shown u =>
          ⟨some (.entry (.ofReply w.listening.next.buffer) :: shown), u, []⟩).after as
      else ⟨some [], v, as⟩ := by
  have hc : Called pktDreadRlySize ps2netfsDreadRly w ((dreadCall fd).run w) := called _ _ _ _ hw
  have hstep := fun rounds => showEntries_step fd rounds w
  generalize (dreadCall fd).run w = r at hc hstep
  cases hc with
  | closed judged => exact absurd (h.symm.trans judged) nofun
  | refused judged => exact absurd (h.symm.trans judged) nofun
  | @passed v as judged ends netfs next got =>
    have hfield : retval (some v.recvPacket) = w.listening.next.field := by
      rw [← next]
      rfl
    have hbuf : v.recvPacket = w.listening.next.buffer := congrArg Listening.buffer next
    refine ⟨v, as, ends, next, fun rounds => (hstep rounds).trans ?_⟩
    rw [Result.andThen_mk_some, hfield]
    by_cases hpos : 0 < w.listening.next.field
    · rw [if_pos hpos, if_pos hpos, ← hbuf]
      rfl
    · rw [if_neg hpos, if_neg hpos, Result.after_mk, List.append_nil]

end Dread

section Loop

variable {fd : Word} {x : Listening} {rs : List (List Byte)} {b : Bool} {w : World} {rounds : Nat}

/-- With a round for every byte of the stream the loop comes to the end of the
replies, and what it prints was copied out of them. -/
theorem showEntries_stops (fd : Word) (h : Stops pktDreadRlySize ps2netfsDreadRly x rs b) (hw : w.Ends) (hx : w.listening = x)
    (hr : x.stream.length < rounds) :
    ∃ v as ds, (showEntries fd rounds).run w = ⟨some (ds.map .entry), v, as⟩ ∧ List.Forall₂ Copied rs ds ∧
      (b = true → v.Ends) ∧ (b = false → v.ps2NetfsFd = -1) := by
  induction h generalizing w rounds with
  | @closed x judged =>
    obtain ⟨rounds, rfl⟩ := Nat.exists_eq_add_one_of_ne_zero (Nat.ne_zero_of_lt hr)
    rw [← hx] at judged
    obtain ⟨v, as, _, hshut, hrun⟩ := showEntries_ends fd hw (by rw [judged]; nofun)
    exact ⟨v, as, [], hrun rounds, .nil, nofun, fun _ => hshut judged⟩
  | @refused x judged =>
    obtain ⟨rounds, rfl⟩ := Nat.exists_eq_add_one_of_ne_zero (Nat.ne_zero_of_lt hr)
    rw [← hx] at judged
    obtain ⟨v, as, hends, _, hrun⟩ := showEntries_ends fd hw (by rw [judged]; nofun)
    exact ⟨v, as, [], hrun rounds, .nil, fun _ => hends judged, nofun⟩
  | @last x judged nonpos =>
    obtain ⟨rounds, rfl⟩ := Nat.exists_eq_add_one_of_ne_zero (Nat.ne_zero_of_lt hr)
    rw [← hx] at judged nonpos
    obtain ⟨v, as, hends, _, hrun⟩ := showEntries_goes fd hw judged
    refine ⟨v, as, [], ?_, .nil, fun _ => hends, nofun⟩
    rw [hrun rounds, if_neg (Int.not_lt.mpr nonpos), List.map_nil]
  | @more x rs b judged pos whole rest ih =>
    obtain ⟨rounds, rfl⟩ := Nat.exists_eq_add_one_of_ne_zero (Nat.ne_zero_of_lt hr)
    have hlt : x.next.stream.length < rounds := by
      have h6 : 6 ≤ x.asked := x.pktHdrSize_le_asked
      rw [Listening.next, Listening.recv, List.length_drop]
      omega
    subst hx
    obtain ⟨v, as, hends, hl, hrun⟩ := showEntries_goes fd hw judged
    obtain ⟨u, bs, ds, hu, hcopied, hopen⟩ := ih hends hl hlt
    refine ⟨u, as ++ bs, .ofReply w.listening.next.buffer :: ds, ?_, .cons (copied_of_next) hcopied, hopen⟩
    rw [hrun rounds, if_pos pos, hu, Result.andThen_mk_some, Result.after_mk, Result.after_mk, List.append_nil, List.map_cons]

theorem next_of_cut {len : Nat} {pktType : Word} (judged : x.verdict len pktType = .passed)
    (cut : x.stream.length < x.asked) :
    x.next.verdict len pktType = .passed ∧ x.next.next.field = x.next.field ∧ x.next.stream = [] := by
  have hstream : x.next.stream = [] := List.drop_of_length_le (Nat.le_of_lt cut)
  have hending : x.next.ending = x.ending.afterFail := if_neg (Nat.not_le.mpr cut)
  have hbuffer : ∀ n, (x.next.recv 0 n).buffer = x.next.buffer := by
    intro n
    rw [Listening.recv, hstream, List.take_nil]
    change x.next.buffer.store 0 [] = _
    exact Mem.store_nil _ _
  have hfield : x.next.next.field = x.next.field := by
    have hb : x.next.next.buffer = x.next.buffer := hbuffer _
    rw [Listening.field, Listening.field, hb]
  refine ⟨?_, hfield, hstream⟩
  rw [Listening.verdict_passed_iff, hstream]
  by_cases heof : x.next.stop = .eof
  · exact .inl ⟨by decide, heof⟩
  · have hsticky : x.stop ≠ .eof := by
      intro hs
      refine heof ?_
      rw [Listening.stop, hending, stop_afterFail_eof hs]
    have hmore : x.next.buffer = x.headed.buffer.store pktHdrSize ((x.stream.drop pktHdrSize).take (x.hlen - pktHdrSize)) :=
      (Mem.store_take_drop _ _ _ _).symm
    have hword : ntohl (x.next.headed.buffer.word 0) = ntohl (x.headed.buffer.word 0) := by
      rw [Listening.headed, hbuffer, hmore, Mem.ntohl_word, Mem.ntohl_word, Mem.slice_store_disjoint (.inl (by decide))]
    have hhlen : x.next.hlen = x.hlen := by
      rw [Listening.hlen, Listening.headed, hbuffer, hmore, Mem.ntohs_half, Mem.slice_store_disjoint (.inl (by decide)),
        ← Mem.ntohs_half]
      rfl
    obtain ⟨ht, hl, h6, _⟩ := (Listening.verdict_passed_iff.mp judged).resolve_left fun hs => hsticky hs.2
    refine .inr ⟨hword.trans ht, hhlen.trans_le hl, fun h => h6 (hhlen.symm.trans h), fun hcut => heof ?_⟩
    have hagain : x.next.headed.ending = x.next.ending := by
      have hz : ¬pktHdrSize ≤ ([] : List Byte).length := by decide
      rw [Listening.headed, Listening.recv, hstream, if_neg hz, hending, afterFail_idem]
    exact (congrArg (Ending.stop Errno.drops) hagain).symm.trans hcut.2

theorem showEntries_endless (h : ∀ rs b, ¬Stops pktDreadRlySize ps2netfsDreadRly w.listening rs b) (hw : w.Ends) :
    ((showEntries fd rounds).run w).value = none := by
  induction rounds generalizing w with
  | zero => rfl
  | succ rounds ih =>
    have judged : w.listening.verdict pktDreadRlySize ps2netfsDreadRly = .passed := by
      cases hv : w.listening.verdict pktDreadRlySize ps2netfsDreadRly with
      | closed => exact absurd (.closed hv) (h [] false)
      | refused => exact absurd (.refused hv) (h [] true)
      | passed => rfl
    have pos : 0 < w.listening.next.field := Int.lt_of_not_ge fun hn => h [] true (.last judged hn)
    obtain ⟨v, as, hends, hl, hrun⟩ := showEntries_goes fd hw judged
    rw [hrun rounds, if_pos pos, Result.after_value, Result.andThen_none]
    refine ih ?_ hends
    rw [hl]
    intro rs b hs
    by_cases whole : w.listening.asked ≤ w.listening.stream.length
    · exact h _ b (.more judged pos whole hs)
    · obtain ⟨hj, hf, he⟩ := next_of_cut judged (Nat.lt_of_not_le whole)
      cases hs with
      | closed judged' => rw [hj] at judged'; cases judged'
      | refused judged' => rw [hj] at judged'; cases judged'
      | last _ nonpos =>
        rw [hf] at nonpos
        exact absurd pos (Int.not_lt.mpr nonpos)
      | more _ _ whole' =>
        rw [he] at whole'
        exact absurd (Nat.le_trans w.listening.next.pktHdrSize_le_asked whole') (by decide)

end Loop

end Pksh
