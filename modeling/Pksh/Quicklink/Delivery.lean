import Pksh.Lib.Fair
import Pksh.Quicklink.Lockstep
import Pksh.Quicklink.Work

/-! Two hosts that get their turns come to the end of their packets. -/

namespace Naplink

open Wire Traced Pksh

/-- An answer that lets a host go on: the link is ready, a message is taken,
and a transfer moves something. -/
structure Usb.Ready (u : Usb) (n : Net) : Prop where
  honest : u.Honest n
  status : ∃ b, u.status = some b ∧ b &&& txRdyBit ≠ 0
  taken : u.taken = true
  moved : 0 < u.moved

section Progress

variable {x : Side} {u : Usb} {n : Net}

theorem Usb.Ready.sees_rdy (h : u.Ready n) : u.sees txRdyBit = true := by
  obtain ⟨b, hb, hr⟩ := h.status
  simpa [Usb.sees, checkQlf, hb] using hr

theorem Usb.Ready.sees_req (h : u.Ready n) (hr : n.req = true) : u.sees txReqBit = true := by
  obtain ⟨b, hb, -⟩ := h.status
  have := (h.honest b hb).1.mpr hr
  simpa [Usb.sees, checkQlf, hb] using this

theorem Usb.Ready.sees_done (h : u.Ready n) (hd : n.done = true) : u.sees txCBit = true := by
  obtain ⟨b, hb, -⟩ := h.status
  have := (h.honest b hb).2.mpr hd
  simpa [Usb.sees, checkQlf, hb] using this

theorem Usb.Ready.misses_req (h : u.Ready n) (hr : n.req = false) : u.misses txReqBit = true := by
  obtain ⟨b, hb, -⟩ := h.status
  have hz : b &&& txReqBit = 0 := by
    by_contra hne
    exact absurd ((h.honest b hb).1.mp hne) (by simp [hr])
  simp [Usb.misses, checkQlf, hb, hz]

theorem Net.lower_of_pc (h : ((n.advance x u).party x).pc ≠ (n.party x).pc) : (n.advance x u).work < n.work :=
  (n.advance_work x u).resolve_left fun he => h (by rw [he])

theorem Net.lower_of_pipe {y : Side} (h : (n.advance x u).pipe y ≠ n.pipe y) : (n.advance x u).work < n.work :=
  (n.advance_work x u).resolve_left fun he => h (by rw [he])

/-- A host with a packet to send can go on until it has asked for the transfer. -/
theorem Begins.able {p : Raw} {ts : List Transfer}
    (h : Begins x (⟨x, p⟩ :: ts) (n.party x).pc (n.party x).todo false) (hu : u.Ready n) :
    (n.advance x u).work < n.work := by
  generalize hpc : (n.party x).pc = pc at h
  generalize ht : (n.party x).todo = todo at h
  generalize hts : (⟨x, p⟩ :: ts : List Transfer) = all at h
  refine Net.lower_of_pc ?_
  cases h with
  | idle =>
    subst hts
    simp [Net.advance, hpc, Net.call, ht, jobs_cons_self]
  | awaitRdy q qs => simp [Net.advance, hpc, hu.sees_rdy]
  | setReq q qs => simp [Net.advance, hpc, hu.taken]
  | awaitReq q qs => exact absurd (congrArg Transfer.sender (List.cons.inj hts).1) x.ne_other

theorem Begins.able_receiver {p : Raw} {ts : List Transfer}
    (h : Begins x (⟨x.other, p⟩ :: ts) (n.party x).pc (n.party x).todo false) (hr : n.req = true) (hu : u.Ready n) :
    (n.advance x u).work < n.work := by
  generalize hpc : (n.party x).pc = pc at h
  generalize ht : (n.party x).todo = todo at h
  generalize hts : (⟨x.other, p⟩ :: ts : List Transfer) = all at h
  refine Net.lower_of_pc ?_
  cases h with
  | idle =>
    subst hts
    simp [Net.advance, hpc, Net.call, ht, jobs_cons_other]
  | awaitReq q qs => simp [Net.advance, hpc, hu.sees_req hr]
  | awaitRdy q qs | setReq q qs => exact absurd (congrArg Transfer.sender (List.cons.inj hts).1) x.other_ne

theorem Writes.able {p : Raw} (h : Writes p (n.party x).pc) (hr : n.req = false) (hu : u.Ready n) :
    (n.advance x u).work < n.work := by
  have hne : ∀ {left : List Byte}, left ≠ [] → left.take u.moved ≠ [] := by
    intro left hl ht
    rcases List.take_eq_nil_iff.mp ht with h | h
    · exact absurd h hu.moved.ne'
    · exact hl h
  generalize hpc : (n.party x).pc = pc at h
  cases h with
  | awaitClear =>
    refine Net.lower_of_pc ?_
    simp [Net.advance, hpc, hu.misses_req hr]
  | writeHeader left hl =>
    refine Net.lower_of_pipe (y := x) ?_
    simpa [Net.advance, hpc] using hne hl
  | writeBody left hl =>
    refine Net.lower_of_pipe (y := x) ?_
    simpa [Net.advance, hpc] using hne hl
  | setDone =>
    refine Net.lower_of_pc ?_
    simp [Net.advance, hpc, hu.taken]

theorem Net.read_lower {k : Nat} {pc : Pc} (hk : 0 < k) (hp : n.pipe x.other ≠ []) :
    ((n.drop x.other k).goto x pc).pipe x.other ≠ n.pipe x.other := by
  intro h
  have := congrArg List.length h
  have := List.length_pos_of_ne_nil hp
  simp only [Net.goto_pipe, Net.drop_pipe, List.length_drop] at *
  omega

theorem Listens.able {p : Raw} (h : Listens (n.party x).pc) (hs : (n.party x).pc.held ++ n.pipe x.other = p.wire)
    (hsound : (n.party x).pc.sound) (hd : n.done = true) (hu : u.Ready n) : (n.advance x u).work < n.work := by
  generalize hpc : (n.party x).pc = pc at h hs hsound
  cases h with
  | readHeader ph =>
    have hlt : ph.length < 8 := hsound
    have hp : n.pipe x.other ≠ [] := by
      intro hp
      have := congrArg List.length hs
      simp only [Pc.held, hp, Raw.wire, List.length_append, p.header_length, List.length_nil] at this
      omega
    refine Net.lower_of_pipe (y := x.other) ?_
    simp only [Net.advance, hpc]
    exact Net.read_lower (Nat.lt_min.mpr ⟨hu.moved, by omega⟩) hp
  | readBody ph pb =>
    have hlt := hsound.2
    have hp : n.pipe x.other ≠ [] := by
      intro hp
      simp only [Pc.held, hp, List.append_nil, Raw.wire] at hs
      obtain ⟨h1, h2⟩ := List.append_inj hs (hsound.1.trans p.header_length.symm)
      rw [h1, h2, headerSize_header] at hlt
      exact Nat.lt_irrefl _ hlt
    refine Net.lower_of_pipe (y := x.other) ?_
    simp only [Net.advance, hpc]
    exact Net.read_lower (Nat.lt_min.mpr ⟨hu.moved, by omega⟩) hp
  | awaitDone ph pb =>
    refine Net.lower_of_pc ?_
    simp [Net.advance, hpc, hu.sees_done hd]

theorem Lockstep.able {script : List Transfer} (h : Lockstep script n) (hn : ¬n.Finished) :
    ∃ y, ∀ u, Usb.Ready u n → (n.advance y u).work < n.work := by
  obtain ⟨x, ts, -, hs⟩ := h.stage
  cases hs with
  | finished hx hy hr hd hp => exact absurd (Stage.finished hx hy hr hd hp).finished_all hn
  | asking p ts hx hy hd hp =>
    cases hr : n.req with
    | false => exact ⟨x, fun u hu => Begins.able (hr ▸ hx) hu⟩
    | true =>
      have hy' : Begins x.other (⟨x.other.other, p⟩ :: ts) (n.party x.other).pc (n.party x.other).todo false := by
        rwa [Side.other_other]
      exact ⟨x.other, fun u hu => hy'.able_receiver hr hu⟩
  | asked p ts hx hxt hy hyt hr hd hp =>
    exact ⟨x.other, fun u hu => Net.lower_of_pc (by simp [Net.advance, hy, hu.taken])⟩
  | moving p ts hx hxt hy hyt hr hd hp hs => exact ⟨x, fun u hu => hx.able hr hu⟩
  | moved p ts hx hy hyt hd hp hs =>
    refine ⟨x.other, fun u hu => ?_⟩
    rcases hy with hy | ⟨ph, pb, hy⟩
    · exact hy.able (p := p) (by rwa [Side.other_other]) (h.sound _) hd hu
    · exact Net.lower_of_pc (by simp [Net.advance, hy, hu.taken])

end Progress

/-- An endless run of two hosts that exchange the packets of `script`, in which
the polls are honest and no bulk call is cut short. -/
structure Run (script : List Transfer) where
  state : Nat → Net
  turn : Nat → Side × Usb
  zero : state 0 = Net.start (jobs script)
  succ : ∀ k, state (k + 1) = (state k).step (turn k).1 (turn k).2
  honest : ∀ k, (turn k).2.Honest (state k)
  whole : ∀ k, (turn k).2.cut = false

namespace Run

variable {script : List Transfer} (r : Run script)

theorem succ_advance (k : Nat) : r.state (k + 1) = (r.state k).advance (r.turn k).1 (r.turn k).2 :=
  (r.succ k).trans (Net.step_of_whole (r.whole k) _ _)

/-- Each host gets answers that let it go on again and again. -/
def Fair : Prop := ∀ x k, ∃ m, k ≤ m ∧ (r.turn m).1 = x ∧ (r.turn m).2.Ready (r.state m)

theorem lockstep (k : Nat) : Lockstep script (r.state k) := by
  induction k with
  | zero =>
    rw [r.zero]
    exact .start script
  | succ k ih =>
    rw [r.succ_advance]
    exact ih.advance (r.honest k) _

theorem carries (k : Nat) (x : Side) : Net.Carries x (sends (jobs script x)) (r.state k) := by
  induction k with
  | zero =>
    rw [r.zero]
    exact .start (jobs script) x
  | succ k ih =>
    rw [r.succ_advance]
    exact ih.advance _ _

end Run

theorem sends_jobs (script : List Transfer) (x : Side) :
    sends (jobs script x) = (script.filter (·.sender = x)).map (·.packet) := by
  induction script with
  | nil => rfl
  | cons t script ih =>
    have hc : sends (jobs (t :: script) x) = (t.job x).packet?.toList ++ sends (jobs script x) := by
      cases h : t.job x <;> simp [sends, jobs, h, Job.packet?, List.filterMap_cons]
    rw [hc, ih, Transfer.job, List.filter_cons]
    by_cases h : t.sender = x
    · simp [h, Job.packet?]
    · simp [h, Job.packet?]

theorem Lockstep.pipe_of_finished {script : List Transfer} {n : Net} (h : Lockstep script n) (hn : n.Finished)
    (y : Side) : n.pipe y = [] := by
  obtain ⟨x, ts, -, hs⟩ := h.stage
  have hidle := (hn x.other).1
  cases hs with
  | finished hx hy hr hd hp => exact hp y
  | asking p ts hx hy hd hp => exact hp y
  | asked p ts hx hxt hy hyt hr hd hp => exact hp y
  | moving p ts hx hxt hy hyt hr hd hp hs =>
    rw [hidle] at hy
    cases hy
  | moved p ts hx hy hyt hd hp hs =>
    rw [hidle] at hy
    rcases hy with hy | ⟨ph, pb, hy⟩
    · cases hy
    · cases hy

/-- A fair run comes to its end, and then each host has received the packets of
the other one, all of them and in their order. -/
theorem fair_run_delivers {script : List Transfer} (r : Run script) (hf : r.Fair) :
    ∃ k, ∀ m, k ≤ m → (r.state m).Finished ∧ ∀ x, ((r.state m).party x.other).got =
      (script.filter (·.sender = x)).map fun t => (t.packet.header, t.packet.body) := by
  obtain ⟨k, hk⟩ := done_of_fair (fun m x => (r.turn m).1 = x ∧ (r.turn m).2.Ready (r.state m)) Net.work Net.Finished
    (fun k => by rw [r.succ_advance]; exact Net.advance_work _ _ _)
    (fun k hn => ((r.lockstep k).able hn).imp fun y hy m hm ht => by
      rw [r.succ_advance, hm, ht.1]
      exact hy _ (hm ▸ ht.2))
    (fun k hd => by rw [r.succ_advance, hd.advance]; exact hd) hf
  refine ⟨k, fun m hm => ⟨hk m hm, fun x => ?_⟩⟩
  have hfin := hk m hm
  have hc := r.carries m x
  obtain ⟨back, hmap, hrest⟩ := whole_prefix hc.whole hc.stream
  have hback : back = [] := by
    rw [(hfin x.other).1, Net.outgoing, (r.lockstep m).pipe_of_finished hfin, (hfin x).1, (hfin x).2] at hrest
    cases back with
    | nil => rfl
    | cons p back =>
      have := congrArg List.length hrest
      simp [Pc.held, Pc.left, sends, Raw.wire] at this
      omega
  rw [hback, List.map_nil, List.append_nil, sends_jobs, List.map_map] at hmap
  exact hmap.symm

theorem Net.ready_ready (n : Net) : n.ready.Ready n where
  honest := n.ready_honest
  status := by
    have bits : ∀ q d : Bool,
        ((txRdyBit ||| ((if q then txReqBit else 0) ||| (if d then txCBit else 0))) &&& txRdyBit) ≠ 0 := by
      decide
    exact ⟨_, rfl, bits n.req n.done⟩
  taken := rfl
  moved := Nat.zero_lt_succ 63

def Run.alternating (script : List Transfer) : Run script where
  state := Naplink.alternating script
  turn k := (if k % 2 = 0 then .pc else .ps2, (Naplink.alternating script k).ready)
  zero := rfl
  succ _ := rfl
  honest _ := Net.ready_honest _
  whole _ := rfl

theorem Run.alternating_fair (script : List Transfer) : (Run.alternating script).Fair := by
  intro x k
  cases x with
  | pc => exact ⟨2 * k, by omega, if_pos (Nat.mul_mod_right 2 k), Net.ready_ready _⟩
  | ps2 => exact ⟨2 * k + 1, by omega, if_neg (by omega), Net.ready_ready _⟩

theorem wazzup_delivered : ∃ k, ∀ m, k ≤ m → (alternating wazzupAnswered m).Finished ∧
    ∀ x, ((alternating wazzupAnswered m).party x.other).got =
      (wazzupAnswered.filter (·.sender = x)).map fun t => (t.packet.header, t.packet.body) :=
  fair_run_delivers (.alternating wazzupAnswered) (Run.alternating_fair wazzupAnswered)

end Naplink
