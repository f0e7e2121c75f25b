import Pksh.Clients
import Pksh.Writing

/-! The loop of the batch tools. It is left when `service_close` has been
cleared by a CLOSE request, and only if the tool asks for no service; the end of
the stream is read again and again. -/

namespace Pksh

open Wire Traced

/-- A process in the loop: the log datagrams that are still to come, and
whether `service_close` is set. -/
structure BatchIo where
  world : World
  datagrams : List (List Byte)
  serviceClose : Bool

/-- A receive call for the descriptor would return. -/
def World.readable (w : World) (fd : Int) : Bool := ((w.inflow fd).recv 1).isSome

inductive Selected
  | failed
  | log
  | link
deriving DecidableEq, Repr

inductive Outcome
  | goes (s : BatchIo)
  | ended
  | stuck

namespace BatchIo

/-- What the loop acts on when `select` returns, which it never does when there
is nothing to come. The log goes before the link. -/
def select (arrived : Bool) (s : BatchIo) : Option Selected :=
  if s.world.desc s.world.pkoSrvFd = none ∨ s.world.desc s.world.logFd = none then some .failed
  else if s.datagrams ≠ [] ∧ (arrived = true ∨ s.world.readable s.world.pkoSrvFd = false) then some .log
  else if s.world.readable s.world.pkoSrvFd then some .link
  else none

def checked (nservice : Int) (s : BatchIo) : Outcome :=
  if nservice = 0 ∧ s.serviceClose = false then .ended else .goes s

/-- `batch_log_read` takes one datagram. -/
def logRead (s : BatchIo) : BatchIo := { s with datagrams := s.datagrams.tail }

/-- `batch_io_read`, and `service_close` behind it. -/
def linkRead (s : BatchIo) : Option BatchIo :=
  let r := (batchIoRead s.world.pkoSrvFd).run s.world
  r.value.map fun _ =>
    { s with
      world := r.state
      serviceClose := s.serviceClose && decide (s.world.request s.world.pkoSrvFd ≠ some .close) }

def turn (nservice : Int) (arrived : Bool) (s : BatchIo) : Outcome :=
  match s.select arrived with
  | none => .stuck
  | some .failed => .ended
  | some .log => s.logRead.checked nservice
  | some .link =>
    match s.linkRead with
    | none => .stuck
    | some t => t.checked nservice

def left (s : BatchIo) : Nat := (s.world.pending s.world.pkoSrvFd).length + s.datagrams.length

/-- The given number of iterations; `arrived` tells in which of them a datagram
is there when `select` is called. -/
def loop (nservice : Int) (arrived : Nat → Bool) (s : BatchIo) : Nat → Outcome
  | 0 => .goes s
  | n + 1 =>
    match s.loop nservice arrived n with
    | .goes t => t.turn nservice (arrived n)
    | o => o

/-- The loop comes to an end, and every iteration before it consumes something. -/
structure Finishes (nservice : Int) (arrived : Nat → Bool) (s : BatchIo) : Prop where
  finite : ∃ n, ∀ t, s.loop nservice arrived n ≠ .goes t
  consumes : ∀ n t t', s.loop nservice arrived n = .goes t → t.turn nservice (arrived n) = .goes t' → t'.left < t.left

end BatchIo

def World.batchReads (w : World) : Nat → World
  | 0 => w
  | m + 1 => ((batchIoRead (w.batchReads m).pkoSrvFd).run (w.batchReads m)).state

/-- The ways out of the loop in a state in which the link is to be read: a CLOSE
request is next, a descriptor that is waited for has been closed, or the packet
that is next is never done with. -/
inductive WayOut (nservice : Int) (w : World) : Prop
  | close (service : nservice = 0) (next : w.request w.pkoSrvFd = some .close)
  | closed (gone : w.desc w.pkoSrvFd = none ∨ w.desc w.logFd = none)
  | blocks (never : ((batchIoRead w.pkoSrvFd).run w).value = none)

section Read

variable {w : World} {fd : Int}

theorem batchIoRead_short (h : (w.pending fd).length < pktHdrSize) (hs : (w.inflow fd).stop ≠ .never) :
    ∃ v, (batchIoRead fd).run w = ⟨some v, w.received fd (.recvPacket 0) pktHdrSize,
      [.recv fd (w.pending fd), .store 0 (w.pending fd)]⟩ := by
  rw [batchIoRead, packetRead_short h]
  cases hst : (w.inflow fd).stop with
  | full => exact absurd hst Inflow.stop_ne_full
  | eof => exact ⟨0, rfl⟩
  | dropped e => exact ⟨-1, rfl⟩
  | never => exact absurd hst hs

theorem batchIoRead_starves (h : (w.pending fd).length < pktHdrSize) (hs : (w.inflow fd).stop = .never) :
    ((batchIoRead fd).run w).value = none := by
  rw [batchIoRead, packetRead_short h, hs]

theorem World.not_readable (h : w.readable fd = false) : w.pending fd = [] ∧ (w.inflow fd).stop = .never := by
  rw [World.readable] at h
  rw [World.pending]
  generalize w.inflow fd = f at h
  obtain ⟨as, e⟩ := f
  cases as with
  | nil =>
    cases e with
    | quiet => exact ⟨rfl, rfl⟩
    | eof => cases h
    | fail e sticky => cases h
  | cons a as =>
    cases a with
    | data b bs => cases h
    | hiccup e he => cases h

theorem batchIoRead_unreadable (h : w.readable fd = false) : ((batchIoRead fd).run w).value = none := by
  obtain ⟨hp, hs⟩ := World.not_readable h
  refine batchIoRead_starves ?_ hs
  rw [hp]
  exact Nat.zero_lt_succ 5

theorem request_length {c : Cmd} (h : w.request fd = some c) : pktHdrSize ≤ (w.pending fd).length := by
  rw [World.request] at h
  split at h
  · assumption
  · cases h

theorem pending_of_closed (h : w.desc fd = none) : w.pending fd = [] := by
  simp [World.pending, World.inflow, World.sockAt, h, Sock.dead]

theorem pkoCloseFile_run (w : World) : ∃ rv, pkoCloseFile.run w =
    ((answer closeRly rv).run (w.tick.setDesc (ntohl (w.recvPacket.word 6)).toInt none)).after
      [.handle (.closeFile (ntohl (w.recvPacket.word 6)).toInt), .close (ntohl (w.recvPacket.word 6)).toInt] := by
  have hrun : pkoCloseFile.run w = _ := (loadPacket_bind _ w).trans (emit_bind _ rfl _ w)
  rw [sysClose_bind, Result.after_after] at hrun
  exact ⟨_, hrun⟩

theorem answer_desc {code rv : Word} (h : w.desc fd = none) : ((answer code rv).run w).state.desc fd = none := by
  refine ((answer code rv).keeps w).unopened fd h fun a ha => ?_
  obtain ⟨ret, hs | hs⟩ := answer_acts code rv w
  · rw [hs] at ha
    rw [List.mem_singleton.mp ha]
    exact fun h => nomatch h
  · rw [hs] at ha
    rcases List.mem_cons.mp ha with rfl | ha
    · exact fun h => nomatch h
    · rw [List.mem_singleton.mp ha]
      exact fun h => nomatch h

theorem pkoCloseFile_desc (h : .close fd ∈ (pkoCloseFile.run w).acts) : (pkoCloseFile.run w).state.desc fd = none := by
  obtain ⟨rv, hrun⟩ := pkoCloseFile_run w
  obtain ⟨ret, hacts⟩ := answer_acts closeRly rv (w.tick.setDesc (ntohl (w.recvPacket.word 6)).toInt none)
  rw [hrun, Result.after_acts] at h
  have hfd : fd = (ntohl (w.recvPacket.word 6)).toInt := by
    rcases hacts with ha | ha
    · rw [ha] at h
      simpa using h
    · rw [ha] at h
      simpa using h
  rw [hrun, Result.after_state, hfd]
  exact answer_desc (World.setDesc_self _ _ _)

theorem Cmd.close_of_call {c : Cmd} {m : Mem} {s : Int} (h : c.call m = some (.closeFile s)) : c = .close := by
  cases c <;> simp [Cmd.call] at h ⊢

theorem fileIo_desc {c : Cmd} (hf : c.isFileIo = true) (h : .close fd ∈ ((fileIo c).run w).acts) :
    ((fileIo c).run w).state.desc fd = none := by
  by_cases hc : c = .close
  · subst hc
    rw [fileIo] at h ⊢
    rw [Prog.run_bind_pure] at h ⊢
    dsimp only at h ⊢
    exact pkoCloseFile_desc h
  · obtain ⟨call, hcall⟩ := Option.isSome_iff_exists.mp ((Cmd.isFileIo_iff_call c w.recvPacket).mp hf)
    obtain ⟨rest, ha, hserves⟩ := (handles_fileIo hcall).acts
    rw [ha] at h
    rcases List.mem_cons.mp h with h | h
    · cases h
    · rw [show call = .closeFile fd from hserves _ h] at hcall
      exact absurd (Cmd.close_of_call hcall) hc

theorem batchIoRead_desc (h : .close fd ∈ ((batchIoRead fd).run w).acts) :
    ((batchIoRead fd).run w).state.desc fd = none := by
  revert h
  refine packetRead_elim (P := fun r => .close fd ∈ r.acts → r.state.desc fd = none) (fun _ _ h => ?_) (fun _ _ h => ?_)
    (fun _ _ h => ?_) (fun _ _ h => ?_) fun _ h => ?_
  · rw [Result.after_acts, List.mem_append] at h
    rw [Result.after_state]
    have h := h.resolve_left (by simp [World.intake])
    rw [Prog.run_bind_pure] at h ⊢
    cases hr : (w.request fd).filter Cmd.isFileIo with
    | none =>
      rw [hr] at h
      cases h
    | some c =>
      have hf : c.isFileIo = true := (Option.filter_eq_some_iff.mp hr).2
      rw [hr, switch, if_pos hf] at h
      rw [switch, if_pos hf]
      exact fileIo_desc hf h
  · exact absurd h (by simp [World.intake])
  · exact absurd h (by simp)
  · exact absurd h (by simp)
  · exact absurd h (by simp)

theorem batchIoRead_link : ((batchIoRead fd).run w).state.pkoSrvFd = w.pkoSrvFd := by
  have hrecv : (w.received fd (.recvPacket 0) pktHdrSize).pkoSrvFd = w.pkoSrvFd := by
    rw [received_vars]
    rfl
  have hpacket : (w.withPacket fd).pkoSrvFd = w.pkoSrvFd := Vars.link_eq (withPacket_wiring w fd)
  refine packetRead_elim (P := fun r => r.state.pkoSrvFd = w.pkoSrvFd) (fun _ _ => ?_) (fun _ _ => hpacket)
    (fun _ _ => hrecv) (fun _ _ => hrecv) fun _ => hrecv
  rw [Result.after_state, Prog.run_bind_pure]
  dsimp only
  cases hr : (w.request fd).filter Cmd.isFileIo with
  | none => exact hpacket
  | some c =>
    have hf : c.isFileIo = true := (Option.filter_eq_some_iff.mp hr).2
    obtain ⟨call, hcall⟩ := Option.isSome_iff_exists.mp ((Cmd.isFileIo_iff_call c (w.withPacket fd).recvPacket).mp hf)
    rw [switch, if_pos hf, Vars.link_eq (handles_fileIo hcall).wiring]
    exact hpacket

theorem batchIoRead_takes (h : pktHdrSize ≤ (w.pending fd).length) :
    (((batchIoRead fd).run w).state.pending fd).length < (w.pending fd).length := by
  by_cases hc : .close fd ∈ ((batchIoRead fd).run w).acts
  · rw [pending_of_closed (batchIoRead_desc hc)]
    exact Nat.lt_of_lt_of_le (Nat.zero_lt_succ 5) h
  · have hne : w.pending fd ≠ [] := by
      intro hn
      rw [hn] at h
      cases h
    obtain ⟨_, ht⟩ := (((batchIoRead fd).keeps w).pending (sock_of_pending hne) hc)
    have hlen := congrArg List.length ht
    rw [List.length_append] at hlen
    have hfirst : pktHdrSize ≤ (taken fd ((batchIoRead fd).run w).acts).length := by
      rw [batchIoRead, packetRead_run h, Result.after_acts, taken_append, List.length_append, taken_recv,
        List.length_append, List.length_take, Nat.min_eq_left h]
      omega
    have h6 : pktHdrSize = 6 := rfl
    omega

theorem afterFail_stop {ε : Type} {drops : ε → Bool} {e : Ending ε} (h : e.stop drops ≠ .never) :
    e.afterFail.stop drops ≠ .never := by
  cases e with
  | quiet => exact h
  | eof => exact h
  | fail e sticky =>
    cases sticky with
    | false => exact fun h => nomatch h
    | true => exact h

/-- The stream is at its end, and both descriptors are open. -/
structure Idle (w : World) : Prop where
  ended : w.Ended w.pkoSrvFd
  link : w.desc w.pkoSrvFd ≠ none
  log : w.desc w.logFd ≠ none

theorem Idle.not_wayOut (h : Idle w) (nservice : Int) : ¬WayOut nservice w := by
  rintro (⟨-, hr⟩ | hd | hb)
  · exact absurd h.ended.1 (Nat.not_lt.mpr (request_length hr))
  · exact hd.elim h.link h.log
  · obtain ⟨v, hrun⟩ := batchIoRead_short h.ended.1 h.ended.2
    rw [hrun] at hb
    cases hb

theorem Idle.read (h : Idle w) : Idle ((batchIoRead w.pkoSrvFd).run w).state := by
  obtain ⟨v, hrun⟩ := batchIoRead_short h.ended.1 h.ended.2
  have hacc := received_accounted w w.pkoSrvFd (.recvPacket 0) pktHdrSize
  have hlink : (w.received w.pkoSrvFd (.recvPacket 0) pktHdrSize).pkoSrvFd = w.pkoSrvFd := by
    rw [received_vars]
    rfl
  have hopen : ∀ s, w.desc s ≠ none → (w.received w.pkoSrvFd (.recvPacket 0) pktHdrSize).desc s ≠ none := by
    intro s hs
    obtain ⟨d, hd⟩ := Option.ne_none_iff_exists'.mp hs
    obtain ⟨d', hd', -⟩ := hacc.kept s d hd (by simp [Buf.stored])
    rw [hd']
    exact Option.some_ne_none d'
  rw [hrun]
  refine ⟨⟨?_, ?_⟩, ?_, ?_⟩
  · rw [hlink, received_pending, List.length_drop]
    exact Nat.lt_of_le_of_lt (Nat.sub_le _ _) h.ended.1
  · rw [hlink, Inflow.stop, received_ending]
    split
    · exact h.ended.2
    · exact afterFail_stop h.ended.2
  · rw [hlink]
    exact hopen _ h.link
  · rw [hacc.logFd]
    exact hopen _ h.log

theorem Idle.reads (h : Idle w) (m : Nat) : Idle (w.batchReads m) := by
  induction m with
  | zero => exact h
  | succ m ih => exact ih.read

theorem batchReads_add (w : World) (j m : Nat) : w.batchReads (j + m) = (w.batchReads j).batchReads m := by
  induction m with
  | zero => rfl
  | succ m ih =>
    rw [← Nat.add_assoc, World.batchReads, ih]
    rfl

theorem WayOut.of_never (h : (w.pending w.pkoSrvFd).length < pktHdrSize) (hs : (w.inflow w.pkoSrvFd).stop = .never)
    (nservice : Int) : WayOut nservice w := .blocks (batchIoRead_starves h hs)

theorem pending_of_wayOut {nservice : Int} {j m : Nat} (hj : ¬WayOut nservice (w.batchReads j))
    (hm : WayOut nservice (w.batchReads m)) (hjm : j ≤ m) :
    pktHdrSize ≤ ((w.batchReads j).pending (w.batchReads j).pkoSrvFd).length := by
  by_contra hl
  have hl := Nat.lt_of_not_le hl
  have hidle : Idle (w.batchReads j) :=
    ⟨⟨hl, fun hs => hj (.of_never hl hs nservice)⟩, fun hd => hj (.closed (.inl hd)), fun hd => hj (.closed (.inr hd))⟩
  obtain ⟨k, rfl⟩ := Nat.exists_eq_add_of_le hjm
  rw [batchReads_add] at hm
  exact (hidle.reads k).not_wayOut nservice hm

end Read

namespace BatchIo

variable {nservice : Int} {s t : BatchIo} {arrived : Bool}

def Serves (nservice : Int) (s : BatchIo) : Prop := nservice = 0 → s.serviceClose = true

theorem checked_of_serves (h : s.Serves nservice) : s.checked nservice = .goes s := by
  rw [checked, if_neg]
  rintro ⟨h0, hc⟩
  rw [h h0] at hc
  cases hc

theorem serves_of_checked (h : s.checked nservice = .goes t) : s = t ∧ s.Serves nservice := by
  rw [checked] at h
  split at h
  · cases h
  · rename_i hn
    cases h
    exact ⟨rfl, fun h0 => by simpa [h0] using hn⟩

/-- What `select` can come back with. -/
inductive Selects (s : BatchIo) : Option Selected → Prop
  | failed (gone : s.world.desc s.world.pkoSrvFd = none ∨ s.world.desc s.world.logFd = none) : Selects s (some .failed)
  | log (more : s.datagrams ≠ []) : Selects s (some .log)
  | link (both : ¬(s.world.desc s.world.pkoSrvFd = none ∨ s.world.desc s.world.logFd = none)) : Selects s (some .link)
  | never (silent : s.world.readable s.world.pkoSrvFd = false) : Selects s none

theorem selects (s : BatchIo) (arrived : Bool) : s.Selects (s.select arrived) := by
  rw [select]
  split
  · exact .failed ‹_›
  · split
    · rename_i hlog
      exact .log hlog.1
    · split
      · exact .link ‹_›
      · exact .never (Bool.eq_false_iff.mpr ‹_›)

inductive Steps (nservice : Int) (s t : BatchIo) : Prop
  | log (world : t.world = s.world) (fewer : t.datagrams.length + 1 = s.datagrams.length)
  | link (world : t.world = ((batchIoRead s.world.pkoSrvFd).run s.world).state) (same : t.datagrams = s.datagrams)
    (stays : ¬WayOut nservice s.world)

theorem logRead_steps (h : s.datagrams ≠ []) : Steps nservice s s.logRead := by
  refine .log rfl ?_
  obtain ⟨d, ds, hd⟩ := List.exists_cons_of_ne_nil h
  rw [logRead, hd]
  rfl

theorem turn_goes (hs : s.Serves nservice) (hl : ¬WayOut nservice s.world) (arrived : Bool) :
    ∃ t, s.turn nservice arrived = .goes t := by
  have hsel := s.selects arrived
  rw [turn]
  generalize s.select arrived = r at hsel
  cases hsel with
  | failed gone => exact absurd (.closed gone) hl
  | log more => exact ⟨s.logRead, checked_of_serves hs⟩
  | link both =>
    cases hv : ((batchIoRead s.world.pkoSrvFd).run s.world).value with
    | none => exact absurd (.blocks hv) hl
    | some v =>
      obtain ⟨t, ht, hserves⟩ : ∃ t, s.linkRead = some t ∧ t.Serves nservice := by
        refine ⟨_, by rw [linkRead, hv]; rfl, fun h0 => ?_⟩
        rw [Bool.and_eq_true, decide_eq_true_eq]
        exact ⟨hs h0, fun hr => hl (.close h0 hr)⟩
      simp only [ht]
      exact ⟨t, checked_of_serves hserves⟩
  | never silent => exact absurd (.blocks (batchIoRead_unreadable silent)) hl

theorem turn_steps (h : s.turn nservice arrived = .goes t) : Steps nservice s t ∧ t.Serves nservice := by
  have hsel := s.selects arrived
  rw [turn] at h
  generalize s.select arrived = r at hsel h
  cases hsel with
  | failed gone => cases h
  | log more =>
    obtain ⟨rfl, hserves⟩ := serves_of_checked h
    exact ⟨logRead_steps more, hserves⟩
  | link both =>
    cases hv : ((batchIoRead s.world.pkoSrvFd).run s.world).value with
    | none =>
      rw [show s.linkRead = none by rw [linkRead, hv]; rfl] at h
      cases h
    | some v =>
      simp only [linkRead, hv, Option.map_some] at h
      obtain ⟨rfl, hserves⟩ := serves_of_checked h
      refine ⟨.link rfl rfl ?_, hserves⟩
      rintro (⟨h0, hr⟩ | hd | hb)
      · have hc := hserves h0
        rw [Bool.and_eq_true, decide_eq_true_eq] at hc
        exact hc.2 hr
      · exact both hd
      · rw [hv] at hb
        cases hb
  | never silent => cases h

/-- After `n` iterations the link has been read `j` times, and the loop could be
left at none of them. -/
structure Reached (nservice : Int) (s : BatchIo) (n : Nat) (t : BatchIo) (j : Nat) : Prop where
  world : t.world = s.world.batchReads j
  count : n + t.datagrams.length = j + s.datagrams.length
  serves : t.Serves nservice
  stays : ∀ i < j, ¬WayOut nservice (s.world.batchReads i)

theorem Reached.turn {n j : Nat} (h : Reached nservice s n t j) {u : BatchIo} (hu : t.turn nservice arrived = .goes u) :
    Reached nservice s (n + 1) u j ∨ Reached nservice s (n + 1) u (j + 1) := by
  obtain ⟨hstep, hserves⟩ := turn_steps hu
  have hcount := h.count
  cases hstep with
  | log world fewer => exact .inl ⟨world.trans h.world, by omega, hserves, h.stays⟩
  | link world same stays =>
    refine .inr ⟨?_, by rw [same]; omega, hserves, fun i hi => ?_⟩
    · rw [world, h.world]
      rfl
    · rcases Nat.lt_succ_iff_lt_or_eq.mp hi with hi | rfl
      · exact h.stays i hi
      · exact h.world ▸ stays

theorem reached {arrived : Nat → Bool} (hs : s.Serves nservice) {n : Nat} (h : s.loop nservice arrived n = .goes t) :
    ∃ j, Reached nservice s n t j := by
  induction n generalizing t with
  | zero =>
    cases h
    exact ⟨0, rfl, rfl, hs, by simp⟩
  | succ n ih =>
    rw [loop] at h
    cases hn : s.loop nservice arrived n with
    | goes u =>
      rw [hn] at h
      obtain ⟨j, hj⟩ := ih hn
      exact (hj.turn h).elim (fun h => ⟨j, h⟩) fun h => ⟨j + 1, h⟩
    | ended =>
      rw [hn] at h
      cases h
    | stuck =>
      rw [hn] at h
      cases h

theorem loop_goes (hs : s.Serves nservice) (arrived : Nat → Bool)
    (hl : ∀ m, ¬WayOut nservice (s.world.batchReads m)) (n : Nat) : ∃ t, s.loop nservice arrived n = .goes t := by
  induction n with
  | zero => exact ⟨s, rfl⟩
  | succ n ih =>
    obtain ⟨t, ht⟩ := ih
    obtain ⟨j, hj⟩ := reached hs ht
    obtain ⟨u, hu⟩ := turn_goes hj.serves (hj.world ▸ hl j) (arrived n)
    rw [loop, ht]
    exact ⟨u, hu⟩

theorem Reached.consumes {n j m : Nat} (h : Reached nservice s n t j) {u : BatchIo}
    (hm : WayOut nservice (s.world.batchReads m)) (hu : t.turn nservice arrived = .goes u) : u.left < t.left := by
  cases (turn_steps hu).1 with
  | log world fewer =>
    rw [left, left, world]
    omega
  | link world same stays =>
    have hjm : j ≤ m := Nat.le_of_not_lt fun hlt => h.stays m hlt hm
    have hp := pending_of_wayOut (h.world ▸ stays) hm hjm
    rw [← h.world] at hp
    rw [left, left, world, same, batchIoRead_link]
    have := batchIoRead_takes hp
    omega

end BatchIo

/-- In any order of packets and datagrams the loop comes to an end, with every
iteration before it taking something, exactly when there is a way out of it: the
tool wants no service and a CLOSE request comes, the PS2 has the link or the log
closed, or a packet is never done with. -/
theorem finishes_iff (nservice : Int) (arrived : Nat → Bool) (w : World) (datagrams : List (List Byte)) :
    (BatchIo.mk w datagrams true).Finishes nservice arrived ↔ ∃ m, WayOut nservice (w.batchReads m) := by
  have hs : (BatchIo.mk w datagrams true).Serves nservice := fun _ => rfl
  constructor
  · intro h
    by_contra hn
    obtain ⟨n, hn'⟩ := h.finite
    obtain ⟨t, ht⟩ := BatchIo.loop_goes hs arrived (not_exists.mp hn) n
    exact hn' t ht
  · rintro ⟨m, hm⟩
    refine ⟨⟨m + datagrams.length + 1, fun t ht => ?_⟩, fun n t u ht hu => ?_⟩
    · obtain ⟨j, hj⟩ := BatchIo.reached hs ht
      have hjm : j ≤ m := Nat.le_of_not_lt fun hlt => hj.stays m hlt hm
      have hc := hj.count
      dsimp only at hc
      omega
    · obtain ⟨j, hj⟩ := BatchIo.reached hs ht
      exact hj.consumes hm hu

def World.hungUp : World :=
  World.linked .refusing 3 [(3, .sock ⟨⟨[], .eof⟩, ⟨[], .accepts⟩⟩), (4, .plain)]

theorem idle_hungUp : Idle .hungUp :=
  ⟨⟨show 0 < 6 by decide, fun h => nomatch h⟩, Option.some_ne_none _, Option.some_ne_none _⟩

/-- With nothing left to read the loop goes on. -/
theorem spins_at_end : ¬∀ (nservice : Int) (arrived : Nat → Bool) (w : World) (datagrams : List (List Byte)),
    (w.inflow w.pkoSrvFd).ending = .eof → w.desc w.logFd ≠ none →
    (BatchIo.mk w datagrams true).Finishes nservice arrived := by
  intro h
  obtain ⟨n, hn⟩ := (h 0 (fun _ => false) .hungUp [] rfl idle_hungUp.log).finite
  have hs : (BatchIo.mk .hungUp [] true).Serves 0 := fun _ => rfl
  obtain ⟨t, ht⟩ := BatchIo.loop_goes hs (fun _ => false) (fun m => (idle_hungUp.reads m).not_wayOut 0) n
  exact hn t ht

end Pksh
