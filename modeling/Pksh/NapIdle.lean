import Pksh.NapAnswers

/-! When npsh gives up a link on which the PS2 only asks for commands. -/

namespace Naplink

open Wire Traced Pksh

namespace Idle

/-- Requests, command lines and a new link start the count again; the link may
only be given up when it exceeds the timeout. -/
def step (timeout n : Nat) : Act → Option Nat
  | .process p => if p.isRequest then some 0 else if p = .wazzup then some (n + 1) else some n
  | .execute _ | .linkUp _ => some 0
  | .expire => if timeout < n then some n else none
  | _ => some n

end Idle

def Act.quiet : Act → Bool
  | .process _ | .execute _ | .linkUp _ | .expire => false
  | _ => true

variable {t : Nat} {α : Type}

theorem Idle.step_quiet (n : Nat) {a : Act} (h : a.quiet = true) : Idle.step t n a = some n := by
  cases a with
  | process p => cases h
  | execute line => cases h
  | linkUp found => cases h
  | expire => cases h
  | _ => rfl

/-- The counter does not run ahead of the count. -/
def Idled (t n : Nat) (w : World) : Prop := w.timeout.toNat = t ∧ w.counter.toNat ≤ n

def Restarted (t : Nat) (_ : Nat) (w : World) : Prop := w.timeout.toNat = t

theorem Idled.restarted {n : Nat} {w : World} (h : Idled t n w) : Restarted t n w := h.1

section Steps

theorem idle_quiet {m : Np α} (h : ∀ w, (∀ a ∈ (m.run w).acts, a.quiet = true) ∧
    ∀ a, (m.run w).value = some a → (m.run w).state.counter = w.counter) :
    Triple (Idle.step t) (Idled t) m fun _ => Idled t := by
  refine .of_pass fun n w hw => ⟨fun a ha => Idle.step_quiet n ((h w).1 a ha), fun a ha => ⟨?_, ?_⟩⟩
  · rw [(m.keeps w).timeout]
    exact hw.1
  · rw [(h w).2 a ha]
    exact hw.2

theorem idle_setVars {f : Vars → Vars} (h : ∀ v, (f v).counter = v.counter) :
    Triple (Idle.step t) (Idled t) (setVars f) fun _ => Idled t :=
  idle_quiet fun w => ⟨fun _ ha => (nomatch ha), fun _ _ => h w.toVars⟩

theorem idle_emit {a : Act} (h : a.still = true) (ha : a.quiet = true) :
    Triple (Idle.step t) (Idled t) (emit a h) fun _ => Idled t :=
  idle_quiet fun _ => ⟨fun _ hb => List.mem_singleton.mp hb ▸ ha, fun _ _ => rfl⟩

theorem idle_asks {answer : World → α} {act : α → List Act} {h : ∀ r, (act r).all Act.still = true}
    (ha : ∀ r, ∀ a ∈ act r, a.quiet = true) : Triple (Idle.step t) (Idled t) (asks answer act h) fun _ => Idled t :=
  idle_quiet fun w => ⟨ha (answer w), fun _ _ => rfl⟩

theorem idle_pure (a : α) : Triple (Idle.step t) (Idled t) (pure a : Np α) fun _ => Idled t :=
  .pure a fun _ _ h => h

theorem idle_get {g : World → Np α} {Q : α → Nat → World → Prop}
    (h : ∀ w, Triple (Idle.step t) (Idled t) (g w) Q) : Triple (Idle.step t) (Idled t) (Prog.get >>= g) Q :=
  .get_bind fun w => (h w).consequence (fun _ _ hv => hv.2) fun _ _ _ hv => hv

theorem idle_setProcessing (b : Bool) : Triple (Idle.step t) (Idled t) (npSetProcessing b) fun _ => Idled t :=
  idle_setVars fun _ => rfl

theorem idle_setTimedout (b : Bool) : Triple (Idle.step t) (Idled t) (setTimedout b) fun _ => Idled t :=
  idle_setVars fun _ => rfl

theorem idle_clear : Triple (Idle.step t) (Restarted t) (npSetCounter 0) fun _ => Idled t :=
  fun n _ hw => ⟨n, rfl, fun _ _ => ⟨hw, Nat.zero_le n⟩⟩

theorem idle_recvPacket : Triple (Idle.step t) (Idled t) recvPacket fun _ => Idled t := by
  refine idle_quiet fun w => ?_
  cases hi : w.incoming <;> simp [recvPacket, hi, Act.quiet]

theorem idle_exchange (q : Sent) : Triple (Idle.step t) (Idled t) (exchange q) fun _ => Idled t := by
  refine (idle_emit _ rfl).bind fun _ => idle_recvPacket.bind fun p => ?_
  cases p with
  | ret rv data => exact idle_pure rv
  | _ => exact (idle_emit _ rfl).bind fun _ => idle_pure (-1)

end Steps

section Dispatch

variable {b : Np Unit}

/-- How the counter stands when a packet is about to be dealt with. -/
def Taken (t : Nat) (p : Packet) (n : Nat) (w : World) : Prop :=
  w.timeout.toNat = t ∧
    (p.isRequest = false → if p = .wazzup then w.counter.toNat + 1 ≤ n else w.counter.toNat ≤ n)

theorem idle_taken (p : Packet) : Triple (Idle.step t) (Idled t) (emit (.process p) rfl) fun _ => Taken t p := by
  intro n w hw
  by_cases hr : p.isRequest = true
  · exact ⟨0, by simp [emit, Idle.step, hr], fun _ _ => ⟨hw.1, fun h => by simp [hr] at h⟩⟩
  · by_cases hp : p = .wazzup
    · exact ⟨n + 1, by simp [emit, Idle.step, hp, Packet.isRequest], fun _ _ => ⟨hw.1, fun _ => by
        rw [if_pos hp]
        exact Nat.succ_le_succ hw.2⟩⟩
    · exact ⟨n, by simp [emit, Idle.step, hr, hp], fun _ _ => ⟨hw.1, fun _ => by
        rw [if_neg hp]
        exact hw.2⟩⟩

theorem idle_countWazzup : Triple (Idle.step t) (Taken t .wazzup) countWazzup fun _ => Idled t := by
  intro n w hw
  have hn : w.counter.toNat + 1 ≤ n := hw.2 rfl
  rw [countWazzup, Prog.run_bind, Prog.run_get, Result.andThen_mk_some]
  by_cases hp : w.processing = true
  · rw [if_pos hp]
    exact ⟨n, rfl, fun _ _ => ⟨hw.1, Nat.le_of_succ_le hn⟩⟩
  · rw [if_neg hp]
    refine ⟨n, rfl, fun _ _ => ⟨hw.1, ?_⟩⟩
    -- the counter may wrap around, which only makes it smaller
    have hadd : (w.counter + 1).toNat ≤ w.counter.toNat + 1 := by
      rw [BitVec.toNat_add]
      exact Nat.mod_le _ _
    exact hadd.trans hn

theorem idle_sendCommand (hb : Triple (Idle.step t) (Idled t) b fun _ => Idled t) (buffered : Option (List Byte))
    (c : Option Command) : Triple (Idle.step t) (Idled t) (sendCommand b buffered c) fun _ => Idled t := by
  have hx (type : Word) : Triple (Idle.step t) (Idled t) (doExec type buffered) fun _ => Idled t := by
    cases buffered with
    | none => exact idle_pure (-1)
    | some filename => exact idle_exchange _
  rcases c with _ | c
  · exact idle_emit rfl rfl
  · cases c with
    | reset => exact (idle_exchange _).bind fun _ => idle_pure ()
    | quit => exact (idle_exchange _).bind fun _ => idle_pure ()
    | execps2 => exact (hx packetExecps2).bind fun _ => idle_pure ()
    | execiop => exact (hx packetExeciop).bind fun _ => idle_pure ()
    | benchmark => exact hb

theorem Act.quiet_of_isOp {a : Act} (h : a.isOp = true) : a.quiet = true := by
  cases a with
  | process p => cases h
  | execute line => cases h
  | linkUp found => cases h
  | expire => cases h
  | _ => rfl

theorem idle_processPacket (hb : Triple (Idle.step t) (Idled t) b fun _ => Idled t) (p : Packet) :
    Triple (Idle.step t) (Taken t p) (processPacket b p) fun _ => Idled t := by
  by_cases hr : p.isRequest = true
  · intro n w hw
    have hs := serves_processPacket hr b w
    obtain ⟨ops, q, ha, hops, -⟩ := hs.acts
    refine ⟨n, watch_of_pass fun a hm => Idle.step_quiet n ?_, fun _ _ => ⟨?_, ?_⟩⟩
    · rw [ha] at hm
      rcases List.mem_append.mp hm with hm | hm
      · exact Act.quiet_of_isOp (hops a hm)
      · rw [List.mem_singleton.mp hm]
        rfl
    · rw [((processPacket b p).keeps w).timeout]
      exact hw.1
    · rw [hs.counter]
      exact Nat.zero_le n
  · cases p with
    | wazzup =>
      have hc : Triple (Idle.step t) (Idled t) clearCommand fun _ => Idled t := idle_setVars fun _ => rfl
      exact idle_countWazzup.bind fun _ => idle_get fun w => (idle_sendCommand hb _ _).bind fun _ => hc
    | ret rv data => exact .pure () fun _ _ hw => ⟨hw.1, hw.2 rfl⟩
    | bad type => exact .pure () fun _ _ hw => ⟨hw.1, hw.2 rfl⟩
    | _ => exact absurd rfl hr

theorem idle_recvAndProcess (hb : Triple (Idle.step t) (Idled t) b fun _ => Idled t) :
    Triple (Idle.step t) (Idled t) (recvAndProcess b) fun _ => Idled t :=
  idle_recvPacket.bind fun p => (idle_taken p).bind fun _ => (idle_processPacket hb p).bind fun _ => idle_pure p

theorem idle_doBenchmarkWith {loop : Np Unit} (hl : Triple (Idle.step t) (Idled t) loop fun _ => Idled t) :
    Triple (Idle.step t) (Idled t) (doBenchmarkWith loop) fun _ => Idled t := by
  have hv (x : Bool) : Triple (Idle.step t) (Idled t) (setVars fun v => { v with benchmarking := x })
    fun _ => Idled t := idle_setVars fun _ => rfl
  exact (idle_emit _ rfl).bind fun _ => (hv true).bind fun _ => hl.bind fun _ => hv false

theorem idle_benchmarkLoop (rounds : Nat) :
    Triple (Idle.step t) (Idled t) (benchmarkLoop rounds) fun _ => Idled t := by
  induction rounds with
  | zero => exact (idle_emit _ rfl).bind fun _ => .hang
  | succ rounds ih =>
    exact (idle_recvAndProcess (idle_doBenchmarkWith ih)).bind fun i => .ite (fun _ => idle_pure ()) fun _ => ih

theorem idle_naplinkProcess : Triple (Idle.step t) (Idled t) naplinkProcess fun _ => Idled t := by
  have hp : Triple (Idle.step t) (Idled t) recvAndProcessPacket fun _ => Idled t :=
    idle_get fun w => idle_recvAndProcess (idle_doBenchmarkWith (idle_benchmarkLoop _))
  have hx : Triple (Idle.step t) (Idled t) checkTxReq fun _ => Idled t := idle_asks (by simp)
  exact hx.bind fun tx => .ite (fun _ => hp.bind fun _ => idle_pure ()) fun _ => idle_pure ()

end Dispatch

section Loop

theorem idle_call (f : CliFunc) (arg : Mem) : Triple (Idle.step t) (Idled t) (f.call arg) fun _ => Idled t := by
  have hs (c : Command) : Triple (Idle.step t) (Idled t) (setCommand c) fun _ => Idled t :=
    (idle_emit _ rfl).bind fun _ => idle_setVars fun _ => rfl
  have hb : Triple (Idle.step t) (Idled t) setCmdbuf fun _ => Idled t := idle_setVars fun _ => rfl
  have he (c : Command) : Triple (Idle.step t) (Idled t) (cliExec c arg) fun _ => Idled t :=
    idle_get fun _ => (hs c).bind fun _ => hb.bind fun _ => idle_pure 0
  have hq : Triple (Idle.step t) (Idled t) (setVars fun v => { v with doloop := false }) fun _ => Idled t :=
    idle_setVars fun _ => rfl
  cases f with
  | execee => exact he .execps2
  | execeiop => exact he .execiop
  | reset => exact (hs .reset).bind fun _ => idle_pure 0
  | benchmark => exact (hs .benchmark).bind fun _ => idle_pure 0
  | quit => exact (hs .quit).bind fun _ => hq.bind fun _ => idle_pure 0
  | _ => exact idle_pure 0

theorem idle_executeLine (line : List Byte) :
    Triple (Idle.step t) (Idled t) (executeLine line) fun _ => Idled t := by
  have hx : Triple (Idle.step t) (Idled t) (emit (.execute line) rfl) fun _ => Restarted t :=
    fun n w hw => ⟨0, rfl, fun _ _ => hw.restarted⟩
  refine hx.bind fun _ => idle_clear.bind fun _ => ?_
  cases findCommand (splitLine line).1 with
  | none => exact idle_pure (-1)
  | some f => exact idle_call f _

theorem idle_readChar (i : Input) : Triple (Idle.step t) (Idled t) (readChar i) fun _ => Idled t := by
  cases i with
  | line line => exact .ite (fun _ => idle_pure ()) fun _ => (idle_executeLine line).bind fun _ => idle_pure ()
  | key f => exact (idle_call f _).bind fun _ => idle_pure ()
  | _ => exact idle_pure ()

theorem idle_naplinkCheck : Triple (Idle.step t) (Idled t) naplinkCheck fun _ => Idled t :=
  (idle_asks fun r => by cases r <;> simp [Act.quiet]).bind fun _ => idle_pure ()

theorem idle_initializeNaplink : Triple (Idle.step t) (Restarted t) initializeNaplink fun _ => Restarted t :=
  fun _ _ hw => ⟨0, rfl, fun _ _ => hw⟩

theorem idle_inactivity : Triple (Idle.step t) (Idled t) inactivity fun _ => Idled t := by
  refine .get_bind fun w => .ite (fun hc => ?_) fun _ => .pure () fun _ _ hv => hv.2
  have hx : Triple (Idle.step t) (fun n v => v = w ∧ Idled t n v) (naplinkClose .expire rfl) fun _ => Restarted t := by
    rintro n _ ⟨rfl, ht, hn⟩
    have hlt : t < n := by
      rw [← ht]
      exact Nat.lt_of_lt_of_le hc.2 hn
    refine ⟨n, ?_, fun _ _ => ht⟩
    show watch (Idle.step t) n [.expire] = some n
    rw [watch_cons, Idle.step, if_pos hlt]
    rfl
  exact hx.bind fun _ => idle_clear.bind fun _ => idle_setTimedout true

theorem idle_poll : Triple (Idle.step t) (Idled t) poll fun _ => Idled t :=
  idle_get fun _ => .ite (fun _ => idle_pure ()) fun _ =>
    idle_naplinkCheck.bind fun _ => idle_naplinkProcess.bind fun _ => idle_setProcessing false

theorem idle_reinit : Triple (Idle.step t) (Idled t) reinit fun _ => Idled t :=
  (idle_initializeNaplink.bind fun _ => idle_clear.bind fun _ => idle_naplinkCheck.bind fun _ =>
    idle_naplinkProcess.bind fun _ => (idle_setTimedout false).bind fun _ => idle_setProcessing false).consequence
    (fun _ _ hw => hw.restarted) fun _ _ _ hw => hw

theorem idle_readInput (i : Input) : Triple (Idle.step t) (Idled t) (readInput i) fun _ => Idled t :=
  .ite (fun _ => idle_get fun _ => .ite (fun _ => idle_reinit.bind fun _ => idle_readChar i) fun _ => idle_readChar i)
    fun _ => idle_pure ()

theorem idle_processTimes (n : Nat) : Triple (Idle.step t) (Idled t) (processTimes n) fun _ => Idled t := by
  induction n with
  | zero => exact idle_pure ()
  | succ n ih => exact idle_naplinkProcess.bind fun _ => ih

theorem idle_turn (i : Input) : Triple (Idle.step t) (Idled t) (turn i) fun _ => Idled t := by
  have hd : Triple (Idle.step t) (Idled t) drain fun _ => Idled t :=
    idle_get fun _ => .ite (fun _ => idle_pure ()) fun _ => idle_processTimes 10
  exact idle_poll.bind fun _ => (idle_readInput i).bind fun _ => hd.bind fun _ => idle_inactivity

theorem idle_turns (is : List Input) : Triple (Idle.step t) (Idled t) (turns is) fun _ => Idled t := by
  induction is with
  | nil => exact idle_pure ()
  | cons i is ih =>
    exact idle_get fun _ => .ite (fun _ => (idle_turn i).bind fun _ => ih) fun _ => idle_emit rfl rfl

theorem idle_main (inputs : List Input) : Triple (Idle.step t) (Restarted t) (main inputs) fun _ => Restarted t := by
  have hi : Triple (Idle.step t) (Restarted t) (npSetCounter 0) fun _ => Idled t := idle_clear
  have hl : Triple (Idle.step t) (Restarted t) (do
      npSetCounter 0
      naplinkCheck
      naplinkProcess
      turns inputs
      pure 0 : Np Int) fun _ => Idled t :=
    hi.bind fun _ => idle_naplinkCheck.bind fun _ => idle_naplinkProcess.bind fun _ =>
      (idle_turns inputs).bind fun _ => idle_pure 0
  exact idle_initializeNaplink.bind fun _ => .ite (fun _ => .pure 1 fun _ _ hw => hw) fun _ =>
    hl.consequence (fun _ _ hw => hw) fun _ _ _ hw => hw.restarted

/-- The link is given up for inactivity only behind more questions than the
timeout, counted from the last request, command line or set-up of the link. -/
def GivenUpIdle (timeout : Nat) (r : Result World Act Int) : Prop := watch (Idle.step timeout) 0 r.acts ≠ none

theorem given_up_only_idle (inputs : List Input) (w : World) :
    GivenUpIdle w.timeout.toNat ((main inputs).run w) := by
  obtain ⟨n, hn, -⟩ := idle_main inputs 0 w (show Restarted w.timeout.toNat 0 w from rfl)
  rw [GivenUpIdle, hn]
  exact Option.some_ne_none n

end Loop

end Naplink
