import Pksh.NapDuties

/-! What happens to the requests that the PS2 sends: each is to be processed
and answered by one packet that returns the result of its operation. -/

namespace Naplink

open Wire Traced Pksh

/-- What the PS2 is owed: nothing, the processing of a request, its answer, or
some packet in answer to its question for a command. -/
inductive Duty
  | idle
  | taken (p : Packet)
  | owed (p : Packet) (ops : List Act)
  | greeted
deriving DecidableEq

namespace Duty

def settled : Duty → Bool
  | .idle | .greeted => true
  | _ => false

def receive (p : Packet) : Duty :=
  if p.isRequest then .taken p else if p = .wazzup then .greeted else .idle

/-- Behind a request come its processing, its system calls, and the packet that
returns their result; no other packet is returned but to a question. -/
def step (dirs : List (List Byte)) : Duty → Act → Option Duty
  | .taken p, .process p' => if p' = p then some (.owed p []) else none
  | .taken _, _ => none
  | .owed p ops, .send q => if p.outcome dirs ops = some q then some .idle else none
  | .owed p ops, a => if a.isOp then some (.owed p (ops ++ [a])) else none
  | _, .recv p => some (receive p)
  | .greeted, .send _ => some .idle
  | .idle, .send q => if q.type = packetReturn then none else some .idle
  | d, a => if a.isOp then none else some d

variable {dirs : List (List Byte)}

theorem step_recv {d : Duty} (h : d.settled = true) (p : Packet) : step dirs d (.recv p) = some (receive p) := by
  cases d <;> first | rfl | cases h

theorem step_op (p : Packet) (ops : List Act) {a : Act} (h : a.isOp = true) :
    step dirs (.owed p ops) a = some (.owed p (ops ++ [a])) := by
  cases a <;> simp_all [Act.isOp, step]

theorem watch_ops (p : Packet) (done ops : List Act) (h : ∀ a ∈ ops, a.isOp = true) :
    watch (step dirs) (.owed p done) ops = some (.owed p (done ++ ops)) := by
  induction ops generalizing done with
  | nil => simp
  | cons a ops ih =>
    rw [watch_cons, step_op p done (h a List.mem_cons_self), Option.bind_some,
      ih _ fun a' ha => h a' (List.mem_cons_of_mem _ ha), List.append_assoc]
    rfl

theorem watch_serves {p : Packet} {w : World} {r : Result World Act Unit} (h : Serves p w r) :
    watch (step w.pathList) (.owed p []) r.acts = some .idle := by
  obtain ⟨ops, q, ha, ho, hq⟩ := h.acts
  rw [ha, watch_append_some (watch_ops p [] ops ho), List.nil_append, watch_cons, step, if_pos hq]
  rfl

theorem watch_waits {d : Duty} (h : d.settled = true) : watch (step dirs) d [.waits] = some d := by
  cases d <;> first | rfl | cases h

theorem watch_taken {d : Duty} (h : d.settled = true) (p : Packet) :
    watch (step dirs) d [.recv p, .process p] = some (if p.isRequest then .owed p [] else receive p) := by
  rw [watch_cons, step_recv h, Option.bind_some]
  cases p <;> simp [receive, step, Packet.isRequest, Act.isOp]

end Duty

section Rounds

variable {dirs : List (List Byte)} {b : Np Unit} {w : World}

def World.counted (w : World) (n : Word) : World := { w with counter := n }

theorem countWazzup_run (w : World) : ∃ n, countWazzup.run w = ⟨some (), w.counted n, []⟩ := by
  rw [countWazzup, Prog.run_bind, Prog.run_get, Result.andThen_mk_some]
  by_cases h : w.processing = true
  · exact ⟨w.counter, by rw [if_pos h]; rfl⟩
  · exact ⟨w.counter + 1, by rw [if_neg h]; rfl⟩

theorem answerWazzup_run (b : Np Unit) (w : World) :
    (answerWazzup b).run w = ((sendCommand b w.buffered w.commandWaiting).run w).andThen fun _ s =>
      ⟨some (), { s with commandWaiting := none }, []⟩ := rfl

/-- The state behind the answer to a question. -/
def World.cleared (w : World) : World := { w with commandWaiting := none }

theorem processWazzup_run (b : Np Unit) (w : World) : ∃ n, (processWazzup b).run w =
    ((sendCommand b w.buffered w.commandWaiting).run (w.counted n)).andThen fun _ s => ⟨some (), s.cleared, []⟩ := by
  obtain ⟨n, hn⟩ := countWazzup_run w
  refine ⟨n, ?_⟩
  rw [processWazzup, Prog.run_bind, hn, Result.andThen_mk_some]
  rfl

def Lull (w : World) : Prop := w.commandWaiting = none ∨ w.commandWaiting = some .benchmark

/-- The PS2 is owed nothing, and no command is waiting but a benchmark. -/
def Settled (dirs : List (List Byte)) (d : Duty) (w : World) : Prop :=
  d.settled = true ∧ w.pathList = dirs ∧ Lull w

/-- The PS2 has asked for a command, and will get a benchmark or none. -/
def Asked (dirs : List (List Byte)) (d : Duty) (w : World) : Prop := d = .greeted ∧ w.pathList = dirs ∧ Lull w

def Freed (dirs : List (List Byte)) (d : Duty) (w : World) : Prop := d.settled = true ∧ w.pathList = dirs

theorem triple_processWazzup (hb : Triple (Duty.step dirs) (Asked dirs) b fun _ => Freed dirs) :
    Triple (Duty.step dirs) (Asked dirs) (processWazzup b) fun _ => Settled dirs := by
  have hc : Triple (Duty.step dirs) (Asked dirs) countWazzup fun _ => Asked dirs := by
    refine .of_pass fun k w hw => ?_
    obtain ⟨n, hn⟩ := countWazzup_run w
    rw [hn]
    exact ⟨by simp, fun _ _ => hw⟩
  refine hc.bind fun _ k w hw => ?_
  obtain ⟨rfl, hd, hl⟩ := hw
  rw [answerWazzup_run]
  rcases hl with hn | hn
  · rw [hn]
    exact ⟨.idle, rfl, fun _ _ => ⟨rfl, hd, .inl rfl⟩⟩
  · rw [hn, sendCommand]
    obtain ⟨k', hk, hf⟩ := hb .greeted w ⟨rfl, hd, .inr hn⟩
    cases hv : (b.run w).value with
    | none =>
      rw [Result.andThen_none _ hv]
      exact ⟨k', hk, fun _ h => nomatch h⟩
    | some a =>
      rw [Result.andThen_some _ hv]
      exact ⟨k', by simpa using hk, fun _ _ => ⟨(hf a hv).1, (hf a hv).2, .inl rfl⟩⟩

theorem triple_doBenchmarkWith {loop : Np Unit}
    (hl : Triple (Duty.step dirs) (Settled dirs) loop fun _ => Settled dirs) :
    Triple (Duty.step dirs) (Asked dirs) (doBenchmarkWith loop) fun _ => Freed dirs := by
  have hs : Triple (Duty.step dirs) (Asked dirs)
      (sendPacket { type := packetBenchmark, size := 0, body := [] }) fun _ => Settled dirs := by
    rintro _ w ⟨rfl, hd, hw⟩
    exact ⟨.idle, rfl, fun _ _ => ⟨rfl, hd, hw⟩⟩
  have hv (x : Bool) : Triple (Duty.step dirs) (Settled dirs) (setVars fun v => { v with benchmarking := x })
      fun _ => Settled dirs := fun k w hw => ⟨k, rfl, fun _ _ => hw⟩
  exact hs.bind fun _ => (hv true).bind fun _ => hl.bind fun _ =>
    (hv false).consequence (fun _ _ h => h) fun _ _ _ h => ⟨h.1, h.2.1⟩

theorem recvAndProcess_at {d : Duty} (hk : d.settled = true) (hd : w.pathList = dirs) {Q : Duty → World → Prop}
    (hq : ∀ s, s.commandWaiting = w.commandWaiting → s.pathList = dirs → Q .idle s)
    (hz : ∀ rest, w.incoming = .wazzup :: rest →
      ∃ d', watch (Duty.step dirs) .greeted ((processWazzup b).run (w.behind rest)).acts = some d' ∧
        ∀ a, ((processWazzup b).run (w.behind rest)).value = some a → Q d' ((processWazzup b).run (w.behind rest)).state) :
    ∃ d', watch (Duty.step dirs) d ((recvAndProcess b).run w).acts = some d' ∧
      ∀ a, ((recvAndProcess b).run w).value = some a → Q d' ((recvAndProcess b).run w).state := by
  cases hi : w.incoming with
  | nil =>
    rw [recvAndProcess_nil hi]
    exact ⟨d, Duty.watch_waits hk, fun _ h => nomatch h⟩
  | cons p rest =>
    have hw : watch (Duty.step dirs) d _ = some _ := Duty.watch_taken hk p
    rw [recvAndProcess_cons hi, Result.after_acts, watch_append_some hw]
    by_cases hp : p.isRequest = true
    · have hs := serves_processPacket hp b (w.behind rest)
      have hdone := Duty.watch_serves hs
      rw [show (w.behind rest).pathList = dirs from hd] at hdone
      rw [if_pos hp, Result.andThen_some _ hs.value]
      exact ⟨.idle, (congrArg (watch _ _) (List.append_nil _)).trans hdone, fun _ _ =>
        hq _ hs.commandWaiting (((processPacket b p).keeps (w.behind rest)).pathList.trans hd)⟩
    · rw [if_neg hp]
      cases p with
      | wazzup =>
        obtain ⟨d', hd', hf⟩ := hz rest hi
        cases hv : ((processWazzup b).run (w.behind rest)).value with
        | none =>
          rw [processPacket, Result.andThen_none _ hv]
          exact ⟨d', hd', fun _ h => nomatch h⟩
        | some a =>
          rw [processPacket, Result.andThen_some _ hv]
          exact ⟨d', (congrArg (watch _ _) (List.append_nil _)).trans hd', fun _ _ => hf a hv⟩
      | ret rv data => exact ⟨.idle, rfl, fun _ _ => hq _ rfl hd⟩
      | bad type => exact ⟨.idle, rfl, fun _ _ => hq _ rfl hd⟩
      | _ => exact absurd rfl hp

theorem triple_recvAndProcess (hb : Triple (Duty.step dirs) (Asked dirs) b fun _ => Freed dirs) :
    Triple (Duty.step dirs) (Settled dirs) (recvAndProcess b) fun _ => Settled dirs := by
  rintro k w ⟨hk, hd, hl⟩
  exact recvAndProcess_at hk hd (fun s hc hp => ⟨rfl, hp, hl.imp hc.trans hc.trans⟩) fun rest _ =>
    triple_processWazzup hb .greeted (w.behind rest) ⟨rfl, hd, hl⟩

theorem triple_benchmarkLoop (n : Nat) :
    Triple (Duty.step dirs) (Settled dirs) (benchmarkLoop n) fun _ => Settled dirs := by
  induction n with
  | zero =>
    rintro k w ⟨hk, _, _⟩
    exact ⟨k, Duty.watch_waits hk, fun _ h => nomatch h⟩
  | succ n ih =>
    exact (triple_recvAndProcess (triple_doBenchmarkWith ih)).bind fun i =>
      .ite (fun _ => .pure () fun _ _ h => h) fun _ => ih

end Rounds

section Exchange

variable {dirs : List (List Byte)} {w : World} {q : Packet} {rest : List Packet}

theorem getReturn_cons (h : w.incoming = q :: rest) :
    (getReturn.run w).acts = if q.isReturn then [.recv q] else [.recv q, .unexpected q] := by
  have hr : recvPacket.run w = ⟨some q, w.behind rest, [.recv q]⟩ := by simp [recvPacket, h, World.behind]
  rw [getReturn, Prog.run_bind, hr, Result.andThen_mk_some]
  cases q <;> rfl

theorem getReturn_nil (h : w.incoming = []) : getReturn.run w = ⟨none, w, [.waits]⟩ := by
  have hr : recvPacket.run w = ⟨none, w, [.waits]⟩ := by simp [recvPacket, h]
  rw [getReturn, Prog.run_bind, hr, Result.andThen_mk_none]

theorem watch_getReturn (h : ∀ q rest, w.incoming = q :: rest → q.isRequest = false) :
    ∃ d, watch (Duty.step dirs) .idle (getReturn.run w).acts = some d ∧ d.settled = true := by
  cases hi : w.incoming with
  | nil =>
    rw [getReturn_nil hi]
    exact ⟨.idle, rfl, rfl⟩
  | cons q rest =>
    have hq := h q rest hi
    rw [getReturn_cons hi]
    cases q with
    | wazzup => exact ⟨.greeted, rfl, rfl⟩
    | ret rv data => exact ⟨.idle, rfl, rfl⟩
    | bad type => exact ⟨.idle, rfl, rfl⟩
    | _ => cases hq

theorem watch_getReturn_none (h : w.incoming = q :: rest) (hq : q.isRequest = true) :
    watch (Duty.step dirs) .idle (getReturn.run w).acts = none := by
  rw [getReturn_cons h]
  cases q <;> first | rfl | cases hq

theorem processWazzup_acts {b : Np Unit} {c : Command} (hc : w.commandWaiting = some c) (hb : c ≠ .benchmark) :
    ∃ n, ((processWazzup b).run w).acts =
      (w.packetFor c).elim [] fun sent => .send sent :: (getReturn.run (w.counted n)).acts := by
  obtain ⟨n, hn⟩ := countWazzup_run w
  refine ⟨n, ?_⟩
  have hc' : (w.counted n).commandWaiting = some c := hc
  have hp : (w.counted n).packetFor c = w.packetFor c := by cases c <;> rfl
  rw [processWazzup, Prog.run_bind, hn, Result.andThen_mk_some, Result.after_acts, List.nil_append, answerWazzup_run,
    hc', sendCommand_exchange _ hb, hp]
  cases w.packetFor c with
  | none => rfl
  | some sent =>
    cases hv : (getReturn.run (w.counted n)).value <;>
      simp [exchange, sendPacket, emit, Result.andThen, hv]

/-- No request comes while a command waits for its return value. -/
def Heard : Event → World → Prop
  | .process, w => ∀ c q rest, w.commandWaiting = some c → c ≠ .benchmark → w.packetFor c ≠ none →
      w.incoming = .wazzup :: q :: rest → q.isRequest = false
  | _, _ => True

/-- What `do_benchmark` does when the packets still to come are those of `w`. -/
def World.benchmark (w : World) : Np Unit := doBenchmarkWith (benchmarkLoop w.incoming.length)

theorem process_run (w : World) : (Event.exec .process).run w =
    ((recvAndProcess w.benchmark).run w).andThen fun _ s => ⟨some (), s, []⟩ := rfl

theorem process_wazzup (h : w.incoming = .wazzup :: rest) : (Event.exec .process).run w =
    (((processWazzup w.benchmark).run (w.behind rest)).andThen fun _ s => ⟨some (), s, []⟩).after
      [.recv .wazzup, .process .wazzup] := by
  rw [process_run, recvAndProcess_cons h, processPacket]
  cases hv : ((processWazzup w.benchmark).run (w.behind rest)).value with
  | none =>
    rw [Result.andThen_none _ hv, Result.andThen_none _ hv]
    rfl
  | some a =>
    rw [Result.andThen_some _ hv, Result.andThen_some _ hv]
    simp

theorem triple_process : Triple (Duty.step dirs) (fun d w => Freed dirs d w ∧ Heard .process w)
    (Event.exec .process) fun _ => Freed dirs := by
  rintro d w ⟨⟨hk, hd⟩, hh⟩
  have hstep : ∃ d', watch (Duty.step dirs) d ((recvAndProcess w.benchmark).run w).acts = some d' ∧
      ∀ a, ((recvAndProcess w.benchmark).run w).value = some a → d'.settled = true := by
    refine recvAndProcess_at (Q := fun d _ => d.settled = true) hk hd (fun _ _ _ => rfl) fun rest hi => ?_
    by_cases hl : Lull w
    · obtain ⟨d', hd', hs⟩ := triple_processWazzup (triple_doBenchmarkWith (triple_benchmarkLoop _)) .greeted
        (w.behind rest) ⟨rfl, hd, hl⟩
      exact ⟨d', hd', fun a ha => (hs a ha).1⟩
    · obtain ⟨hn, hb⟩ := not_or.mp hl
      obtain ⟨c, hc⟩ := Option.ne_none_iff_exists'.mp hn
      have hcb : c ≠ .benchmark := fun h => hb (h ▸ hc)
      obtain ⟨n, hacts⟩ := processWazzup_acts (w := w.behind rest) (b := w.benchmark) hc hcb
      rw [hacts, show (w.behind rest).packetFor c = w.packetFor c by cases c <;> rfl]
      cases hp : w.packetFor c with
      | none => exact ⟨.greeted, rfl, fun _ _ => rfl⟩
      | some sent =>
        have hnext : ∀ q rest', ((w.behind rest).counted n).incoming = q :: rest' → q.isRequest = false := fun q rest' hq =>
          hh c q rest' hc hcb (by simp [hp]) (by rw [hi, show rest = q :: rest' from hq])
        obtain ⟨d', hd', hs⟩ : ∃ d', watch (Duty.step dirs) .idle _ = some d' ∧ d'.settled = true :=
          watch_getReturn hnext
        exact ⟨d', hd', fun _ _ => hs⟩
  obtain ⟨d', hd', hs⟩ := hstep
  refine ⟨d', by rw [process_run, Result.acts_andThen_pure, hd'], fun _ hv => ⟨?_, ((Event.exec .process).keeps w).pathList.trans hd⟩⟩
  cases hr : ((recvAndProcess w.benchmark).run w).value with
  | none =>
    rw [process_run, Result.andThen_none _ hr] at hv
    cases hv
  | some a => exact hs a hr

theorem process_refused {d : Duty} (hf : Freed dirs d w) (hh : ¬Heard .process w) :
    watch (Duty.step dirs) d ((Event.exec .process).run w).acts = none := by
  simp only [Heard, not_forall] at hh
  obtain ⟨c, q, rest, hc, hcb, hp, hi, hq⟩ := hh
  obtain ⟨sent, hp⟩ := Option.ne_none_iff_exists'.mp hp
  obtain ⟨n, hacts⟩ := processWazzup_acts (w := w.behind (q :: rest)) (b := w.benchmark) hc hcb
  rw [show (w.behind (q :: rest)).packetFor c = w.packetFor c by cases c <;> rfl, hp, Option.elim_some] at hacts
  rw [process_wazzup hi, Result.after_acts, watch_append_some (Duty.watch_taken hf.1 _), Result.acts_andThen_pure, hacts]
  exact watch_getReturn_none rfl (by simpa using hq)

theorem Duty.step_own {d : Duty} (hd : d.settled = true) {a : Act} (ha : a.own = true) :
    step dirs d a = some d := by
  revert hd ha
  cases d <;> cases a <;> simp [settled, Act.own, step, Act.isOp]

theorem triple_exec (e : Event) :
    Triple (Duty.step dirs) (fun d w => Freed dirs d w ∧ Heard e w) e.exec fun _ => Freed dirs := by
  by_cases he : e = .process
  · subst he
    exact triple_process
  · rintro d w ⟨⟨hk, hd⟩, _⟩
    exact ⟨d, watch_of_pass fun a ha => Duty.step_own hk (Own.exec he w a ha),
      fun _ _ => ⟨hk, (e.exec.keeps w).pathList.trans hd⟩⟩

/-- Each request received is processed and answered by one packet that returns
the result of its operation, before anything else is received. -/
def Answered (w : World) (r : Result World Act Unit) : Prop :=
  ∃ d, watch (Duty.step w.pathList) .idle r.acts = some d ∧ (r.value ≠ none → d.settled = true)

theorem requests_answered_iff (es : List Event) (w : World) :
    Answered w ((runEvents es).run w) ↔ ∀ e ∈ journalOf Event.exec es w, Heard e.1 e.2 := by
  have hs : Freed w.pathList .idle w := ⟨rfl, rfl⟩
  refine ⟨fun ⟨d, hd, _⟩ => ?_, fun hc => ?_⟩
  · by_contra hc
    have hn := watch_runAll_none triple_exec (fun e d v hf hh => ?_) es hs hc
    · rw [hd] at hn
      cases hn
    · by_cases he : e = .process
      · subst he
        exact process_refused hf hh
      · cases e <;> first | exact absurd rfl he | exact absurd trivial hh
  · obtain ⟨d, hd, hf⟩ := watch_runAll triple_exec es hs hc
    refine ⟨d, hd, fun hv => ?_⟩
    obtain ⟨a, ha⟩ := Option.ne_none_iff_exists'.mp hv
    exact (hf a ha).1

/-- A close request comes while a reset waits for its return value. -/
def closeDuringReset : World := .booted .plain 0 [] [.wazzup, .close 3]

theorem close_unanswered : ¬∀ es w, Answered w ((runEvents es).run w) := by
  intro h
  obtain ⟨d, hd, _⟩ := h [.typed (.key .reset), .process] closeDuringReset
  have hn : watch (Duty.step []) .idle ((runEvents [.typed (.key .reset), .process]).run closeDuringReset).acts = none :=
    rfl
  rw [show closeDuringReset.pathList = [] from rfl, hn] at hd
  cases hd

end Exchange

end Naplink
