import Pksh.NapAnswers

/-! When typed commands are sent: each at most once, in answer to a question of
the PS2, and only the one typed last. -/

namespace Naplink

open Wire Traced Pksh

/-- The command typed last, if it has not been sent, and whether the PS2 waits
for an answer to its question. -/
structure Pending where
  command : Option Command
  asked : Bool
deriving DecidableEq

namespace Pending

def step (k : Pending) : Act → Option Pending
  | .setCommand c => some ⟨some c, false⟩
  | .recv p => some ⟨k.command, p = .wazzup⟩
  | .send q =>
    if q.type = packetReturn then some ⟨k.command, false⟩
    else if k.asked = true ∧ k.command.map Command.type = some q.type then some ⟨none, false⟩
    else none
  | _ => some k

end Pending

def Act.calm : Act → Bool
  | .setCommand _ => false
  | .send q => q.type = packetReturn
  | _ => true

theorem Pending.step_calm (k : Pending) {a : Act} (h : a.calm = true) :
    ∃ asked, k.step a = some ⟨k.command, asked⟩ := by
  cases a with
  | recv p => exact ⟨_, rfl⟩
  | send q => exact ⟨false, by rw [step, if_pos (by simpa [Act.calm] using h)]⟩
  | setCommand c => cases h
  | _ => exact ⟨k.asked, rfl⟩

theorem Pending.watch_calm (k : Pending) {as : List Act} (h : ∀ a ∈ as, a.calm = true) :
    ∃ asked, watch step k as = some ⟨k.command, asked⟩ := by
  induction as generalizing k with
  | nil => exact ⟨k.asked, rfl⟩
  | cons a as ih =>
    obtain ⟨asked, ha⟩ := step_calm k (h a List.mem_cons_self)
    rw [watch_cons, ha, Option.bind_some]
    exact ih ⟨k.command, asked⟩ fun b hb => h b (List.mem_cons_of_mem _ hb)

theorem Packet.outcome_type {dirs : List (List Byte)} {p : Packet} {ops : List Act} {q : Sent}
    (h : p.outcome dirs ops = some q) : q.type = packetReturn := by
  unfold outcome at h
  split at h
  · split_ifs at h
    · exact Option.some.inj h ▸ rfl
    · obtain ⟨rv, _, rfl⟩ := Option.map_eq_some_iff.mp h
      rfl
  · split at h
    · split_ifs at h
      exact Option.some.inj h ▸ rfl
    · split_ifs at h
      exact Option.some.inj h ▸ rfl
    · cases h
  · split_ifs at h
    rename_i got _
    cases got <;> exact Option.some.inj h ▸ rfl
  · split_ifs at h
    exact Option.some.inj h ▸ rfl
  · split_ifs at h
    exact Option.some.inj h ▸ rfl
  · split_ifs at h
    exact Option.some.inj h ▸ rfl
  · split_ifs at h
    exact Option.some.inj h ▸ rfl
  · cases h

theorem calm_serves {p : Packet} {w : World} {r : Result World Act Unit} (h : Serves p w r) :
    ∀ a ∈ r.acts, a.calm = true := by
  obtain ⟨ops, q, ha, ho, hq⟩ := h.acts
  intro a hm
  rw [ha] at hm
  rcases List.mem_append.mp hm with hm | hm
  · have := ho a hm
    cases a <;> first | rfl | cases this
  · obtain rfl := List.mem_singleton.mp hm
    simpa [Act.calm] using Packet.outcome_type hq

section Round

variable {w : World} {b : Np Unit} {p : Packet} {rest : List Packet}

theorem recvAndProcess_other (h : w.incoming = p :: rest) (hp : p ≠ .wazzup) :
    ∃ s as, (recvAndProcess b).run w = ⟨some p, s, as⟩ ∧ s.commandWaiting = w.commandWaiting ∧
      s.incoming = rest ∧ ∀ a ∈ as, a.calm = true := by
  rw [recvAndProcess_cons h]
  by_cases hr : p.isRequest = true
  · have hs := serves_processPacket hr b (w.behind rest)
    refine ⟨_, _, by rw [Result.andThen_some _ hs.value]; rfl, hs.commandWaiting, hs.incoming, ?_⟩
    simpa [Act.calm] using calm_serves hs
  · cases p with
    | wazzup => exact absurd rfl hp
    | ret rv data => exact ⟨w.behind rest, [.recv _, .process _], rfl, rfl, rfl, by simp [Act.calm]⟩
    | bad type => exact ⟨w.behind rest, [.recv _, .process _], rfl, rfl, rfl, by simp [Act.calm]⟩
    | _ => exact absurd rfl hr

theorem doBenchmarkWith_acts (loop : Np Unit) (w : World) : ∃ v : World, v.commandWaiting = w.commandWaiting ∧
    v.incoming = w.incoming ∧ ((doBenchmarkWith loop).run w).acts =
      .send { type := packetBenchmark, size := 0, body := [] } :: (loop.run v).acts := by
  refine ⟨{ w with benchmarking := true }, rfl, rfl, ?_⟩
  cases hv : (loop.run { w with benchmarking := true }).value <;>
    simp [doBenchmarkWith, sendPacket, emit, setVars, Result.andThen, hv]

theorem processWazzup_benchmark (loop : Np Unit) (h : w.commandWaiting = some .benchmark) :
    ∃ v : World, v.commandWaiting = some .benchmark ∧ v.incoming = w.incoming ∧
      ((processWazzup (doBenchmarkWith loop)).run w).acts =
        .send { type := packetBenchmark, size := 0, body := [] } :: (loop.run v).acts := by
  obtain ⟨n, hn⟩ := processWazzup_run (doBenchmarkWith loop) w
  obtain ⟨v, hc, hi, ha⟩ := doBenchmarkWith_acts loop (w.counted n)
  refine ⟨v, hc.trans h, hi, ?_⟩
  rw [hn, h, sendCommand, ← ha]
  cases hv : ((doBenchmarkWith loop).run (w.counted n)).value with
  | none => rw [Result.andThen_none _ hv]
  | some a => rw [Result.andThen_some _ hv, Result.after_acts, List.append_nil]

/-- The packets up to the one that ends a benchmark. -/
def beforeReturn (ps : List Packet) : List Packet := ps.takeWhile fun p => !p.isReturn

theorem mem_beforeReturn_cons {q p : Packet} {ps : List Packet} :
    q ∈ beforeReturn (p :: ps) ↔ p.isReturn = false ∧ (q = p ∨ q ∈ beforeReturn ps) := by
  cases h : p.isReturn <;> simp [beforeReturn, h]

theorem triple_benchmark_quiet (n : Nat) :
    Triple Pending.step (fun _ w => .wazzup ∉ beforeReturn w.incoming) (benchmarkLoop n) fun _ _ _ => True := by
  induction n with
  | zero => exact fun k _ _ => ⟨k, rfl, fun _ h => nomatch h⟩
  | succ n ih =>
    intro k w hw
    rw [benchmarkLoop, Prog.run_bind]
    cases hi : w.incoming with
    | nil =>
      rw [recvAndProcess_nil hi]
      exact ⟨k, rfl, fun _ h => nomatch h⟩
    | cons p rest =>
      simp only [hi, mem_beforeReturn_cons, not_and, not_or] at hw
      have hp : p ≠ .wazzup := by
        rintro rfl
        exact (hw rfl).1 rfl
      obtain ⟨s, as, hr, _, hs, hc⟩ := recvAndProcess_other (b := doBenchmarkWith (benchmarkLoop n)) hi hp
      obtain ⟨asked, hk⟩ := Pending.watch_calm k hc
      rw [hr, Result.andThen_mk_some, Result.after_acts, watch_append_some hk]
      cases hret : p.isReturn with
      | true => exact ⟨_, rfl, fun _ _ => trivial⟩
      | false =>
        obtain ⟨k', hk', _⟩ := ih ⟨k.command, asked⟩ s fun hm => (hw hret).2 (hs ▸ hm)
        exact ⟨k', hk', fun _ _ => trivial⟩

/-- A question that comes before its end makes a benchmark start another one. -/
theorem benchmark_repeated (n : Nat) {k : Pending} (hk : k.command = none) {w : World}
    (hc : w.commandWaiting = some .benchmark) (hn : w.incoming.length ≤ n)
    (hw : .wazzup ∈ beforeReturn w.incoming) : watch Pending.step k ((benchmarkLoop n).run w).acts = none := by
  induction n generalizing k w with
  | zero =>
    rw [List.length_eq_zero_iff.mp (Nat.le_zero.mp hn)] at hw
    cases hw
  | succ n ih =>
    cases hi : w.incoming with
    | nil =>
      rw [hi] at hw
      cases hw
    | cons p rest =>
      rw [hi, mem_beforeReturn_cons] at hw
      rw [hi, List.length_cons, Nat.add_le_add_iff_right] at hn
      rw [benchmarkLoop, Prog.run_bind]
      obtain ⟨bs, hbs⟩ := Result.acts_prefix_andThen ((recvAndProcess (doBenchmarkWith (benchmarkLoop n))).run w)
        fun i => (if i.isReturn then pure () else benchmarkLoop n : Np Unit).run
      by_cases hp : p = .wazzup
      · subst hp
        obtain ⟨v, _, _, ha⟩ := processWazzup_benchmark (w := w.behind rest) (benchmarkLoop n) hc
        rw [← hbs, recvAndProcess_cons hi]
        refine watch_append_none ?_ bs
        obtain ⟨cs, hcs⟩ := Result.acts_prefix_andThen
          ((processWazzup (doBenchmarkWith (benchmarkLoop n))).run (w.behind rest))
          fun _ s => (⟨some Packet.wazzup, s, []⟩ : Result World Act Packet)
        rw [Result.after_acts, processPacket, ← hcs, ha]
        simp [Pending.step, hk, packetBenchmark, packetReturn]
      · obtain ⟨s, as, hr, hcs, hs, hcalm⟩ := recvAndProcess_other (b := doBenchmarkWith (benchmarkLoop n)) hi hp
        obtain ⟨asked, hka⟩ := Pending.watch_calm k hcalm
        rw [hr, Result.andThen_mk_some, Result.after_acts, watch_append_some hka, if_neg (by simp [hw.1])]
        exact ih (k := ⟨k.command, asked⟩) hk (hcs.trans hc) (hs ▸ hn) (hs ▸ hw.2.resolve_left fun h => hp h.symm)

/-- No other question is asked while a benchmark runs. -/
def Undisturbed : Event → World → Prop
  | .process, w => w.commandWaiting = some .benchmark → ∀ rest, w.incoming = .wazzup :: rest →
      .wazzup ∉ beforeReturn rest
  | _, _ => True

/-- The command that is waiting has not been sent. -/
def Unsent (k : Pending) (w : World) : Prop := ∀ c, w.commandWaiting = some c → k.command = some c

theorem getReturn_calm (w : World) : ∀ a ∈ (getReturn.run w).acts, a.calm = true := by
  cases hi : w.incoming with
  | nil =>
    rw [getReturn_nil hi]
    simp [Act.calm]
  | cons q rest =>
    rw [getReturn_cons hi]
    split <;> simp [Act.calm]

theorem packetFor_type {c : Command} {sent : Sent} (h : w.packetFor c = some sent) : sent.type = c.type := by
  cases c with
  | execps2 => obtain ⟨f, _, rfl⟩ := Option.map_eq_some_iff.mp h; rfl
  | execiop => obtain ⟨f, _, rfl⟩ := Option.map_eq_some_iff.mp h; rfl
  | _ => exact Option.some.inj h ▸ rfl

theorem step_command {k : Pending} {c : Command} {sent : Sent} (hk : k = ⟨some c, true⟩) (ht : sent.type = c.type) :
    k.step (.send sent) = some ⟨none, false⟩ := by
  subst hk
  rw [Pending.step, if_neg (by rw [ht]; exact c.type_ne_return), if_pos ⟨rfl, by rw [ht]; rfl⟩]

theorem watch_processWazzup {k : Pending} {w : World} (ha : k.asked = true) (hu : Unsent k w) (n : Nat)
    (hd : w.commandWaiting = some .benchmark → .wazzup ∉ beforeReturn w.incoming) :
    ∃ k', watch Pending.step k ((processWazzup (doBenchmarkWith (benchmarkLoop n))).run w).acts = some k' := by
  cases hc : w.commandWaiting with
  | none =>
    obtain ⟨m, hm⟩ := processWazzup_run (doBenchmarkWith (benchmarkLoop n)) w
    rw [hm, hc]
    exact ⟨_, rfl⟩
  | some c =>
    have hk : k = ⟨some c, true⟩ := by
      cases k
      rw [← hu c hc, ← ha]
    by_cases hb : c = .benchmark
    · subst hb
      obtain ⟨v, _, hi, hacts⟩ := processWazzup_benchmark (benchmarkLoop n) hc
      rw [hacts, watch_cons, step_command hk rfl, Option.bind_some]
      obtain ⟨k', hk', _⟩ := triple_benchmark_quiet n ⟨none, false⟩ v fun hm => hd hc (hi ▸ hm)
      exact ⟨k', hk'⟩
    · obtain ⟨m, hacts⟩ := processWazzup_acts (b := doBenchmarkWith (benchmarkLoop n)) hc hb
      rw [hacts]
      cases hp : w.packetFor c with
      | none => exact ⟨k, rfl⟩
      | some sent =>
        rw [Option.elim_some, watch_cons, step_command hk (packetFor_type hp), Option.bind_some]
        obtain ⟨asked, h⟩ := Pending.watch_calm ⟨none, false⟩ (getReturn_calm (w.counted m))
        exact ⟨_, h⟩

theorem processWazzup_cleared {a : Unit} (h : ((processWazzup b).run w).value = some a) :
    ((processWazzup b).run w).state.commandWaiting = none := by
  obtain ⟨n, hn⟩ := processWazzup_run b w
  rw [hn] at h ⊢
  cases hv : ((sendCommand b w.buffered w.commandWaiting).run (w.counted n)).value with
  | none =>
    rw [Result.andThen_none _ hv] at h
    cases h
  | some a =>
    rw [Result.andThen_some _ hv]
    rfl

theorem triple_command_process : Triple Pending.step (fun k w => Unsent k w ∧ Undisturbed .process w)
    (Event.exec .process) fun _ => Unsent := by
  rintro k w ⟨hu, hd⟩
  cases hi : w.incoming with
  | nil =>
    rw [process_run, recvAndProcess_nil hi]
    exact ⟨k, rfl, fun _ h => nomatch h⟩
  | cons p rest =>
    by_cases hp : p = .wazzup
    · subst hp
      obtain ⟨k', hk'⟩ := watch_processWazzup (k := ⟨k.command, true⟩) (w := w.behind rest) rfl hu w.incoming.length
        fun hc => hd hc rest hi
      rw [process_wazzup hi, Result.after_acts, Result.acts_andThen_pure]
      refine ⟨k', hk', fun _ hv c hc => ?_⟩
      cases hw : ((processWazzup w.benchmark).run (w.behind rest)).value with
      | none =>
        rw [Result.andThen_none _ hw] at hv
        cases hv
      | some a =>
        rw [Result.andThen_some _ hw, Result.after_state, Result.after_state, processWazzup_cleared hw] at hc
        cases hc
    · obtain ⟨s, as, hr, hs, _, hcalm⟩ := recvAndProcess_other (b := w.benchmark) hi hp
      obtain ⟨asked, hk⟩ := Pending.watch_calm k hcalm
      rw [process_run, hr, Result.andThen_mk_some, Result.after_mk, List.append_nil]
      exact ⟨_, hk, fun _ _ c hc => hu c (hs ▸ hc)⟩

theorem process_repeats {k : Pending} (hu : Unsent k w) (hd : ¬Undisturbed .process w) :
    watch Pending.step k ((Event.exec .process).run w).acts = none := by
  simp only [Undisturbed, not_forall, not_not] at hd
  obtain ⟨hc, rest, hi, hm⟩ := hd
  obtain ⟨v, hv, hvi, hacts⟩ := processWazzup_benchmark (w := w.behind rest) (benchmarkLoop w.incoming.length) hc
  have hk : (⟨k.command, true⟩ : Pending) = ⟨some .benchmark, true⟩ := by rw [hu _ hc]
  have hl : v.incoming.length ≤ w.incoming.length := by
    rw [hvi, hi]
    exact Nat.le_succ _
  have ht : watch Pending.step k [.recv .wazzup, .process .wazzup] = some ⟨k.command, true⟩ := rfl
  rw [process_wazzup hi, Result.after_acts, watch_append_some ht, Result.acts_andThen_pure, World.benchmark, hacts,
    watch_cons, step_command hk rfl, Option.bind_some]
  exact benchmark_repeated _ rfl hv hl (hvi ▸ hm)

end Round

section Typed

theorem Pending.watch_same {k : Pending} {w w' : World} {as : List Act} (hu : Unsent k w)
    (h : ∀ a ∈ as, a.calm = true) (hc : w'.commandWaiting = w.commandWaiting) :
    ∃ k', watch step k as = some k' ∧ Unsent k' w' := by
  obtain ⟨asked, hk⟩ := watch_calm k h
  exact ⟨_, hk, fun c hw => hu c (hc ▸ hw)⟩

theorem triple_setVars {f : Vars → Vars} (h : ∀ v, (f v).commandWaiting = v.commandWaiting) :
    Triple Pending.step Unsent (setVars f) fun _ => Unsent :=
  fun k w hu => ⟨k, rfl, fun _ _ c hc => hu c (h w.toVars ▸ hc)⟩

theorem triple_npSetCounter (n : Word) : Triple Pending.step Unsent (npSetCounter n) fun _ => Unsent :=
  triple_setVars fun _ => rfl

theorem triple_setTimedout (b : Bool) : Triple Pending.step Unsent (setTimedout b) fun _ => Unsent :=
  triple_setVars fun _ => rfl

theorem triple_emit {a : Act} (h : a.still = true) (ha : a.calm = true) :
    Triple Pending.step Unsent (emit a h) fun _ => Unsent := by
  intro k w hu
  obtain ⟨asked, hk⟩ := k.watch_calm (show ∀ b ∈ [a], b.calm = true by simpa using ha)
  exact ⟨_, hk, fun _ _ => hu⟩

theorem triple_asks {α : Type} {answer : World → α} {act : α → List Act} {h : ∀ r, (act r).all Act.still = true}
    (ha : ∀ r, ∀ a ∈ act r, a.calm = true) : Triple Pending.step Unsent (asks answer act h) fun _ => Unsent := by
  intro k w hu
  obtain ⟨asked, hk⟩ := k.watch_calm (ha (answer w))
  exact ⟨_, hk, fun _ _ => hu⟩

theorem triple_setCommand (c : Command) : Triple Pending.step Unsent (setCommand c) fun _ => Unsent := by
  intro k w _
  refine ⟨⟨some c, false⟩, rfl, fun _ _ d hd => ?_⟩
  exact hd

theorem triple_pure {α : Type} (a : α) : Triple Pending.step Unsent (pure a : Np α) fun _ => Unsent :=
  .pure a fun _ _ h => h

theorem triple_call (f : CliFunc) (arg : Mem) : Triple Pending.step Unsent (f.call arg) fun _ => Unsent := by
  have he (c : Command) : Triple Pending.step Unsent (cliExec c arg) fun _ => Unsent :=
    .get_bind fun w => ((triple_setCommand c).bind fun _ => (triple_setVars fun _ => rfl).bind fun _ =>
      triple_pure 0).consequence (fun _ _ h => h.2) fun _ _ _ h => h
  cases f with
  | execee => exact he .execps2
  | execeiop => exact he .execiop
  | reset => exact (triple_setCommand .reset).bind fun _ => triple_pure 0
  | benchmark => exact (triple_setCommand .benchmark).bind fun _ => triple_pure 0
  | quit => exact (triple_setCommand .quit).bind fun _ => (triple_setVars fun _ => rfl).bind fun _ => triple_pure 0
  | _ => exact triple_pure 0

theorem triple_readChar (i : Input) : Triple Pending.step Unsent (readChar i) fun _ => Unsent := by
  have hx (line : List Byte) : Triple Pending.step Unsent (executeLine line) fun _ => Unsent := by
    refine (triple_emit _ rfl).bind fun _ => (triple_npSetCounter 0).bind fun _ => ?_
    cases findCommand (splitLine line).1 with
    | none => exact triple_pure (-1)
    | some f => exact triple_call f _
  cases i with
  | line line => exact .ite (fun _ => triple_pure ()) fun _ => (hx line).bind fun _ => triple_pure ()
  | key f => exact (triple_call f _).bind fun _ => triple_pure ()
  | _ => exact triple_pure ()

theorem triple_command (e : Event) :
    Triple Pending.step (fun k w => Unsent k w ∧ Undisturbed e w) e.exec fun _ => Unsent := by
  by_cases he : e = .process
  · subst he
    exact triple_command_process
  · refine Triple.consequence (P := Unsent) ?_ (fun _ _ h => h.1) fun _ _ _ h => h
    cases e with
    | process => exact absurd rfl he
    | look => exact (triple_asks (by simp)).bind fun _ => triple_pure ()
    | typed i => exact triple_readChar i
    | check => exact (triple_asks fun r => by cases r <;> simp [Act.calm]).bind fun _ => triple_pure ()
    | linkUp => exact ((triple_asks fun _ => by simp [Act.calm]).bind fun _ => triple_pure _).bind fun _ => triple_pure ()
    | expire =>
      have hx : Triple Pending.step Unsent (naplinkClose .expire rfl) fun _ => Unsent := triple_emit _ rfl
      exact .get_bind fun w => (Triple.ite (fun _ => hx.bind fun _ => (triple_npSetCounter 0).bind fun _ =>
        triple_setTimedout true) fun _ => triple_pure ()).consequence (fun _ _ h => h.2) fun _ _ _ h => h
    | shut => exact triple_emit rfl rfl
    | clearCounter => exact triple_npSetCounter 0
    | clearProcessing => exact triple_setVars fun _ => rfl
    | resume => exact triple_setTimedout false

/-- Each typed command is sent at most once, in answer to a question of the PS2
that comes while it is waiting, and only when no other was typed after it. -/
def SentOnce (w : World) (r : Result World Act Unit) : Prop :=
  watch Pending.step ⟨w.commandWaiting, false⟩ r.acts ≠ none

theorem commands_sent_once_iff (es : List Event) (w : World) :
    SentOnce w ((runEvents es).run w) ↔ ∀ e ∈ journalOf Event.exec es w, Undisturbed e.1 e.2 := by
  have hs : Unsent ⟨w.commandWaiting, false⟩ w := fun _ h => h
  refine ⟨fun h => ?_, fun hc => ?_⟩
  · by_contra hc
    refine h (watch_runAll_none triple_command (fun e k v hu hd => ?_) es hs hc)
    by_cases he : e = .process
    · subst he
      exact process_repeats hu hd
    · cases e <;> first | exact absurd rfl he | exact absurd trivial hd
  · obtain ⟨k, hk, _⟩ := watch_runAll triple_command es hs hc
    rw [SentOnce, hk]
    exact Option.some_ne_none k

def askedDuringBenchmark : World := .booted .plain 0 [] [.wazzup, .wazzup, .ret 0 [], .ret 0 []]

theorem benchmark_sent_twice : ¬∀ es w, SentOnce w ((runEvents es).run w) :=
  fun h => h [.typed (.key .benchmark), .process] askedDuringBenchmark rfl

end Typed

end Naplink
