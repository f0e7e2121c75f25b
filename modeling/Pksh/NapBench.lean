import Pksh.NapAnswers

/-! Transfers during a benchmark: they are left out, and only they are. -/

namespace Naplink

open Wire Traced Pksh

namespace Bench

/-- A benchmark goes on from the packet that starts it to the next return
packet that is dispatched. Files are read and written outside of it only, and
transfers left out only inside. -/
def step : Bool → Act → Option Bool
  | k, .send p => some (if p.type = packetBenchmark then true else k)
  | k, .process p => some (if p.isReturn then false else k)
  | k, .read _ _ _ => if k then none else some k
  | k, .write _ _ _ => if k then none else some k
  | k, .sham _ _ => if k then some k else none
  | k, _ => some k

/-- The flag of the program says whether a benchmark goes on; one that goes on
at the end was going on before. -/
def Told (b : Bool) (k : Bool) (w : World) : Prop := w.benchmarking = k ∧ (k = true → b = true)

/-- What is known behind a packet that ends a benchmark. -/
def Over (b : Bool) (k : Bool) (w : World) : Prop := k = false ∧ (w.benchmarking = true → b = true)

def quiet : Act → Bool
  | .send p => p.type ≠ packetBenchmark
  | .process _ | .read _ _ _ | .write _ _ _ | .sham _ _ => false
  | _ => true

theorem step_quiet (k : Bool) {a : Act} (h : quiet a = true) : step k a = some k := by
  cases a with
  | send p =>
    have hp : p.type ≠ packetBenchmark := by simpa [quiet] using h
    rw [step, if_neg hp]
  | process p => cases h
  | read fd count ret => cases h
  | write fd bytes ret => cases h
  | sham count data => cases h
  | _ => rfl

section Steps

variable {α : Type} {b : Bool}

theorem told_quiet {m : Np α} (h : ∀ w, (∀ a ∈ (m.run w).acts, quiet a = true) ∧
    (m.run w).state.benchmarking = w.benchmarking) : Triple step (Told b) m fun _ => Told b :=
  .of_pass fun k w hw => ⟨fun a ha => step_quiet k ((h w).1 a ha), fun _ _ => ⟨(h w).2.trans hw.1, hw.2⟩⟩

theorem told_setVars {f : Vars → Vars} (h : ∀ v, (f v).benchmarking = v.benchmarking) :
    Triple step (Told b) (setVars f) fun _ => Told b := told_quiet fun w => ⟨fun _ ha => (nomatch ha), h w.toVars⟩

theorem told_emit {a : Act} (h : a.still = true) (ha : quiet a = true) :
    Triple step (Told b) (emit a h) fun _ => Told b :=
  told_quiet fun _ => ⟨fun _ hb => List.mem_singleton.mp hb ▸ ha, rfl⟩

theorem told_asks {answer : World → α} {act : α → List Act} {h : ∀ r, (act r).all Act.still = true}
    (ha : ∀ r, ∀ a ∈ act r, quiet a = true) : Triple step (Told b) (asks answer act h) fun _ => Told b :=
  told_quiet fun w => ⟨ha (answer w), rfl⟩

theorem told_pure (a : α) : Triple step (Told b) (pure a : Np α) fun _ => Told b := .pure a fun _ _ h => h

theorem told_get {g : World → Np α} {Q : α → Bool → World → Prop}
    (h : ∀ w, Triple step (fun k v => v = w ∧ Told b k v) (g w) Q) : Triple step (Told b) (Prog.get >>= g) Q := .get_bind h

theorem told_counter (n : Word) : Triple step (Told b) (npSetCounter n) fun _ => Told b := told_setVars fun _ => rfl

theorem told_processing (n : Bool) : Triple step (Told b) (npSetProcessing n) fun _ => Told b := told_setVars fun _ => rfl

theorem told_doReturn (rv : Int) (data : List Byte) (count : Int) :
    Triple step (Told b) (doReturn rv data count) fun _ => Told b := told_emit rfl rfl

theorem told_recvPacket : Triple step (Told b) recvPacket fun _ => Told b := by
  refine told_quiet fun w => ?_
  cases h : w.incoming <;> simp [recvPacket, h, quiet]

theorem told_exchange {q : Sent} (hq : q.type ≠ packetBenchmark) : Triple step (Told b) (exchange q) fun _ => Told b := by
  refine (told_emit rfl (by simpa [quiet] using hq)).bind fun _ => told_recvPacket.bind fun p => ?_
  cases p with
  | ret rv data => exact told_pure rv
  | _ => exact (told_emit rfl rfl).bind fun _ => told_pure (-1)

theorem told_doExec {type : Word} (h : type ≠ packetBenchmark) (filename : Option (List Byte)) :
    Triple step (Told b) (doExec type filename) fun _ => Told b := by
  cases filename with
  | none => exact told_pure (-1)
  | some filename => exact told_exchange h

end Steps

section Requests

variable {b : Bool}

theorem told_openAlong (pathname : List Byte) (flags : Word) (dirs : List (List Byte)) :
    Triple step (Told b) (openAlong pathname flags dirs) fun _ => Told b := by
  induction dirs with
  | nil => exact told_pure (-1)
  | cons dir dirs ih => exact (told_asks (by simp [quiet])).bind fun rv => .ite (fun _ => told_pure rv) fun _ => ih

theorem told_processOpen (flags : Word) (pathname : List Byte) :
    Triple step (Told b) (processOpen flags pathname) fun _ => Told b := by
  have ha : Triple step (Told b) (do let w ← Prog.get; openAlong pathname (pcFlags flags) w.pathList : Np Int)
      fun _ => Told b := told_get fun w => (told_openAlong _ _ _).consequence (fun _ _ h => h.2) fun _ _ _ h => h
  have hp : Triple step (Told b) (openPath pathname (pcFlags flags)) fun _ => Told b :=
    (told_asks (by simp [quiet])).bind fun rv => .ite (fun _ => ha) fun _ => told_pure rv
  exact (told_processing true).bind fun _ => (told_counter 0).bind fun _ =>
    .ite (fun _ => (told_pure 1).bind fun _ => told_doReturn _ _ _) fun _ => hp.bind fun _ => told_doReturn _ _ _

theorem told_transfer {p q : World → Np Unit}
    (hp : ∀ w, Triple step (fun k v => k = true ∧ Told b k v) (p w) fun _ => Told b)
    (hq : ∀ w, Triple step (fun k v => k = false ∧ Told b k v) (q w) fun _ => Told b) :
    Triple step (Told b) (Prog.get >>= fun w => if w.benchmarking then p w else q w) fun _ => Told b := by
  refine told_get fun w => .ite (fun hw => (hp w).consequence (fun k v h => ?_) fun _ _ _ h => h) fun hw =>
    (hq w).consequence (fun k v h => ?_) fun _ _ _ h => h
  · obtain ⟨rfl, ht⟩ := h
    exact ⟨ht.1.symm.trans hw, ht⟩
  · obtain ⟨rfl, ht⟩ := h
    exact ⟨ht.1.symm.trans (Bool.not_eq_true _ ▸ hw), ht⟩

theorem told_sham (count : Int) (data : List Byte) :
    Triple step (fun k w => k = true ∧ Told b k w) (emit (.sham count data) rfl) fun _ => Told b := by
  rintro _ w ⟨rfl, hw⟩
  exact ⟨true, rfl, fun _ _ => hw⟩

theorem told_sysRead (fd count : Int) :
    Triple step (fun k w => k = false ∧ Told b k w) (sysRead fd count) fun _ => Told b := by
  rintro _ w ⟨rfl, hw⟩
  exact ⟨false, rfl, fun _ _ => hw⟩

theorem told_sysWrite (fd : Int) (bytes : List Byte) :
    Triple step (fun k w => k = false ∧ Told b k w) (sysWrite fd bytes) fun _ => Told b := by
  rintro _ w ⟨rfl, hw⟩
  exact ⟨false, rfl, fun _ _ => hw⟩

theorem told_processRead (fd count : Int) : Triple step (Told b) (processRead fd count) fun _ => Told b := by
  refine (told_counter 0).bind fun _ => told_transfer (fun w => (told_sham _ _).bind fun _ => told_doReturn _ _ _) fun w => ?_
  refine (told_sysRead _ _).bind fun r => ?_
  cases r with
  | none => exact told_doReturn _ _ _
  | some bytes => exact told_doReturn _ _ _

theorem told_processWrite (fd count : Int) (data : List Byte) :
    Triple step (Told b) (processWrite fd count data) fun _ => Told b :=
  (told_counter 0).bind fun _ => told_transfer (fun _ => (told_sham _ _).bind fun _ => told_doReturn _ _ _) fun _ =>
    (told_sysWrite _ _).bind fun _ => told_doReturn _ _ _

theorem told_processClose (fd : Int) : Triple step (Told b) (processClose fd) fun _ => Told b :=
  (told_processing false).bind fun _ => (told_counter 0).bind fun _ =>
    .ite (fun _ => (told_pure 0).bind fun _ => told_doReturn _ _ _) fun _ =>
      (told_asks (by simp [quiet])).bind fun _ => told_doReturn _ _ _

theorem told_processLseek (fd offset whence : Int) : Triple step (Told b) (processLseek fd offset whence) fun _ => Told b :=
  (told_counter 0).bind fun _ => (told_asks (by simp [quiet])).bind fun _ => told_doReturn _ _ _

end Requests

section Dispatch

variable {b : Bool}

theorem told_processWazzup {bench : Np Unit} (hb : Triple step (Told b) bench fun _ => Told b) :
    Triple step (Told b) (processWazzup bench) fun _ => Told b := by
  have hu : Triple step (Told b) npUpdateCounter fun _ => Told b := told_setVars fun _ => rfl
  have hc : Triple step (Told b) clearCommand fun _ => Told b := told_setVars fun _ => rfl
  have hs (buffered : Option (List Byte)) (c : Option Command) :
      Triple step (Told b) (sendCommand bench buffered c) fun _ => Told b := by
    rcases c with _ | _ | _ | _ | _ | _
    · exact told_doReturn _ _ _
    · exact (told_exchange (by decide)).bind fun _ => told_pure ()
    · exact (told_doExec (by decide) _).bind fun _ => told_pure ()
    · exact (told_doExec (by decide) _).bind fun _ => told_pure ()
    · exact (told_exchange (by decide)).bind fun _ => told_pure ()
    · exact hb
  have ha : Triple step (Told b) (answerWazzup bench) fun _ => Told b :=
    told_get fun w => ((hs _ _).consequence (fun _ _ h => h.2) fun _ _ _ h => h).bind fun _ => hc
  have hn : Triple step (Told b) countWazzup fun _ => Told b :=
    told_get fun w => (Triple.ite (fun _ => told_pure ()) fun _ => hu).consequence (fun _ _ h => h.2) fun _ _ _ h => h
  exact hn.bind fun _ => ha

/-- What holds behind a packet: one that returns a value ends the benchmark. -/
def Behind (b : Bool) (p : Packet) (k : Bool) (w : World) : Prop := if p.isReturn then Over b k w else Told b k w

theorem told_recvAndProcess {bench : Np Unit} (hb : Triple step (Told b) bench fun _ => Told b) :
    Triple step (Told b) (recvAndProcess bench) (Behind b) := by
  have he (p : Packet) : Triple step (Told b) (emit (.process p) rfl) fun _ => Behind b p := by
    intro k w hw
    cases hp : p.isReturn with
    | true =>
      refine ⟨false, by simp [emit, step, hp], fun _ _ => ?_⟩
      show if p.isReturn then Over b false w else Told b false w
      rw [if_pos hp]
      exact ⟨rfl, fun h => hw.2 (hw.1.symm.trans h)⟩
    | false =>
      refine ⟨k, by simp [emit, step, hp], fun _ _ => ?_⟩
      show if p.isReturn then Over b k w else Told b k w
      rw [hp]
      exact hw
  have hp (p : Packet) : Triple step (Behind b p) (processPacket bench p) fun _ => Behind b p := by
    cases p with
    | «open» flags pathname => exact told_processOpen flags pathname
    | close fd => exact told_processClose fd
    | read fd count => exact told_processRead fd count
    | write fd count data => exact told_processWrite fd count data
    | lseek fd offset whence => exact told_processLseek fd offset whence
    | wazzup => exact told_processWazzup hb
    | ret rv data => exact .pure () fun _ _ h => h
    | bad type => exact .pure () fun _ _ h => h
  exact told_recvPacket.bind fun p => (he p).bind fun _ => (hp p).bind fun _ => .pure p fun _ _ h => h

/-- A benchmark may begin whether or not one goes on; when it is over, none does. -/
theorem told_doBenchmarkWith {loop : Np Unit} (hl : Triple step (Told true) loop fun _ => Over true) :
    Triple step (Told b) (doBenchmarkWith loop) fun _ => Told b := by
  have hs : Triple step (Told b) (sendPacket { type := packetBenchmark, size := 0, body := [] }) fun _ k _ => k = true :=
    fun k w hw => ⟨true, rfl, fun _ _ => rfl⟩
  have ht : Triple step (fun k _ => k = true) (setVars fun v => { v with benchmarking := true }) fun _ => Told true := by
    rintro _ w rfl
    exact ⟨true, rfl, fun _ _ => ⟨rfl, fun _ => rfl⟩⟩
  have hf : Triple step (Over true) (setVars fun v => { v with benchmarking := false }) fun _ => Told b := by
    rintro _ w ⟨rfl, -⟩
    exact ⟨false, rfl, fun _ _ => ⟨rfl, fun h => nomatch h⟩⟩
  exact hs.bind fun _ => ht.bind fun _ => hl.bind fun _ => hf

theorem told_benchmarkLoop (rounds : Nat) : Triple step (Told true) (benchmarkLoop rounds) fun _ => Over true := by
  induction rounds with
  | zero => exact (told_emit rfl rfl).bind fun _ => .hang
  | succ rounds ih =>
    refine (told_recvAndProcess (told_doBenchmarkWith ih)).bind fun p => .ite (fun hp => ?_) fun hp => ?_
    · exact .pure () fun k w h => by rwa [Behind, if_pos hp] at h
    · exact ih.consequence (fun k w h => by rwa [Behind, if_neg hp] at h) fun _ _ _ h => h

end Dispatch

abbrev Fixed : World → List Act → World → Prop := Fixes fun w : World => w.benchmarking

namespace Fixed

theorem setVars {f : Vars → Vars} (h : ∀ v, (f v).benchmarking = v.benchmarking) : Sat Fixed (setVars f) :=
  fun w => h w.toVars

theorem emit (a : Act) (h : a.still = true) : Sat Fixed (emit a h) := fun _ => rfl

theorem setCommand (c : Command) : Sat Fixed (setCommand c) := (emit _ _).bind fun _ => setVars fun _ => rfl

theorem call (f : CliFunc) (arg : Mem) : Sat Fixed (f.call arg) := by
  have hb : Sat Fixed setCmdbuf := setVars fun _ => rfl
  have he (c : Command) : Sat Fixed (cliExec c arg) :=
    Sat.get.bind fun _ => (setCommand c).bind fun _ => hb.bind fun _ => .pure 0
  have hq : Sat Fixed (Naplink.setVars fun v => { v with doloop := false }) := setVars fun _ => rfl
  cases f with
  | execee => exact he .execps2
  | execeiop => exact he .execiop
  | reset => exact (setCommand .reset).bind fun _ => .pure 0
  | benchmark => exact (setCommand .benchmark).bind fun _ => .pure 0
  | quit => exact (setCommand .quit).bind fun _ => hq.bind fun _ => .pure 0
  | _ => exact .pure 0

theorem readChar (i : Input) : Sat Fixed (readChar i) := by
  have hc : Sat Fixed (npSetCounter 0) := setVars fun _ => rfl
  have hx (line : List Byte) : Sat Fixed (executeLine line) := by
    refine (emit _ _).bind fun _ => hc.bind fun _ => ?_
    cases findCommand (splitLine line).1 with
    | none => exact .pure (-1)
    | some f => exact call f _
  cases i with
  | line line => exact .ite (.pure ()) ((hx line).bind fun _ => .pure ())
  | key f => exact (call f _).bind fun _ => .pure ()
  | _ => exact .pure ()

theorem exec {e : Event} (h : e ≠ .process) : Sat Fixed e.exec := by
  cases e with
  | process => exact absurd rfl h
  | typed i => exact readChar i
  | expire =>
    have hc : Sat Fixed (npSetCounter 0) := setVars fun _ => rfl
    have ht : Sat Fixed (setTimedout true) := setVars fun _ => rfl
    exact Sat.get.bind fun w => .ite ((emit _ _).bind fun _ => hc.bind fun _ => ht) (.pure ())
  | _ => exact fun _ => rfl

end Fixed

/-- Between two steps of npsh no benchmark goes on. -/
def Quiescent (k : Bool) (w : World) : Prop := k = false ∧ w.benchmarking = false

theorem quiescent_exec (e : Event) : Triple step Quiescent e.exec fun _ => Quiescent := by
  by_cases he : e = .process
  · subst he
    have hp : Triple step (Told false) recvAndProcessPacket (Behind false) :=
      told_get fun w => (told_recvAndProcess (told_doBenchmarkWith (told_benchmarkLoop _))).consequence
        (fun _ _ h => h.2) fun _ _ _ h => h
    refine (hp.consequence (fun k w h => ?_) fun _ _ _ h => h).bind fun p => .pure () fun k w h => ?_
    · obtain ⟨rfl, hw⟩ := h
      exact ⟨hw, fun h => h⟩
    · rw [Behind] at h
      split at h
      · exact ⟨h.1, Bool.eq_false_iff.mpr fun hb => nomatch h.2 hb⟩
      · have hk : k = false := Bool.eq_false_iff.mpr fun hk => nomatch h.2 hk
        exact ⟨hk, h.1.trans hk⟩
  · refine .of_pass fun k w hw => ⟨fun a ha => step_quiet k ?_, fun u hu => ⟨hw.1, ?_⟩⟩
    · have ho := Own.exec he w a ha
      cases a <;> first | rfl | cases ho
    · exact (Fixed.exec he w).trans hw.2

end Bench

end Naplink
