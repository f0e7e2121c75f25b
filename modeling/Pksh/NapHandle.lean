import Pksh.Npsh

/-! The handle of the USB device: what npsh does with it and when. -/

namespace Naplink

open Wire Traced Pksh

/-- The handle as `initialize_naplink` and `naplink_close` leave it. When no
device is found the program goes on with the handle that it has; nothing is
said of what follows. -/
inductive Handle
  | unset
  | opened
  | expired
  | shut
  | shutTwice
  | lost
deriving DecidableEq, Repr

namespace Handle

/-- The link is set up when there is none, and used and given up when there is.
The last close may find it given up already. -/
def step : Handle → Act → Option Handle
  | .lost, _ => some .lost
  | _, .linkUp false => some .lost
  | .unset, .linkUp true => some .opened
  | .expired, .linkUp true => some .opened
  | _, .linkUp true => none
  | .opened, .expire => some .expired
  | _, .expire => none
  | .opened, .shut => some .shut
  | .expired, .shut => some .shutTwice
  | _, .shut => none
  | .opened, _ => some .opened
  | _, _ => none

/-- How the handle stands while the loop goes on. -/
def during (timedout : Bool) : Handle := if timedout then .expired else .opened

def after (timedout : Bool) : Handle := if timedout then .shutTwice else .shut

end Handle

/-- Packets are served without a look at the link or the loop. -/
structure Served (w : World) (as : List Act) (w' : World) : Prop where
  acts : ∀ a ∈ as, a.own = false
  timedout : w'.timedout = w.timedout

instance : Chains Served where
  nil _ := ⟨fun _ h => (nomatch h), rfl⟩
  append h h' := ⟨fun a ha => (List.mem_append.mp ha).elim (h.acts a) (h'.acts a), h'.timedout.trans h.timedout⟩

namespace Served

theorem setVars {f : Vars → Vars} (h : ∀ v, (f v).timedout = v.timedout) : Sat Served (setVars f) :=
  fun w => ⟨fun _ ha => (nomatch ha), h w.toVars⟩

theorem emit {a : Act} (h : a.still = true) (ha : a.own = false) : Sat Served (emit a h) :=
  fun _ => ⟨fun _ hb => List.mem_singleton.mp hb ▸ ha, rfl⟩

theorem asks {α : Type} {answer : World → α} {act : α → List Act} {h : ∀ r, (act r).all Act.still = true}
    (ha : ∀ r, ∀ a ∈ act r, a.own = false) : Sat Served (asks answer act h) :=
  fun w => ⟨ha (answer w), rfl⟩

theorem recvPacket : Sat Served recvPacket := by
  intro w
  cases h : w.incoming with
  | nil => exact ⟨by simp [Naplink.recvPacket, h, Act.own], by simp [Naplink.recvPacket, h]⟩
  | cons p rest => exact ⟨by simp [Naplink.recvPacket, h, Act.own], by simp [Naplink.recvPacket, h]⟩

theorem npSetCounter (n : Word) : Sat Served (npSetCounter n) := setVars fun _ => rfl

theorem npSetProcessing (n : Bool) : Sat Served (npSetProcessing n) := setVars fun _ => rfl

theorem doReturn (rv : Int) (data : List Byte) (count : Int) : Sat Served (doReturn rv data count) := emit rfl rfl

theorem exchange (q : Sent) : Sat Served (exchange q) := by
  refine (emit rfl rfl).bind fun _ => recvPacket.bind fun p => ?_
  cases p with
  | ret rv data => exact .pure rv
  | _ => exact (emit rfl rfl).bind fun _ => .pure (-1)

theorem doExec (type : Word) (filename : Option (List Byte)) : Sat Served (doExec type filename) := by
  cases filename with
  | none => exact .pure (-1)
  | some filename => exact exchange _

theorem openAlong (pathname : List Byte) (flags : Word) (dirs : List (List Byte)) :
    Sat Served (openAlong pathname flags dirs) := by
  induction dirs with
  | nil => exact .pure (-1)
  | cons dir dirs ih => exact (asks (by simp [Act.own])).bind fun rv => .ite (.pure rv) ih

theorem processOpen (flags : Word) (pathname : List Byte) : Sat Served (processOpen flags pathname) := by
  have hp : Sat Served (openPath pathname (pcFlags flags)) :=
    (asks (by simp [Act.own])).bind fun rv => .ite (Sat.get.bind fun w => openAlong _ _ _) (.pure rv)
  exact (npSetProcessing true).bind fun _ => (npSetCounter 0).bind fun _ =>
    .ite ((Sat.pure 1).bind fun _ => doReturn _ _ _) (hp.bind fun _ => doReturn _ _ _)

theorem processRead (fd count : Int) : Sat Served (processRead fd count) := by
  refine (npSetCounter 0).bind fun _ => Sat.get.bind fun w =>
    .ite ((emit rfl rfl).bind fun _ => doReturn _ _ _) ((asks (by simp [Act.own])).bind fun r => ?_)
  cases r with
  | none => exact doReturn _ _ _
  | some bytes => exact doReturn _ _ _

theorem processWazzup {b : Np Unit} (hb : Sat Served b) : Sat Served (processWazzup b) := by
  have hu : Sat Served npUpdateCounter := setVars fun _ => rfl
  have hc : Sat Served clearCommand := setVars fun _ => rfl
  refine (Sat.get.bind fun w => .ite (.pure ()) hu).bind fun _ => Sat.get.bind fun w => Sat.bind ?_ fun _ => hc
  rcases w.commandWaiting with _ | _ | _ | _ | _ | _
  · exact doReturn _ _ _
  · exact (exchange _).bind fun _ => .pure ()
  · exact (doExec _ _).bind fun _ => .pure ()
  · exact (doExec _ _).bind fun _ => .pure ()
  · exact (exchange _).bind fun _ => .pure ()
  · exact hb

theorem processPacket {b : Np Unit} (hb : Sat Served b) (p : Packet) : Sat Served (processPacket b p) := by
  cases p with
  | «open» flags pathname => exact processOpen flags pathname
  | close fd =>
    exact (npSetProcessing false).bind fun _ => (npSetCounter 0).bind fun _ =>
      .ite ((Sat.pure 0).bind fun _ => doReturn _ _ _) ((asks (by simp [Act.own])).bind fun _ => doReturn _ _ _)
  | read fd count => exact processRead fd count
  | write fd count data =>
    exact (npSetCounter 0).bind fun _ => Sat.get.bind fun w =>
      .ite ((emit rfl rfl).bind fun _ => doReturn _ _ _) ((asks (by simp [Act.own])).bind fun _ => doReturn _ _ _)
  | lseek fd offset whence =>
    exact (npSetCounter 0).bind fun _ => (asks (by simp [Act.own])).bind fun _ => doReturn _ _ _
  | wazzup => exact processWazzup hb
  | _ => exact .pure ()

theorem recvAndProcess {b : Np Unit} (hb : Sat Served b) : Sat Served (recvAndProcess b) :=
  recvPacket.bind fun p => (emit rfl rfl).bind fun _ => (processPacket hb p).bind fun _ => .pure p

theorem doBenchmarkWith {loop : Np Unit} (hl : Sat Served loop) : Sat Served (doBenchmarkWith loop) := by
  have hv (x : Bool) : Sat Served (Naplink.setVars fun v => { v with benchmarking := x }) := setVars fun _ => rfl
  exact (emit rfl rfl).bind fun _ => (hv true).bind fun _ => hl.bind fun _ => hv false

theorem benchmarkLoop (n : Nat) : Sat Served (benchmarkLoop n) := by
  induction n with
  | zero => exact (emit rfl rfl).bind fun _ => .hang
  | succ n ih => exact (recvAndProcess (doBenchmarkWith ih)).bind fun i => .ite (.pure ()) ih

theorem recvAndProcessPacket : Sat Served recvAndProcessPacket :=
  Sat.get.bind fun _ => recvAndProcess (doBenchmarkWith (benchmarkLoop _))

theorem naplinkProcess : Sat Served naplinkProcess :=
  (asks (by simp)).bind fun _ => .ite (recvAndProcessPacket.bind fun _ => .pure ()) (.pure ())

end Served

namespace Handle

/-- The handle can be used, whatever the program remembers. -/
def On (b : Bool) (h : Handle) (w : World) : Prop := h = .lost ∨ h = .opened ∧ w.timedout = b

def Off (h : Handle) (w : World) : Prop := h = .lost ∨ h = .expired ∧ w.timedout = true ∧ w.counter = 0

def Kept (h : Handle) (w : World) : Prop := On false h w ∨ Off h w

theorem step_lost (a : Act) : step .lost a = some .lost := by
  cases a <;> rfl

theorem step_opened {a : Act} (h : ∀ found, a ≠ .linkUp found) (he : a ≠ .expire) (hs : a ≠ .shut) :
    step .opened a = some .opened := by
  cases a with
  | linkUp found => exact absurd rfl (h found)
  | expire => exact absurd rfl he
  | shut => exact absurd rfl hs
  | _ => rfl

theorem watch_lost (as : List Act) : watch step .lost as = some .lost :=
  watch_of_pass fun a _ => step_lost a

theorem triple_of {α : Type} {P : Handle → World → Prop} {m : Np α} {Q : α → Handle → World → Prop}
    (hl : ∀ a w, Q a .lost w)
    (h : ∀ k w, P k w → k ≠ .lost → ∃ k', watch step k (m.run w).acts = some k' ∧
      ∀ a, (m.run w).value = some a → Q a k' (m.run w).state) : Triple step P m Q := by
  intro k w hw
  by_cases hk : k = .lost
  · subst hk
    exact ⟨.lost, watch_lost _, fun a _ => hl a _⟩
  · exact h k w hw hk

theorem Kept.on {h : Handle} {w : World} (hk : Kept h w) (ht : ¬w.timedout = true) : On false h w := by
  rcases hk with hk | hl | ⟨-, hw, -⟩
  · exact hk
  · exact .inl hl
  · exact absurd hw ht

theorem Kept.off {h : Handle} {w : World} (hk : Kept h w) (ht : w.timedout = true) : Off h w := by
  rcases hk with (hl | ⟨-, hw⟩) | hk
  · exact .inl hl
  · rw [hw] at ht
    cases ht
  · exact hk

section Steps

variable {α : Type} {b : Bool}

theorem on_used {m : Np α} (h : ∀ w, (∀ a ∈ (m.run w).acts, (∀ found, a ≠ .linkUp found) ∧ a ≠ .expire ∧ a ≠ .shut) ∧
    (m.run w).state.timedout = w.timedout) : Triple step (On b) m fun _ => On b := by
  refine triple_of (fun _ _ => .inl rfl) fun k w hw hk => ?_
  obtain ⟨rfl, ht⟩ := hw.resolve_left hk
  exact ⟨.opened, watch_of_pass fun a ha => step_opened ((h w).1 a ha).1 ((h w).1 a ha).2.1 ((h w).1 a ha).2.2,
    fun _ _ => .inr ⟨rfl, (h w).2.trans ht⟩⟩

theorem on_served {m : Np α} (h : Sat Served m) : Triple step (On b) m fun _ => On b := by
  refine on_used fun w => ⟨fun a ha => ?_, (h w).timedout⟩
  have ho := (h w).acts a ha
  refine ⟨fun found he => ?_, fun he => ?_, fun he => ?_⟩
  · rw [he] at ho
    cases ho
  · rw [he] at ho
    cases ho
  · rw [he] at ho
    cases ho

theorem on_setVars {f : Vars → Vars} (h : ∀ v, (f v).timedout = v.timedout) :
    Triple step (On b) (setVars f) fun _ => On b := on_served (.setVars h)

theorem on_naplinkCheck : Triple step (On b) naplinkCheck fun _ => On b := by
  refine on_used fun w => ⟨fun a ha => ?_, rfl⟩
  have ha : a ∈ (if w.os.peer w.now then [] else [Act.peerAway]) := by simpa [naplinkCheck, asks] using ha
  split at ha
  · cases ha
  · rw [List.mem_singleton.mp ha]
    simp

theorem on_setCommand (c : Command) : Triple step (On b) (setCommand c) fun _ => On b :=
  on_used fun _ => ⟨fun _ ha => by simp [List.mem_singleton.mp ha], rfl⟩

theorem on_call (f : CliFunc) (arg : Mem) : Triple step (On b) (f.call arg) fun _ => On b := by
  have hp (n : Int) : Triple step (On b) (pure n : Np Int) fun _ => On b := .pure n fun _ _ h => h
  have he (c : Command) : Triple step (On b) (cliExec c arg) fun _ => On b :=
    on_used fun _ => ⟨fun _ ha => by simp [List.mem_singleton.mp ha], rfl⟩
  have hq : Triple step (On b) (setVars fun v => { v with doloop := false }) fun _ => On b := on_setVars fun _ => rfl
  cases f with
  | execee => exact he .execps2
  | execeiop => exact he .execiop
  | reset => exact (on_setCommand .reset).bind fun _ => hp 0
  | benchmark => exact (on_setCommand .benchmark).bind fun _ => hp 0
  | quit => exact (on_setCommand .quit).bind fun _ => hq.bind fun _ => hp 0
  | _ => exact hp 0

theorem on_readChar (i : Input) : Triple step (On b) (readChar i) fun _ => On b := by
  have hp : Triple step (On b) (pure () : Np Unit) fun _ => On b := .pure () fun _ _ h => h
  have hn (line : List Byte) : Triple step (On b) (emit (.execute line) rfl) fun _ => On b :=
    on_used fun _ => ⟨fun _ ha => by simp [List.mem_singleton.mp ha], rfl⟩
  cases i with
  | line line =>
    refine .ite (fun _ => hp) fun _ => ((hn line).bind fun _ => (on_served (.npSetCounter 0)).bind fun _ => ?_).bind fun _ => hp
    cases findCommand (splitLine line).1 with
    | none => exact .pure (-1) fun _ _ h => h
    | some f => exact on_call f _
  | key f => exact (on_call f _).bind fun _ => hp
  | _ => exact hp

end Steps

theorem off_linkUp : Triple step Off initializeNaplink fun _ => On true := by
  refine triple_of (fun _ _ => .inl rfl) fun k w hw hk => ?_
  obtain ⟨rfl, ht, -⟩ := hw.resolve_left hk
  have hrun : initializeNaplink.run w = ⟨some (if w.os.device w.now then 0 else -1), w.tick, [.linkUp (w.os.device w.now)]⟩ := rfl
  rw [hrun]
  cases hd : w.os.device w.now with
  | false => exact ⟨.lost, rfl, fun _ _ => .inl rfl⟩
  | true => exact ⟨.opened, rfl, fun _ _ => .inr ⟨rfl, ht⟩⟩

theorem off_reinit : Triple step Off reinit fun _ => On false := by
  have ht : Triple step (On true) (setTimedout false) fun _ => On false := by
    refine triple_of (fun _ _ => .inl rfl) fun k w hw hk => ?_
    obtain ⟨rfl, -⟩ := hw.resolve_left hk
    exact ⟨.opened, rfl, fun _ _ => .inr ⟨rfl, rfl⟩⟩
  exact off_linkUp.bind fun _ => (on_served (.npSetCounter 0)).bind fun _ => on_naplinkCheck.bind fun _ =>
    (on_served .naplinkProcess).bind fun _ => ht.bind fun _ => on_served (.npSetProcessing false)

theorem kept_get {α : Type} {g : World → Np α} {Q : α → Handle → World → Prop}
    (h : ∀ w, Triple step (fun k v => v = w ∧ Kept k v) (g w) Q) : Triple step Kept (Prog.get >>= g) Q :=
  .get_bind h

theorem kept_ite {α : Type} {p q : Np α} (hp : Triple step Off p fun _ => Kept) (hq : Triple step (On false) q fun _ => Kept) :
    Triple step Kept (Prog.get >>= fun w => if w.timedout then p else q) fun _ => Kept :=
  kept_get fun _ => .ite (fun ht => hp.consequence (fun _ _ h => h.2.off (h.1 ▸ ht)) fun _ _ _ h => h) fun ht =>
    hq.consequence (fun _ _ h => h.2.on (h.1 ▸ ht)) fun _ _ _ h => h

theorem kept_of_on {α : Type} {m : Np α} (h : Triple step (On false) m fun _ => On false) :
    Triple step (On false) m fun _ => Kept := h.consequence (fun _ _ h => h) fun _ _ _ h => .inl h

theorem kept_poll : Triple step Kept poll fun _ => Kept :=
  kept_ite (.pure () fun _ _ h => .inr h) (kept_of_on (on_naplinkCheck.bind fun _ =>
    (on_served .naplinkProcess).bind fun _ => on_served (.npSetProcessing false)))

theorem kept_readInput (i : Input) : Triple step Kept (readInput i) fun _ => Kept :=
  .ite (fun _ => kept_ite ((off_reinit.bind fun _ => on_readChar i).consequence (fun _ _ h => h) fun _ _ _ h => .inl h)
    (kept_of_on (on_readChar i))) fun _ => .pure () fun _ _ h => h

theorem served_processTimes (n : Nat) : Sat Served (processTimes n) := by
  induction n with
  | zero => exact .pure ()
  | succ n ih => exact Served.naplinkProcess.bind fun _ => ih

theorem kept_drain : Triple step Kept drain fun _ => Kept :=
  kept_ite (.pure () fun _ _ h => .inr h) (kept_of_on (on_served (served_processTimes 10)))

theorem kept_inactivity : Triple step Kept inactivity fun _ => Kept := by
  refine kept_get fun w => .ite (fun hc => ?_) fun _ => .pure () fun _ _ h => h.2
  refine triple_of (fun _ _ => .inr (.inl rfl)) fun k v hv hk => ?_
  obtain ⟨rfl, hkept⟩ := hv
  rcases hkept with hon | hoff
  · obtain ⟨rfl, -⟩ := hon.resolve_left hk
    exact ⟨.expired, rfl, fun _ _ => .inr (.inr ⟨rfl, rfl, rfl⟩)⟩
  · obtain ⟨-, -, hz⟩ := hoff.resolve_left hk
    rw [hz] at hc
    exact absurd hc.2 (by simp)

theorem kept_turn (i : Input) : Triple step Kept (turn i) fun _ => Kept :=
  kept_poll.bind fun _ => (kept_readInput i).bind fun _ => kept_drain.bind fun _ => kept_inactivity

/-- How a run leaves the handle: the loop goes on, or it has been closed. -/
def Left (h : Handle) (w : World) : Prop := Kept h w ∨ h = after w.timedout

theorem kept_turns (is : List Input) : Triple step Kept (turns is) fun _ => Left := by
  induction is with
  | nil => exact .pure () fun _ _ h => .inl h
  | cons i is ih =>
    refine kept_get fun w => .ite (fun _ => ?_) fun _ => ?_
    · exact ((kept_turn i).consequence (fun _ _ h => h.2) fun _ _ _ h => h).bind fun _ => ih
    · refine triple_of (fun _ _ => .inl (.inl (.inl rfl))) fun k v hv hk => ?_
      rcases hv.2 with hon | hoff
      · obtain ⟨rfl, ht⟩ := hon.resolve_left hk
        exact ⟨.shut, rfl, fun _ _ => .inr (by
          show Handle.shut = after v.timedout
          rw [ht]
          rfl)⟩
      · obtain ⟨rfl, ht, -⟩ := hoff.resolve_left hk
        exact ⟨.shutTwice, rfl, fun _ _ => .inr (by
          show Handle.shutTwice = after v.timedout
          rw [ht]
          rfl)⟩

def Fresh (h : Handle) (w : World) : Prop := h = .unset ∧ w.timedout = false

theorem kept_main (inputs : List Input) : Triple step Fresh (main inputs) fun _ => Left := by
  have hl : Triple step Fresh initializeNaplink fun _ => On false := by
    rintro _ w ⟨rfl, ht⟩
    have hrun : initializeNaplink.run w = ⟨some (if w.os.device w.now then 0 else -1), w.tick, [.linkUp (w.os.device w.now)]⟩ := rfl
    rw [hrun]
    cases hd : w.os.device w.now with
    | false => exact ⟨.lost, rfl, fun _ _ => .inl rfl⟩
    | true => exact ⟨.opened, rfl, fun _ _ => .inr ⟨rfl, ht⟩⟩
  refine hl.bind fun ret => .ite (fun _ => .pure 1 fun _ _ h => .inl (.inl h)) fun _ => ?_
  refine (on_served (.npSetCounter 0)).bind fun _ => on_naplinkCheck.bind fun _ => (on_served .naplinkProcess).bind fun _ => ?_
  exact ((kept_turns inputs).consequence (fun _ _ h => .inl h) fun _ _ _ h => h).bind fun _ => .pure 0 fun _ _ h => h

end Handle

/-- In every run of npsh, as long as a device is found whenever the link is set
up: the device is set up only when it is not, and everything else happens while
it is; above all, no packet is served and no command taken between giving up a
link and setting it up again. The close at the end of the run comes on top of
another one exactly when the link was given up in the last turn. -/
theorem handle_kept (inputs : List Input) (os : Host) (timeout : Word) (pathList : List (List Byte))
    (incoming : List Packet) :
    let r := (main inputs).run (.booted os timeout pathList incoming)
    ∃ h, watch Handle.step .unset r.acts = some h ∧ ∀ v, r.value = some v →
      h = .lost ∨ h = .during r.state.timedout ∨ h = .after r.state.timedout := by
  obtain ⟨h, hw, hq⟩ := Handle.kept_main inputs .unset (.booted os timeout pathList incoming) ⟨rfl, rfl⟩
  refine ⟨h, hw, fun v hv => ?_⟩
  rcases hq v hv with ((hl | ⟨rfl, ht⟩) | (hl | ⟨rfl, ht, -⟩)) | ha
  · exact .inl hl
  · exact .inr (.inl (by rw [ht]; rfl))
  · exact .inl hl
  · exact .inr (.inl (by rw [ht]; rfl))
  · exact .inr (.inr ha)

/-- The key that quits does not start the count again: the link is given up in
the same turn, and closed again behind it. -/
example :
    let os : Host := { Host.plain with txReq := fun n => n < 5 }
    let r := (main [.key .quit, .nothing]).run (.booted os 1 [] [.wazzup, .wazzup, .wazzup, .ret 0 []])
    r.acts.filter (fun a => a = .linkUp true ∨ a = .expire ∨ a = .shut) = [.linkUp true, .expire, .shut] := by
  decide +kernel

end Naplink
