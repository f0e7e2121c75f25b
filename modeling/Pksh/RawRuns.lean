import Pksh.RawBytes

/-! What npsh does over the bytes of its packets is what it does over their
fields. -/

namespace Naplink

open Wire Traced Pksh

variable {α β : Type}

/-- A packet that is served, or returns a value, within its body. -/
def Raw.Sound (p : Raw) : Prop := p.Fits false ∧ p.FitsReturn

theorem Raw.Sound.fits {p : Raw} (h : p.Sound) (benchmarking : Bool) : p.Fits benchmarking := by
  obtain ⟨h, -⟩ := h
  by_cases ht : p.type = packetWrite
  · rw [Raw.fits_write ht] at h ⊢
    exact ⟨h.1, .inr (h.2.resolve_left Bool.false_ne_true)⟩
  · simpa only [Raw.Fits, if_neg ht] using h

def RawAct.done : RawAct → Option Act
  | .recv p => some (.recv p.packet)
  | .process p => some (.process p.packet)
  | .unexpected p => some (.unexpected p.packet)
  | .body _ (.act a) => some a
  | .body _ (.load _ _) => none
  | .own a => some a

/-- The same, but what is read outside the body at hand is seen. -/
def seen : RawAct → Option (Option Act)
  | .body p (.load off n) => if off + n ≤ p.body.length then none else some none
  | a => a.done.map some

def Alongside (r : RawWorld) (w : World) : Prop := w = r.world ∧ ∀ p ∈ r.arriving, p.Sound

abbrev Shows (V : α → β → Prop) (m : RawNp α) (n : Np β) : Prop := Mimic seen (fun a => some (some a)) Alongside V m n

abbrev Still (m : Np α) : Prop := Sat (AllActs fun a => a.still = true) m

namespace Still

theorem emit {a : Act} (h : a.still = true) : Still (emit a h) := fun _ _ hb => List.mem_singleton.mp hb ▸ h

theorem setVars (f : Vars → Vars) : Still (setVars f) := fun _ _ ha => nomatch ha

theorem asks {answer : World → α} {act : α → List Act} {h : ∀ r, (act r).all Act.still = true} :
    Still (asks answer act h) := fun w => List.all_eq_true.mp (h (answer w))

theorem doReturn (rv : Int) (data : List Byte) (count : Int) : Still (doReturn rv data count) := emit rfl

theorem own {m : Np α} (h : Sat Own m) : Still m := h.mono fun h a ha => by
  have ho := h a ha
  cases a with
  | recv p => exact absurd ho Bool.false_ne_true
  | _ => rfl

theorem openAlong (pathname : List Byte) (flags : Word) (dirs : List (List Byte)) : Still (openAlong pathname flags dirs) := by
  induction dirs with
  | nil => exact .pure _
  | cons dir dirs ih => exact asks.bind fun _ => .ite (.pure _) ih

theorem openPath (pathname : List Byte) (flags : Word) : Still (openPath pathname flags) :=
  asks.bind fun _ => .ite (Sat.get.bind fun _ => openAlong _ _ _) (.pure _)

theorem processPacket {p : Packet} (h : p ≠ .wazzup) (benchmark : Np Unit) : Still (processPacket benchmark p) := by
  cases p with
  | «open» flags pathname =>
    exact (setVars _).bind fun _ => (setVars _).bind fun _ =>
      .ite ((Sat.pure _).bind fun _ => doReturn _ _ _) ((openPath _ _).bind fun _ => doReturn _ _ _)
  | close fd =>
    exact (setVars _).bind fun _ => (setVars _).bind fun _ =>
      .ite ((Sat.pure _).bind fun _ => doReturn _ _ _) (asks.bind fun _ => doReturn _ _ _)
  | read fd count =>
    refine (setVars _).bind fun _ => Sat.get.bind fun _ => .ite ((emit rfl).bind fun _ => doReturn _ _ _)
      (asks.bind fun r => ?_)
    cases r <;> exact doReturn _ _ _
  | write fd count data =>
    exact (setVars _).bind fun _ => Sat.get.bind fun _ =>
      .ite ((emit rfl).bind fun _ => doReturn _ _ _) (asks.bind fun _ => doReturn _ _ _)
  | lseek fd offset whence => exact (setVars _).bind fun _ => asks.bind fun _ => doReturn _ _ _
  | wazzup => exact absurd rfl h
  | ret rv data => exact .pure _
  | bad t => exact .pure _

end Still

namespace Raw

variable {p : Raw}

theorem packet_wazzup (h : p.type = packetWazzup) : p.packet = .wazzup := by
  rw [packet]
  simp only [h]
  rfl

theorem packet_ne_wazzup (h : p.type ≠ packetWazzup) : p.packet ≠ .wazzup := by
  unfold packet
  split_ifs <;> exact nofun

theorem packet_ret (h : p.type = packetReturn) : p.packet = .ret (p.int 0).toInt (p.body.drop 4) := by
  rw [packet]
  simp only [h]
  rfl

theorem isReturn_packet : p.packet.isReturn = decide (p.type = packetReturn) := by
  by_cases h : p.type = packetReturn
  · rw [packet_ret h, decide_eq_true h]
    rfl
  · rw [decide_eq_false h]
    unfold packet
    split_ifs <;> rfl

end Raw

theorem withWorld_world {r : RawWorld} {w : World} {as : List Act} (h : Fed r.world as w)
    (hs : ∀ a ∈ as, a.still = true) : (r.withWorld w).world = w := by
  have hr : received as = [] := by
    rw [received, List.filterMap_eq_nil_iff]
    intro a ha
    cases a with
    | recv p => exact absurd (hs _ ha) Bool.false_ne_true
    | _ => rfl
  obtain ⟨ho, ht, hp, hi⟩ := h
  rw [hr, List.nil_append] at hi
  obtain ⟨v, os, now, incoming, timeout, pathList⟩ := w
  obtain rfl : os = r.os := ho
  obtain rfl : timeout = r.timeout := ht
  obtain rfl : pathList = r.pathList := hp
  obtain rfl : incoming = r.arriving.map Raw.packet := hi
  rfl

theorem seen_body {p : Raw} {us : List Use} (h : ∀ u ∈ us, u.inside p.body.length) :
    (us.map (.body p)).filterMap seen = (acts us).map some := by
  induction us with
  | nil => rfl
  | cons u us ih =>
    have hu := h u List.mem_cons_self
    rw [List.map_cons, acts, List.filterMap_cons, List.filterMap_cons, ih fun v hv => h v (List.mem_cons_of_mem _ hv)]
    cases u with
    | act a => rfl
    | load off n => simp only [seen, if_pos (show off + n ≤ p.body.length from hu)]; rfl

namespace Shows

theorem own {m : Np α} (hm : Still m) : Shows Eq (Bytes.own m) m := by
  rintro r _ ⟨rfl, hs⟩
  have hw := withWorld_world (m.keeps r.world) (hm r.world)
  refine ⟨?_, ?_, hw.symm, hs⟩
  · rw [Bytes.own]
    cases (m.run r.world).value with
    | none => exact .none
    | some a => exact .some rfl
  · rw [Bytes.own, List.filterMap_map]
    rfl

section Body

variable {p : Raw} {r : RawWorld}

theorem onBody {h : Handler α} {m : Np α} (hs : ∀ q ∈ r.arriving, q.Sound) (hd : Does h m r.world)
    (hi : ∀ u ∈ (h.run r.world).acts, u.inside p.body.length) (hm : Still m) :
    Mimics seen (fun a => some (some a)) Alongside Eq ((Bytes.onBody p h).run r) (m.run r.world) := by
  have hw := withWorld_world (m.keeps r.world) (hm r.world)
  rw [Does] at hd
  rw [← hd] at hw ⊢
  refine ⟨?_, ?_, hw.symm, hs⟩
  · rw [Bytes.onBody]
    cases (h.run r.world).value with
    | none => exact .none
    | some a => exact .some rfl
  · rw [Bytes.onBody, seen_body hi, List.filterMap_eq_map']

theorem read {h : Handler α} {a : α} (hs : ∀ q ∈ r.arriving, q.Sound) (hr : Reads h a r.world)
    (hi : ∀ u ∈ (h.run r.world).acts, u.inside p.body.length) :
    Mimics seen (fun a => some (some a)) Alongside Eq ((Bytes.onBody p h).run r) ((pure a : Np α).run r.world) := by
  obtain ⟨us, hu, hrun⟩ := hr
  refine onBody hs ?_ hi (.pure a)
  rw [Does, hrun, hu]
  rfl

end Body

theorem recvPacket : Shows (fun p q => q = p.packet ∧ p.Sound) Bytes.recvPacket recvPacket := by
  rintro r _ ⟨rfl, hs⟩
  obtain ⟨v, os, now, arriving, timeout, pathList, malloc, c, l⟩ := r
  cases arriving with
  | nil => exact ⟨.none, rfl, rfl, hs⟩
  | cons p rest =>
    exact ⟨.some ⟨rfl, hs p List.mem_cons_self⟩, rfl, rfl, fun q hq => hs q (List.mem_cons_of_mem _ hq)⟩

theorem process (p : Raw) : Shows Eq (Bytes.process p) (emit (.process p.packet) rfl) :=
  fun _ _ h => ⟨.some rfl, rfl, h⟩

theorem rawGetReturn_reads {p : Raw} (h : p.FitsReturn) (heap : Mem) (beyond : Nat) (w : World) :
    Reads (rawGetReturn false p.size p.type (p.block heap beyond))
      (if p.type = packetReturn then (p.int 0).toInt else -1) w := by
  by_cases ht : p.type = packetReturn
  · have h4 : 4 ≤ p.body.length := h ht
    rw [rawGetReturn, if_neg (not_not.mpr ht), if_neg (by simp), if_pos ht]
    exact (Raw.reads_int h4).bind (.pure _)
  · rw [rawGetReturn, if_pos ht, if_neg ht]
    exact .pure _

theorem getReturn : Shows Eq Bytes.getReturn getReturn := by
  refine recvPacket.bind ?_
  rintro p _ ⟨rfl, hp⟩ r _ ⟨rfl, hs⟩
  have hread := read hs (rawGetReturn_reads hp.2 (r.malloc r.arriving.length).1 (r.malloc r.arriving.length).2 r.world)
    ((rawGetReturn_inside_iff false).mpr hp.2)
  by_cases ht : p.type = packetReturn
  · rw [if_pos ht] at hread
    rw [Bytes.expectReturn, if_pos ht, Raw.packet_ret ht]
    exact hread
  · have hret : p.packet.isReturn = false := Raw.isReturn_packet.trans (decide_eq_false ht)
    rw [if_neg ht] at hread
    rw [Bytes.expectReturn, if_neg ht]
    have hrefused := hread.after (show [RawAct.unexpected p].filterMap seen =
      [Act.unexpected p.packet].filterMap fun a => some (some a) from rfl)
    generalize p.packet = q at hret hrefused
    cases q with
    | ret rv data => cases hret
    | _ => exact hrefused

theorem exchange (q : Sent) : Shows Eq (Bytes.exchange q) (exchange q) := (own (.emit rfl)).bind fun _ _ _ => getReturn

theorem doExec (type : Word) (filename : Option (List Byte)) : Shows Eq (Bytes.doExec type filename) (doExec type filename) := by
  cases filename with
  | none => exact .pure rfl
  | some filename => exact exchange _

theorem void {m : RawNp α} {n : Np α} (h : Shows Eq m n) :
    Shows Eq (m >>= fun _ => (pure () : RawNp Unit)) (n >>= fun _ => (pure () : Np Unit)) :=
  h.bind fun _ _ _ => .pure rfl

theorem sendCommand {b : RawNp Unit} {b' : Np Unit} (hb : Shows Eq b b') (buffered : Option (List Byte)) (c : Option Command) :
    Shows Eq (Bytes.sendCommand b buffered c) (sendCommand b' buffered c) := by
  rcases c with _ | _ | _ | _ | _ | _
  · exact own (.doReturn _ _ _)
  · exact void (exchange _)
  · exact void (doExec _ _)
  · exact void (doExec _ _)
  · exact void (exchange _)
  · exact hb

theorem countWazzup : Still countWazzup := Sat.get.bind fun _ => .ite (.pure _) (Still.setVars _)

theorem processWazzup {b : RawNp Unit} {b' : Np Unit} (hb : Shows Eq b b') :
    Shows Eq (Bytes.processWazzup b) (processWazzup b') := by
  refine (own countWazzup).bind fun _ _ _ => .get_bind ?_
  rintro r _ ⟨rfl, hs⟩
  exact ((sendCommand hb _ _).bind fun _ _ _ => own (.setVars _)) r _ ⟨rfl, hs⟩

theorem processPacket {b : RawNp Unit} {b' : Np Unit} (hb : Shows Eq b b') {p : Raw} (hp : p.Sound) :
    Shows Eq (Bytes.processPacket b p) (processPacket b' p.packet) := by
  by_cases hw : p.type = packetWazzup
  · rw [Bytes.processPacket, if_pos hw, Raw.packet_wazzup hw]
    exact processWazzup hb
  · rw [Bytes.processPacket, if_neg hw]
    rintro r _ ⟨rfl, hs⟩
    have hq := Raw.packet_ne_wazzup hw
    have hd : Does (rawProcess r.linkDebug (pure ()) p.type (r.block p)) (Naplink.processPacket b' p.packet) r.world := by
      have hserved : Does (rawProcess r.linkDebug (pure ()) p.type (r.block p)) (Naplink.processPacket (pure ()) p.packet)
          r.world := processPacket_served (pure ()) (hp.fits r.world.benchmarking)
      generalize p.packet = q at hq hserved
      cases q with
      | wazzup => exact absurd rfl hq
      | _ => exact hserved
    exact onBody hs hd ((rawProcess_inside_iff (pure ())).mpr (hp.fits _)) (.processPacket hq b')

theorem recvAndProcess {b : RawNp Unit} {b' : Np Unit} (hb : Shows Eq b b') :
    Shows (fun t q => q.isReturn = decide (t = packetReturn)) (Bytes.recvAndProcess b) (recvAndProcess b') := by
  refine recvPacket.bind ?_
  rintro p _ ⟨rfl, hp⟩
  exact (process p).bind fun _ _ _ => (processPacket hb hp).bind fun _ _ _ => .pure Raw.isReturn_packet

theorem doBenchmarkWith {b : RawNp Unit} {b' : Np Unit} (hb : Shows Eq b b') :
    Shows Eq (Bytes.doBenchmarkWith b) (doBenchmarkWith b') :=
  (own (.emit rfl)).bind fun _ _ _ => (own (.setVars _)).bind fun _ _ _ => hb.bind fun _ _ _ => own (.setVars _)

theorem benchmarkLoop (rounds : Nat) : Shows Eq (Bytes.benchmarkLoop rounds) (benchmarkLoop rounds) := by
  induction rounds with
  | zero => exact (own (.emit rfl)).bind fun _ _ _ _ _ h => ⟨.none, rfl, h⟩
  | succ rounds ih =>
    refine (recvAndProcess (doBenchmarkWith ih)).bind fun t q hq => ?_
    by_cases ht : t = packetReturn
    · rw [if_pos ht, if_pos (hq.trans (decide_eq_true ht))]
      exact .pure rfl
    · rw [if_neg ht, if_neg (by rw [hq, decide_eq_false ht]; decide)]
      exact ih

theorem recvAndProcessPacket : Shows (fun t q => q.isReturn = decide (t = packetReturn)) Bytes.recvAndProcessPacket
    recvAndProcessPacket := by
  refine .get_bind ?_
  rintro r _ ⟨rfl, hs⟩
  rw [show r.world.incoming.length = r.arriving.length from List.length_map _]
  exact recvAndProcess (doBenchmarkWith (benchmarkLoop _)) r _ ⟨rfl, hs⟩

theorem naplinkProcess : Shows Eq Bytes.naplinkProcess naplinkProcess := by
  refine (own .asks).bind ?_
  rintro tx _ rfl
  exact .ite (fun _ => recvAndProcessPacket.bind fun _ _ _ => .pure rfl) fun _ => .pure rfl

theorem call (f : CliFunc) (arg : Mem) : Shows Eq (Bytes.call arg f) (f.call arg) := by
  cases f with
  | debug =>
    rintro r _ ⟨rfl, hs⟩
    exact ⟨.some rfl, rfl, rfl, hs⟩
  | _ => exact own (.own (Own.call _ _))

theorem executeLine (line : List Byte) : Shows Eq (Bytes.executeLine line) (executeLine line) := by
  refine (own (.emit rfl)).bind fun _ _ _ => (own (.setVars _)).bind fun _ _ _ => ?_
  cases findCommand (splitLine line).1 with
  | none => exact .pure rfl
  | some f => exact call f _

theorem readChar (i : Input) : Shows Eq (Bytes.readChar i) (readChar i) := by
  cases i with
  | line line => exact .ite (fun _ => .pure rfl) fun _ => void (executeLine line)
  | key f => exact void (call f _)
  | _ => exact .pure rfl

theorem naplinkCheck : Still naplinkCheck := Still.asks.bind fun _ => .pure _

theorem initializeNaplink : Still initializeNaplink := Still.asks.bind fun _ => .pure _

theorem reinit : Shows Eq Bytes.reinit reinit :=
  (own initializeNaplink).bind fun _ _ _ => (own (.setVars _)).bind fun _ _ _ => (own naplinkCheck).bind fun _ _ _ =>
    naplinkProcess.bind fun _ _ _ => (own (.setVars _)).bind fun _ _ _ => own (.setVars _)

theorem unlessTimedout {m : RawNp Unit} {n : Np Unit} (h : Shows Eq m n) :
    Shows Eq (Prog.get >>= fun r => if r.timedout then (pure () : RawNp Unit) else m)
      (Prog.get >>= fun w => if w.timedout then (pure () : Np Unit) else n) := by
  refine .get_bind ?_
  rintro r _ ⟨rfl, hs⟩
  exact (Mimic.ite (fun _ => .pure rfl) fun _ => h : Shows Eq _ _) r _ ⟨rfl, hs⟩

theorem poll : Shows Eq Bytes.poll poll :=
  unlessTimedout ((own naplinkCheck).bind fun _ _ _ => naplinkProcess.bind fun _ _ _ => own (.setVars _))

theorem readInput (i : Input) : Shows Eq (Bytes.readInput i) (readInput i) := by
  refine .ite (fun _ => .get_bind ?_) fun _ => .pure rfl
  rintro r _ ⟨rfl, hs⟩
  exact (Mimic.ite (fun _ => reinit.bind fun _ _ _ => readChar i) fun _ => readChar i : Shows Eq _ _) r _ ⟨rfl, hs⟩

theorem processTimes (n : Nat) : Shows Eq (Bytes.processTimes n) (processTimes n) := by
  induction n with
  | zero => exact .pure rfl
  | succ n ih => exact naplinkProcess.bind fun _ _ _ => ih

theorem turn (i : Input) : Shows Eq (Bytes.turn i) (turn i) :=
  poll.bind fun _ _ _ => (readInput i).bind fun _ _ _ => (unlessTimedout (processTimes 10)).bind fun _ _ _ =>
    own (.own Own.inactivity)

theorem turns (is : List Input) : Shows Eq (Bytes.turns is) (turns is) := by
  induction is with
  | nil => exact .pure rfl
  | cons i is ih =>
    refine .get_bind ?_
    rintro r _ ⟨rfl, hs⟩
    exact (Mimic.ite (fun _ => (turn i).bind fun _ _ _ => ih) fun _ => own (.emit rfl) : Shows Eq _ _) r _ ⟨rfl, hs⟩

theorem main (inputs : List Input) : Shows Eq (Bytes.main inputs) (main inputs) := by
  refine (own initializeNaplink).bind ?_
  rintro ret _ rfl
  exact .ite (fun _ => .pure rfl) fun _ => (own (.setVars _)).bind fun _ _ _ => (own naplinkCheck).bind fun _ _ _ =>
    naplinkProcess.bind fun _ _ _ => (turns inputs).bind fun _ _ _ => .pure rfl

end Shows

theorem done_of_seen {as : List RawAct} {bs : List Act} (h : as.filterMap seen = bs.filterMap fun a => some (some a)) :
    as.filterMap RawAct.done = bs := by
  have hdone : RawAct.done = fun a => (seen a).bind id := by
    funext a
    rcases a with _ | _ | _ | ⟨p, ⟨off, n⟩ | a⟩ | _
    case body.load =>
      change none = (if off + n ≤ p.body.length then none else some (none : Option Act)).bind id
      split <;> rfl
    all_goals rfl
  rw [hdone, ← List.filterMap_filterMap, h, List.filterMap_filterMap]
  exact List.filterMap_some

/-- Where every act is seen to be one over the fields, nothing is read outside a body. -/
theorem inside_of_seen {as : List RawAct} {bs : List Act} (h : as.filterMap seen = bs.filterMap fun a => some (some a))
    {p : Raw} {off n : Nat} (hm : .body p (.load off n) ∈ as) : off + n ≤ p.body.length := by
  by_contra hout
  have hs : none ∈ as.filterMap seen := List.mem_filterMap.mpr ⟨_, hm, if_neg hout⟩
  rw [h, List.mem_filterMap] at hs
  obtain ⟨a, -, ha⟩ := hs
  cases ha

/-- Packets that fit are served from their bytes as over their fields, in every
run of npsh: with the same calls and the same answers, from the same state into
the same. Nothing is read outside a body, whether `DEBUG` is switched or not. -/
theorem npsh_over_bytes (inputs : List Input) (r : RawWorld) (h : ∀ p ∈ r.arriving, p.Sound) :
    ((Bytes.main inputs).run r).value = ((main inputs).run r.world).value ∧
      ((Bytes.main inputs).run r).acts.filterMap RawAct.done = ((main inputs).run r.world).acts ∧
      ((Bytes.main inputs).run r).state.world = ((main inputs).run r.world).state ∧
      ∀ p off n, .body p (.load off n) ∈ ((Bytes.main inputs).run r).acts → off + n ≤ p.body.length := by
  obtain ⟨hv, ha, hw, -⟩ := Shows.main inputs r _ ⟨rfl, h⟩
  refine ⟨?_, done_of_seen ha, hw.symm, fun p off n hm => inside_of_seen ha hm⟩
  generalize ((Bytes.main inputs).run r).value = x at hv
  generalize ((main inputs).run r.world).value = y at hv
  cases hv with
  | none => rfl
  | some hv => rw [hv]

/-- A file is closed, with three bytes behind the field. -/
def closeThree : Raw := ⟨7, packetClose, le32 3 ++ [1, 2, 3], rfl⟩

def RawWorld.closing : RawWorld where
  toVars := (World.booted .plain 0 [] []).toVars
  os := { Host.plain with txReq := fun n => n = 2 }
  now := 0
  arriving := [closeThree]
  timeout := 0
  pathList := []
  malloc := fun _ => (fun _ => 0xff, 0)
  cliDebug := false
  linkDebug := true

theorem closeThree_over_bytes : (∀ p ∈ RawWorld.closing.arriving, p.Sound) ∧
    ((Bytes.main [.key .debug, .key .quit]).run .closing).acts.filterMap RawAct.done =
      ((main [.key .debug, .key .quit]).run RawWorld.closing.world).acts ∧
    .close 3 (-1) ∈ ((main [.key .debug, .key .quit]).run RawWorld.closing.world).acts := by
  have hs : ∀ p ∈ RawWorld.closing.arriving, p.Sound := by
    intro p hp
    obtain rfl : p = closeThree := List.mem_singleton.mp hp
    exact ⟨by simp [Raw.Fits, closeThree, packetClose, packetOpen], fun h => absurd h (by decide)⟩
  exact ⟨hs, (npsh_over_bytes _ _ hs).2.1, by decide +kernel⟩

end Naplink
