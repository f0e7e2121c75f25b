import Pksh.NapBench

/-! Every transfer that the PS2 asks for is carried out, or left out while a
benchmark goes on, and answered at once. -/

namespace Naplink

open Wire Traced Pksh

/-- What the dispatcher owes: nothing, the transfer it has turned to, or the
answer with its outcome. -/
inductive Debt
  | none
  | read (fd count : Int)
  | write (fd count : Int) (data : List Byte)
  | answer (p : Sent)
deriving DecidableEq

namespace Debt

/-- Files are read and written, or transfers left out, for a request only, with
its descriptor and its count. What the PS2 gets is the outcome: the bytes that
were read, how many were written, or what it asked for. -/
def step : Debt → Act → Option Debt
  | none, .process (.read fd count) => some (read fd count)
  | none, .process (.write fd count data) => some (write fd count data)
  | none, .read _ _ _ | none, .write _ _ _ | none, .sham _ _ => Option.none
  | none, _ => some none
  | read fd count, .read fd' count' ret =>
    if fd' = fd ∧ count' = count then
      some (answer (ret.elim (returnPacket (-1) [] (-1)) fun bs => returnPacket bs.length bs bs.length))
    else Option.none
  | read _ count, .sham count' data =>
    if count' = count then some (answer (returnPacket count data count)) else Option.none
  | write fd count data, .write fd' bytes ret =>
    if fd' = fd ∧ bytes.length = count.toNat ∧ data.take count.toNat <+: bytes then
      some (answer (returnPacket (ret.elim (-1) fun n => (n : Int)) [] 0))
    else Option.none
  | write _ count _, .sham count' _ =>
    if count' = count then some (answer (returnPacket count [] 0)) else Option.none
  | answer p, .send q => if q = p then some none else Option.none
  | _, _ => Option.none

/-- The program starts and ends without a debt. -/
def Settles (_ : World) (as : List Act) (_ : World) : Prop := watch step none as = some none

instance : Chains Settles where
  nil _ := rfl
  append h h' := (watch_append_some h _).trans h'

/-- Acts that have nothing to do with a transfer. -/
def aside : Act → Bool
  | .process p => match p with
    | .read _ _ | .write _ _ _ => false
    | _ => true
  | .read _ _ _ | .write _ _ _ | .sham _ _ => false
  | _ => true

theorem step_aside {a : Act} (h : aside a = true) : step none a = some none := by
  cases a with
  | process p => cases p <;> first | rfl | cases h
  | read fd count ret => cases h
  | write fd bytes ret => cases h
  | sham count data => cases h
  | _ => rfl

namespace Settles

variable {α : Type}

theorem of_aside {m : Np α} (h : ∀ w, ∀ a ∈ (m.run w).acts, aside a = true) : Sat Settles m :=
  fun w => watch_of_pass fun a ha => step_aside (h w a ha)

theorem setVars (f : Vars → Vars) : Sat Settles (setVars f) := fun _ => rfl

theorem emit {a : Act} (h : a.still = true) (ha : aside a = true) : Sat Settles (emit a h) :=
  of_aside fun _ _ hb => List.mem_singleton.mp hb ▸ ha

theorem asks {answer : World → α} {act : α → List Act} {h : ∀ r, (act r).all Act.still = true}
    (ha : ∀ r, ∀ a ∈ act r, aside a = true) : Sat Settles (asks answer act h) := of_aside fun w => ha (answer w)

theorem doReturn (rv : Int) (data : List Byte) (count : Int) : Sat Settles (doReturn rv data count) := emit rfl rfl

theorem recvPacket : Sat Settles recvPacket := by
  refine of_aside fun w => ?_
  cases h : w.incoming <;> simp [Naplink.recvPacket, h, aside]

theorem exchange (p : Sent) : Sat Settles (exchange p) := by
  refine (emit rfl rfl).bind fun _ => recvPacket.bind fun q => ?_
  cases q with
  | ret rv data => exact .pure rv
  | _ => exact (emit rfl rfl).bind fun _ => .pure (-1)

theorem doExec (type : Word) (filename : Option (List Byte)) : Sat Settles (doExec type filename) := by
  cases filename with
  | none => exact .pure (-1)
  | some filename => exact exchange _

theorem openAlong (pathname : List Byte) (flags : Word) (dirs : List (List Byte)) :
    Sat Settles (openAlong pathname flags dirs) := by
  induction dirs with
  | nil => exact .pure (-1)
  | cons dir dirs ih => exact (asks (by simp [aside])).bind fun rv => .ite (.pure rv) ih

theorem processOpen (flags : Word) (pathname : List Byte) : Sat Settles (processOpen flags pathname) := by
  have hp : Sat Settles (openPath pathname (pcFlags flags)) :=
    (asks (by simp [aside])).bind fun rv => .ite (Sat.get.bind fun _ => openAlong _ _ _) (.pure rv)
  exact (setVars _).bind fun _ => (setVars _).bind fun _ =>
    .ite ((Sat.pure 1).bind fun _ => doReturn _ _ _) (hp.bind fun _ => doReturn _ _ _)

theorem processClose (fd : Int) : Sat Settles (processClose fd) :=
  (setVars _).bind fun _ => (setVars _).bind fun _ => .ite ((Sat.pure 0).bind fun _ => doReturn _ _ _)
    ((asks (by simp [aside])).bind fun _ => doReturn _ _ _)

theorem processLseek (fd offset whence : Int) : Sat Settles (processLseek fd offset whence) :=
  (setVars _).bind fun _ => (asks (by simp [aside])).bind fun _ => doReturn _ _ _

theorem read (fd count : Int) : Sat Settles (do
      Naplink.emit (.process (.read fd count)) rfl
      processRead fd count
      pure (.read fd count) : Np Packet) := by
  intro w
  cases hb : w.benchmarking with
  | true => simp [Settles, Naplink.emit, processRead, npSetCounter, Naplink.setVars, Naplink.doReturn, sendPacket, hb, step]
  | false =>
    cases hr : w.os.read w.now fd count with
    | none =>
      simp [Settles, Naplink.emit, processRead, npSetCounter, Naplink.setVars, Naplink.doReturn, sendPacket, sysRead,
        Naplink.asks, hb, hr, step]
    | some bytes =>
      simp [Settles, Naplink.emit, processRead, npSetCounter, Naplink.setVars, Naplink.doReturn, sendPacket, sysRead,
        Naplink.asks, hb, hr, step]

theorem payload_length (heap : Mem) (count : Int) (data : List Byte) : (payload heap count data).length = count.toNat :=
  Mem.slice_length _ _ _

theorem payload_front (heap : Mem) (count : Int) (data : List Byte) : data.take count.toNat <+: payload heap count data := by
  rw [payload]
  rcases Nat.le_total count.toNat data.length with hle | hle
  · exact (Mem.slice_store_of_le hle).symm ▸ List.prefix_rfl
  · obtain ⟨k, hk⟩ := Nat.exists_eq_add_of_le hle
    rw [List.take_of_length_le hle, hk, Mem.slice_add, Mem.slice_store]
    exact List.prefix_append _ _

theorem write (fd count : Int) (data : List Byte) : Sat Settles (do
      Naplink.emit (.process (.write fd count data)) rfl
      processWrite fd count data
      pure (.write fd count data) : Np Packet) := by
  intro w
  cases hb : w.benchmarking with
  | true => simp [Settles, Naplink.emit, processWrite, npSetCounter, Naplink.setVars, Naplink.doReturn, sendPacket, hb, step]
  | false =>
    simp [Settles, Naplink.emit, processWrite, npSetCounter, Naplink.setVars, Naplink.doReturn, sendPacket, sysWrite,
      Naplink.asks, hb, step, payload_length, payload_front]

theorem processWazzup {bench : Np Unit} (hb : Sat Settles bench) : Sat Settles (processWazzup bench) := by
  have hs (buffered : Option (List Byte)) (c : Option Command) : Sat Settles (sendCommand bench buffered c) := by
    rcases c with _ | _ | _ | _ | _ | _
    · exact doReturn _ _ _
    · exact (exchange _).bind fun _ => .pure ()
    · exact (doExec _ _).bind fun _ => .pure ()
    · exact (doExec _ _).bind fun _ => .pure ()
    · exact (exchange _).bind fun _ => .pure ()
    · exact hb
  exact (Sat.get.bind fun _ => .ite (.pure ()) (setVars _)).bind fun _ => Sat.get.bind fun _ => (hs _ _).bind fun _ => setVars _

theorem recvAndProcess {bench : Np Unit} (hb : Sat Settles bench) : Sat Settles (recvAndProcess bench) := by
  refine recvPacket.bind fun p => ?_
  cases p with
  | «open» flags pathname => exact (emit rfl rfl).bind fun _ => (processOpen _ _).bind fun _ => .pure _
  | close fd => exact (emit rfl rfl).bind fun _ => (processClose _).bind fun _ => .pure _
  | read fd count => exact read fd count
  | write fd count data => exact write fd count data
  | lseek fd offset whence => exact (emit rfl rfl).bind fun _ => (processLseek _ _ _).bind fun _ => .pure _
  | wazzup => exact (emit rfl rfl).bind fun _ => (processWazzup hb).bind fun _ => .pure _
  | ret rv data => exact (emit rfl rfl).bind fun _ => (Sat.pure ()).bind fun _ => .pure _
  | bad type => exact (emit rfl rfl).bind fun _ => (Sat.pure ()).bind fun _ => .pure _

theorem doBenchmarkWith {loop : Np Unit} (hl : Sat Settles loop) : Sat Settles (doBenchmarkWith loop) :=
  (emit rfl rfl).bind fun _ => (setVars _).bind fun _ => hl.bind fun _ => setVars _

theorem benchmarkLoop (rounds : Nat) : Sat Settles (benchmarkLoop rounds) := by
  induction rounds with
  | zero => exact (emit rfl rfl).bind fun _ => .hang
  | succ rounds ih => exact (recvAndProcess (doBenchmarkWith ih)).bind fun p => .ite (.pure ()) ih

theorem exec (e : Event) : Sat Settles e.exec := by
  by_cases he : e = .process
  · subst he
    exact (Sat.get.bind fun w => recvAndProcess (doBenchmarkWith (benchmarkLoop _))).bind fun _ => .pure ()
  · refine of_aside fun w a ha => ?_
    have ho := Own.exec he w a ha
    cases a <;> first | rfl | cases ho

end Settles

end Debt

/-- In every run of npsh the transfers of the PS2 are left out exactly between
the start of a benchmark and the next return packet that is dispatched. At
every other time each of them is carried out, and in either case answered
before anything else is done. -/
theorem transfers_sham_iff (inputs : List Input) (os : Host) (timeout : Word) (pathList : List (List Byte))
    (incoming : List Packet) :
    watch Bench.step false ((main inputs).run (.booted os timeout pathList incoming)).acts ≠ none ∧
      watch Debt.step .none ((main inputs).run (.booted os timeout pathList incoming)).acts = some .none := by
  obtain ⟨es, ha, -⟩ := unrolls_main inputs (.booted os timeout pathList incoming)
  obtain ⟨k, hk, -⟩ := Triple.runAll Bench.quiescent_exec es false (.booted os timeout pathList incoming) ⟨rfl, rfl⟩
  have hsettles : ∀ es w, Debt.Settles w ((runEvents es).run w).acts ((runEvents es).run w).state := by
    intro es
    induction es with
    | nil => exact fun _ => rfl
    | cons e es ih => exact (Debt.Settles.exec e).bind fun _ => ih
  rw [← ha]
  exact ⟨by rw [hk]; exact Option.some_ne_none k, hsettles es _⟩

end Naplink
