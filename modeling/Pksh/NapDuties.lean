import Pksh.Npsh

/-! What serving a packet from the PS2 does, and the packet that answers it. -/

namespace Naplink

open Wire Traced Pksh

def Act.isOp : Act → Bool
  | .openFile _ _ _ | .close _ _ | .read _ _ _ | .write _ _ _ | .lseek _ _ _ _ | .sham _ _ => true
  | _ => false

/-- The result of trying some paths in turn, up to the first that can be opened. -/
def opened (flags : Word) : List (List Byte) → List Act → Option Int
  | path :: paths, .openFile path' flags' rv :: ops =>
    if path' = path ∧ flags' = flags then
      if rv ≠ -1 ∨ paths = [] then if ops = [] then some rv else none
      else opened flags paths ops
    else none
  | _, _ => none

/-- The packet that is due for a request, given the system calls made for it. -/
def Packet.outcome (dirs : List (List Byte)) : Packet → List Act → Option Sent
  | .open flags pathname, ops =>
    if pathname = devTty then if ops = [] then some (returnPacket 1 [] 0) else none
    else (opened (pcFlags flags) (pathname :: dirs.map (· ++ slash :: pathname)) ops).map (returnPacket · [] 0)
  | .close fd, ops =>
    match ops with
    | [] => if fd ≤ 2 then some (returnPacket 0 [] 0) else none
    | [.close fd' rv] => if 2 < fd ∧ fd' = fd then some (returnPacket rv [] 0) else none
    | _ => none
  | .read fd count, [.read fd' count' got] =>
    if fd' = fd ∧ count' = count then
      some (got.elim (returnPacket (-1) [] 0) fun bytes => returnPacket bytes.length bytes bytes.length)
    else none
  | .read _ count, [.sham count' data] => if count' = count then some (returnPacket count data count) else none
  | .write fd count data, [.write fd' bytes done] =>
    if fd' = fd ∧ bytes.length = count.toNat ∧ data.take count.toNat <+: bytes then
      some (returnPacket (done.elim (-1) fun n => (n : Int)) [] 0)
    else none
  | .write _ count _, [.sham count' _] => if count' = count then some (returnPacket count [] 0) else none
  | .lseek fd offset whence, [.lseek fd' offset' whence' rv] =>
    if fd' = fd ∧ offset' = offset ∧ whence' = whence then some (returnPacket rv [] 0) else none
  | _, _ => none

/-- How one call of a request handler goes: it makes its system calls, sends
the packet that is due, and returns. -/
structure Serves (p : Packet) (w : World) (r : Result World Act Unit) : Prop where
  value : r.value = some ()
  acts : ∃ ops q, r.acts = ops ++ [.send q] ∧ (∀ a ∈ ops, a.isOp = true) ∧ p.outcome w.pathList ops = some q
  commandWaiting : r.state.commandWaiting = w.commandWaiting
  commandBuffer : r.state.commandBuffer = w.commandBuffer
  counter : r.state.counter = 0
  incoming : r.state.incoming = w.incoming

theorem payload_prefix (heap : Mem) (count : Int) (data : List Byte) :
    data.take count.toNat <+: payload heap count data := by
  by_cases h : count.toNat ≤ data.length
  · simp [payload, Mem.slice_store_of_le h]
  · obtain ⟨k, hk⟩ := Nat.exists_eq_add_of_le (Nat.le_of_not_le h)
    rw [payload, hk, Mem.slice_add, Mem.slice_store, List.take_of_length_le (Nat.le_add_right _ _)]
    exact List.prefix_append _ _

section Serves

variable {w : World} {b : Np Unit}

theorem serves_processClose (fd : Int) : Serves (.close fd) w ((processClose fd).run w) := by
  by_cases h : fd ≤ 2
  · have hr : (processClose fd).run w = ⟨some (), { w with processing := false, counter := 0 }, [.send (returnPacket 0 [] 0)]⟩ := by
      simp only [processClose, if_pos h]
      rfl
    rw [hr]
    exact ⟨rfl, ⟨[], _, rfl, by simp, by simp [Packet.outcome, h]⟩, rfl, rfl, rfl, rfl⟩
  · have hr : (processClose fd).run w = ⟨some (), { w with processing := false, counter := 0, now := w.now + 1 },
        [.close fd (w.os.close w.now fd), .send (returnPacket (w.os.close w.now fd) [] 0)]⟩ := by
      simp only [processClose, if_neg h]
      rfl
    rw [hr]
    exact ⟨rfl, ⟨[_], _, rfl, by simp [Act.isOp], by simp [Packet.outcome, Int.not_le.mp h]⟩, rfl, rfl, rfl, rfl⟩

theorem serves_processLseek (fd offset whence : Int) :
    Serves (.lseek fd offset whence) w ((processLseek fd offset whence).run w) :=
  ⟨rfl, ⟨[_], _, rfl, by simp [Act.isOp], by simp [Packet.outcome]⟩, rfl, rfl, rfl, rfl⟩

theorem serves_processRead (fd count : Int) : Serves (.read fd count) w ((processRead fd count).run w) := by
  cases hb : w.benchmarking with
  | true =>
    have hr : (processRead fd count).run w = ⟨some (), { w with counter := 0 },
        [.sham count ((w.os.heap w.now).slice 0 count.toNat),
          .send (returnPacket count ((w.os.heap w.now).slice 0 count.toNat) count)]⟩ := by
      simp [processRead, npSetCounter, setVars, hb, emit, doReturn, sendPacket]
    rw [hr]
    exact ⟨rfl, ⟨[_], _, rfl, by simp [Act.isOp], by simp [Packet.outcome]⟩, rfl, rfl, rfl, rfl⟩
  | false =>
    have hr : (processRead fd count).run w =
        let got := (w.os.read w.now fd count).map (·.take count.toNat)
        ⟨some (), { w with counter := 0, now := w.now + 1 }, [.read fd count got,
          .send (got.elim (returnPacket (-1) [] 0) fun bytes => returnPacket bytes.length bytes bytes.length)]⟩ := by
      cases hg : w.os.read w.now fd count with
      | none =>
        simp [processRead, npSetCounter, setVars, hb, sysRead, asks, hg, doReturn, sendPacket, emit, World.tick]
        rfl
      | some bytes =>
        simp [processRead, npSetCounter, setVars, hb, sysRead, asks, hg, doReturn, sendPacket, emit, World.tick]
    rw [hr]
    exact ⟨rfl, ⟨[_], _, rfl, by simp [Act.isOp], by simp [Packet.outcome]⟩, rfl, rfl, rfl, rfl⟩

theorem serves_processWrite (fd count : Int) (data : List Byte) :
    Serves (.write fd count data) w ((processWrite fd count data).run w) := by
  cases hb : w.benchmarking with
  | true =>
    have hr : (processWrite fd count data).run w =
        ⟨some (), { w with counter := 0 }, [.sham count [], .send (returnPacket count [] 0)]⟩ := by
      simp [processWrite, npSetCounter, setVars, hb, emit, doReturn, sendPacket]
    rw [hr]
    exact ⟨rfl, ⟨[_], _, rfl, by simp [Act.isOp], by simp [Packet.outcome]⟩, rfl, rfl, rfl, rfl⟩
  | false =>
    have hr : (processWrite fd count data).run w =
        let done := (w.os.write w.now fd (payload (w.os.heap w.now) count data)).map (min · (payload (w.os.heap w.now) count data).length)
        ⟨some (), { w with counter := 0, now := w.now + 1 }, [.write fd (payload (w.os.heap w.now) count data) done,
          .send (returnPacket (done.elim (-1) fun n => (n : Int)) [] 0)]⟩ := by
      simp [processWrite, npSetCounter, setVars, hb, sysWrite, asks, doReturn, sendPacket, emit, World.tick]
    have hp := payload_prefix (w.os.heap w.now) count data
    have hn : (payload (w.os.heap w.now) count data).length = count.toNat := Mem.slice_length _ _ _
    rw [hr]
    refine ⟨rfl, ⟨[_], _, rfl, by simp [Act.isOp], ?_⟩, rfl, rfl, rfl, rfl⟩
    simp [Packet.outcome, hp, hn]

theorem opened_cons {flags : Word} {path : List Byte} {paths : List (List Byte)} {ops : List Act} {rv : Int}
    (h : paths ≠ [] → opened flags paths ops = some rv) (hn : paths = [] → ops = [] ∧ rv = -1) :
    opened flags (path :: paths) (.openFile path flags (-1) :: ops) = some rv := by
  cases paths with
  | nil =>
    obtain ⟨rfl, rfl⟩ := hn rfl
    simp [opened]
  | cons p ps => simpa [opened] using h (by simp)

theorem opened_first {flags : Word} {path : List Byte} (paths : List (List Byte)) {rv : Int} (h : rv ≠ -1) :
    opened flags (path :: paths) [.openFile path flags rv] = some rv := by
  simp [opened, h]

theorem openAlong_run (pathname : List Byte) (flags : Word) (dirs : List (List Byte)) (w : World) :
    ∃ ops rv now, (openAlong pathname flags dirs).run w = ⟨some rv, { w with now := now }, ops⟩ ∧
      (∀ a ∈ ops, a.isOp = true) ∧
      (dirs.map (· ++ slash :: pathname) ≠ [] → opened flags (dirs.map (· ++ slash :: pathname)) ops = some rv) ∧
      (dirs.map (· ++ slash :: pathname) = [] → ops = [] ∧ rv = -1) := by
  induction dirs generalizing w with
  | nil => exact ⟨[], -1, w.now, rfl, by simp, by simp, by simp⟩
  | cons dir dirs ih =>
    have hrun : (openAlong pathname flags (dir :: dirs)).run w =
        ((if w.os.openFile w.now (dir ++ slash :: pathname) flags ≠ -1 then
            pure (w.os.openFile w.now (dir ++ slash :: pathname) flags)
          else openAlong pathname flags dirs : Np Int).run w.tick).after
          [.openFile (dir ++ slash :: pathname) flags (w.os.openFile w.now (dir ++ slash :: pathname) flags)] := rfl
    by_cases h : w.os.openFile w.now (dir ++ slash :: pathname) flags = -1
    · obtain ⟨ops, rv, now, hr, ho, hs, hn⟩ := ih w.tick
      rw [if_neg (not_not.mpr h), hr, h] at hrun
      exact ⟨_, rv, now, hrun, by simpa [Act.isOp] using ho, fun _ => opened_cons hs hn, fun hd => by simp at hd⟩
    · rw [if_pos h] at hrun
      exact ⟨_, _, _, hrun, by simp [Act.isOp], fun _ => opened_first _ h, fun hd => by simp at hd⟩

theorem openPath_run (pathname : List Byte) (flags : Word) (w : World) :
    ∃ ops rv now, (openPath pathname flags).run w = ⟨some rv, { w with now := now }, ops⟩ ∧
      (∀ a ∈ ops, a.isOp = true) ∧
      opened flags (pathname :: w.pathList.map (· ++ slash :: pathname)) ops = some rv := by
  have hrun : (openPath pathname flags).run w =
      ((if w.os.openFile w.now pathname flags = -1 then do
          let w ← Prog.get
          openAlong pathname flags w.pathList
        else pure (w.os.openFile w.now pathname flags) : Np Int).run w.tick).after
        [.openFile pathname flags (w.os.openFile w.now pathname flags)] := rfl
  by_cases h : w.os.openFile w.now pathname flags = -1
  · obtain ⟨ops, rv, now, hr, ho, hs, hn⟩ := openAlong_run pathname flags w.pathList w.tick
    rw [if_pos h, Prog.run_bind, Prog.run_get, Result.andThen_mk_some, show w.tick.pathList = w.pathList from rfl,
      hr, h] at hrun
    exact ⟨_, rv, now, hrun, by simpa [Act.isOp] using ho, opened_cons hs hn⟩
  · rw [if_neg h] at hrun
    exact ⟨_, _, _, hrun, by simp [Act.isOp], opened_first _ h⟩

theorem serves_processOpen (flags : Word) (pathname : List Byte) :
    Serves (.open flags pathname) w ((processOpen flags pathname).run w) := by
  by_cases h : pathname = devTty
  · have hr : (processOpen flags pathname).run w =
        ⟨some (), { w with processing := true, counter := 0 }, [.send (returnPacket 1 [] 0)]⟩ := by
      simp only [processOpen, if_pos h]
      rfl
    rw [hr]
    exact ⟨rfl, ⟨[], _, rfl, by simp, by simp [Packet.outcome, h]⟩, rfl, rfl, rfl, rfl⟩
  · obtain ⟨ops, rv, now, hrun, ho, hs⟩ :=
      openPath_run pathname (pcFlags flags) { w with processing := true, counter := 0 }
    have hr : (processOpen flags pathname).run w =
        ⟨some (), { w with processing := true, counter := 0, now := now }, ops ++ [.send (returnPacket rv [] 0)]⟩ := by
      simp only [processOpen, if_neg h, npSetProcessing, npSetCounter, setVars, Prog.run_bind, Result.andThen_mk_some,
        hrun]
      rfl
    rw [hr]
    exact ⟨rfl, ⟨ops, _, rfl, ho, by simp [Packet.outcome, h, hs]⟩, rfl, rfl, rfl, rfl⟩

theorem serves_processPacket {p : Packet} (h : p.isRequest = true) (b : Np Unit) (w : World) :
    Serves p w ((processPacket b p).run w) := by
  cases p with
  | «open» flags pathname => exact serves_processOpen flags pathname
  | close fd => exact serves_processClose fd
  | read fd count => exact serves_processRead fd count
  | write fd count data => exact serves_processWrite fd count data
  | lseek fd offset whence => exact serves_processLseek fd offset whence
  | _ => cases h

end Serves

section Dispatch

variable {w : World} {b : Np Unit} {p : Packet} {rest : List Packet}

def World.behind (w : World) (rest : List Packet) : World := { w with incoming := rest }

theorem recvAndProcess_nil (h : w.incoming = []) : (recvAndProcess b).run w = ⟨none, w, [.waits]⟩ := by
  have hr : recvPacket.run w = ⟨none, w, [.waits]⟩ := by simp [recvPacket, h]
  rw [recvAndProcess, Prog.run_bind, hr, Result.andThen_mk_none]

theorem recvAndProcess_cons (h : w.incoming = p :: rest) :
    (recvAndProcess b).run w = (((processPacket b p).run (w.behind rest)).andThen fun _ s => ⟨some p, s, []⟩).after
      [.recv p, .process p] := by
  have hr : recvPacket.run w = ⟨some p, w.behind rest, [.recv p]⟩ := by simp [recvPacket, h, World.behind]
  rw [recvAndProcess, Prog.run_bind, hr, Result.andThen_mk_some]
  rfl

def World.packetFor (w : World) : Command → Option Sent
  | .reset => some { type := packetReset, size := 0, body := [] }
  | .execps2 => w.buffered.map fun f => { type := packetExecps2, size := f.length + 1, body := f ++ [0] }
  | .execiop => w.buffered.map fun f => { type := packetExeciop, size := f.length + 1, body := f ++ [0] }
  | .quit => some { type := packetQuit, size := 0, body := [] }
  | .benchmark => some { type := packetBenchmark, size := 0, body := [] }

theorem sendCommand_exchange (w : World) {c : Command} (hb : c ≠ .benchmark) :
    sendCommand b w.buffered (some c) = (do
      let _ ← ((w.packetFor c).elim (pure (-1)) exchange : Np Int)) := by
  cases c with
  | benchmark => exact absurd rfl hb
  | reset => rfl
  | quit => rfl
  | execps2 => cases h : w.buffered <;> simp only [World.packetFor, h] <;> rfl
  | execiop => cases h : w.buffered <;> simp only [World.packetFor, h] <;> rfl

end Dispatch

end Naplink
