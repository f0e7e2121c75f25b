import Pksh.Holding
import Pksh.Clients

/-! The events of the main loop, and what they keep when its parts keep it. -/

namespace Pksh

open Wire Traced

/-- A function is called with what is typed while the slot of standard input is
served. -/
structure Shell.Types (p : Shell) (input : Input) (i : Nat) (f : CliFunc) (arg : List Byte) : Prop where
  visits : p.session.Visits i
  stdin : p.session.client i = 0
  notLog : p.world.logFd ≠ 0
  typed : input.typed.func = some (f, arg)

/-- The closes of an event that are meant for the descriptor of a request, the
link or a client. -/
inductive Foreign (p : Shell) : Event → Int → Prop
  | request {input : Input} {i : Nat} {n : Int}
      (h : .handle (.closeFile n) ∈ ((Event.slot input i).exec.run p).acts) : Foreign p (.slot input i) n
  | link {input : Input} {i : Nat} (hv : p.session.Visits i) (hi : p.session.client i = p.world.pkoSrvFd)
      (hl : (p.world.pending p.world.pkoSrvFd).length < pktHdrSize)
      (he : (p.world.inflow p.world.pkoSrvFd).stop = .eof) (h0 : p.world.pkoSrvFd ≠ 0)
      (hlog : p.world.pkoSrvFd ≠ p.world.logFd) : Foreign p (.slot input i) p.world.pkoSrvFd
  | client {input : Input} {i : Nat} (hv : p.session.Visits i) (hi : p.session.client i ∉ p.world.standing)
      (hl : (p.world.pending (p.session.client i)).length < pktHdrSize)
      (he : (p.world.inflow (p.session.client i)).stop ≠ .never) : Foreign p (.slot input i) (p.session.client i)
  | reconnect {input : Input} {i : Nat} {arg : List Byte} (h : p.Types input i .reconnect arg) :
      Foreign p (.slot input i) p.world.pkoSrvFd

/-- All closes that are not meant for the connection to the file server: those,
and the close of the file that was logged to. -/
inductive Strays (p : Shell) : Event → Int → Prop
  | foreign {e : Event} {n : Int} (h : Foreign p e n) : Strays p e n
  | log {input : Input} {i : Nat} {arg : List Byte} (h : p.Types input i .log arg)
      (hl : p.session.logToFile = true) (ha : trimInPlace arg = str "stdout" ∨ trimInPlace arg = []) :
      Strays p (.slot input i) p.session.logFFd

inductive Releases (p : Shell) : Event → Int → Prop
  | request {input : Input} {i : Nat} {n : Int}
      (h : .handle (.closeFile n) ∈ ((Event.slot input i).exec.run p).acts) : Releases p (.slot input i) n
  | client {input : Input} {i : Nat} (hv : p.session.Visits i) (hi : p.session.client i ∉ p.world.standing)
      (hl : (p.world.pending (p.session.client i)).length < pktHdrSize)
      (he : (p.world.inflow (p.session.client i)).stop ≠ .never) : Releases p (.slot input i) (p.session.client i)
  | log {input : Input} {i : Nat} {arg : List Byte} (h : p.Types input i .log arg)
      (hl : p.session.logToFile = true) (ha : trimInPlace arg = str "stdout" ∨ trimInPlace arg = []) :
      Releases p (.slot input i) p.session.logFFd

theorem Releases.strays {p : Shell} {e : Event} {n : Int} (h : Releases p e n) : Strays p e n := by
  cases h with
  | request h => exact .foreign (.request h)
  | client hv hi hl he => exact .foreign (.client hv hi hl he)
  | log h hl ha => exact .log h hl ha

section Slot

variable {p : Shell} {input : Input} {i : Nat}

theorem exec_slot_acts (hv : p.session.Visits i) : ((Event.slot input i).exec.run p).acts =
    ((Pksh.serveSlot input i p.session).run p.world).acts := by
  rw [Event.exec_acts, Event.task, if_pos hv]

theorem serveSlot_elim {P : Result World Act Session → Prop}
    (log : p.session.client i = p.world.logFd → P ((pkoLogRead input.log p.session).run p.world))
    (stdin : p.session.client i ≠ p.world.logFd → p.session.client i = 0 →
      P ((rlCallbackReadChar input.typed p.session).run p.world))
    (link : p.session.client i ≠ p.world.logFd → p.session.client i ≠ 0 → p.session.client i = p.world.pkoSrvFd →
      P ((Pksh.pkoSrvRead p.world.pkoSrvFd >>= fun _ => pure p.session).run p.world))
    (server : p.session.client i ≠ 0 → p.session.client i = p.world.pkshSrvFd →
      P ((Pksh.acceptClient p.session).run p.world))
    (client : p.session.client i ∉ p.world.standing → P ((serveClient i p.session).run p.world)) :
    P ((Pksh.serveSlot input i p.session).run p.world) := by
  have hrun : (Pksh.serveSlot input i p.session).run p.world =
      (if p.session.client i = p.world.logFd then pkoLogRead input.log p.session
        else if p.session.client i = 0 then rlCallbackReadChar input.typed p.session
        else if p.session.client i = p.world.pkoSrvFd then
          Pksh.pkoSrvRead p.world.pkoSrvFd >>= fun _ => pure p.session
        else if p.session.client i = p.world.pkshSrvFd then Pksh.acceptClient p.session
        else serveClient i p.session : Io Session).run p.world := rfl
  rw [hrun]
  by_cases h1 : p.session.client i = p.world.logFd
  · rw [if_pos h1]
    exact log h1
  rw [if_neg h1]
  by_cases h2 : p.session.client i = 0
  · rw [if_pos h2]
    exact stdin h1 h2
  rw [if_neg h2]
  by_cases h3 : p.session.client i = p.world.pkoSrvFd
  · rw [if_pos h3]
    exact link h1 h2 h3
  rw [if_neg h3]
  by_cases h4 : p.session.client i = p.world.pkshSrvFd
  · rw [if_pos h4]
    exact server h2 h4
  rw [if_neg h4]
  refine client ?_
  simp only [World.standing, List.mem_cons, List.not_mem_nil, or_false, not_or]
  exact ⟨h2, h3, h1, h4⟩

end Slot

/-- A relation of what leaves the link and the descriptors of `S` alone, and of
what makes a new link. The relation `Q` is that of a whole event. -/
structure Carries (S : Int → Prop) (R Q : World → List Act → World → Prop) : Prop where
  plain : ∀ {w as w'}, Holding S none w as w' → w'.pkoSrvFd = w.pkoSrvFd → R w as w'
  execee : ∀ arg, Sat R (cliExecee arg)
  linkLost : ∀ {w}, w.netfs ≠ some w.pkoSrvFd → R w ((linkLost w.pkoSrvFd).run w).acts ((linkLost w.pkoSrvFd).run w).state
  reconnect : ∀ {w}, w.netfs ≠ some w.pkoSrvFd → Q w (cliReconnect.run w).acts (cliReconnect.run w).state
  whole : ∀ {w as w'}, R w as w' → Q w as w'

namespace Carries

variable {S : Int → Prop} {R Q : World → List Act → World → Prop}

theorem careful (C : Carries S R Q) {α : Type} {m : Io α} (h : Sat Careful m) (hl : Sat KeepsLink m) : Sat R m :=
  fun w => C.plain (Holding.careful h w) (hl w)

theorem contact (C : Carries S R Q) {α : Type} {m : Io α} (h : Contact α m) : Sat R m :=
  contact_elim (P := fun m => Sat R m) (fun h hl w => C.plain (h S w) (hl w)) C.execee h

theorem fileIo (C : Carries S R Q) {c : Cmd} {call : Call} {w : World} (h : c.call w.recvPacket = some call)
    (hc : ∀ n, call = .closeFile n → ¬S n ∧ w.netfs ≠ some n) :
    R w ((fileIo c).run w).acts ((fileIo c).run w).state := by
  have hh := handles_fileIo h
  obtain ⟨rest, hacts, hserves⟩ := hh.acts
  refine C.plain (.of_accounted ((Pksh.fileIo c).keeps w) (wiring_eq hh.wiring).2.1 (fun fd hm => ?_) fun _ x hm => ?_)
    (wiring_eq hh.wiring).1
  · rw [hacts] at hm
    exact hserves _ ((List.mem_cons.mp hm).resolve_left (by simp))
  · rw [hacts] at hm
    exact hc x (hserves _ ((List.mem_cons.mp hm).resolve_left (by simp)))

theorem received (C : Carries S R Q) (w : World) (fd : Int) (n : Int) : R w
    (.recv fd ((w.pending fd).take n.toNat) :: Buf.stored (.recvPacket 0) ((w.pending fd).take n.toNat))
    (w.received fd (.recvPacket 0) n) := by
  have hv := received_vars w fd (.recvPacket 0) n
  refine C.plain (.of_accounted (received_accounted w fd _ n) (by rw [hv]; rfl) (by simp [Buf.stored])
    (by simp [Buf.stored])) (by rw [hv]; rfl)

theorem intake (C : Carries S R Q) (w : World) (fd : Int) : R w (w.intake fd) (w.withPacket fd) := by
  have hv := wiring_eq (withPacket_wiring w fd)
  exact C.plain (.of_accounted (withPacket_accounted w fd) hv.2.1 (by simp [World.intake]) (by simp [World.intake])) hv.1

variable [Chains R]

theorem switch (C : Carries S R Q) {w : World} {c : Option Cmd}
    (hc : ∀ n, .handle (.closeFile n) ∈ ((switch c).run w).acts → ¬S n ∧ w.netfs ≠ some n) :
    R w ((switch c).run w).acts ((switch c).run w).state := by
  cases c with
  | none => exact Chains.nil w
  | some c =>
    by_cases hf : c.isFileIo = true
    · obtain ⟨call, hcall⟩ := Option.isSome_iff_exists.mp ((c.isFileIo_iff_call w.recvPacket).mp hf)
      obtain ⟨rest, hacts, _⟩ := (handles_fileIo hcall).acts
      rw [Pksh.switch, if_pos hf] at hc ⊢
      refine C.fileIo hcall fun n hn => hc n ?_
      rw [hacts, hn]
      exact List.mem_cons_self
    · rw [Pksh.switch, if_neg hf]
      exact (Contact.relay c).sat C.contact w

theorem srvEof (C : Carries S R Q) {w : World} {fd : Int} (hl : fd = w.pkoSrvFd → w.netfs ≠ some fd) :
    R w ((srvEof fd).run w).acts ((srvEof fd).run w).state := by
  have h : R w ((if fd = w.pkoSrvFd then Pksh.linkLost fd >>= fun _ => pure 0 else pure (-1) : Io Int).run w).acts
      ((if fd = w.pkoSrvFd then Pksh.linkLost fd >>= fun _ => pure 0 else pure (-1) : Io Int).run w).state := by
    by_cases hfd : fd = w.pkoSrvFd
    · have hn := hl hfd
      subst hfd
      rw [if_pos rfl]
      exact Sat.bind_at (C.linkLost hn) fun _ _ => Sat.pure 0 _
    · rw [if_neg hfd]
      exact Chains.nil w
  exact h

theorem pkoSrvRead (C : Carries S R Q) {w : World} {fd : Int}
    (hc : ∀ n, .handle (.closeFile n) ∈ ((pkoSrvRead fd).run w).acts → ¬S n ∧ w.netfs ≠ some n)
    (hl : fd = w.pkoSrvFd → (w.pending fd).length < pktHdrSize → (w.inflow fd).stop = .eof → w.netfs ≠ some fd) :
    R w ((pkoSrvRead fd).run w).acts ((pkoSrvRead fd).run w).state := by
  have hstarves : ∀ v : World, R v [.starves fd] v := fun v =>
    C.careful (Careful.emit (a := .starves fd) (h := rfl) (by simp)) (fun _ => rfl) v
  have hshort : (w.pending fd).length < pktHdrSize → R w [.recv fd (w.pending fd), .store 0 (w.pending fd)]
      (w.received fd (.recvPacket 0) pktHdrSize) := by
    intro h
    have hr := C.received w fd pktHdrSize
    rwa [List.take_of_length_le (show (w.pending fd).length ≤ (pktHdrSize : Int).toNat from Nat.le_of_lt h)] at hr
  revert hc
  refine packetRead_elim (P := fun r => (∀ n, .handle (.closeFile n) ∈ r.acts → ¬S n ∧ w.netfs ≠ some n) →
    R w r.acts r.state) (fun h _ hc => ?_) (fun h _ _ => ?_) (fun h he _ => ?_) (fun h _ _ => hshort h) fun h _ => ?_
  · have hnet : (w.withPacket fd).netfs = w.netfs := by
      rw [World.netfs, World.netfs, (wiring_eq (withPacket_wiring w fd)).2.1]
    refine Chains.append (C.intake w fd) (Sat.bind_at (C.switch fun n hn => ?_) fun _ _ => Sat.pure 0 _)
    rw [hnet]
    exact hc n (List.mem_append_right _ ((Result.acts_prefix_andThen _ _).subset hn))
  · exact Chains.append (C.intake w fd) (hstarves _)
  · have hv := received_vars w fd (.recvPacket 0) pktHdrSize
    have hlink : (w.received fd (.recvPacket 0) pktHdrSize).pkoSrvFd = w.pkoSrvFd := by
      rw [hv]
      rfl
    have hnet : (w.received fd (.recvPacket 0) pktHdrSize).netfs = w.netfs := by
      rw [World.netfs, hv]
      rfl
    refine Chains.append (hshort h) (C.srvEof fun hfd => ?_)
    rw [hnet]
    exact hl (hfd.trans hlink) h he
  · exact Chains.append (hshort h) (hstarves _)

theorem pkoSrvRead_negative {w : World} {fd r : Int} (hr : ((Pksh.pkoSrvRead fd).run w).value = some r) (h0 : r < 0)
    (hl : fd ≠ w.pkoSrvFd) : (w.pending fd).length < pktHdrSize ∧ (w.inflow fd).stop ≠ .never ∧
      ((Pksh.pkoSrvRead fd).run w).state.netfs = w.netfs := by
  have hnet : (w.received fd (.recvPacket 0) pktHdrSize).netfs = w.netfs := by
    rw [World.netfs, received_vars]
    rfl
  have hlink : (w.received fd (.recvPacket 0) pktHdrSize).pkoSrvFd = w.pkoSrvFd := by
    rw [received_vars]
    rfl
  have he : (Pksh.srvEof fd).run (w.received fd (.recvPacket 0) pktHdrSize) =
      ⟨some (-1), w.received fd (.recvPacket 0) pktHdrSize, []⟩ := by
    simp only [Pksh.srvEof, Prog.run_bind, Prog.run_get, Result.andThen_mk_some, hlink, if_neg hl, Prog.run_pure,
      Result.after_mk, List.append_nil]
  revert hr
  refine packetRead_elim (P := fun res => res.value = some r → (w.pending fd).length < pktHdrSize ∧
    (w.inflow fd).stop ≠ .never ∧ res.state.netfs = w.netfs) (fun h _ hr => ?_) (fun _ _ hr => absurd hr (by simp))
    (fun h hs _ => ⟨h, by simp [hs], ?_⟩) (fun h hs _ => ⟨h, ?_, hnet⟩) fun _ hr => absurd hr (by simp)
  · exfalso
    rw [Result.after_value, Prog.run_bind] at hr
    cases hv : ((Pksh.switch ((w.request fd).filter fun _ => true)).run (w.withPacket fd)).value with
    | none =>
      rw [Result.andThen_none _ hv] at hr
      cases hr
    | some u =>
      rw [Result.andThen_some _ hv] at hr
      obtain rfl : (0 : Int) = r := Option.some.inj hr
      exact absurd h0 (by decide)
  · rw [he]
    exact hnet
  · obtain ⟨e, hs⟩ := hs
    simp [hs]

theorem cliLog (C : Carries S R Q) {arg : List Byte} {s : Session} {w : World}
    (hf : s.logToFile = true → trimInPlace arg = str "stdout" ∨ trimInPlace arg = [] →
      ¬S s.logFFd ∧ w.netfs ≠ some s.logFFd) :
    R w ((cliLog arg s).run w).acts ((cliLog arg s).run w).state := by
  rw [Pksh.cliLog]
  by_cases ha : trimInPlace arg = str "stdout" ∨ trimInPlace arg = []
  · rw [if_pos ha]
    by_cases hl : s.logToFile = true
    · rw [if_pos hl]
      obtain ⟨hS, hn⟩ := hf hl ha
      exact Sat.bind_at (C.plain (.sysClose hS hn) rfl) fun _ _ => Sat.pure _ _
    · rw [if_neg hl]
      exact Chains.nil w
  · rw [if_neg ha]
    exact (C.careful (.sysOpen _ _ _) (keepsLink_sysOpen _ _ _)).bind (fun _ => .pure _) w

theorem run (C : Carries S R Q) {f : CliFunc} (arg : List Byte) {w : World}
    (hn : f = .reconnect → w.netfs ≠ some w.pkoSrvFd) : Q w ((f.run arg).run w).acts ((f.run arg).run w).state := by
  rcases composed_run f arg with rfl | h | h
  · exact C.reconnect (hn rfl)
  · exact C.whole (h.sat C.contact w)
  · exact C.whole (h.sat (fun h v => C.plain (Holding.netfs h v) (keepsLink_netfs h v)) w)

theorem call (C : Carries S R Q) {f : CliFunc} {arg : List Byte} {s : Session} {w : World}
    (hr : f = .reconnect → w.netfs ≠ some w.pkoSrvFd)
    (hf : f = .log → s.logToFile = true → trimInPlace arg = str "stdout" ∨ trimInPlace arg = [] →
      ¬S s.logFFd ∧ w.netfs ≠ some s.logFFd) :
    Q w ((f.call arg s).run w).acts ((f.call arg s).run w).state := by
  by_cases hq : f = .quit
  · subst hq
    exact C.whole (Chains.nil w)
  by_cases hl : f = .log
  · subst hl
    exact C.whole (C.cliLog (hf rfl))
  rw [CliFunc.call_eq hq hl, Prog.run_bind_pure]
  exact C.run arg hr

theorem acceptClient (C : Carries S R Q) (s : Session) : Sat R (acceptClient s) := by
  have hl : Sat KeepsLink sysAccept := by
    intro w
    simp only [sysAccept]
    split <;> rfl
  refine (C.careful .sysAccept hl).bind fun connfd => ?_
  cases s.freeSlot with
  | none => exact .hang
  | some j => exact .pure _

section Slot

variable {p : Shell} {input : Input} {i : Nat}

theorem serveSlot (C : Carries S R Q) (hv : p.session.Visits i) (hS : ∀ n, Releases p (.slot input i) n → ¬S n)
    (hf : ∀ n, Strays p (.slot input i) n → p.world.netfs ≠ some n) :
    Q p.world ((serveSlot input i p.session).run p.world).acts
      ((Pksh.serveSlot input i p.session).run p.world).state := by
  have hreq : ∀ n, .handle (.closeFile n) ∈ ((Pksh.serveSlot input i p.session).run p.world).acts →
      ¬S n ∧ p.world.netfs ≠ some n := by
    intro n hn
    have hr : Releases p (.slot input i) n := .request (by rwa [exec_slot_acts hv])
    exact ⟨hS n hr, hf n hr.strays⟩
  revert hreq
  refine serveSlot_elim (P := fun r => (∀ n, .handle (.closeFile n) ∈ r.acts → ¬S n ∧ p.world.netfs ≠ some n) →
    Q p.world r.acts r.state) (fun _ _ => ?_) (fun hlog h0 _ => ?_) (fun hlog h0 hi hreq => ?_) (fun _ _ _ => ?_)
    fun hi hreq => ?_
  · have hw : Sat R (sysWrite p.session.logFFd input.log) :=
      C.careful (.calm (.sysWrite _ _)) (keepsLink_calm (.sysWrite _ _))
    exact C.whole (Sat.ite (hw.bind fun _ => .pure _) (.pure _) p.world)
  · rw [rlCallbackReadChar]
    cases hfun : input.typed.func with
    | none => exact C.whole (Chains.nil p.world)
    | some f =>
      obtain ⟨f, arg⟩ := f
      have ht : p.Types input i f arg := ⟨hv, h0, fun h => hlog (h0.trans h.symm), hfun⟩
      refine C.call (fun he => hf _ (.foreign (.reconnect (he ▸ ht)))) fun he hl ha => ?_
      have hr : Releases p (.slot input i) p.session.logFFd := .log (he ▸ ht) hl ha
      exact ⟨hS _ hr, hf _ hr.strays⟩
  · refine C.whole (Sat.bind_at (C.pkoSrvRead (fun n hn => hreq n ((Result.acts_prefix_andThen _ _).subset hn))
      fun _ hs he => ?_) fun _ _ => Sat.pure _ _)
    exact hf _ (.foreign (.link hv hi hs he (hi ▸ h0) (hi ▸ hlog)))
  · exact C.whole (C.acceptClient _ _)
  · have hne : p.session.client i ≠ p.world.pkoSrvFd := fun h => hi (by simp [World.standing, h])
    refine C.whole (Sat.bind_at (C.pkoSrvRead (fun n hn => hreq n ((Result.acts_prefix_andThen _ _).subset hn))
      fun h => absurd h hne) fun r hr => ?_)
    by_cases h0 : r < 0
    · obtain ⟨hs, he, hnet⟩ := pkoSrvRead_negative hr h0 hne
      have hr : Releases p (.slot input i) (p.session.client i) := .client hv hi hs he
      rw [if_pos h0]
      exact Sat.bind_at (C.plain (.sysClose (hS _ hr) (hnet ▸ hf _ hr.strays)) rfl) fun _ _ => Sat.pure _ _
    · rw [if_neg h0]
      exact Chains.nil _

/-- What an event closes is either the connection to the file server, or meant
to be closed. -/
theorem exec (C : Carries S R Q) {e : Event} (he : ∀ d, e ≠ .start d) (hS : ∀ n, Releases p e n → ¬S n)
    (hf : ∀ n, Strays p e n → p.world.netfs ≠ some n) :
    Q p.world (e.exec.run p).acts (e.exec.run p).state.world := by
  cases e with
  | start d => exact absurd rfl (he d)
  | select answer => exact C.whole (Chains.nil p.world)
  | slot input i =>
    rw [Event.exec_acts, Event.exec_world, Event.task]
    by_cases hv : p.session.Visits i
    · rw [if_pos hv]
      exact C.serveSlot hv hS hf
    · rw [if_neg hv]
      exact C.whole (Chains.nil p.world)

end Slot

end Carries

end Pksh
