import Pksh.FileRequests

/-! States with and without the link, and the system calls that do the same in
both. -/

namespace Pksh

open Wire Traced

/-- Acts other than taking bytes off the link. -/
def Act.shown (link : Int) : Act → Option Act
  | .recv s bytes => if s = link then none else some (.recv s bytes)
  | .store _ _ | .handle _ => none
  | a => some a

/-- The same state, but for what comes over the link and the packet read last. -/
structure Mirrors (link : Int) (v u : World) : Prop where
  vars : ∃ m, v.toVars = { u.toVars with recvPacket := m }
  os : v.os = u.os
  now : v.now = u.now
  desc : ∀ s, s ≠ link → v.desc s = u.desc s
  sock : ∃ k f, v.desc link = some (.sock k) ∧ u.desc link = some (.sock { k with inflow := f })
  link : u.pkoSrvFd = link

namespace Mirrors

variable {link : Int} {v u : World}

theorem sendPacket (h : Mirrors link v u) : v.sendPacket = u.sendPacket := by
  obtain ⟨m, hm⟩ := h.vars
  rw [hm]

theorem pathList (h : Mirrors link v u) : v.pathList = u.pathList := by
  obtain ⟨m, hm⟩ := h.vars
  rw [hm]

theorem here (h : Mirrors link v u) : v.pkoSrvFd = link := by
  obtain ⟨m, hm⟩ := h.vars
  rw [hm]
  exact h.link

theorem isSome (h : Mirrors link v u) (s : Int) : (v.desc s).isSome = (u.desc s).isSome := by
  by_cases hs : s = link
  · obtain ⟨k, f, hv, hu⟩ := h.sock
    rw [hs, hv, hu]
    rfl
  · rw [h.desc s hs]

theorem unused (h : Mirrors link v u) : v.unused = u.unused := by
  funext s
  rw [World.unused, World.unused, ← Option.not_isSome, ← Option.not_isSome, h.isSome s]

theorem tick (h : Mirrors link v u) : Mirrors link v.tick u.tick :=
  ⟨h.vars, h.os, congrArg (· + 1) h.now, h.desc, h.sock, h.link⟩

theorem setDesc (h : Mirrors link v u) {s : Int} (hs : s ≠ link) (d : Option Desc) :
    Mirrors link (v.setDesc s d) (u.setDesc s d) := by
  refine ⟨h.vars, h.os, h.now, fun t ht => ?_, ?_, h.link⟩
  · simp only [World.setDesc, Function.update_apply, h.desc t ht]
  · simpa only [World.setDesc, Function.update_of_ne hs.symm] using h.sock

theorem fill (h : Mirrors link v u) (off : Nat) (bs : List Byte) : Mirrors link (v.fill off bs) (u.fill off bs) := by
  obtain ⟨m, hm⟩ := h.vars
  refine ⟨⟨m, ?_⟩, h.os, h.now, h.desc, h.sock, h.link⟩
  simp only [World.fill, hm]

theorem outflow (h : Mirrors link v u) (s : Int) : v.outflow s = u.outflow s := by
  by_cases hs : s = link
  · obtain ⟨k, f, hv, hu⟩ := h.sock
    rw [hs, World.outflow, World.outflow, World.sockAt_sock hv, World.sockAt_sock hu]
  · rw [World.outflow, World.outflow, World.sockAt, World.sockAt, h.desc s hs]

theorem putSock (h : Mirrors link v u) (s : Int) {k k' : Sock} (ho : k.outflow = k'.outflow)
    (hi : s ≠ link → k = k') : Mirrors link (v.putSock s k) (u.putSock s k') := by
  by_cases hs : s = link
  · obtain ⟨k₀, f, hv, hu⟩ := h.sock
    subst hs
    refine ⟨by simpa using h.vars, ?_, ?_, fun t ht => ?_, ⟨k, k'.inflow, ?_, ?_⟩, ?_⟩
    · simpa only [World.putSock, hv, hu] using h.os
    · simpa only [World.putSock, hv, hu] using h.now
    · simp only [World.putSock, hv, hu, Function.update_of_ne ht, h.desc t ht]
    · simp [World.putSock, hv]
    · simp [World.putSock, hu, ho]
    · simpa using h.link
  · obtain rfl := hi hs
    have hd := h.desc s hs
    unfold World.putSock
    rw [hd]
    split
    · exact h.setDesc hs (some (.sock k))
    · exact h

theorem sockAt (h : Mirrors link v u) {s : Int} (hs : s ≠ link) : v.sockAt s = u.sockAt s := by
  rw [World.sockAt, World.sockAt, h.desc s hs]

theorem putOutflow (h : Mirrors link v u) (s : Int) (f : Outflow Errno.drops) :
    Mirrors link (v.putOutflow s f) (u.putOutflow s f) :=
  h.putSock s rfl fun hs => by rw [h.sockAt hs]

theorem putInflow (h : Mirrors link v u) {s : Int} (hs : s ≠ link) (f : Inflow Byte Errno.drops) :
    Mirrors link (v.putInflow s f) (u.putInflow s f) :=
  h.putSock s (h.outflow s) fun _ => by rw [h.sockAt hs]

theorem setPacket (h : Mirrors link v u) (m : Mem) : Mirrors link { v with recvPacket := m } u := by
  obtain ⟨m', hm⟩ := h.vars
  refine ⟨⟨m, ?_⟩, h.os, h.now, h.desc, h.sock, h.link⟩
  simp only [hm]

theorem received (h : Mirrors link v u) (off : Nat) (bytes : Int) :
    Mirrors link (v.received link (.recvPacket off) bytes) u := by
  obtain ⟨k, f, hv, hu⟩ := h.sock
  have hd : (v.received link (.recvPacket off) bytes).desc =
      Function.update v.desc link (some (.sock { k with inflow := ((v.inflow link).read bytes.toNat).2.2 })) := by
    simp only [World.received, pkoRecvBytes, World.putInflow, World.putSock, hv, World.sockAt_sock hv]
  have hos : (v.received link (.recvPacket off) bytes).os = v.os ∧
      (v.received link (.recvPacket off) bytes).now = v.now := by
    simp only [World.received, pkoRecvBytes, World.putInflow, World.putSock, hv, and_self]
  refine ⟨?_, hos.1.trans h.os, hos.2.trans h.now, fun s hs => ?_,
    ⟨{ k with inflow := ((v.inflow link).read bytes.toNat).2.2 }, f, ?_, hu⟩, h.link⟩
  · obtain ⟨m, hm⟩ := h.vars
    rw [received_vars, hm]
    exact ⟨_, rfl⟩
  · rw [hd, Function.update_of_ne hs, h.desc s hs]
  · rw [hd, Function.update_self]

end Mirrors

abbrev Shows (link : Int) {α : Type} (p q : Io α) : Prop :=
  Mimic (Act.shown link) (Act.shown link) (Mirrors link) Eq p q

namespace Shows

variable {link : Int} {α : Type}

theorem of_run {p : Io α} (h : ∀ v u, Mirrors link v u → (p.run v).value = (p.run u).value ∧
    (p.run v).acts = (p.run u).acts ∧ Mirrors link (p.run v).state (p.run u).state) : Shows link p p := by
  intro v u hm
  obtain ⟨h1, h2, h3⟩ := h v u hm
  refine ⟨?_, by rw [h2], h3⟩
  rw [h1]
  cases (p.run u).value with
  | none => exact .none
  | some a => exact .some rfl

theorem asks {answer : World → α} {act : α → Act} {h : ∀ a, (act a).quiet = true}
    (ha : ∀ v u, Mirrors link v u → answer v = answer u) : Shows link (asks answer act h) (Pksh.asks answer act h) :=
  of_run fun v u hm => by
    simp only [Pksh.asks, ha v u hm, true_and]
    exact hm.tick

theorem sysMalloc (n : Nat) : Shows link (sysMalloc n) (Pksh.sysMalloc n) :=
  asks fun v u hm => by rw [hm.os, hm.now]

theorem sysLseek (fd offset whence : Int) : Shows link (sysLseek fd offset whence) (Pksh.sysLseek fd offset whence) :=
  asks fun v u hm => by rw [hm.os, hm.now, hm.isSome]

theorem sysOpendir (path : List Byte) : Shows link (sysOpendir path) (Pksh.sysOpendir path) :=
  asks fun v u hm => by rw [hm.os, hm.now]

theorem sysReaddir (dir : Word) : Shows link (sysReaddir dir) (Pksh.sysReaddir dir) :=
  asks fun v u hm => by rw [hm.os, hm.now]

theorem sysClosedir (dir : Word) : Shows link (sysClosedir dir) (Pksh.sysClosedir dir) :=
  asks fun v u hm => by rw [hm.os, hm.now]

theorem sysStat (path : List Byte) : Shows link (sysStat path) (Pksh.sysStat path) :=
  asks fun v u hm => by rw [hm.os, hm.now]

theorem sysLocaltime (time : Int) : Shows link (sysLocaltime time) (Pksh.sysLocaltime time) :=
  of_run fun v u hm => by
    simp only [Pksh.sysLocaltime, hm.os, hm.now, true_and]
    exact hm.tick

theorem putSend (off : Nat) (bs : List Byte) : Shows link (putSend off bs) (Pksh.putSend off bs) :=
  of_run fun _ _ hm => ⟨rfl, rfl, hm.fill off bs⟩

theorem sysOpen (path : List Byte) (flags : Word) (mode : Nat) :
    Shows link (sysOpen path flags mode) (Pksh.sysOpen path flags mode) := by
  refine of_run fun v u hm => ?_
  simp only [Pksh.sysOpen, hm.os, hm.now, hm.unused]
  cases hf : (u.os.openFile u.now path flags mode).filter u.unused with
  | none => exact ⟨rfl, rfl, hm.tick⟩
  | some fd =>
    have hfd : fd ≠ link := by
      rintro rfl
      obtain ⟨k, f, -, hu⟩ := hm.sock
      have hn := (World.unused_iff.mp (Option.filter_eq_some_iff.mp hf).2).2
      rw [hu] at hn
      cases hn
    exact ⟨rfl, rfl, hm.tick.setDesc hfd _⟩

theorem sysClose {fd : Int} (h : fd ≠ link) : Shows link (sysClose fd) (Pksh.sysClose fd) := by
  refine of_run fun v u hm => ⟨?_, rfl, hm.tick.setDesc h none⟩
  simp only [Pksh.sysClose, hm.isSome, hm.os, hm.now]

theorem sysRead {fd : Int} (h : fd ≠ link) (n : Nat) : Shows link (sysRead fd n) (Pksh.sysRead fd n) := by
  refine of_run fun v u hm => ?_
  simp only [Pksh.sysRead, hm.desc fd h, hm.os, hm.now]
  split
  · exact ⟨rfl, rfl, hm.tick⟩
  · split
    · exact ⟨rfl, rfl, hm.tick⟩
    · split
      · exact ⟨rfl, rfl, hm.tick⟩
      · exact ⟨rfl, rfl, hm.tick.putInflow h _⟩
  · exact ⟨rfl, rfl, hm.tick⟩

theorem sysSend (s : Int) (bs : List Byte) : Shows link (sysSend s bs) (Pksh.sysSend s bs) := by
  refine of_run fun v u hm => ?_
  simp only [Pksh.sysSend, hm.outflow s]
  split
  · exact ⟨rfl, rfl, hm.tick⟩
  · exact ⟨rfl, rfl, hm.tick.putOutflow s _⟩

theorem pkoSendBytes (s : Int) (buf : List Byte) (bytes : Int) :
    Shows link (pkoSendBytes s buf bytes) (Pksh.pkoSendBytes s buf bytes) := by
  refine of_run fun v u hm => ?_
  simp only [Pksh.pkoSendBytes, hm.outflow s, true_and]
  exact hm.putOutflow s _

theorem sysWrite (fd : Int) (bs : List Byte) : Shows link (sysWrite fd bs) (Pksh.sysWrite fd bs) := by
  refine of_run fun v u hm => ?_
  by_cases hfd : fd = link
  · obtain ⟨k, f, hv, hu⟩ := hm.sock
    subst hfd
    simp only [Pksh.sysWrite, hv, hu]
    cases k.outflow.send bs.length with
    | none => exact ⟨rfl, rfl, hm.tick⟩
    | some r => exact ⟨rfl, rfl, hm.tick.putOutflow fd _⟩
  · simp only [Pksh.sysWrite, hm.desc fd hfd, hm.os, hm.now]
    split
    · exact ⟨rfl, rfl, hm.tick⟩
    · split
      · exact ⟨rfl, rfl, hm.tick⟩
      · exact ⟨rfl, rfl, hm.tick.putOutflow fd _⟩
    · exact ⟨rfl, rfl, hm.tick⟩

theorem sendReply (size : Nat) : Shows link (sendReply size) (Pksh.sendReply size) := by
  refine Mimic.get_bind fun v u hm => ?_
  rw [hm.here, hm.link, hm.sendPacket]
  exact Mimic.bind (sysSend link _) (fun _ _ _ => .pure rfl) v u hm

theorem answer (cmd retval : Word) : Shows link (answer cmd retval) (Pksh.answer cmd retval) :=
  ((putSend _ _).bind fun _ _ _ => (putSend _ _).bind fun _ _ _ => putSend _ _).bind fun _ _ _ =>
    (sendReply _).bind fun _ _ _ => .pure rfl

theorem openAlong (name : List Byte) (flags : Word) (dirs : List (List Byte)) :
    Shows link (openAlong name flags dirs) (Pksh.openAlong name flags dirs) := by
  induction dirs with
  | nil => exact .pure rfl
  | cons dir dirs ih =>
    refine (sysOpen _ _ _).bind fun fd _ h => ?_
    subst h
    exact .ite (fun _ => .pure rfl) fun _ => ih

theorem putTime (off : Nat) (time : Int) : Shows link (putTime off time) (Pksh.putTime off time) := by
  refine (sysLocaltime time).bind fun tm _ h => ?_
  subst h
  cases tm with
  | none => exact .pure rfl
  | some tm => exact putSend _ _

end Shows

end Pksh
