import Pksh.Framing

/-! Connections are made and taken down without touching the sockets of
clients. -/

namespace Pksh

open Wire Traced

variable {α β : Type}

/-- An open socket that is neither the link nor the netfs connection. -/
structure Guarded (fd : Int) (w : World) : Prop where
  sock : ∃ k, w.desc fd = some (.sock k)
  notLink : w.pkoSrvFd ≠ fd
  notNetfs : w.ps2NetfsFd ≠ fd
  nonneg : 0 ≤ fd

/-- Every such socket but `x` is neither closed nor read. -/
def SparesBut (x : Int) (w : World) (as : List Act) (w' : World) : Prop :=
  ∀ fd, fd ≠ x → Guarded fd w → Guarded fd w' ∧ .close fd ∉ as ∧ ∀ bs, .recv fd bs ∉ as

instance (x : Int) : Chains (SparesBut x) where
  nil _ := fun _ _ hg => ⟨hg, by simp, by simp⟩
  append h h' := by
    intro fd hx hg
    obtain ⟨hg', hc, hr⟩ := h fd hx hg
    obtain ⟨hg'', hc', hr'⟩ := h' fd hx hg'
    refine ⟨hg'', fun hm => ?_, fun bs hm => ?_⟩
    · exact (List.mem_append.mp hm).elim hc hc'
    · exact (List.mem_append.mp hm).elim (hr bs) (hr' bs)

/-- The same, with what was executed before left alone. -/
def Plumbs (x : Int) (w : World) (as : List Act) (w' : World) : Prop :=
  w'.state = w.state ∧ SparesBut x w as w'

instance (x : Int) : Chains (Plumbs x) where
  nil w := ⟨rfl, Chains.nil w⟩
  append h h' := ⟨h'.1.trans h.1, Chains.append h.2 h'.2⟩

/-- A number that is no descriptor: nothing is excepted. -/
abbrev Spares : World → List Act → World → Prop := SparesBut (-1)

theorem Guarded.keep {fd : Int} {w w' : World} {as : List Act} (hg : Guarded fd w) (h : Accounted w as w')
    (hc : .close fd ∉ as) (hl : w'.pkoSrvFd ≠ fd) (hn : w'.ps2NetfsFd ≠ fd) : Guarded fd w' :=
  ⟨(h.pending hg.sock hc).1, hl, hn, hg.nonneg⟩

namespace Plumbs

variable {x : Int}

theorem of_acts {m : Io α} (hv : ∀ w, (m.run w).state.toVars = w.toVars)
    (hc : ∀ w fd, .close fd ∈ (m.run w).acts → fd = x) (hr : ∀ w fd bs, .recv fd bs ∉ (m.run w).acts) :
    Sat (Plumbs x) m := by
  refine fun w => ⟨congrArg Vars.state (hv w), fun fd hx hg => ⟨?_, fun hm => hx (hc w fd hm), hr w fd⟩⟩
  exact hg.keep (m.keeps w) (fun hm => hx (hc w fd hm))
    (by rw [congrArg Vars.pkoSrvFd (hv w)]; exact hg.notLink)
    (by rw [congrArg Vars.ps2NetfsFd (hv w)]; exact hg.notNetfs)

theorem sysSocket (type : SockType) : Sat (Plumbs x) (sysSocket type) := by
  refine of_acts (fun w => ?_) (fun w fd => ?_) fun w fd bs => ?_ <;>
    (simp only [Pksh.sysSocket]; split) <;> first | rfl | simp

theorem sysConnect (fd : Int) : Sat (Plumbs x) (sysConnect fd) := by
  refine of_acts (fun w => ?_) (fun w fd => ?_) fun w fd bs => ?_ <;>
    (simp only [Pksh.sysConnect]; split) <;> first | rfl | simp

theorem sysSoError (fd : Int) : Sat (Plumbs x) (sysSoError fd) := by
  refine of_acts (fun w => ?_) (fun w fd => ?_) fun w fd bs => ?_ <;>
    (simp only [Pksh.sysSoError]; split) <;> first | rfl | simp

theorem sysSelectConnect (fd : Int) : Sat (Plumbs x) (sysSelectConnect fd) :=
  of_acts (fun _ => rfl) (by simp [Pksh.sysSelectConnect]) (by simp [Pksh.sysSelectConnect])

theorem sysStat (path : List Byte) : Sat (Plumbs x) (sysStat path) :=
  of_acts (fun _ => rfl) (by simp [Pksh.sysStat, asks]) (by simp [Pksh.sysStat, asks])

theorem sysSend (s : Int) (bs : List Byte) : Sat (Plumbs x) (sysSend s bs) := by
  refine of_acts (fun w => sysSend_vars w s bs) (fun w fd hm => ?_) fun w fd bs' hm => ?_
  · obtain ⟨ret, ⟨ha, _⟩ | ⟨ha, _⟩⟩ := sysSend_acts w s bs <;> simp [ha] at hm
  · obtain ⟨ret, ⟨ha, _⟩ | ⟨ha, _⟩⟩ := sysSend_acts w s bs <;> simp [ha] at hm

theorem sysClose : Sat (Plumbs x) (sysClose x) :=
  of_acts (fun _ => rfl) (by simp [Pksh.sysClose]) (by simp [Pksh.sysClose])

theorem setVars {f : Vars → Vars} (hs : ∀ v, (f v).state = v.state)
    (hl : ∀ v, (f v).pkoSrvFd = v.pkoSrvFd) (hn : ∀ v, (f v).ps2NetfsFd = v.ps2NetfsFd) :
    Sat (Plumbs x) (setVars f) :=
  fun w => ⟨hs w.toVars, fun fd _ hg =>
    ⟨⟨hg.sock, (hl w.toVars).trans_ne hg.notLink, (hn w.toVars).trans_ne hg.notNetfs, hg.nonneg⟩,
      by simp [Pksh.setVars], by simp [Pksh.setVars]⟩⟩

theorem pkoCmdCon : Sat (Plumbs x) pkoCmdCon := by
  refine (sysSocket _).bind fun fd => (setVars (by simp) (by simp) (by simp)).bind fun _ => ?_
  cases fd with
  | none => exact .pure _
  | some fd => exact (sysConnect fd).bind fun _ => .pure _

theorem command {req : Int → Io Int} (h : ∀ fd, Sat (Plumbs x) (req fd)) : Sat (Plumbs x) (command req) :=
  pkoCmdCon.bind fun _ => Sat.get.bind fun _ => h _

theorem sendReq (sock : Int) (size : Nat) (fields : List (Nat × List Byte)) :
    Sat (Plumbs x) (sendReq sock size fields) := Sat.get.bind fun _ => sysSend _ _

theorem cmdListenerOn (fd : Int) : Sat (Plumbs fd) (cmdListenerOn fd) := by
  refine (sysConnect fd).bind fun e => ?_
  cases e with
  | none => exact .pure _
  | some e =>
    refine .ite (.pure _) ((sysSelectConnect fd).bind fun late => ?_)
    cases late with
    | true => exact sysClose.bind fun _ => .pure _
    | false =>
      refine (sysSoError fd).bind fun error => ?_
      rcases error with _ | _ | e
      · exact .pure _
      · exact .pure _
      · exact sysClose.bind fun _ => .pure _

end Plumbs

theorem sysSocket_new {type : SockType} {w : World} {fd : Int} (h : ((sysSocket type).run w).value = some (some fd)) :
    w.desc fd = none ∧ 0 ≤ fd ∧ ((sysSocket type).run w).state.desc fd = some .fresh := by
  revert h
  simp only [sysSocket]
  split
  · simp
  · rename_i fd' hf
    intro h
    obtain rfl : fd' = fd := by simpa using h
    have hu := World.unused_iff.mp (Option.filter_eq_some_iff.mp hf).2
    exact ⟨hu.2, hu.1, by simp [World.setDesc]⟩

theorem not_guarded_of_desc {fd : Int} {w : World} (h : ∀ k, w.desc fd ≠ some (.sock k)) : ¬Guarded fd w :=
  fun hg => by
    obtain ⟨k, hk⟩ := hg.sock
    exact h k hk

theorem not_guarded_neg (w : World) : ¬Guarded (-1) w := fun hg => absurd hg.nonneg (by decide)

theorem Plumbs.append_new {x v : Int} {w w' w'' : World} {as bs : List Act} (h : Plumbs x w as w')
    (h' : Plumbs v w' bs w'') (hv : ¬Guarded v w) : Plumbs x w (as ++ bs) w'' := by
  refine ⟨h'.1.trans h.1, fun fd hx hg => ?_⟩
  have hne : fd ≠ v := by
    rintro rfl
    exact hv hg
  obtain ⟨hg', hc, hr⟩ := h.2 fd hx hg
  obtain ⟨hg'', hc', hr'⟩ := h'.2 fd hne hg'
  refine ⟨hg'', fun hm => ?_, fun bs' hm => ?_⟩
  · exact (List.mem_append.mp hm).elim hc hc'
  · exact (List.mem_append.mp hm).elim (hr bs') (hr' bs')

def Returns (P : α → Prop) (m : Io α) : Prop := ∀ w a, (m.run w).value = some a → P a

namespace Returns

variable {P : α → Prop} {Q : β → Prop}

theorem pure {a : α} (h : P a) : Returns P (pure a : Io α) := by
  intro w b hb
  obtain rfl : a = b := by simpa using hb
  exact h

theorem bind {m : Io α} {f : α → Io β} (hf : ∀ a, Returns Q (f a)) : Returns Q (m >>= f) := by
  intro w b hb
  cases hv : (m.run w).value with
  | none =>
    rw [Prog.run_bind, Result.andThen_none _ hv] at hb
    cases hb
  | some a =>
    rw [Prog.run_bind, Result.andThen_some _ hv] at hb
    exact hf a _ b hb

theorem ite {c : Prop} [Decidable c] {p q : Io α} (hp : Returns P p) (hq : Returns P q) :
    Returns P (if c then p else q) := by
  split
  · exact hp
  · exact hq

theorem cmdListenerOn (fd : Int) : Returns (fun v => v = -1 ∨ v = fd) (cmdListenerOn fd) := by
  refine bind fun e => ?_
  cases e with
  | none => exact .pure (.inr rfl)
  | some e =>
    refine .ite (.pure (.inl rfl)) (bind fun late => ?_)
    cases late with
    | true => exact bind fun _ => .pure (.inl rfl)
    | false =>
      refine bind fun error => ?_
      rcases error with _ | _ | e
      · exact .pure (.inl rfl)
      · exact .pure (.inr rfl)
      · exact bind fun _ => .pure (.inl rfl)

end Returns

theorem cmdListener_new {w : World} {v : Int} (h : (cmdListener.run w).value = some v) :
    v = -1 ∨ w.desc v = none := by
  rw [cmdListener, Prog.run_bind] at h
  cases hs : ((sysSocket .stream).run w).value with
  | none =>
    rw [Result.andThen_none _ hs] at h
    cases h
  | some r =>
    rw [Result.andThen_some _ hs] at h
    cases r with
    | none => exact .inl (by simpa using h.symm)
    | some fd =>
      rcases Returns.cmdListenerOn fd _ v h with rfl | rfl
      · exact .inl rfl
      · exact .inr (sysSocket_new hs).1

theorem not_guarded_new {w : World} {v : Int} (h : (cmdListener.run w).value = some v) : ¬Guarded v w := by
  rcases cmdListener_new h with rfl | h
  · exact not_guarded_neg w
  · exact not_guarded_of_desc (by simp [h])

namespace Plumbs

variable {x : Int}

theorem cmdListener : Sat (Plumbs x) cmdListener := by
  intro w
  have h := sysSocket (x := x) .stream w
  cases hs : ((Pksh.sysSocket .stream).run w).value with
  | none =>
    rw [Pksh.cmdListener, Prog.run_bind, Result.andThen_none _ hs]
    exact h
  | some r =>
    rw [Pksh.cmdListener, Prog.run_bind, Result.andThen_some _ hs]
    cases r with
    | none => exact Chains.append h (Sat.pure (-1) _)
    | some fd => exact h.append_new (cmdListenerOn fd _) (not_guarded_of_desc (by simp [(sysSocket_new hs).1]))

theorem relink {f : Int → Io α} (hf : ∀ fd, Sat (Plumbs x) (f fd)) : Sat (Plumbs x) (do
    let fd ← Pksh.cmdListener
    Pksh.setVars fun v => { v with pkoSrvFd := fd }
    f fd) := by
  intro w
  have h := cmdListener (x := x) w
  cases hs : (Pksh.cmdListener.run w).value with
  | none =>
    rw [Prog.run_bind, Result.andThen_none _ hs]
    exact h
  | some fd =>
    rw [Prog.run_bind, Result.andThen_some _ hs]
    have hset : Plumbs fd (Pksh.cmdListener.run w).state []
        { (Pksh.cmdListener.run w).state with pkoSrvFd := fd } :=
      ⟨rfl, fun g hne hg => ⟨⟨hg.sock, hne.symm, hg.notNetfs, hg.nonneg⟩, by simp, by simp⟩⟩
    have hn := h.append_new hset (not_guarded_new hs)
    rw [List.append_nil] at hn
    exact Chains.append hn (hf fd _)

theorem awaitLink (attempts : Nat) : Sat (Plumbs x) (awaitLink attempts) := by
  induction attempts with
  | zero =>
    exact (of_acts (fun _ => rfl) (by simp [emit]) (by simp [emit])).bind fun _ => .hang
  | succ attempts ih => exact relink fun fd => .ite (.pure _) ih

theorem closeNetfs : Sat (Plumbs x) closeNetfs := by
  refine fun w => ⟨rfl, fun fd _ hg => ?_⟩
  have hne : fd ≠ w.ps2NetfsFd := hg.notNetfs.symm
  have hd : (Pksh.closeNetfs.run w).state.desc fd = w.desc fd := Function.update_of_ne hne _ _
  refine ⟨⟨hd ▸ hg.sock, hg.notLink, ?_, hg.nonneg⟩, ?_, ?_⟩
  · have := hg.nonneg
    change (-1 : Int) ≠ fd
    omega
  · simp [Pksh.closeNetfs, Pksh.sysClose, Pksh.setVars, hne]
  · simp [Pksh.closeNetfs, Pksh.sysClose, Pksh.setVars]

theorem closeLink (w : World) : Plumbs x w ((Pksh.sysClose w.pkoSrvFd).run w).acts
    ((Pksh.sysClose w.pkoSrvFd).run w).state := by
  refine ⟨rfl, fun fd _ hg => ⟨hg.keep ((Pksh.sysClose w.pkoSrvFd).keeps w) ?_ hg.notLink hg.notNetfs, ?_, ?_⟩⟩
  · simpa [Pksh.sysClose] using hg.notLink.symm
  · simpa [Pksh.sysClose] using hg.notLink.symm
  · simp [Pksh.sysClose]

end Plumbs

namespace Spares

theorem of_plumbs {m : Io α} (h : Sat (Plumbs (-1)) m) : Sat Spares m := fun w => (h w).2

theorem setVars {f : Vars → Vars} (hl : ∀ v, (f v).pkoSrvFd = v.pkoSrvFd)
    (hn : ∀ v, (f v).ps2NetfsFd = v.ps2NetfsFd) : Sat Spares (setVars f) :=
  fun w fd _ hg =>
    ⟨⟨hg.sock, (hl w.toVars).trans_ne hg.notLink, (hn w.toVars).trans_ne hg.notNetfs, hg.nonneg⟩,
      by simp [Pksh.setVars], by simp [Pksh.setVars]⟩

theorem loadPacket : Sat Spares loadPacket := Sat.get.bind fun _ => .pure _

theorem command {req : Int → Io Int} (h : ∀ fd, Sat (Plumbs (-1)) (req fd)) : Sat Spares (command req) :=
  of_plumbs (.command h)

theorem cliReset : Sat Spares cliReset :=
  (setVars (by simp) (by simp)).bind fun _ => (command fun _ => .sendReq _ _ _).bind fun _ =>
    (of_plumbs .closeNetfs).bind fun _ => .pure 0

theorem cliExeceiop (arg : List Byte) : Sat Spares (cliExeceiop arg) :=
  (setVars (by simp) (by simp)).bind fun _ => Sat.get.bind fun _ =>
    (command fun _ => .sendReq _ _ _).bind fun _ => .pure 0

theorem execee (arg : List Byte) : Sat Spares (execee arg) :=
  (setVars (by simp) (by simp)).bind fun _ => Sat.get.bind fun _ =>
    (command fun _ => .sendReq _ _ _).bind fun _ => .pure 0

theorem resetAndReconnect : Sat Spares resetAndReconnect :=
  cliReset.bind fun _ => Sat.get_bind fun w => Sat.bind_at (Plumbs.closeLink w).2
    fun _ _ => of_plumbs (.awaitLink _) _

theorem cliExecee (arg : List Byte) : Sat Spares (cliExecee arg) :=
  Sat.get.bind fun _ => .ite (resetAndReconnect.bind fun _ => execee arg) (execee arg)

theorem cliGsexec (arg : List Byte) : Sat Spares (cliGsexec arg) :=
  ((of_plumbs (.sysStat _)).bind fun _ => .pure _).bind fun _ => .ite (.pure _) (.ite (.pure _)
    (Sat.get.bind fun _ => (command fun _ => .sendReq _ _ _).bind fun _ => .pure 0))

theorem stopvuCase : Sat Spares stopvuCase :=
  loadPacket.bind fun _ => (command fun _ => .sendReq _ _ _).bind fun _ => .pure ()

theorem relay (c : Cmd) : Sat Spares (relay c) := by
  cases c with
  | dumpmem => exact loadPacket.bind fun _ => (command fun _ => .sendReq _ _ _).bind fun _ => .pure ()
  | dumpregs => exact loadPacket.bind fun _ => (command fun _ => .sendReq _ _ _).bind fun _ => .pure ()
  | gsexec => exact loadPacket.bind fun _ => (cliGsexec _).bind fun _ => stopvuCase
  | stopvu => exact stopvuCase
  | startvu => exact loadPacket.bind fun _ => (command fun _ => .sendReq _ _ _).bind fun _ => .pure ()
  | execee => exact loadPacket.bind fun _ => (cliExecee _).bind fun _ => .pure ()
  | execiop => exact loadPacket.bind fun _ => (cliExeceiop _).bind fun _ => .pure ()
  | reset => exact cliReset.bind fun _ => .pure ()
  | _ => exact .pure ()

end Spares

end Pksh
