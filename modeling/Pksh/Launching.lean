import Pksh.Wiring
import Pksh.Connecting
import Pksh.OneReply
import Pksh.Plumbing
import Pksh.Serving

/-! The order in which programs are started on the PS2. `state` tells that one
was started since the last reset. -/

namespace Pksh

open Wire Traced

variable {α : Type}

/-- The command packets of one event: what is sent on a socket that was made in
it and is not the connection to the file server. -/
def packets : Option Int → List Act → List Word
  | _, [] => []
  | _, .socket _ fd :: as => packets (some (fd.getD (-1))) as
  | _, .netfs _ :: as => packets none as
  | c, .send s bytes _ :: as => if c = some s then ofBe32 bytes :: packets c as else packets c as
  | c, _ :: as => packets c as

def eventPackets (e : Event × Shell) : List Word := packets none (e.1.exec.run e.2).acts

def issued (es : List Event) (p : Shell) : List Word := (journalOf Event.exec es p).flatMap eventPackets

/-- Between the start of a program and the next one on the EE there is a reset. -/
def ResetBetween (l : List Word) : Prop :=
  ∀ before code between behind, l = before ++ code :: (between ++ execeeCmd :: behind) →
    code = execeeCmd ∨ code = execiopCmd → resetCmd ∈ between

/-- A watcher remembers whether something was started since the last reset. -/
def order (started : Bool) (code : Word) : Option Bool :=
  if code = execeeCmd then if started then none else some true
  else if code = execiopCmd then some true
  else if code = resetCmd then some false
  else some started

/-- The same over acts, with the socket that was made last. -/
def launch (k : Bool × Option Int) : Act → Option (Bool × Option Int)
  | .socket _ fd => some (k.1, some (fd.getD (-1)))
  | .netfs _ => some (k.1, none)
  | .send s bytes _ => if k.2 = some s then (order k.1 (ofBe32 bytes)).map (·, k.2) else some k
  | _ => some k

theorem order_packets {k k' : Bool × Option Int} {as : List Act} (h : watch launch k as = some k') :
    watch order k.1 (packets k.2 as) = some k'.1 := by
  induction as generalizing k with
  | nil =>
    obtain rfl : k = k' := by simpa using h
    rfl
  | cons a as ih =>
    obtain ⟨k₁, ha, hw⟩ := Option.bind_eq_some_iff.mp (watch_cons k a as ▸ h)
    cases a with
    | socket type fd =>
      obtain rfl : _ = k₁ := Option.some.inj ha
      exact ih hw
    | netfs fd =>
      obtain rfl : _ = k₁ := Option.some.inj ha
      exact ih hw
    | send s bytes ret =>
      simp only [launch] at ha
      by_cases hc : k.2 = some s
      · rw [if_pos hc, Option.map_eq_some_iff] at ha
        obtain ⟨e, he, rfl⟩ := ha
        rw [packets, if_pos hc, watch_cons, he, Option.bind_some]
        exact ih hw
      · rw [if_neg hc] at ha
        obtain rfl : k = k₁ := Option.some.inj ha
        rw [packets, if_neg hc]
        exact ih hw
    | _ =>
      obtain rfl : k = k₁ := Option.some.inj ha
      exact ih hw

theorem order_reset {started : Bool} {l : List Word} {e : Bool} (h : watch order started l = some e)
    (hn : resetCmd ∉ l) : started = true → e = true := by
  intro hs
  induction l generalizing started with
  | nil =>
    rw [watch_nil, Option.some.injEq] at h
    exact h ▸ hs
  | cons c l ih =>
    obtain ⟨e₁, he, hw⟩ := Option.bind_eq_some_iff.mp (watch_cons started c l ▸ h)
    have hc : c ≠ resetCmd := fun hc => hn (hc ▸ List.mem_cons_self)
    refine ih hw (fun hm => hn (List.mem_cons_of_mem _ hm)) ?_
    subst hs
    simp only [order] at he
    split at he
    · cases he
    split at he
    · exact (Option.some.inj he).symm
    · exact (Option.some.inj he).symm

theorem resetBetween_of_order {l : List Word} {started e : Bool} (h : watch order started l = some e) :
    ResetBetween l := by
  rintro before code between behind rfl hcode
  by_contra hn
  rw [watch_append, Option.bind_eq_some_iff] at h
  obtain ⟨e₁, _, h⟩ := h
  obtain ⟨e₂, h2, h⟩ := Option.bind_eq_some_iff.mp (watch_cons e₁ code _ ▸ h)
  have he2 : e₂ = true := by
    simp only [order] at h2
    rcases hcode with rfl | rfl
    · rw [if_pos rfl] at h2
      split at h2
      · cases h2
      · exact (Option.some.inj h2).symm
    · rw [if_neg (by decide), if_pos rfl] at h2
      exact (Option.some.inj h2).symm
  rw [watch_append, Option.bind_eq_some_iff] at h
  obtain ⟨e₃, h3, h⟩ := h
  have he3 := order_reset h3 hn he2
  subst he3
  simp [order] at h

theorem launch_wires {as : List Act} (h : ∀ a ∈ as, a.wires = true) (k : Bool × Option Int) :
    ∃ c, watch launch k as = some (k.1, c) := by
  induction as generalizing k with
  | nil => exact ⟨k.2, rfl⟩
  | cons a as ih =>
    have hstep : ∃ c, launch k a = some (k.1, c) := by
      have ha := h a List.mem_cons_self
      cases a with
      | socket type fd => exact ⟨_, rfl⟩
      | connect fd made => exact ⟨k.2, rfl⟩
      | close fd => exact ⟨k.2, rfl⟩
      | stat path ok => exact ⟨k.2, rfl⟩
      | unlinked => exact ⟨k.2, rfl⟩
      | _ => cases ha
    obtain ⟨c, hc⟩ := hstep
    obtain ⟨c', hc'⟩ := ih (fun b hb => h b (List.mem_cons_of_mem _ hb)) (k.1, c)
    exact ⟨c', by rw [watch_cons, hc, Option.bind_some, hc']⟩

/-- An act that makes no socket and is no act of `openNetfs`. -/
def Act.still : Act → Bool
  | .socket _ _ | .netfs _ => false
  | _ => true

theorem launch_still {as : List Act} (h : ∀ a ∈ as, a.still = true) (e : Bool) :
    watch launch (e, none) as = some (e, none) := by
  refine watch_of_pass fun a ha => ?_
  have := h a ha
  cases a with
  | socket type fd => cases this
  | netfs fd => cases this
  | send s bytes ret => simp [launch]
  | _ => rfl

/-- What was started is on record in `state`. -/
def Recorded (k : Bool × Option Int) (w : World) : Prop := k.1 = true → w.state = 1

/-- Outside the commands themselves no socket was just made. -/
def Plain (k : Bool × Option Int) (w : World) : Prop := k.2 = none ∧ Recorded k w

theorem triple_wires {m : Io α} {P : Bool → Int → Prop} (hw : Wires m) (hs : Sat (Fixes fun w : World => w.state) m) :
    Triple launch (fun k w => P k.1 w.state) m fun _ k w => P k.1 w.state := by
  intro k w hp
  obtain ⟨c, hc⟩ := launch_wires (hw w).1 k
  have hst : (m.run w).state.state = w.state := hs w
  refine ⟨_, hc, fun _ _ => ?_⟩
  change P k.1 (m.run w).state.state
  rwa [hst]

theorem triple_still {m : Io α} (h : ∀ w, ∀ a ∈ (m.run w).acts, a.still = true)
    (hs : Sat (Fixes fun w : World => w.state) m) : Triple launch Plain m fun _ => Plain := by
  rintro ⟨e, c⟩ w ⟨rfl, hr⟩
  exact ⟨_, launch_still (h w) e, fun _ _ => ⟨rfl, fun he => (hs w).trans (hr he)⟩⟩

theorem triple_setState {P : Bool → Int → Prop} (n : Int) :
    Triple launch (fun k _ => P k.1 n) (setVars fun v => { v with state := n }) fun _ k w => P k.1 w.state :=
  fun k _ hp => ⟨k, rfl, fun _ _ => hp⟩

theorem pkoCmdCon_launch (w : World) (k : Bool × Option Int) : ∃ v w' as, pkoCmdCon.run w = ⟨some v, w', as⟩ ∧
    w'.state = w.state ∧ watch launch k as = some (k.1, some w'.cmdFd) := by
  obtain ⟨v, w', as, hrun, hv, hc⟩ := pkoCmdCon_contacted w
  refine ⟨v, w', as, hrun, (cmdFd_vars hv).2.2, ?_⟩
  generalize w'.desc = desc at hc
  generalize w'.cmdFd = c at hc
  cases hc with
  | unmade => rfl
  | made fd d made h0 hn hd => rfl

theorem triple_command {cmd : Word} {size len : Nat} (fields : List (Nat × List Byte)) (hs : 4 ≤ size)
    (hf : ∀ f ∈ fields, 4 ≤ f.1) {P : Bool → Int → Prop} :
    Triple launch (fun k w => ∃ e, order k.1 cmd = some e ∧ P e w.state)
      (command fun fd => sendReq fd size (reqHdr cmd len ++ fields)) fun _ k w => P k.1 w.state := by
  rintro k w ⟨e, he, hp⟩
  obtain ⟨v, w', as, hrun, hst, hw⟩ := pkoCmdCon_launch w k
  have hrest : (command fun fd => sendReq fd size (reqHdr cmd len ++ fields)).run w =
      ((sendReq w'.cmdFd size (reqHdr cmd len ++ fields)).run w').after as := by
    simp only [command, Prog.run_bind, hrun, Result.andThen_mk_some, Prog.run_get, List.nil_append,
      Result.after]
  have hsent : (sentCodes ((sendReq w'.cmdFd size (reqHdr cmd len ++ fields)).run w').acts) <+: [cmd] :=
    (emits_sendReq hs hf w').sent
  have hstate : ((sendReq w'.cmdFd size (reqHdr cmd len ++ fields)).run w').state.state = w.state :=
    (congrArg Vars.state (sysSend_vars w' _ _)).trans hst
  have hacts : ∃ bytes ret rest, ((sendReq w'.cmdFd size (reqHdr cmd len ++ fields)).run w').acts =
      .send w'.cmdFd bytes ret :: rest ∧ (rest = [] ∨ rest = [.blocks w'.cmdFd]) := by
    obtain ⟨ret, ⟨ha, _⟩ | ⟨ha, _⟩⟩ := sysSend_acts w' w'.cmdFd
      (((w'.os.stack w'.now).stores (reqHdr cmd len ++ fields)).slice 0 size)
    · exact ⟨_, ret, [], ha, .inl rfl⟩
    · exact ⟨_, ret, _, ha, .inr rfl⟩
  obtain ⟨bytes, ret, rest, hsend, hblock⟩ := hacts
  have hcode : ofBe32 bytes = cmd := by
    have hmem : ofBe32 bytes ∈ [cmd] := hsent.subset (by rw [hsend]; exact List.mem_cons_self)
    exact List.mem_singleton.mp hmem
  have hwatch : watch launch (k.1, some w'.cmdFd)
      ((sendReq w'.cmdFd size (reqHdr cmd len ++ fields)).run w').acts = some (e, some w'.cmdFd) := by
    rw [hsend, watch_cons]
    simp only [launch, if_true, hcode, he, Option.map_some, Option.bind_some]
    rcases hblock with rfl | rfl
    · rfl
    · rfl
  rw [hrest]
  refine ⟨_, (watch_append_some hw _).trans hwatch, fun _ _ => ?_⟩
  change P e ((sendReq w'.cmdFd size (reqHdr cmd len ++ fields)).run w').state.state
  rwa [hstate]

theorem launch_harmless {as : List Act} (hc : ∀ a ∈ as, a.calm = true)
    (hs : ∀ code ∈ sentCodes as, code ≠ execeeCmd ∧ code ≠ execiopCmd) (k : Bool × Option Int) :
    ∃ e, watch launch k as = some (e, k.2) ∧ (e = true → k.1 = true) := by
  induction as generalizing k with
  | nil => exact ⟨k.1, rfl, id⟩
  | cons a as ih =>
    have hstep : ∃ e, launch k a = some (e, k.2) ∧ (e = true → k.1 = true) := by
      have ha := hc a List.mem_cons_self
      cases a with
      | socket type fd => cases ha
      | netfs fd => cases ha
      | send s bytes ret =>
        obtain ⟨h1, h2⟩ := hs (ofBe32 bytes) (by simp [sentCodes])
        by_cases hk : k.2 = some s
        · by_cases hr : ofBe32 bytes = resetCmd
          · exact ⟨false, by simp [launch, hk, order, hr, show resetCmd ≠ execeeCmd by decide,
              show resetCmd ≠ execiopCmd by decide], by simp⟩
          · exact ⟨k.1, by simp [launch, hk, order, h1, h2, hr], id⟩
        · exact ⟨k.1, by simp [launch, hk], id⟩
      | _ => exact ⟨k.1, rfl, id⟩
    obtain ⟨e, he, hk⟩ := hstep
    have hsub : ∀ code ∈ sentCodes as, code ≠ execeeCmd ∧ code ≠ execiopCmd := fun code hm =>
      hs code (sentCodes_append [a] as ▸ List.mem_append_right _ hm)
    obtain ⟨e', he', hk'⟩ := ih (fun b hb => hc b (List.mem_cons_of_mem _ hb)) hsub (e, k.2)
    exact ⟨e', by rw [watch_cons, he, Option.bind_some, he'], fun h => hk (hk' h)⟩

theorem triple_harmless {req : Int → Io Int} (h : ∀ fd, Harmless (req fd)) :
    Triple launch Recorded (command req) fun _ => Recorded := by
  intro k w hr
  obtain ⟨v, w', as, hrun, hst, hw⟩ := pkoCmdCon_launch w k
  have hrest : (command req).run w = ((req w'.cmdFd).run w').after as := by
    simp only [command, Prog.run_bind, hrun, Result.andThen_mk_some, Prog.run_get, List.nil_append,
      Result.after]
  obtain ⟨hwire, hcalm⟩ := (h w'.cmdFd).1 w'
  obtain ⟨e, he, hk⟩ := launch_harmless hcalm ((h w'.cmdFd).2 w') (k.1, some w'.cmdFd)
  rw [hrest]
  refine ⟨_, (watch_append_some hw _).trans he, fun _ _ he1 => ?_⟩
  have hstate : ((req w'.cmdFd).run w').state.state = w'.state := (wiring_eq hwire).2.2
  exact hstate.trans (hst.trans (hr (hk he1)))

theorem keepsState_of_plumbs {m : Io α} (h : Sat (Plumbs (-1)) m) : Sat (Fixes fun w : World => w.state) m :=
  fun w => (h w).1

theorem triple_reset {P : Bool → Int → Prop} (hp : P false 0) :
    Triple launch (fun _ _ => True) cliReset fun _ k w => P k.1 w.state := by
  have hc : Triple launch (fun k w => ∃ e, order k.1 resetCmd = some e ∧ P e w.state) (command pkoResetReq)
      fun _ k w => P k.1 w.state :=
    triple_command [] (by decide) (by simp)
  have ho : ∀ b, order b resetCmd = some false := by decide
  refine (triple_setState (P := fun b n => ∃ e, order b resetCmd = some e ∧ P e n) 0).consequence
    (fun k w _ => ⟨false, ho k.1, hp⟩) (fun _ _ _ h => h) |>.bind fun _ => hc.bind fun _ => ?_
  exact (triple_wires .closeNetfs (keepsState_of_plumbs .closeNetfs)).bind fun _ => .pure 0 fun _ _ h => h

theorem triple_resetAndReconnect : Triple launch (fun _ _ => True) resetAndReconnect fun _ k _ => k.1 = false := by
  refine (triple_reset (P := fun b _ => b = false) rfl).bind fun _ => .get_bind fun w => ?_
  have hclose : Sat (Fixes fun w : World => w.state) (sysClose w.pkoSrvFd) := fun _ => rfl
  refine Triple.consequence ?_ (fun _ _ h => h.2) fun _ _ _ h => h
  exact (triple_wires (P := fun b _ => b = false) (.sysClose _) hclose).bind fun _ =>
    triple_wires (P := fun b _ => b = false) (.awaitLink _) (keepsState_of_plumbs (.awaitLink _))

theorem triple_execeiop (arg : List Byte) : Triple launch Recorded (cliExeceiop arg) fun _ => Recorded := by
  have ho : ∀ b, order b execiopCmd = some true := by decide
  refine (triple_setState (P := fun b n => ∃ e, order b execiopCmd = some e ∧ n = 1) 1).consequence
    (fun k w _ => ⟨true, ho k.1, rfl⟩) (fun _ _ _ h => h) |>.bind fun _ => .get_bind fun w => ?_
  refine Triple.consequence ?_ (fun _ _ h => h.2) fun _ _ _ h => h
  exact (triple_command (P := fun _ n => n = 1) _ (by decide) (by simp)).bind fun _ => .pure 0 fun _ _ h _ => h

theorem triple_execee (arg : List Byte) : Triple launch (fun k _ => k.1 = false) (execee arg) fun _ => Recorded := by
  have ho : ∀ b, b = false → order b execeeCmd = some true := by decide
  refine (triple_setState (P := fun b n => ∃ e, order b execeeCmd = some e ∧ n = 1) 1).consequence
    (fun k w h => ⟨true, ho k.1 h, rfl⟩) (fun _ _ _ h => h) |>.bind fun _ => .get_bind fun w => ?_
  refine Triple.consequence ?_ (fun _ _ h => h.2) fun _ _ _ h => h
  exact (triple_command (P := fun _ n => n = 1) _ (by decide) (by simp)).bind fun _ => .pure 0 fun _ _ h _ => h

theorem triple_cliExecee (arg : List Byte) : Triple launch Recorded (cliExecee arg) fun _ => Recorded := by
  refine .get_bind fun w => .ite (fun _ => ?_) fun hs => ?_
  · exact (triple_resetAndReconnect.consequence (fun _ _ _ => trivial) fun _ _ _ h => h).bind fun _ => triple_execee arg
  · refine (triple_execee arg).consequence (fun k v ⟨hv, hr⟩ => ?_) fun _ _ _ h => h
    subst hv
    exact Bool.eq_false_iff.mpr fun hk => hs (hr hk)

theorem triple_quiet {m : Io α} (hw : Wires m) (hs : Sat (Fixes fun w : World => w.state) m) :
    Triple launch Recorded m fun _ => Recorded := triple_wires (P := fun b n => b = true → n = 1) hw hs

theorem triple_pass {m : Io α} (h : ∀ w k, ∀ a ∈ (m.run w).acts, launch k a = some k)
    (hs : Sat (Fixes fun w : World => w.state) m) : Triple launch Recorded m fun _ => Recorded :=
  .of_pass fun k w hr => ⟨h w k, fun _ _ he => (hs w).trans (hr he)⟩

theorem fixes_of_calm {m : Io α} (h : Sat Calm m) : Sat (Fixes fun w : World => w.state) m :=
  fun w => (wiring_eq (h w).1).2.2

theorem triple_seekSize (file : List Byte) : Triple launch Recorded (seekSize file) fun _ => Recorded := by
  have hopen : Sat (Fixes fun w : World => w.state) (sysOpen file 0 0) := by
    intro w
    simp only [sysOpen]
    split <;> rfl
  refine (triple_pass (fun w k a ha => ?_) hopen).bind fun fd =>
    (triple_pass (fun w k a ha => ?_) (fixes_of_calm (.sysLseek _ _ _))).bind fun size =>
    (triple_quiet (.sysClose fd) fun _ => rfl).bind fun _ => .pure _ fun _ _ h => h
  · simp only [sysOpen] at ha
    split at ha
    · rw [List.mem_singleton.mp ha]
      rfl
    · rw [List.mem_singleton.mp ha]
      rfl
  · rw [List.mem_singleton.mp ha]
    rfl

theorem triple_contact {m : Io α} (h : Contact α m) : Triple launch Recorded m fun _ => Recorded := by
  cases h with
  | stat path => exact triple_quiet (.asks fun _ => rfl) (fixes_of_calm (.sysStat _))
  | seekSize file => exact triple_seekSize file
  | command h => exact triple_harmless h
  | reset =>
    exact (triple_reset (P := fun b n => b = true → n = 1) (by simp)).consequence (fun _ _ _ => trivial) fun _ _ _ h => h
  | execee arg => exact triple_cliExecee arg
  | execeiop arg => exact triple_execeiop arg

theorem still_of_calm {as : List Act} (h : ∀ a ∈ as, a.calm = true) : ∀ a ∈ as, a.still = true := by
  intro a ha
  have := h a ha
  cases a with
  | socket type fd => cases this
  | netfs fd => cases this
  | _ => rfl

theorem triple_calm {m : Io α} (h : Sat Calm m) : Triple launch Plain m fun _ => Plain :=
  triple_still (fun w => still_of_calm (h w).2) (fixes_of_calm h)

theorem triple_close (fd : Int) : Triple launch Plain (sysClose fd) fun _ => Plain :=
  triple_still (by simp [sysClose, Act.still]) fun _ => rfl

theorem triple_closeNetfs : Triple launch Plain closeNetfs fun _ => Plain :=
  triple_still (by simp [closeNetfs, sysClose, setVars, Act.still]) fun _ => rfl

theorem triple_talk {own : Option Int} {m : Io α} (h : Talk own α m) : Triple launch Plain m fun _ => Plain := by
  cases h with
  | calm h => exact triple_calm h
  | closeNetfs => exact triple_closeNetfs
  | closeOwn h => exact triple_close _

theorem triple_openNetfs : Triple launch Recorded openNetfs fun _ => Plain := by
  refine (triple_quiet .cmdListener (keepsState_of_plumbs .cmdListener)).bind fun fd =>
    (triple_pass (by simp [setVars]) (by intro w; rfl)).bind fun _ => ?_
  exact fun k w hr => ⟨(k.1, none), rfl, fun _ _ => ⟨rfl, hr⟩⟩

theorem triple_sysOpen (path : List Byte) (flags : Word) (mode : Nat) :
    Triple launch Plain (sysOpen path flags mode) fun _ => Plain := by
  refine triple_still (fun w => ?_) fun w => ?_
  · simp only [sysOpen]
    split <;> simp [Act.still]
  · simp only [sysOpen]
    split <;> rfl

theorem triple_netfs {m : Io α} (h : Netfs α m) : Triple launch Plain m fun _ => Plain := by
  cases h with
  | reopen =>
    refine .get_bind fun w => .ite (fun _ => ?_) fun _ => .pure () fun _ _ h => h.2
    exact triple_openNetfs.consequence (fun _ _ h => h.2.2) fun _ _ _ h => h
  | talk h => exact h.triple triple_talk
  | withFile h => exact (triple_sysOpen _ _ _).bind fun fd => (h fd).triple triple_talk

theorem recorded_of_plain {k : Bool × Option Int} {w : World} (h : Plain k w) : Recorded k w := h.2

theorem still_of_serves {link : Int} {call : Call} {a : Act} (h : a.serves link call) : a.still = true := by
  cases a with
  | socket type fd => exact h.elim
  | netfs fd => exact h.elim
  | _ => rfl

theorem triple_fileIo {c : Cmd} (hc : c.isFileIo = true) : Triple launch Plain (fileIo c) fun _ => Plain := by
  have hh : ∀ w, ∃ call, Handles call w ((fileIo c).run w) := by
    intro w
    obtain ⟨call, h⟩ := Option.isSome_iff_exists.mp ((c.isFileIo_iff_call w.recvPacket).mp hc)
    exact ⟨call, handles_fileIo h⟩
  refine triple_still (fun w a ha => ?_) fun w => ?_
  · obtain ⟨call, h⟩ := hh w
    obtain ⟨rest, hacts, hserves⟩ := h.acts
    rw [hacts] at ha
    rcases List.mem_cons.mp ha with rfl | ha
    · rfl
    · exact still_of_serves (hserves a ha)
  · obtain ⟨call, h⟩ := hh w
    exact (wiring_eq h.wiring).2.2

theorem triple_srvEof (fd : Int) : Triple launch Recorded (srvEof fd) fun _ => Recorded := by
  have hlost : Sat (Fixes fun w : World => w.state) (linkLost fd) :=
    Sat.bind (fun _ => rfl) fun _ => Sat.get.bind fun _ => (keepsState_of_plumbs (.awaitLink _)).bind fun _ =>
      keepsState_of_plumbs .closeNetfs
  exact triple_quiet (wires_srvEof fd) (Sat.get.bind fun _ => .ite (hlost.bind fun _ => .pure 0) (.pure (-1)))

theorem triple_switch (cmd : Option Cmd) : Triple launch Plain (switch cmd) fun _ => Recorded := by
  cases cmd with
  | none => exact .pure () fun _ _ => recorded_of_plain
  | some c =>
    refine .ite (fun hc => ?_) fun _ => ?_
    · exact (triple_fileIo hc).consequence (fun _ _ h => h) fun _ _ _ => recorded_of_plain
    · exact ((Contact.relay c).triple triple_contact).consequence (fun _ _ => recorded_of_plain) fun _ _ _ h => h

theorem triple_pkoSrvRead (fd : Int) : Triple launch Plain (pkoSrvRead fd) fun _ => Recorded := by
  refine (triple_calm (.pkoRecvBytes _ _ _)).bind fun n => .ite (fun _ => ?_) fun _ => .ite (fun _ => ?_) fun _ => ?_
  · exact .pure _ fun _ _ => recorded_of_plain
  · exact (triple_srvEof fd).consequence (fun _ _ => recorded_of_plain) fun _ _ _ h => h
  · have hcmd : Sat Calm packetCmd := Calm.loadPacket.bind fun _ => .pure _
    have hbody : Sat Calm (recvBody fd) := Calm.loadPacket.bind fun _ => (Calm.pkoRecvBytes _ _ _).bind fun _ => .pure ()
    exact (triple_calm hcmd).bind fun cmd => (triple_calm hbody).bind fun _ => (triple_switch _).bind fun _ =>
      .pure 0 fun _ _ h => h

theorem triple_cliReconnect : Triple launch Recorded cliReconnect fun _ => Recorded := by
  have hwires : Wires cliReconnect := .bind .get fun _ => .bind (.sysClose _) fun _ => .bind .cmdListener fun _ =>
    .bind (.setVars _) fun _ => .bind .closeNetfs fun _ => .pure 0
  refine triple_quiet hwires (Sat.get.bind fun w => Sat.bind (fun _ => rfl) fun _ => ?_)
  exact keepsState_of_plumbs (.relink fun fd => Plumbs.closeNetfs.bind fun _ => .pure 0)

theorem triple_cliLog (arg : List Byte) (s : Session) : Triple launch Plain (cliLog arg s) fun _ => Plain := by
  refine .ite (fun _ => .ite (fun _ => ?_) fun _ => ?_) fun _ => ?_
  · exact (triple_close _).bind fun _ => .pure _ fun _ _ h => h
  · exact .pure _ fun _ _ h => h
  · exact (triple_sysOpen _ _ _).bind fun fd => .pure _ fun _ _ h => h

theorem triple_call (f : CliFunc) (arg : List Byte) (s : Session) :
    Triple launch Plain (f.call arg s) fun _ => Recorded := by
  by_cases hq : f = .quit
  · subst hq
    exact .pure _ fun _ _ => recorded_of_plain
  by_cases hl : f = .log
  · subst hl
    exact (triple_cliLog arg s).consequence (fun _ _ h => h) fun _ _ _ => recorded_of_plain
  rw [CliFunc.call_eq hq hl]
  have hrun : Triple launch Plain (f.run arg) fun _ => Recorded := by
    rcases composed_run f arg with rfl | h | h
    · exact triple_cliReconnect.consequence (fun _ _ => recorded_of_plain) fun _ _ _ h => h
    · exact (h.triple triple_contact).consequence (fun _ _ => recorded_of_plain) fun _ _ _ h => h
    · exact (h.triple triple_netfs).consequence (fun _ _ h => h) fun _ _ _ => recorded_of_plain
  exact hrun.bind fun _ => .pure _ fun _ _ h => h

theorem triple_acceptClient (s : Session) : Triple launch Plain (acceptClient s) fun _ => Plain := by
  have ha : Triple launch Plain sysAccept fun _ => Plain := by
    refine triple_still (fun w => ?_) fun w => ?_
    · simp only [sysAccept]
      split <;> simp [Act.still]
    · simp only [sysAccept]
      split <;> rfl
  refine ha.bind fun connfd => ?_
  cases s.freeSlot with
  | none => exact .hang
  | some j => exact .pure _ fun _ _ h => h

theorem triple_serveSlot (input : Input) (i : Nat) (s : Session) :
    Triple launch Plain (serveSlot input i s) fun _ => Recorded := by
  refine .get_bind fun w => Triple.consequence ?_ (fun _ _ h => h.2) fun _ _ _ h => h
  refine .ite (fun _ => ?_) fun _ => .ite (fun _ => ?_) fun _ => .ite (fun _ => ?_) fun _ => .ite (fun _ => ?_) fun _ => ?_
  · refine .ite (fun _ => ?_) fun _ => .pure _ fun _ _ => recorded_of_plain
    exact (triple_calm (.sysWrite _ _)).bind fun _ => .pure _ fun _ _ => recorded_of_plain
  · rw [rlCallbackReadChar]
    cases input.typed.func with
    | none => exact .pure _ fun _ _ => recorded_of_plain
    | some f => exact triple_call f.1 f.2 s
  · exact (triple_pkoSrvRead _).bind fun _ => .pure _ fun _ _ h => h
  · exact (triple_acceptClient s).consequence (fun _ _ h => h) fun _ _ _ => recorded_of_plain
  · refine (triple_pkoSrvRead _).bind fun r => .ite (fun _ => ?_) fun _ => .pure _ fun _ _ h => h
    exact (triple_quiet (.sysClose _) fun _ => rfl).bind fun _ => .pure _ fun _ _ h => h

theorem triple_startUp (dumpscreen : Bool) (s : Session) : Triple launch Plain (startUp dumpscreen s) fun _ => Recorded := by
  have hreq : ∀ fd, Harmless ((if dumpscreen then pkoDump2screenReq else pkoDump2pcReq) fd) := by
    intro fd
    cases dumpscreen with
    | true => exact .sendReq [] (by decide) (by simp) (by decide)
    | false => exact .sendReq [] (by decide) (by simp) (by decide)
  have hcontact : Triple launch Recorded (contactPs2 dumpscreen) fun _ => Recorded :=
    (triple_openNetfs.consequence (fun _ _ h => h) fun _ _ _ => recorded_of_plain).bind fun _ =>
      (triple_harmless hreq).bind fun _ => .pure () fun _ _ h => h
  refine Triple.consequence ?_ (fun _ _ => recorded_of_plain) fun _ _ _ h => h
  refine (triple_quiet .cmdListener (keepsState_of_plumbs .cmdListener)).bind fun link =>
    (triple_pass (by simp [setVars]) (by intro w; rfl)).bind fun _ => .ite (fun _ => ?_) fun _ => ?_
  · exact .pure _ fun _ _ h => h
  · exact hcontact.bind fun _ => .get_bind fun w => .pure _ fun _ _ h => h.2

theorem triple_task (e : Event) (s : Session) : Triple launch Plain (e.task s) fun _ => Recorded := by
  cases e with
  | start dumpscreen => exact triple_startUp dumpscreen s
  | select answer => exact .pure _ fun _ _ => recorded_of_plain
  | slot input i => exact .ite (fun _ => triple_serveSlot input i s) fun _ => .pure _ fun _ _ => recorded_of_plain

theorem order_issued (es : List Event) (p : Shell) (started : Bool) (h : started = true → p.world.state = 1) :
    ∃ e, watch order started (issued es p) = some e := by
  induction es generalizing p started with
  | nil => exact ⟨started, rfl⟩
  | cons e es ih =>
    obtain ⟨k, hw, hk⟩ := triple_task e p.session (started, none) p.world ⟨rfl, h⟩
    have hfirst := order_packets hw
    rw [issued, journalOf, List.flatMap_cons]
    cases hv : (e.exec.run p).value with
    | none => exact ⟨k.1, (watch_append_some hfirst _).trans rfl⟩
    | some u =>
      obtain ⟨e', he'⟩ := ih (e.exec.run p).state k.1 (hk _ (Event.exec_value e p hv))
      exact ⟨e', (watch_append_some hfirst _).trans he'⟩

/-- In every run of pksh an EXECEE packet goes out behind an EXECEE or EXECIOP
packet only when a RESET packet was issued in between. -/
theorem execee_behind_reset (es : List Event) (p : Shell) : ResetBetween (issued es p) := by
  obtain ⟨e, he⟩ := order_issued es p false fun h => nomatch h
  exact resetBetween_of_order he

end Pksh
