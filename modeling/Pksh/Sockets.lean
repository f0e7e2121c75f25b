import Pksh.Custody

/-! The sockets that are made. What `pko_cmd_con` makes is never closed, and
`cmd_listener` gives up some of its sockets without closing them. -/

namespace Pksh

open Wire Traced

variable {α : Type}

/-- `pko_cmd_con` is given a socket. -/
def Act.contact : Act → Bool
  | .socket .dgram (some _) => true
  | _ => false

/-- The open sockets of `pko_cmd_con`, the latest first. -/
def contacts (l : List Int) : Act → List Int
  | .socket .dgram (some fd) => fd :: l
  | .close fd => l.filter fun x => x ≠ fd
  | _ => l

def openContacts (as : List Act) : List Int := as.foldl contacts []

/-- A watcher that refuses to let one of them be closed. -/
def lasting (l : List Int) : Act → Option (List Int)
  | .socket .dgram (some fd) => some (fd :: l)
  | .close fd => if fd ∈ l then none else some l
  | _ => some l

theorem contacts_length (l : List Int) (as : List Act) :
    (as.foldl contacts l).length ≤ l.length + as.countP Act.contact := by
  induction as generalizing l with
  | nil => exact Nat.le_refl _
  | cons a as ih =>
    have ha : (contacts l a).length ≤ l.length + if a.contact then 1 else 0 := by
      cases a with
      | socket type fd => cases type <;> cases fd <;> simp [contacts, Act.contact]
      | close fd => exact List.length_filter_le _ _
      | _ => exact Nat.le_refl _
    rw [List.foldl_cons, List.countP_cons]
    have := ih (contacts l a)
    omega

theorem contacts_lasting {l l' : List Int} {as : List Act} (h : watch lasting l as = some l') :
    as.foldl contacts l = l' ∧ l'.length = l.length + as.countP Act.contact := by
  induction as generalizing l with
  | nil =>
    obtain rfl := Option.some.inj h
    exact ⟨rfl, rfl⟩
  | cons a as ih =>
    obtain ⟨k, ha, hw⟩ := Option.bind_eq_some_iff.mp (watch_cons l a as ▸ h)
    obtain ⟨hf, hl⟩ := ih hw
    have hk : contacts l a = k ∧ k.length = l.length + if a.contact then 1 else 0 := by
      cases a with
      | socket type fd =>
        cases type with
        | stream =>
          obtain rfl := Option.some.inj ha
          exact ⟨rfl, rfl⟩
        | dgram =>
          cases fd with
          | none =>
            obtain rfl := Option.some.inj ha
            exact ⟨rfl, rfl⟩
          | some fd =>
            obtain rfl := Option.some.inj ha
            exact ⟨rfl, rfl⟩
      | close fd =>
        simp only [lasting] at ha
        split at ha
        · cases ha
        · rename_i hn
          obtain rfl := Option.some.inj ha
          refine ⟨List.filter_eq_self.mpr fun x hx => ?_, rfl⟩
          have hne : x ≠ fd := fun he => hn (he ▸ hx)
          simpa using hne
      | _ =>
        obtain rfl := Option.some.inj ha
        exact ⟨rfl, rfl⟩
    rw [List.foldl_cons, List.countP_cons, hk.1]
    exact ⟨hf, by omega⟩

/-- These sockets are open and neither the link nor the connection to the file
server; the link, when there is one, is open. -/
structure Wired (l : List Int) (w : World) : Prop where
  sound : Sound (· ∈ l) none w
  link : w.pkoSrvFd ∉ l
  linked : 0 ≤ w.pkoSrvFd → w.desc w.pkoSrvFd ≠ none ∧ w.netfs ≠ some w.pkoSrvFd

theorem Wired.netfs_ne {l : List Int} {w : World} (h : Wired l w) : w.netfs ≠ some w.pkoSrvFd := by
  intro hn
  have h0 : 0 ≤ w.pkoSrvFd := by
    rw [World.netfs] at hn
    split at hn
    · cases hn
    · have := Option.some.inj hn
      omega
  exact (h.linked h0).2 hn

abbrev KeepsSockets (m : Io α) : Prop := Triple lasting Wired m fun _ => Wired

/-- No socket of `pko_cmd_con` is made. -/
def Streams (_ : World) (as : List Act) (_ : World) : Prop := ∀ a ∈ as, a.contact = false

instance : Chains Streams where
  nil _ := by simp [Streams]
  append h h' := fun a ha => (List.mem_append.mp ha).elim (h a) (h' a)

namespace Streams

theorem calm {m : Io α} (h : Sat Calm m) : Sat Streams m := by
  intro w a ha
  have hc := (h w).2 a ha
  cases a with
  | socket type fd => cases hc
  | _ => rfl

theorem setVars (f : Vars → Vars) : Sat Streams (setVars f) := fun _ => by simp [Streams, Pksh.setVars]

theorem sysClose (fd : Int) : Sat Streams (sysClose fd) := fun _ => by simp [Streams, Pksh.sysClose, Act.contact]

theorem sysOpen (path : List Byte) (flags : Word) (mode : Nat) : Sat Streams (sysOpen path flags mode) := by
  intro w
  simp only [Pksh.sysOpen]
  split <;> simp [Streams, Act.contact]

theorem cmdListener : Sat Streams cmdListener := by
  intro w
  obtain ⟨v, w', as, hrun, _, hl⟩ := cmdListener_listened w
  rw [hrun]
  generalize w'.desc = desc at hl
  cases hl with
  | unmade => simp [Streams, Act.contact]
  | linked fd k waits h0 hn hw => rcases hw with rfl | rfl <;> simp [Streams, Act.contact]
  | closed fd waits h0 hn hw => rcases hw with rfl | rfl <;> simp [Streams, Act.contact]
  | left fd waits h0 hn hw => rcases hw with rfl | rfl <;> simp [Streams, Act.contact]

theorem awaitLink (attempts : Nat) : Sat Streams (awaitLink attempts) := by
  induction attempts with
  | zero => exact fun _ => by simp [Streams, Pksh.awaitLink, emit, Act.contact]
  | succ attempts ih => exact cmdListener.bind fun fd => (setVars _).bind fun _ => .ite (.pure ()) ih

theorem closeNetfs : Sat Streams closeNetfs := Sat.get.bind fun _ => (sysClose _).bind fun _ => setVars _

theorem openNetfs : Sat Streams openNetfs :=
  cmdListener.bind fun _ => (setVars _).bind fun _ => fun _ => by simp [Streams, emit, Act.contact]

theorem talk {own : Option Int} {m : Io α} (h : Talk own α m) : Sat Streams m := by
  cases h with
  | calm h => exact calm h
  | closeNetfs => exact closeNetfs
  | closeOwn h => exact sysClose _

theorem netfs {m : Io α} (h : Netfs α m) : Sat Streams m := by
  cases h with
  | reopen => exact Sat.get.bind fun _ => .ite openNetfs (.pure ())
  | talk h => exact h.sat talk
  | withFile h => exact (sysOpen _ _ _).bind fun fd => (h fd).sat talk

end Streams

namespace KeepsSockets

variable {w w' : World} {as : List Act}

theorem watch_same {l : List Int} (hs : Streams w as w') (hc : ∀ x ∈ l, .close x ∉ as) : watch lasting l as = some l := by
  refine watch_of_pass fun a ha => ?_
  cases a with
  | socket type fd =>
    have := hs _ ha
    cases type <;> cases fd <;> simp_all [lasting, Act.contact]
  | close fd => exact if_neg fun hm => hc fd hm ha
  | _ => rfl

theorem plain {m : Io α} (h : ∀ S, Sat (Holding S none) m) (hl : Sat KeepsLink m) (hs : Sat Streams m) : KeepsSockets m := by
  intro l w hw
  obtain ⟨_, hc, hs'⟩ := h (· ∈ l) w hw.sound
  have hkeep : (m.run w).state.pkoSrvFd = w.pkoSrvFd := hl w
  refine ⟨l, watch_same (hs w) hc, fun _ _ => ⟨hs', hkeep ▸ hw.link, fun h0 => ?_⟩⟩
  rw [hkeep] at h0 ⊢
  obtain ⟨ho, hn⟩ := hw.linked h0
  have hlink : Sound (· = w.pkoSrvFd) none w := by
    refine ⟨?_, ?_, by simp, fun n hn' => ⟨(hw.sound.netfs n hn').1, ?_, by simp⟩⟩
    · rintro x rfl
      exact h0
    · rintro x rfl
      exact ho
    · rintro rfl
      exact hn hn'
  have hafter := (h _ w hlink).2.2
  exact ⟨hafter.opened _ rfl, fun hn' => (hafter.netfs _ hn').2.1 rfl⟩

theorem calm {m : Io α} (h : Sat Calm m) : KeepsSockets m :=
  plain (fun _ => .careful (.calm h)) (keepsLink_calm h) (.calm h)

theorem closeNetfs : KeepsSockets closeNetfs := plain (fun _ => Holding.closeNetfs) keepsLink_closeNetfs .closeNetfs

theorem setState (v : Int) : KeepsSockets (setVars fun x => { x with state := v }) :=
  plain (fun _ => .careful (.setVars (by intro v; rfl))) (fun _ => rfl) (.setVars _)

theorem pkoCmdCon : KeepsSockets pkoCmdCon := by
  intro l w hw
  obtain ⟨v, w', as, hrun, hvars, hc⟩ := pkoCmdCon_contacted w
  obtain ⟨hlink, hfd, _⟩ := cmdFd_vars hvars
  have hnet : w'.netfs = w.netfs := by rw [World.netfs, World.netfs, hfd]
  rw [hrun]
  generalize hd : w'.desc = desc at hc
  generalize w'.cmdFd = c at hc
  cases hc with
  | unmade =>
    refine ⟨l, rfl, fun _ _ => ⟨⟨hw.sound.nonneg, fun x hx => ?_, by simp, fun n hn => ?_⟩, hlink ▸ hw.link, fun h0 => ?_⟩⟩
    · rw [hd]
      exact hw.sound.opened x hx
    · rw [hd]
      exact hw.sound.netfs n (hnet ▸ hn)
    · rw [hnet, hlink, hd]
      exact hw.linked (hlink ▸ h0)
  | made fd d made h0 hn hp =>
    have hopen : ∀ x, w.desc x ≠ none → w'.desc x ≠ none ∧ x ≠ c := by
      intro x hx
      have hne : x ≠ c := fun he => hx (he ▸ hn)
      rw [hd, Function.update_of_ne hne]
      exact ⟨hx, hne⟩
    have hnew : w'.desc c ≠ none := by simp [hd]
    refine ⟨c :: l, rfl, fun _ _ => ⟨⟨fun x hx => ?_, fun x hx => ?_, by simp, fun n hn' => ?_⟩, ?_, fun hl0 => ?_⟩⟩
    · rcases List.mem_cons.mp hx with rfl | hx
      · exact h0
      · exact hw.sound.nonneg x hx
    · rcases List.mem_cons.mp hx with rfl | hx
      · exact hnew
      · exact (hopen x (hw.sound.opened x hx)).1
    · obtain ⟨ho, hl, _⟩ := hw.sound.netfs n (hnet ▸ hn')
      exact ⟨(hopen n ho).1, fun hm => (List.mem_cons.mp hm).elim (hopen n ho).2 hl, by simp⟩
    · rw [hlink]
      refine fun hm => (List.mem_cons.mp hm).elim (fun he => ?_) hw.link
      exact (hw.linked (he ▸ h0)).1 (he ▸ hn)
    · rw [hlink] at hl0 ⊢
      rw [hnet]
      exact ⟨(hopen _ (hw.linked hl0).1).1, (hw.linked hl0).2⟩

theorem get_bind {g : World → Io α} (h : ∀ w, KeepsSockets (g w)) : KeepsSockets (Prog.get >>= g) :=
  Triple.get_bind fun w => (h w).consequence (fun _ _ h => h.2) fun _ _ _ h => h

theorem pure (a : α) : KeepsSockets (pure a : Io α) := Triple.pure a fun _ _ h => h

theorem command {req : Int → Io Int} (h : ∀ fd, Sat Calm (req fd)) : KeepsSockets (command req) :=
  pkoCmdCon.bind fun _ => get_bind fun _ => calm (h _)

def LinkFine (w : World) : Prop := 0 ≤ w.pkoSrvFd → w.desc w.pkoSrvFd ≠ none ∧ w.netfs ≠ some w.pkoSrvFd

theorem linkFine_set {v : Int} {w' : World} {as : List Act} (hrun : Pksh.cmdListener.run w = ⟨some v, w', as⟩)
    (hs : Sound (fun _ => False) none w) : LinkFine { w' with pkoSrvFd := v } := by
  intro h0
  obtain ⟨hn, ho⟩ := cmdListener_open hrun h0
  have hnet : w'.netfs = w.netfs := by
    have hc := (Careful.cmdListener w).2.1
    rw [hrun] at hc
    rw [World.netfs, World.netfs, hc]
  refine ⟨ho, fun hm => (hs.netfs v ?_).1 hn⟩
  rw [← hnet]
  exact hm

theorem linkFine_awaitLink (attempts : Nat) {w : World} (hs : Sound (fun _ => False) none w) {u : Unit}
    (hr : ((awaitLink attempts).run w).value = some u) : LinkFine ((awaitLink attempts).run w).state := by
  induction attempts generalizing w with
  | zero => cases hr
  | succ attempts ih =>
    obtain ⟨v, w', as, hrun, _, _⟩ := cmdListener_listened w
    have hsat : Sat (Holding (fun _ => False) none) Pksh.cmdListener := Holding.careful .cmdListener
    have hs' := (hsat w hs).2.2
    have hset := linkFine_set hrun hs
    rw [hrun] at hs'
    revert hr
    simp only [awaitLink, Prog.run_bind, hrun, Result.andThen_mk_some, setVars, Result.after_state, Result.after_value]
    by_cases hv : v > 0
    · rw [if_pos hv]
      exact fun _ => hset
    · rw [if_neg hv]
      exact ih ⟨hs'.nonneg, hs'.opened, hs'.notOwn, hs'.netfs⟩

theorem relinks {m : Io α} {l : List Int} (hw : Wired l w) (h : ∀ S, Bound S w (m.run w).acts (m.run w).state)
    (hs : Streams w (m.run w).acts (m.run w).state)
    (hl : ∀ a, (m.run w).value = some a → LinkFine (m.run w).state) : ∃ l', watch lasting l (m.run w).acts = some l' ∧
      ∀ a, (m.run w).value = some a → Wired l' (m.run w).state := by
  obtain ⟨⟨_, hc, hs'⟩, hlink⟩ := h (· ∈ l) hw.link hw.sound
  exact ⟨l, watch_same hs hc, fun a ha => ⟨hs', hlink, hl a ha⟩⟩

theorem closeAwait {l : List Int} (hw : Wired l w) (attempts : Nat) :
    ∃ l', watch lasting l ((sysClose w.pkoSrvFd >>= fun _ => awaitLink attempts).run w).acts = some l' ∧
      ∀ u, ((sysClose w.pkoSrvFd >>= fun _ => awaitLink attempts).run w).value = some u →
        Wired l' ((sysClose w.pkoSrvFd >>= fun _ => awaitLink attempts).run w).state := by
  have hclose : Holding (fun _ => False) none w ((sysClose w.pkoSrvFd).run w).acts ((sysClose w.pkoSrvFd).run w).state :=
    .sysClose id hw.netfs_ne
  refine relinks hw (fun S => Sat.bind_at (.closeLink hw.netfs_ne) fun _ _ => .awaitLink attempts _)
    (((Streams.sysClose _).bind fun _ => .awaitLink attempts) w) fun u hu => ?_
  have hs := (hclose ⟨by simp, by simp, by simp, fun n hn => ⟨(hw.sound.netfs n hn).1, id, by simp⟩⟩).2.2
  exact linkFine_awaitLink attempts hs hu

theorem linkLost : KeepsSockets (Prog.get >>= fun w => linkLost w.pkoSrvFd) := by
  refine Triple.get_bind fun w => ?_
  rintro l v ⟨rfl, hw⟩
  have h := Triple.bind_at (closeAwait hw ((sysClose v.pkoSrvFd).run v).state.os.patience) fun _ => closeNetfs
  have hrun : (Pksh.linkLost v.pkoSrvFd).run v = ((sysClose v.pkoSrvFd >>= fun _ =>
      awaitLink ((sysClose v.pkoSrvFd).run v).state.os.patience) >>= fun _ => Pksh.closeNetfs).run v := by
    simp only [Prog.run_bind, Result.andThen_assoc]
    rfl
  rwa [hrun]

theorem cliReset : KeepsSockets cliReset :=
  (setState 0).bind fun _ => (command fun _ => .sendReq _ _ _).bind fun _ => closeNetfs.bind fun _ => pure 0

theorem resetAndReconnect : KeepsSockets resetAndReconnect := by
  refine cliReset.bind fun _ => Triple.get_bind fun w => ?_
  rintro l v ⟨rfl, hw⟩
  exact closeAwait hw v.os.patience

theorem execee (arg : List Byte) : KeepsSockets (execee arg) := by
  have hreq : ∀ fd (argv : List Byte × Nat), Sat Calm (pkoExeceeReq fd argv.1 (BitVec.ofNat 32 argv.2)) :=
    fun _ _ => .sendReq _ _ _
  exact (setState 1).bind fun _ => get_bind fun _ => (command fun _ => hreq _ _).bind fun _ => pure 0

theorem cliExecee (arg : List Byte) : KeepsSockets (cliExecee arg) :=
  get_bind fun _ => .ite (fun _ => resetAndReconnect.bind fun _ => execee arg) fun _ => execee arg

theorem cliExeceiop (arg : List Byte) : KeepsSockets (cliExeceiop arg) := by
  have hreq : ∀ fd (argv : List Byte × Nat), Sat Calm (pkoExeciopReq fd argv.1 (BitVec.ofNat 32 argv.2)) :=
    fun _ _ => .sendReq _ _ _
  exact (setState 1).bind fun _ => get_bind fun _ => (command fun _ => hreq _ _).bind fun _ => pure 0

theorem seekSize (file : List Byte) : KeepsSockets (seekSize file) :=
  plain (fun _ => .seekSize file) (keepsLink_seekSize file)
    ((Streams.sysOpen _ _ _).bind fun _ => (Streams.calm (.sysLseek _ _ _)).bind fun _ =>
      (Streams.sysClose _).bind fun _ => .pure _)

theorem contact {m : Io α} (h : Contact α m) : KeepsSockets m := by
  cases h with
  | stat path => exact calm (.sysStat path)
  | seekSize file => exact seekSize file
  | command h => exact command fun fd => (h fd).1
  | reset => exact cliReset
  | execee arg => exact cliExecee arg
  | execeiop arg => exact cliExeceiop arg

theorem netfs {m : Io α} (h : Netfs α m) : KeepsSockets m :=
  plain (fun _ => .netfs h) (keepsLink_netfs h) (.netfs h)

theorem cliReconnect : KeepsSockets cliReconnect := by
  intro l w hw
  have hlisten : Sat Streams (do
      let fd ← Pksh.cmdListener
      Pksh.setVars fun v => { v with pkoSrvFd := fd }
      Pksh.closeNetfs
      (Pure.pure 0 : Io Int)) :=
    Streams.cmdListener.bind fun _ => (Streams.setVars _).bind fun _ => Streams.closeNetfs.bind fun _ => .pure 0
  have hstreams : Sat Streams Pksh.cliReconnect := Sat.get.bind fun w => (Streams.sysClose _).bind fun _ => hlisten
  refine relinks hw (fun S => .cliReconnect hw.netfs_ne) (hstreams w) fun _ _ => ?_
  have hclose : Holding (fun _ => False) none w ((sysClose w.pkoSrvFd).run w).acts ((sysClose w.pkoSrvFd).run w).state :=
    .sysClose id hw.netfs_ne
  have hs := (hclose ⟨by simp, by simp, by simp, fun n hn => ⟨(hw.sound.netfs n hn).1, id, by simp⟩⟩).2.2
  obtain ⟨r, hr⟩ := sysClose_acts w w.pkoSrvFd
  rw [hr] at hs
  obtain ⟨v, w', as, hrun, _, _⟩ := cmdListener_listened (w.tick.setDesc w.pkoSrvFd none)
  have hfine := linkFine_set hrun hs
  have hstate : (Pksh.cliReconnect.run w).state = (Pksh.closeNetfs.run { w' with pkoSrvFd := v }).state := by
    simp only [Pksh.cliReconnect, Prog.run_bind, Prog.run_get, Result.andThen_mk_some, hr, hrun, Pksh.setVars,
      Result.after_state]
    rfl
  rw [hstate]
  intro h0
  obtain ⟨ho, hn⟩ := hfine h0
  have hnone : (Pksh.closeNetfs.run { w' with pkoSrvFd := v }).state.netfs = none := rfl
  refine ⟨?_, by rw [hnone]; simp⟩
  change Function.update w'.desc w'.ps2NetfsFd none v ≠ none
  have hne : v ≠ w'.ps2NetfsFd := by
    rintro rfl
    exact hn (if_neg (Int.not_lt.mpr h0))
  rw [Function.update_of_ne hne]
  exact ho

end KeepsSockets

/-- A command is called, or forwarded for a client, or the link is lost. -/
inductive Dial
  | call (f : CliFunc) (arg : List Byte)
  | relay (c : Cmd)
  | linkLost

def Dial.exec : Dial → Io Unit
  | .call f arg => do
    let _ ← f.run arg
    pure ()
  | .relay c => Pksh.relay c
  | .linkLost => do
    let w ← Prog.get
    Pksh.linkLost w.pkoSrvFd

theorem Dial.keepsSockets (e : Dial) : KeepsSockets e.exec := by
  cases e with
  | call f arg =>
    have hf : KeepsSockets (f.run arg) := by
      rcases composed_run f arg with rfl | h | h
      · exact KeepsSockets.cliReconnect
      · exact h.triple KeepsSockets.contact
      · exact h.triple KeepsSockets.netfs
    exact hf.bind fun _ => KeepsSockets.pure ()
  | relay c => exact (Contact.relay c).triple KeepsSockets.contact
  | linkLost => exact KeepsSockets.linkLost

theorem contactPs2_wired (dumpscreen : Bool) {w : World} (h0 : 0 ≤ w.pkoSrvFd) (ho : w.desc w.pkoSrvFd ≠ none) :
    ∃ l, watch lasting [] ((contactPs2 dumpscreen).run w).acts = some l ∧
      ∀ u, ((contactPs2 dumpscreen).run w).value = some u → Wired l ((contactPs2 dumpscreen).run w).state := by
  have hlink : (openNetfs.run w).state.pkoSrvFd = w.pkoSrvFd := keepsLink_openNetfs w
  have hs : Sound (· = w.pkoSrvFd) none (openNetfs.run w).state := by
    refine (Holding.openNetfs_none fun x hx => ?_).2.2
    rw [hx]
    exact ⟨h0, ho⟩
  have hopen : ∃ l, watch lasting [] (openNetfs.run w).acts = some l ∧
      ∀ u, (openNetfs.run w).value = some u → Wired l (openNetfs.run w).state := by
    refine ⟨[], @KeepsSockets.watch_same w w _ _ (Streams.openNetfs w) (by simp), fun _ _ => ⟨?_, by simp, ?_⟩⟩
    · exact ⟨by simp, by simp, by simp, fun n hn => ⟨(hs.netfs n hn).1, by simp, by simp⟩⟩
    · rw [hlink]
      exact fun _ => ⟨hs.opened _ rfl, fun hn => (hs.netfs _ hn).2.1 rfl⟩
  have h := Triple.bind_at hopen fun _ => (KeepsSockets.command (calm_dumpReq dumpscreen)).bind fun _ => KeepsSockets.pure ()
  exact h

theorem wired_start {p q : Shell} {dumpscreen : Bool} {as : List Act}
    (h : (Event.start dumpscreen).exec.run p = ⟨some (), q, as⟩) (hd : q.session.doloop = true) :
    ∃ l, watch lasting [] as = some l ∧ Wired l q.world := by
  have hrun := start_run h
  obtain ⟨v, w₁, as₁, hlisten, _, _⟩ := cmdListener_listened p.world
  have hfirst : watch lasting [] as₁ = some [] := by
    have hs := Streams.cmdListener p.world
    rw [hlisten] at hs
    exact @KeepsSockets.watch_same p.world w₁ _ _ hs (by simp)
  revert hrun
  simp only [startUp, Prog.run_bind, hlisten, Result.andThen_mk_some, setVars]
  by_cases hv : v < 0
  · rw [if_pos hv]
    intro hval
    have hq : some { p.session with doloop := false } = some q.session := congrArg Result.value hval
    rw [← Option.some.inj hq] at hd
    cases hd
  · rw [if_neg hv]
    have hopen := (cmdListener_open hlisten (Int.not_lt.mp hv)).2
    obtain ⟨l, hw, hl⟩ := Triple.bind_at (contactPs2_wired dumpscreen (w := { w₁ with pkoSrvFd := v }) (Int.not_lt.mp hv) hopen)
      fun _ => KeepsSockets.get_bind fun w => KeepsSockets.pure (p.session.started w.standing)
    intro hval
    have hacts : _ = as := congrArg Result.acts hval
    have hstate : _ = q.world := congrArg Result.state hval
    rw [← hacts, ← hstate]
    exact ⟨l, (watch_append_some hfirst _).trans hw, hl _ (congrArg Result.value hval)⟩

/-- What `cmd_listener` gives up it closes. -/
def World.GivesBack (w : World) : Prop :=
  ∀ v, (cmdListener.run w).value = some v → v < 0 → (cmdListener.run w).state.desc = w.desc

/-- The operating system gives no socket, or makes the connection at once, or
lets it be pending and then time out or tell how it ended. -/
def World.Answers (w : World) : Prop :=
  ∀ fd, (w.os.socket w.now).filter w.unused = some fd → ∀ e, w.os.connect (w.now + 1) fd = some e →
    e = .EINPROGRESS ∧ (w.os.timesOut (w.now + 2) fd = true ∨ w.os.soError (w.now + 3) fd ≠ none)

theorem cmdListenerOn_answers {w : World} {fd : Int} (hf : w.desc fd = some .fresh) : ∃ v w' as,
    (cmdListenerOn fd).run w = ⟨some v, w', as⟩ ∧
      ((v = fd ∨ v = -1 ∧ w'.desc = Function.update w.desc fd none) ∧ (∀ e, w.os.connect w.now fd = some e →
          e = .EINPROGRESS ∧ (w.os.timesOut (w.now + 1) fd = true ∨ w.os.soError (w.now + 2) fd ≠ none)) ∨
        v = -1 ∧ w'.desc = w.desc ∧ ∃ e, w.os.connect w.now fd = some e ∧
          ¬(e = .EINPROGRESS ∧ (w.os.timesOut (w.now + 1) fd = true ∨ w.os.soError (w.now + 2) fd ≠ none))) := by
  rcases sysConnect_fresh hf with ⟨k, hos, hc⟩ | ⟨e, hos, hc⟩
  · refine ⟨fd, w.tick.setDesc fd (some (.sock k)), [.connect fd true], ?_, .inl ⟨.inl rfl, by simp [hos]⟩⟩
    simp only [cmdListenerOn, Prog.run_bind, hc, Result.andThen_mk_some, Prog.run_pure, Result.after_mk, List.append_nil]
  rw [hos]
  by_cases he : e = .EINPROGRESS
  · subst he
    have hf' : w.tick.tick.desc fd = some .fresh := hf
    cases hl : w.os.timesOut (w.now + 1) fd with
    | true =>
      have hl' : w.tick.os.timesOut w.tick.now fd = true := hl
      obtain ⟨r, hr⟩ := sysClose_acts w.tick.tick fd
      refine ⟨-1, w.tick.tick.tick.setDesc fd none, [.connect fd false, .close fd], ?_, .inl ⟨.inr ⟨rfl, rfl⟩, by simp⟩⟩
      simp only [cmdListenerOn, Prog.run_bind, hc, Result.andThen_mk_some, ne_eq, not_true_eq_false, if_false,
        sysSelectConnect_run, hl', if_true, hr, Prog.run_pure, Result.after_mk, List.nil_append, List.append_nil,
        List.singleton_append]
    | false =>
      have hl' : w.tick.os.timesOut w.tick.now fd = false := hl
      rcases sysSoError_fresh hf' with ⟨k, hso, hs⟩ | ⟨r, hso, hr, hs⟩
      · have hso' : w.os.soError (w.now + 2) fd = some none := hso
        refine ⟨fd, w.tick.tick.tick.setDesc fd (some (.sock k)), [.connect fd false, .connect fd true], ?_,
          .inl ⟨.inl rfl, by simp [hso']⟩⟩
        simp only [cmdListenerOn, Prog.run_bind, hc, Result.andThen_mk_some, ne_eq, not_true_eq_false, if_false,
          sysSelectConnect_run, hl', hs, reduceCtorEq, Prog.run_pure, Result.after_mk, List.nil_append, List.append_nil, List.singleton_append]
      · have hso' : w.os.soError (w.now + 2) fd = r := hso
        rcases r with _ | _ | e'
        · refine ⟨-1, w.tick.tick.tick, [.connect fd false, .connect fd false], ?_, .inr ⟨rfl, rfl, _, rfl, by simp [hso']⟩⟩
          simp only [cmdListenerOn, Prog.run_bind, hc, Result.andThen_mk_some, ne_eq, not_true_eq_false, if_false,
            sysSelectConnect_run, hl', hs, reduceCtorEq, Prog.run_pure, Result.after_mk, List.nil_append, List.append_nil, List.singleton_append]
        · exact absurd rfl hr
        · obtain ⟨r, hcl⟩ := sysClose_acts w.tick.tick.tick fd
          refine ⟨-1, w.tick.tick.tick.tick.setDesc fd none, [.connect fd false, .connect fd false, .close fd], ?_,
            .inl ⟨.inr ⟨rfl, rfl⟩, by simp [hso']⟩⟩
          simp only [cmdListenerOn, Prog.run_bind, hc, Result.andThen_mk_some, ne_eq, not_true_eq_false, if_false,
            sysSelectConnect_run, hl', hs, hcl, reduceCtorEq, Prog.run_pure, Result.after_mk, List.nil_append, List.append_nil, List.singleton_append]
  · refine ⟨-1, w.tick, [.connect fd false], ?_, .inr ⟨rfl, rfl, e, rfl, fun hn => he hn.1⟩⟩
    simp only [cmdListenerOn, Prog.run_bind, hc, Result.andThen_mk_some, ne_eq, he, not_false_eq_true, if_true,
      Prog.run_pure, Result.after_mk, List.append_nil]

theorem givesBack_iff (w : World) : w.GivesBack ↔ w.Answers := by
  cases hs : (w.os.socket w.now).filter w.unused with
  | none =>
    have hrun : cmdListener.run w = ⟨some (-1), w.tick, [.socket .stream none]⟩ := by
      simp only [cmdListener, Prog.run_bind, sysSocket, hs, Result.andThen_mk_some, Prog.run_pure, Result.after_mk,
        List.append_nil]
    refine iff_of_true (fun _ _ _ => ?_) fun fd hfd => ?_
    · rw [hrun]
      rfl
    · rw [hs] at hfd
      cases hfd
  | some fd =>
    have hu := World.unused_iff.mp (Option.filter_eq_some_iff.mp hs).2
    obtain ⟨v, w', as, hrun, hout⟩ := cmdListenerOn_answers (World.setDesc_self w.tick fd (some .fresh))
    have hall : cmdListener.run w = ⟨some v, w', .socket .stream (some fd) :: as⟩ := by
      simp only [cmdListener, Prog.run_bind, sysSocket, hs, Result.andThen_mk_some, hrun, Result.after_mk,
        List.singleton_append]
    rw [World.GivesBack, World.Answers, hall]
    rcases hout with ⟨hv, hans⟩ | ⟨rfl, hd, e, he, hno⟩
    · refine iff_of_true (fun v' hv' h0 => ?_) fun fd' hfd' => ?_
      · obtain rfl := Option.some.inj hv'
        rcases hv with rfl | ⟨_, hd⟩
        · exact absurd hu.1 (Int.not_le.mpr h0)
        · change w'.desc = w.desc
          rw [hd]
          change Function.update (Function.update w.desc fd (some .fresh)) fd none = w.desc
          rw [Function.update_idem]
          exact Function.update_eq_self_iff.mpr hu.2.symm
      · obtain rfl := Option.some.inj (hs.symm.trans hfd')
        exact hans
    · refine iff_of_false (fun hback => ?_) fun hans => hno (hans fd hs e he)
      have hsame : w'.desc = w.desc := hback (-1) rfl (by decide)
      rw [hd] at hsame
      have hfd := congrFun hsame fd
      rw [World.setDesc_self, hu.2] at hfd
      cases hfd

/-- In every sequence of commands and reconnects behind the start of pksh
nothing accumulates exactly when `cmd_listener` gets such answers and
`pko_cmd_con` a single socket. -/
theorem sockets_kept_iff {p q : Shell} {dumpscreen : Bool} {as : List Act}
    (h : (Event.start dumpscreen).exec.run p = ⟨some (), q, as⟩) (hd : q.session.doloop = true) (es : List Dial) :
    (∀ w : World, w.GivesBack ↔ w.Answers) ∧
      ((∀ bs, bs <+: as ++ ((runAll Dial.exec es).run q.world).acts → (openContacts bs).length ≤ 1) ↔
        (as ++ ((runAll Dial.exec es).run q.world).acts).countP Act.contact ≤ 1) := by
  obtain ⟨l, hw, hl⟩ := wired_start h hd
  obtain ⟨l', hw', _⟩ := (Triple.runAll Dial.keepsSockets es : Triple lasting _ (runAll Dial.exec es) _) l q.world hl
  obtain ⟨hopen, hlen⟩ := contacts_lasting ((watch_append_some hw _).trans hw')
  refine ⟨givesBack_iff, fun hall => ?_, fun hone bs hbs => ?_⟩
  · have h1 := hall _ (List.prefix_refl _)
    rw [openContacts, hopen, hlen] at h1
    simpa using h1
  · have hle : (openContacts bs).length ≤ 0 + bs.countP Act.contact := contacts_length [] bs
    rw [Nat.zero_add] at hle
    exact hle.trans ((hbs.sublist.countP_le).trans hone)

/-- The acts of the start, and of a reset behind it. -/
def resetCalled : List Act :=
  ((Event.start false).exec.run (.called .connecting)).acts ++
    ((runAll Dial.exec [.call .reset []]).run (Shell.entered .connecting).world).acts

theorem sockets_kept_iff_reset : (∀ w : World, w.GivesBack ↔ w.Answers) ∧
    ((∀ bs, bs <+: resetCalled → (openContacts bs).length ≤ 1) ↔ resetCalled.countP Act.contact ≤ 1) :=
  sockets_kept_iff (start_entered .connecting (by decide +kernel)) (by decide +kernel) [.call .reset []]

def Host.unheard : Host := { Host.connecting with connect := fun _ _ => some .ECONNREFUSED }

/-- The socket whose connection is refused is left open, and the first command
leaves a second one of `pko_cmd_con`. -/
theorem sockets_left : ¬(World.linked .unheard (-1) []).GivesBack ∧
    ¬∀ bs, bs <+: resetCalled → (openContacts bs).length ≤ 1 := by
  refine ⟨fun h => ?_, fun h => absurd (h resetCalled (List.prefix_refl _)) (by decide +kernel)⟩
  have hsame := h (-1) (by decide +kernel) (by decide)
  exact absurd (congrArg Option.isNone (congrFun hsame 10)) (by decide +kernel)

end Pksh
