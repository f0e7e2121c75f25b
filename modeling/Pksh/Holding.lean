import Pksh.Wiring
import Pksh.Connecting
import Pksh.Plumbing
import Pksh.Serving

/-! The connection to the file server, which is opened when a command needs it
and closed in five places. Nothing else is closed on the way. -/

namespace Pksh

open Wire Traced

variable {α β : Type}

def World.netfs (w : World) : Option Int := if w.ps2NetfsFd < 0 then none else some w.ps2NetfsFd

/-- A watcher keeps the connection that was opened until it is closed, and
refuses another one in its place. -/
def held (k : Option Int) : Act → Option (Option Int)
  | .netfs fd => if k = none then some (if fd < 0 then none else some fd) else none
  | .close fd => some (if k = some fd then none else k)
  | _ => some k

/-- The descriptors of `S` are open, and so is the connection to the file
server. It is none of these, nor the file `own`. -/
structure Sound (S : Int → Prop) (own : Option Int) (w : World) : Prop where
  nonneg : ∀ x, S x → 0 ≤ x
  opened : ∀ x, S x → w.desc x ≠ none
  notOwn : ∀ x, own = some x → ¬S x
  netfs : ∀ n, w.netfs = some n → w.desc n ≠ none ∧ ¬S n ∧ own ≠ some n

def Holding (S : Int → Prop) (own : Option Int) (w : World) (as : List Act) (w' : World) : Prop :=
  Sound S own w → watch held w.netfs as = some w'.netfs ∧ (∀ x, S x → .close x ∉ as) ∧ Sound S own w'

instance (S : Int → Prop) (own : Option Int) : Chains (Holding S own) where
  nil _ := fun h => ⟨rfl, by simp, h⟩
  append h h' := by
    intro hs
    obtain ⟨hw, hc, hs'⟩ := h hs
    obtain ⟨hw', hc', hs''⟩ := h' hs'
    exact ⟨(watch_append_some hw _).trans hw', fun x hx hm => (List.mem_append.mp hm).elim (hc x hx) (hc' x hx), hs''⟩

/-- Nothing open is closed, and the connection to the file server stays as it is. -/
def Careful (w : World) (as : List Act) (w' : World) : Prop :=
  Holds w as w' ∧ w'.ps2NetfsFd = w.ps2NetfsFd ∧ ∀ fd, .netfs fd ∉ as

instance : Chains Careful where
  nil w := ⟨Chains.nil w, rfl, by simp⟩
  append h h' := ⟨Chains.append h.1 h'.1, h'.2.1.trans h.2.1, fun fd hm =>
    (List.mem_append.mp hm).elim (h.2.2 fd) (h'.2.2 fd)⟩

namespace Careful

theorem calm {m : Io α} (h : Sat Calm m) : Sat Careful m := by
  have hc : Sat Holds m := .of_close fun w s _ hm => by cases (h w).2 _ hm
  exact fun w => ⟨hc w, (wiring_eq (h w).1).2.1, fun fd hm => by cases (h w).2 _ hm⟩

theorem setVars {f : Vars → Vars} (h : ∀ v, (f v).ps2NetfsFd = v.ps2NetfsFd) : Sat Careful (setVars f) :=
  fun w => ⟨Holds.setVars f w, h w.toVars, by simp [Pksh.setVars]⟩

theorem emit {a : Act} {h : a.quiet = true} (ha : ∀ fd, a ≠ .netfs fd) : Sat Careful (emit a h) :=
  fun w => ⟨Holds.emit w, rfl, fun fd hm => ha fd (List.mem_singleton.mp hm).symm⟩

theorem sysOpen (path : List Byte) (flags : Word) (mode : Nat) : Sat Careful (sysOpen path flags mode) := by
  have hc : Sat Holds (Pksh.sysOpen path flags mode) := by
    refine .of_close fun w s _ => ?_
    simp only [Pksh.sysOpen]
    split <;> simp
  refine fun w => ⟨hc w, ?_, ?_⟩
  · simp only [Pksh.sysOpen]
    split <;> rfl
  · simp only [Pksh.sysOpen]
    split <;> simp

theorem sysAccept : Sat Careful sysAccept := by
  have hc : Sat Holds Pksh.sysAccept := by
    refine .of_close fun w s _ => ?_
    simp only [Pksh.sysAccept]
    split <;> simp
  refine fun w => ⟨hc w, ?_, ?_⟩
  · simp only [Pksh.sysAccept]
    split <;> rfl
  · simp only [Pksh.sysAccept]
    split <;> simp

theorem cmdListener : Sat Careful cmdListener := by
  intro w
  have hc := Holds.cmdListener w
  obtain ⟨v, w', as, hrun, hv, hl⟩ := cmdListener_listened w
  rw [hrun] at hc ⊢
  refine ⟨hc, congrArg Vars.ps2NetfsFd hv, fun fd hm => ?_⟩
  generalize w'.desc = desc at hl
  cases hl with
  | unmade => simp at hm
  | linked fd k waits h0 hn hw => rcases hw with rfl | rfl <;> simp at hm
  | closed fd waits h0 hn hw => rcases hw with rfl | rfl <;> simp at hm
  | left fd waits h0 hn hw => rcases hw with rfl | rfl <;> simp at hm

theorem pkoCmdCon : Sat Careful pkoCmdCon := by
  intro w
  have hh := Holds.pkoCmdCon w
  obtain ⟨v, w', as, hrun, hv, hc⟩ := pkoCmdCon_contacted w
  rw [hrun] at hh ⊢
  refine ⟨hh, (cmdFd_vars hv).2.1, fun fd hm => ?_⟩
  generalize w'.desc = desc at hc
  generalize w'.cmdFd = c at hc
  cases hc with
  | unmade => simp at hm
  | made fd d made h0 hn hp => simp at hm

theorem command {req : Int → Io Int} (h : ∀ fd, Sat Calm (req fd)) : Sat Careful (command req) :=
  pkoCmdCon.bind fun _ => Sat.get.bind fun _ => calm (h _)

theorem awaitLink (attempts : Nat) : Sat Careful (awaitLink attempts) := by
  induction attempts with
  | zero => exact (emit (by simp)).bind fun _ => .hang
  | succ attempts ih => exact cmdListener.bind fun fd => (setVars (by intro v; rfl)).bind fun _ => .ite (.pure ()) ih

end Careful

namespace Holding

variable {S : Int → Prop} {own : Option Int}

theorem held_keeps {k : Option Int} {as : List Act} (hn : ∀ fd, .netfs fd ∉ as) (hc : ∀ fd, k = some fd → .close fd ∉ as) :
    watch held k as = some k := by
  refine watch_of_pass fun a ha => ?_
  cases a with
  | netfs fd => exact absurd ha (hn fd)
  | close fd =>
    have : k ≠ some fd := fun h => hc fd h ha
    simp [held, this]
  | _ => rfl

theorem of_accounted {w w' : World} {as : List Act} (hacc : Accounted w as w') (hv : w'.ps2NetfsFd = w.ps2NetfsFd)
    (hn : ∀ fd, .netfs fd ∉ as) (hc : Sound S own w → ∀ x, .close x ∈ as → ¬S x ∧ w.netfs ≠ some x) :
    Holding S own w as w' := by
  intro hs
  have hnet : w'.netfs = w.netfs := by rw [World.netfs, World.netfs, hv]
  have hopen : ∀ x, w.desc x ≠ none → .close x ∉ as → w'.desc x ≠ none := by
    intro x hx hcl
    obtain ⟨d, hd⟩ := Option.ne_none_iff_exists'.mp hx
    obtain ⟨d', hd', _⟩ := hacc.kept x d hd hcl
    simp [hd']
  refine ⟨?_, fun x hx hm => (hc hs x hm).1 hx, hs.nonneg, fun x hx => ?_, hs.notOwn, fun n hn' => ?_⟩
  · rw [hnet]
    exact held_keeps hn fun fd hfd hm => (hc hs fd hm).2 hfd
  · exact hopen x (hs.opened x hx) fun hm => (hc hs x hm).1 hx
  · rw [hnet] at hn'
    obtain ⟨ho, hrest⟩ := hs.netfs n hn'
    exact ⟨hopen n ho fun hm => (hc hs n hm).2 hn', hrest⟩

theorem careful {m : Io α} (h : Sat Careful m) : Sat (Holding S own) m := by
  intro w
  obtain ⟨hh, hv, hn⟩ := h w
  refine of_accounted (m.keeps w) hv hn fun hs x hm => ⟨fun hx => ?_, fun hx => ?_⟩
  · exact (hh x (hs.opened x hx)).1 hm
  · exact (hh x (hs.netfs x hx).1).1 hm

theorem sysClose {w : World} {fd : Int} (hS : ¬S fd) (hn : w.netfs ≠ some fd) :
    Holding S own w ((Pksh.sysClose fd).run w).acts ((Pksh.sysClose fd).run w).state := by
  refine of_accounted ((Pksh.sysClose fd).keeps w) rfl (by simp [Pksh.sysClose]) fun _ x hm => ?_
  obtain rfl : x = fd := by simpa [Pksh.sysClose] using hm
  exact ⟨hS, hn⟩

theorem closeNetfs : Sat (Holding S own) closeNetfs := by
  intro w hs
  have hacts : (Pksh.closeNetfs.run w).acts = [.close w.ps2NetfsFd] := rfl
  have hnet : (Pksh.closeNetfs.run w).state.netfs = none := rfl
  have hS : ¬S w.ps2NetfsFd := by
    intro hx
    have h0 := hs.nonneg _ hx
    exact (hs.netfs w.ps2NetfsFd (if_neg (Int.not_lt.mpr h0))).2.1 hx
  refine ⟨?_, fun x hx hm => ?_, hs.nonneg, fun x hx => ?_, hs.notOwn, fun n hn => ?_⟩
  · rw [hacts, hnet]
    by_cases h : w.ps2NetfsFd < 0
    · rw [World.netfs, if_pos h]
      rfl
    · rw [World.netfs, if_neg h]
      simp [held]
  · obtain rfl : x = w.ps2NetfsFd := by simpa [hacts] using hm
    exact hS hx
  · change Function.update w.desc w.ps2NetfsFd none x ≠ none
    have hne : x ≠ w.ps2NetfsFd := fun h => hS (h ▸ hx)
    rw [Function.update_of_ne hne]
    exact hs.opened x hx
  · rw [hnet] at hn
    cases hn

theorem openNetfs_none {w : World} (hs : ∀ x, S x → 0 ≤ x ∧ w.desc x ≠ none) :
    watch held none (openNetfs.run w).acts = some (openNetfs.run w).state.netfs ∧
      (∀ x, S x → .close x ∉ (openNetfs.run w).acts) ∧ Sound S none (openNetfs.run w).state := by
  obtain ⟨v, w', as, hrun, _, _⟩ := cmdListener_listened w
  obtain ⟨hh, _, hn⟩ := Careful.cmdListener w
  rw [hrun] at hh hn
  have hopen : openNetfs.run w = ⟨some (), { w' with ps2NetfsFd := v }, as ++ [.netfs v]⟩ := by
    simp only [openNetfs, ps2netfsOpen, Prog.run_bind, hrun, Result.andThen_mk_some, setVars, emit, Result.after_mk,
      List.nil_append]
  rw [hopen]
  refine ⟨?_, fun x hx hm => ?_, fun x hx => (hs x hx).1, fun x hx => (hh x (hs x hx).2).2, by simp, fun n hn' => ?_⟩
  · exact (watch_append_some (held_keeps hn (by simp)) _).trans rfl
  · exact (hh x (hs x hx).2).1 ((List.mem_append.mp hm).resolve_right (by simp))
  · by_cases hv : v < 0
    · rw [World.netfs, if_pos hv] at hn'
      cases hn'
    · rw [World.netfs, if_neg hv, Option.some.injEq] at hn'
      subst hn'
      obtain ⟨hnone, hopen⟩ := cmdListener_open hrun (Int.not_lt.mp hv)
      exact ⟨hopen, fun hS => (hs _ hS).2 hnone, by simp⟩

theorem reopenNetfs : Sat (Holding S none) reopenNetfs := by
  refine Sat.get_bind fun w => ?_
  by_cases h : w.ps2NetfsFd < 0
  · rw [if_pos h]
    intro hs
    rw [World.netfs, if_pos h]
    exact openNetfs_none fun x hx => ⟨hs.nonneg x hx, hs.opened x hx⟩
  · rw [if_neg h]
    exact Chains.nil w

theorem talk {m : Io α} (h : Talk own α m) : Sat (Holding S own) m := by
  cases h with
  | calm h => exact careful (.calm h)
  | closeNetfs => exact closeNetfs
  | closeOwn h => exact fun w hs => sysClose (hs.notOwn _ h) (fun hn => (hs.netfs _ hn).2.2 h) hs

theorem withFile {path : List Byte} {flags : Word} {mode : Nat} {f : Int → Io α}
    (h : ∀ fd, Sat (Holding S (some fd)) (f fd)) : Sat (Holding S none) (Pksh.sysOpen path flags mode >>= f) := by
  intro w hs
  have hsat : Sat (Holding S none) (Pksh.sysOpen path flags mode) := careful (.sysOpen path flags mode)
  have hopen := hsat w hs
  obtain ⟨fd, hv, hfd⟩ := sysOpen_cases w path flags mode
  obtain ⟨hw, hc, hs'⟩ := hopen
  have hnet : ((Pksh.sysOpen path flags mode).run w).state.netfs = w.netfs := by
    rw [World.netfs, World.netfs, (Careful.sysOpen path flags mode w).2.1]
  have hne : ∀ x, 0 ≤ x → w.desc x ≠ none → x ≠ fd := by
    rintro x h0 hx rfl
    rcases hfd with rfl | ⟨-, hfd, -⟩
    · exact absurd h0 (by decide)
    · exact hx hfd
  have hown : Sound S (some fd) ((Pksh.sysOpen path flags mode).run w).state := by
    refine ⟨hs'.nonneg, hs'.opened, fun x hx hS => ?_, fun n hn => ?_⟩
    · exact hne x (hs.nonneg x hS) (hs.opened x hS) (Option.some.inj hx).symm
    · obtain ⟨ho, hS, _⟩ := hs'.netfs n hn
      rw [hnet] at hn
      have h0 : 0 ≤ n := by
        rw [World.netfs] at hn
        split at hn
        · cases hn
        · obtain rfl := Option.some.inj hn
          exact Int.not_lt.mp ‹_›
      exact ⟨ho, hS, fun h => hne n h0 (hs.netfs n hn).1 (Option.some.inj h).symm⟩
  obtain ⟨hw', hc', hs''⟩ := h fd _ hown
  rw [Prog.run_bind, Result.andThen_some _ hv]
  exact ⟨(watch_append_some hw _).trans hw', fun x hx hm => (List.mem_append.mp hm).elim (hc x hx) (hc' x hx),
    hs''.nonneg, hs''.opened, by simp, fun n hn => ⟨(hs''.netfs n hn).1, (hs''.netfs n hn).2.1, by simp⟩⟩

theorem netfs {m : Io α} (h : Netfs α m) : Sat (Holding S none) m := by
  cases h with
  | reopen => exact reopenNetfs
  | talk h => exact h.sat talk
  | withFile h => exact withFile fun fd => (h fd).sat talk

theorem cliReset : Sat (Holding S none) cliReset :=
  (careful (.setVars (by intro v; rfl))).bind fun _ => (careful (.command fun _ => .sendReq _ _ _)).bind fun _ =>
    closeNetfs.bind fun _ => .pure 0

theorem seekSize (file : List Byte) : Sat (Holding S none) (seekSize file) :=
  withFile fun _ => (careful (.calm (.sysLseek _ _ _))).bind fun _ =>
    (talk (.closeOwn rfl)).bind fun _ => .pure _

theorem cliExeceiop (arg : List Byte) : Sat (Holding S none) (cliExeceiop arg) := by
  have hreq : ∀ fd (argv : List Byte × Nat), Sat Calm (pkoExeciopReq fd argv.1 (BitVec.ofNat 32 argv.2)) :=
    fun _ _ => .sendReq _ _ _
  exact (careful (.setVars (by intro v; rfl))).bind fun _ => Sat.get.bind fun _ =>
    (careful (.command fun _ => hreq _ _)).bind fun _ => .pure 0

theorem execee (arg : List Byte) : Sat (Holding S none) (execee arg) := by
  have hreq : ∀ fd (argv : List Byte × Nat), Sat Calm (pkoExeceeReq fd argv.1 (BitVec.ofNat 32 argv.2)) :=
    fun _ _ => .sendReq _ _ _
  exact (careful (.setVars (by intro v; rfl))).bind fun _ => Sat.get.bind fun _ =>
    (careful (.command fun _ => hreq _ _)).bind fun _ => .pure 0

end Holding

/-- The same where the link is none of the descriptors of `S`. -/
def Bound (S : Int → Prop) (w : World) (as : List Act) (w' : World) : Prop :=
  ¬S w.pkoSrvFd → Sound S none w →
    (watch held w.netfs as = some w'.netfs ∧ (∀ x, S x → .close x ∉ as) ∧ Sound S none w') ∧ ¬S w'.pkoSrvFd

instance (S : Int → Prop) : Chains (Bound S) where
  nil _ := fun hl hs => ⟨⟨rfl, by simp, hs⟩, hl⟩
  append h h' := by
    intro hl hs
    obtain ⟨⟨hw, hc, hs'⟩, hl'⟩ := h hl hs
    obtain ⟨⟨hw', hc', hs''⟩, hl''⟩ := h' hl' hs'
    exact ⟨⟨(watch_append_some hw _).trans hw', fun x hx hm => (List.mem_append.mp hm).elim (hc x hx) (hc' x hx), hs''⟩,
      hl''⟩

/-- What a program leaves behind when it returns. -/
def Leaves (P : World → Prop) (m : Io α) : Prop := ∀ w a, (m.run w).value = some a → P (m.run w).state

theorem Leaves.bind {P : World → Prop} {m : Io α} {f : α → Io β} (hf : ∀ a, Leaves P (f a)) : Leaves P (m >>= f) := by
  intro w b hb
  cases hv : (m.run w).value with
  | none =>
    rw [Prog.run_bind, Result.andThen_none _ hv] at hb
    cases hb
  | some a =>
    rw [Prog.run_bind, Result.andThen_some _ hv] at hb ⊢
    exact hf a _ b hb

theorem leaves_cliReset : Leaves (fun w => w.netfs = none) cliReset :=
  .bind fun _ => .bind fun _ => fun _ _ _ => rfl

theorem keepsLink_calm {m : Io α} (h : Sat Calm m) : Sat KeepsLink m := fun w => (wiring_eq (h w).1).1

theorem keepsLink_sysOpen (path : List Byte) (flags : Word) (mode : Nat) : Sat KeepsLink (sysOpen path flags mode) := by
  intro w
  simp only [sysOpen]
  split <;> rfl

theorem keepsLink_closeNetfs : Sat KeepsLink closeNetfs := fun _ => rfl

theorem keepsLink_cliReset : Sat KeepsLink cliReset :=
  Sat.bind (fun _ => rfl) fun _ => (keepsLink_command fun _ => keepsLink_sendReq _ _ _).bind fun _ =>
    keepsLink_closeNetfs.bind fun _ => .pure 0

theorem keepsLink_seekSize (file : List Byte) : Sat KeepsLink (seekSize file) :=
  (keepsLink_sysOpen _ _ _).bind fun _ => Sat.bind (fun _ => rfl) fun _ => Sat.bind (fun _ => rfl) fun _ => .pure _

theorem keepsLink_cliExeceiop (arg : List Byte) : Sat KeepsLink (cliExeceiop arg) :=
  Sat.bind (fun _ => rfl) fun _ => Sat.get.bind fun _ =>
    (keepsLink_command fun _ => keepsLink_sendReq _ _ _).bind fun _ => .pure 0

theorem keepsLink_execee (arg : List Byte) : Sat KeepsLink (execee arg) :=
  Sat.bind (fun _ => rfl) fun _ => Sat.get.bind fun _ =>
    (keepsLink_command fun _ => keepsLink_sendReq _ _ _).bind fun _ => .pure 0

theorem keepsLink_openNetfs : Sat KeepsLink openNetfs :=
  keepsLink_cmdListener.bind fun _ => Sat.bind (fun _ => rfl) fun _ => fun _ => rfl

theorem keepsLink_talk {own : Option Int} {m : Io α} (h : Talk own α m) : Sat KeepsLink m := by
  cases h with
  | calm h => exact keepsLink_calm h
  | closeNetfs => exact keepsLink_closeNetfs
  | closeOwn h => exact fun _ => rfl

theorem keepsLink_netfs {m : Io α} (h : Netfs α m) : Sat KeepsLink m := by
  cases h with
  | reopen => exact Sat.get.bind fun _ => .ite keepsLink_openNetfs (.pure ())
  | talk h => exact h.sat keepsLink_talk
  | withFile h => exact (keepsLink_sysOpen _ _ _).bind fun fd => (h fd).sat keepsLink_talk

namespace Bound

variable {S : Int → Prop}

theorem at_state {w w' : World} {as : List Act} (h : Holding S none w as w') (hl : w'.pkoSrvFd = w.pkoSrvFd) :
    Bound S w as w' := fun hS hs => ⟨h hs, by rwa [hl]⟩

theorem of_holding {m : Io α} (h : Sat (Holding S none) m) (hl : Sat KeepsLink m) : Sat (Bound S) m :=
  fun w => at_state (h w) (hl w)

theorem relink {f : Int → Io α} (hf : ∀ fd, Sat (Bound S) (f fd)) : Sat (Bound S) (do
    let fd ← Pksh.cmdListener
    Pksh.setVars fun v => { v with pkoSrvFd := fd }
    f fd) := by
  intro w hS hs
  obtain ⟨v, w', as, hrun, _, _⟩ := cmdListener_listened w
  have hlisten : Sat (Holding S none) Pksh.cmdListener := Holding.careful .cmdListener
  have hc := hlisten w hs
  have hnew := cmdListener_new (show (Pksh.cmdListener.run w).value = some v by rw [hrun])
  have hv : ¬S v := by
    intro hx
    rcases hnew with rfl | hnew
    · exact absurd (hs.nonneg _ hx) (by decide)
    · exact hs.opened v hx hnew
  rw [hrun] at hc
  obtain ⟨hw, hcl, hs'⟩ := hc
  have hnet : ({ w' with pkoSrvFd := v } : World).netfs = w'.netfs := rfl
  have hset : Sound S none { w' with pkoSrvFd := v } := ⟨hs'.nonneg, hs'.opened, hs'.notOwn, hs'.netfs⟩
  obtain ⟨⟨hw', hcl', hs''⟩, hl⟩ := hf v { w' with pkoSrvFd := v } hv hset
  simp only [Prog.run_bind, hrun, Result.andThen_mk_some, setVars, Result.after_acts, Result.after_state,
    List.nil_append]
  exact ⟨⟨(watch_append_some hw _).trans hw', fun x hx hm => (List.mem_append.mp hm).elim (hcl x hx) (hcl' x hx), hs''⟩,
    hl⟩

theorem awaitLink (attempts : Nat) : Sat (Bound S) (awaitLink attempts) := by
  induction attempts with
  | zero =>
    refine of_holding (Holding.careful ((Careful.emit (by simp)).bind fun _ => .hang)) ?_
    exact Sat.bind (fun _ => rfl) fun _ => .hang
  | succ attempts ih => exact relink fun fd => .ite (.pure ()) ih

theorem closeLink {w : World} (hn : w.netfs ≠ some w.pkoSrvFd) :
    Bound S w ((sysClose w.pkoSrvFd).run w).acts ((sysClose w.pkoSrvFd).run w).state :=
  fun hS hs => ⟨Holding.sysClose hS hn hs, hS⟩

theorem resetAndReconnect : Sat (Bound S) resetAndReconnect := by
  intro w
  refine Sat.bind_at (of_holding Holding.cliReset keepsLink_cliReset w) fun a ha => ?_
  have hnone : (cliReset.run w).state.netfs = none := leaves_cliReset w a ha
  have hclose := closeLink (S := S) (w := (cliReset.run w).state) (by rw [hnone]; simp)
  have hrest := Sat.bind_at hclose fun _ _ => awaitLink (cliReset.run w).state.os.patience _
  exact hrest

theorem cliExecee (arg : List Byte) : Sat (Bound S) (cliExecee arg) :=
  have h : Sat (Bound S) (execee arg) := of_holding (.execee arg) (keepsLink_execee arg)
  Sat.get.bind fun _ => .ite (resetAndReconnect.bind fun _ => h) h

end Bound

theorem contact_elim {P : {α : Type} → Io α → Prop}
    (plain : ∀ {α : Type} {m : Io α}, (∀ S, Sat (Holding S none) m) → Sat KeepsLink m → P m)
    (execee : ∀ arg, P (cliExecee arg)) {m : Io α} (h : Contact α m) : P m := by
  cases h with
  | stat path => exact plain (fun _ => .careful (.calm (.sysStat _))) (keepsLink_calm (.sysStat _))
  | seekSize file => exact plain (fun _ => .seekSize file) (keepsLink_seekSize file)
  | command h =>
    exact plain (fun _ => .careful (.command fun fd => (h fd).1)) (keepsLink_command fun fd => keepsLink_calm (h fd).1)
  | reset => exact plain (fun _ => .cliReset) keepsLink_cliReset
  | execee arg => exact execee arg
  | execeiop arg => exact plain (fun _ => .cliExeceiop arg) (keepsLink_cliExeceiop arg)

namespace Bound

variable {S : Int → Prop}

theorem linkLost {w : World} (hn : w.netfs ≠ some w.pkoSrvFd) :
    Bound S w ((linkLost w.pkoSrvFd).run w).acts ((linkLost w.pkoSrvFd).run w).state :=
  Sat.bind_at (closeLink hn) fun _ _ => Sat.get_bind (fun v => ((awaitLink v.os.patience).bind fun _ =>
    of_holding .closeNetfs keepsLink_closeNetfs) v) _

theorem cliReconnect {w : World} (hn : w.netfs ≠ some w.pkoSrvFd) :
    Bound S w (cliReconnect.run w).acts (cliReconnect.run w).state := by
  have hrest : Sat (Bound S) (do
      let fd ← Pksh.cmdListener
      setVars fun v => { v with pkoSrvFd := fd }
      closeNetfs
      (pure 0 : Io Int)) := relink fun _ => (of_holding .closeNetfs keepsLink_closeNetfs).bind fun _ => .pure 0
  have hall := Sat.bind_at (closeLink (S := S) hn) fun _ _ => hrest _
  exact hall

end Bound

end Pksh
