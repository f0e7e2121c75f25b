import Pksh.Carrying

/-! The events of the main loop and the connection to the file server. -/

namespace Pksh

open Wire Traced

theorem Bound.carries (S : Int → Prop) : Carries S (Bound S) (Bound S) where
  plain := at_state
  execee := cliExecee
  linkLost := linkLost
  reconnect := cliReconnect
  whole := id

/-- Whatever was opened is still there in the end, or was closed before the
next one was opened. -/
structure OneConnection (as : List Act) (w : World) : Prop where
  live : w.ps2NetfsFd < 0 ∨ w.desc w.ps2NetfsFd ≠ none ∧
    ∃ before behind, as = before ++ .netfs w.ps2NetfsFd :: behind ∧ .close w.ps2NetfsFd ∉ behind
  closed : ∀ before fd between fd' behind, as = before ++ .netfs fd :: (between ++ .netfs fd' :: behind) →
    0 ≤ fd → .close fd ∈ between

theorem held_opened {k : Option Int} {as : List Act} {n : Int} (h : watch held k as = some (some n)) :
    k = some n ∧ .close n ∉ as ∨ ∃ before behind, as = before ++ .netfs n :: behind ∧ .close n ∉ behind := by
  induction as generalizing k with
  | nil => exact .inl ⟨Option.some.inj h, by simp⟩
  | cons a as ih =>
    obtain ⟨k', ha, hw⟩ := Option.bind_eq_some_iff.mp (watch_cons k a as ▸ h)
    rcases ih hw with ⟨rfl, hc⟩ | ⟨before, behind, rfl, hc⟩
    · cases a with
      | netfs fd =>
        simp only [held] at ha
        split at ha
        · split at ha
          · cases ha
          · obtain rfl : fd = n := by simpa using ha
            exact .inr ⟨[], as, rfl, hc⟩
        · cases ha
      | close fd =>
        simp only [held, Option.some.injEq] at ha
        split at ha
        · cases ha
        · rename_i hne
          subst ha
          have hfd : n ≠ fd := fun he => hne (he ▸ rfl)
          exact .inl ⟨rfl, by simp [hc, hfd]⟩
      | _ => exact .inl ⟨Option.some.inj ha, by simp [hc]⟩
    · exact .inr ⟨a :: before, behind, rfl, hc⟩

/-- As long as it is not closed the connection stays, and no other is opened. -/
theorem held_stays {as : List Act} {n : Int} {k : Option Int} (h : watch held (some n) as = some k)
    (hc : .close n ∉ as) : k = some n := by
  induction as with
  | nil => exact (Option.some.inj h).symm
  | cons a as ih =>
    obtain ⟨k', ha, hw⟩ := Option.bind_eq_some_iff.mp (watch_cons (some n) a as ▸ h)
    have hk : k' = some n := by
      cases a with
      | netfs fd => simp [held] at ha
      | close fd =>
        have hne : n ≠ fd := fun he => hc (he ▸ List.mem_cons_self)
        simpa [held, hne] using ha.symm
      | _ => exact (Option.some.inj ha).symm
    subst hk
    exact ih hw fun hm => hc (List.mem_cons_of_mem _ hm)

theorem oneConnection_of_held {as : List Act} {w : World} (h : watch held none as = some w.netfs)
    (hs : Sound (fun _ => False) none w) : OneConnection as w := by
  refine ⟨?_, ?_⟩
  · by_cases hn : w.ps2NetfsFd < 0
    · exact .inl hn
    · have hnet : w.netfs = some w.ps2NetfsFd := if_neg hn
      rw [hnet] at h
      exact .inr ⟨(hs.netfs _ hnet).1, (held_opened h).resolve_left fun hk => nomatch hk.1⟩
  · rintro before fd between fd' behind rfl h0
    by_contra hc
    rw [watch_append, Option.bind_eq_some_iff] at h
    obtain ⟨k₁, _, h⟩ := h
    obtain ⟨k₂, h2, h⟩ := Option.bind_eq_some_iff.mp (watch_cons k₁ _ _ ▸ h)
    have hk2 : k₂ = some fd := by
      simp only [held] at h2
      split at h2
      · simpa [Int.not_lt.mpr h0] using h2.symm
      · cases h2
    rw [hk2, watch_append, Option.bind_eq_some_iff] at h
    obtain ⟨k₃, h3, h⟩ := h
    obtain ⟨k₄, h4, _⟩ := Option.bind_eq_some_iff.mp (watch_cons k₃ _ _ ▸ h)
    rw [held_stays h3 hc] at h4
    simp [held] at h4

theorem calm_dumpReq (dumpscreen : Bool) (fd : Int) :
    Sat Calm ((if dumpscreen then pkoDump2screenReq else pkoDump2pcReq) fd) := by
  cases dumpscreen with
  | true => exact .sendReq _ _ _
  | false => exact .sendReq _ _ _

theorem contactPs2_held (dumpscreen : Bool) {S : Int → Prop} {w : World} (hs : ∀ x, S x → 0 ≤ x ∧ w.desc x ≠ none) :
    watch held none ((contactPs2 dumpscreen).run w).acts = some ((contactPs2 dumpscreen).run w).state.netfs ∧
      Sound S none ((contactPs2 dumpscreen).run w).state := by
  obtain ⟨hw, _, hs⟩ := Holding.openNetfs_none hs
  rw [contactPs2, Prog.run_bind]
  cases hv : (openNetfs.run w).value with
  | none =>
    rw [Result.andThen_none _ hv]
    exact ⟨hw, hs⟩
  | some u =>
    rw [Result.andThen_some _ hv]
    have hrest : Sat (Holding S none) (command (if dumpscreen then pkoDump2screenReq else pkoDump2pcReq) >>=
        fun _ => (pure () : Io Unit)) := (Holding.careful (.command (calm_dumpReq dumpscreen))).bind fun _ => .pure ()
    obtain ⟨hw', _, hs'⟩ := hrest _ hs
    exact ⟨(watch_append_some hw _).trans hw', hs'⟩

/-- When the loop is entered the connection that was opened is there, beside
what was open before and the link. -/
theorem start_held {d : Bool} {p q : Shell} {as : List Act} (h : (Event.start d).exec.run p = ⟨some (), q, as⟩)
    (hd : q.session.doloop = true) {S : Int → Prop}
    (hS : ∀ x, S x → 0 ≤ x ∧ (x = q.world.pkoSrvFd ∨ p.world.desc x ≠ none)) :
    watch held none as = some q.world.netfs ∧ Sound S none q.world := by
  have hstart := start_run h
  have hval : ((startUp d p.session).run p.world).value = some q.session := by rw [hstart]
  have hworld : q.world = ((startUp d p.session).run p.world).state := by rw [hstart]
  have hacts : as = ((startUp d p.session).run p.world).acts := by rw [hstart]
  obtain ⟨v, w₁, as₁, hrun, _, _⟩ := cmdListener_listened p.world
  have hfirst : watch held none as₁ = some none := by
    have hn := (Careful.cmdListener p.world).2.2
    rw [hrun] at hn
    exact Holding.held_keeps hn (by simp)
  have hopen : ∀ x, p.world.desc x ≠ none → w₁.desc x ≠ none := by
    have hh := Holds.cmdListener p.world
    rw [hrun] at hh
    exact fun x hx => (hh x hx).2
  rw [hworld] at hS ⊢
  rw [hacts]
  revert hval hS
  simp only [startUp, Prog.run_bind, hrun, Result.andThen_mk_some, setVars]
  by_cases hv : v < 0
  · rw [if_pos hv]
    intro _ hval
    have hq : some { p.session with doloop := false } = some q.session := hval
    rw [← Option.some.inj hq] at hd
    cases hd
  · rw [if_neg hv]
    intro hS _
    let w₂ : World := { w₁ with pkoSrvFd := v }
    have hlink : ((contactPs2 d).run w₂).state.pkoSrvFd = v := (contactPs2_keeps d).1 w₂
    have hnew := (cmdListener_open hrun (Int.not_lt.mp hv)).2
    cases hr : ((contactPs2 d).run w₂).value with
    | none =>
      rw [Prog.run_bind, Result.andThen_none _ hr] at hS ⊢
      have hc := contactPs2_held d (S := S) (w := w₂) fun x hx =>
        ⟨(hS x hx).1, (hS x hx).2.elim (fun he => he.trans hlink ▸ hnew) (hopen x)⟩
      exact ⟨(watch_append_some hfirst _).trans hc.1, hc.2⟩
    | some u =>
      rw [Prog.run_bind, Result.andThen_some _ hr] at hS ⊢
      have hc := contactPs2_held d (S := S) (w := w₂) fun x hx =>
        ⟨(hS x hx).1, (hS x hx).2.elim (fun he => he.trans hlink ▸ hnew) (hopen x)⟩
      refine ⟨(watch_append_some hfirst _).trans ?_, hc.2⟩
      change watch held none (((contactPs2 d).run w₂).acts ++ []) = _
      rw [List.append_nil]
      exact hc.1

/-- In every run of pksh in which no other close names it, there is at most one
connection to the file server, and `ps2_netfs_fd` is it. -/
theorem netfs_held {d : Bool} {p q : Shell} {as : List Act} (h : (Event.start d).exec.run p = ⟨some (), q, as⟩)
    (hd : q.session.doloop = true) {es : List Event} (hes : ∀ d, .start d ∉ es)
    (hf : ∀ x ∈ journalOf Event.exec es q, ∀ n, Strays x.2 x.1 n → x.2.world.netfs ≠ some n) :
    OneConnection (as ++ ((runAll Event.exec es).run q).acts) ((runAll Event.exec es).run q).state.world := by
  obtain ⟨hw, hs⟩ := start_held h hd (S := fun _ => False) fun _ hx => hx.elim
  have hstart : ∀ x ∈ journalOf Event.exec es q, ∀ d, x.1 ≠ .start d := fun x hx d he =>
    hes d (he ▸ mem_of_journalOf hx)
  have hrun : OnWorld (Bound fun _ => False) q ((runAll Event.exec es).run q).acts ((runAll Event.exec es).run q).state :=
    keeps_runAll (C := fun e p => (∀ d, e ≠ .start d) ∧ ∀ n, Strays p e n → p.world.netfs ≠ some n)
      (fun e p hc => (Bound.carries _).exec hc.1 (fun _ _ => id) hc.2) es fun x hx => ⟨hstart x hx, hf x hx⟩
  obtain ⟨⟨hw', _, hs'⟩, _⟩ := hrun id hs
  exact oneConnection_of_held ((watch_append_some hw _).trans hw') hs'

theorem start_entered (os : Host) (h : ((Event.start false).exec.run (.called os)).value = some ()) :
    (Event.start false).exec.run (.called os) =
      ⟨some (), .entered os, ((Event.start false).exec.run (.called os)).acts⟩ := by
  rw [← h]
  rfl

def Act.unasked : Act → Bool
  | .handle _ => false
  | _ => true

/-- The act is no request to close this descriptor. -/
def Act.leaves (n : Option Int) : Act → Bool
  | .handle (.closeFile m) => n ≠ some m
  | _ => true

/-- Neither the link nor the client that is served has the number of the
connection to the file server, and no request names it. -/
def keptApart (e : Event) (p : Shell) : Bool :=
  p.world.netfs ≠ some p.world.pkoSrvFd && (e.exec.run p).acts.all (Act.leaves p.world.netfs) &&
    match e with
    | .slot _ i => p.world.netfs ≠ some (p.session.client i)
    | _ => true

theorem Foreign.netfs_ne {p : Shell} {e : Event} {n : Int} (h : Foreign p e n) (hk : keptApart e p = true) :
    p.world.netfs ≠ some n := by
  simp only [keptApart, Bool.and_eq_true, decide_eq_true_eq, List.all_eq_true] at hk
  obtain ⟨⟨hlink, hacts⟩, hclient⟩ := hk
  cases h with
  | request h => exact of_decide_eq_true (hacts _ h)
  | link => exact hlink
  | client => exact of_decide_eq_true hclient
  | reconnect => exact hlink

def resetTyped : List Event := [.select (some {0}), .slot ⟨.line (str "reset"), []⟩ 0]

theorem strays_resetTyped : ∀ x ∈ journalOf Event.exec resetTyped (.entered .connecting), ∀ n,
    Strays x.2 x.1 n → x.2.world.netfs ≠ some n := by
  have hall : ((journalOf Event.exec resetTyped (.entered .connecting)).all fun x =>
      keptApart x.1 x.2 && !x.2.session.logToFile) = true := by decide +kernel
  rintro ⟨e, p⟩ hx n hn
  obtain ⟨hk, hl⟩ := Bool.and_eq_true_iff.mp (List.all_eq_true.mp hall _ hx)
  cases hn with
  | foreign h => exact h.netfs_ne hk
  | log ht hlog ha =>
    rw [show p.session.logToFile = true from hlog] at hl
    cases hl

theorem netfs_held_reset : OneConnection
    (((Event.start false).exec.run (.called .connecting)).acts ++
      ((runAll Event.exec resetTyped).run (.entered .connecting)).acts)
    ((runAll Event.exec resetTyped).run (.entered .connecting)).state.world :=
  netfs_held (start_entered .connecting (by decide +kernel)) (by decide +kernel) (by simp [resetTyped]) strays_resetTyped

/-- The link gets the number 10 and brings a request to close 7. The file that
is logged to gets the number 7, and so does the second connection to the file
server, which the first attempt does not make. -/
def Host.reusing : Host :=
  { Host.connecting with
    socket := fun n => if n = 0 then some 10 else if n < 6 then none else some 7
    openFile := fun _ _ _ _ => some 7
    peer := fun _ fd => if fd = 10 then .delivering (be32 closeCmd ++ be16 10 ++ be32 7) else ⟨⟨[], .eof⟩, ⟨[], .accepts⟩⟩ }

/-- The log goes to a file, which the PS2 closes; a directory is made on the
PS2, and the log goes to the screen again. -/
def logReused : List Event :=
  [.select (some {0}), .slot ⟨.line (str "log a.log"), []⟩ 0, .select (some {10}), .slot ⟨.nothing, []⟩ 1,
    .select (some {0}), .slot ⟨.line (str "mkdir mc0:/d"), []⟩ 0, .select (some {0}), .slot ⟨.line (str "log stdout"), []⟩ 0]

/-- The log lets go of a number that the connection to the file server has by
then. -/
theorem log_closes_netfs : ¬∀ es : List Event, (∀ d, .start d ∉ es) →
    (∀ x ∈ journalOf Event.exec es (.entered .reusing), ∀ n, Foreign x.2 x.1 n → x.2.world.netfs ≠ some n) →
    OneConnection
      (((Event.start false).exec.run (.called .reusing)).acts ++ ((runAll Event.exec es).run (.entered .reusing)).acts)
      ((runAll Event.exec es).run (.entered .reusing)).state.world := by
  intro h
  have hall : ((journalOf Event.exec logReused (.entered .reusing)).all fun x => keptApart x.1 x.2) = true := by
    decide +kernel
  have hone := h logReused (by simp [logReused]) fun x hx n hn => hn.netfs_ne (List.all_eq_true.mp hall x hx)
  rcases hone.live with hneg | ⟨hopen, -⟩
  · exact absurd hneg (by decide +kernel)
  · have hclosed : (((runAll Event.exec logReused).run (.entered .reusing)).state.world.desc
        ((runAll Event.exec logReused).run (.entered .reusing)).state.world.ps2NetfsFd).isNone = true := by decide +kernel
    exact hopen (Option.isNone_iff_eq_none.mp hclosed)

end Pksh
