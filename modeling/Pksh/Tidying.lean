import Pksh.Relinking

/-! The table of clients and the descriptors behind it, through every event of
the main loop. -/

namespace Pksh

open Wire Traced

/-- A descriptor that has a slot or is waited for. -/
def Session.Lists (s : Session) (fd : Int) : Prop := 0 ≤ fd ∧ (fd ∈ s.masterSet ∨ ∃ i, s.client i = fd)

/-- The file that is logged to is used as well. -/
def Session.Uses (s : Session) (fd : Int) : Prop := s.Lists fd ∨ 0 ≤ fd ∧ s.logToFile = true ∧ s.logFFd = fd

/-- The link is registered, and nothing that is registered has been closed or is
anything else by now. -/
structure Registered (p : Shell) : Prop where
  slot : p.session.client 1 = p.world.pkoSrvFd
  waited : p.world.pkoSrvFd ∈ p.session.masterSet
  opened : ∀ fd, p.session.Lists fd → p.world.desc fd ≠ none
  netfs : ∀ fd, p.session.Lists fd → p.world.netfs ≠ some fd
  file : ∀ fd, p.session.Lists fd → p.session.logToFile = true → p.session.logFFd ≠ fd

/-- What is in use is open, and under one number only. -/
structure Tidy (p : Shell) : Prop where
  slot : p.session.client 1 = p.world.pkoSrvFd
  waited : p.world.pkoSrvFd ∈ p.session.masterSet
  pos : 0 < p.world.pkoSrvFd
  sound : Sound p.session.Uses none p.world
  unique : ∀ i j, 0 ≤ p.session.client i → p.session.client j = p.session.client i → j = i
  file : ∀ fd, p.session.Lists fd → p.session.logToFile = true → p.session.logFFd ≠ fd

theorem Tidy.registered {p : Shell} (h : Tidy p) : Registered p :=
  ⟨h.slot, h.waited, fun fd hl => h.sound.opened fd (.inl hl), fun fd hl hn => (h.sound.netfs fd hn).2.1 (.inl hl), h.file⟩

/-- No request closes what pksh uses itself, and the link is replaced by one of
the same number. -/
structure Sparing (p : Shell) (e : Event) : Prop where
  request : ∀ n, .handle (.closeFile n) ∈ (e.exec.run p).acts → ¬p.session.Uses n ∧ p.world.netfs ≠ some n
  relink : (e.exec.run p).value = some () → watch (follow p.world.pkoSrvFd) .up (e.exec.run p).acts = some .up

section Table

variable {p : Shell} {e : Event} {input : Input} {i : Nat}

theorem Tidy.linkAt (h : Tidy p) : LinkAt p.world.pkoSrvFd p.world :=
  ⟨h.pos, rfl, h.sound.mono fun _ hx => .inl ⟨hx ▸ Int.le_of_lt h.pos, .inl (hx ▸ h.waited)⟩⟩

theorem Tidy.netfs_ne (h : Tidy p) (hs : Sparing p e) {n : Int} (hf : Strays p e n) : p.world.netfs ≠ some n := by
  have hlink : p.world.netfs ≠ some p.world.pkoSrvFd := fun hn => (h.linkAt.sound.netfs _ hn).2.1 rfl
  cases hf with
  | foreign hf =>
    cases hf with
    | request hr => exact (hs.request n hr).2
    | link => exact hlink
    | client hv hi hl he => exact fun hn => (h.sound.netfs _ hn).2.1 (.inl ⟨hv.2.1, .inr ⟨_, rfl⟩⟩)
    | reconnect => exact hlink
  | log ht hl ha =>
    intro hn
    by_cases h0 : 0 ≤ p.session.logFFd
    · exact (h.sound.netfs _ hn).2.1 (.inr ⟨h0, hl, rfl⟩)
    · rw [World.netfs] at hn
      split at hn
      · cases hn
      · have := Option.some.inj hn
        omega

theorem Tidy.link_ne (h : Tidy p) (hs : Sparing p e) {n : Int} (hr : Releases p e n) : n ≠ p.world.pkoSrvFd := by
  have hlist : p.session.Lists p.world.pkoSrvFd := ⟨Int.le_of_lt h.pos, .inl h.waited⟩
  cases hr with
  | request hr => exact fun hn => (hs.request n hr).1 (hn ▸ .inl hlist)
  | client hv hi hl he => exact fun hn => hi (by simp [World.standing, hn])
  | log ht hl ha => exact fun hn => h.file _ hlist hl hn

theorem Tidy.kept (h : Tidy p) (hs : Sparing p e) (he : ∀ d, e ≠ .start d) (hv : (e.exec.run p).value = some ())
    {S : Int → Prop} (hS : ∀ x, S x → p.session.Uses x) (hr : ∀ n, Releases p e n → ¬S n) :
    Sound (fun x => S x ∨ x = p.world.pkoSrvFd) none (e.exec.run p).state.world ∧
      (e.exec.run p).state.world.pkoSrvFd = p.world.pkoSrvFd := by
  obtain ⟨k, hw, hk⟩ := (Rebound.carries p.world.pkoSrvFd).exec he (fun n hn => h.link_ne hs hn)
    (fun n hn => h.netfs_ne hs hn) h.linkAt
  have hlink : LinkAt p.world.pkoSrvFd (e.exec.run p).state.world :=
    hk (Option.some.inj ((hs.relink hv).symm.trans hw)).symm
  obtain ⟨⟨_, _, hrest⟩, _⟩ := (Bound.carries fun x => S x ∧ x ≠ p.world.pkoSrvFd).exec he
    (fun n hn hx => hr n hn hx.1) (fun n hn => h.netfs_ne hs hn) (fun hx => hx.2 rfl) (h.sound.mono fun x hx => hS x hx.1)
  have hor : ∀ x, S x ∨ x = p.world.pkoSrvFd → (S x ∧ x ≠ p.world.pkoSrvFd) ∨ x = p.world.pkoSrvFd := by
    intro x hx
    by_cases hl : x = p.world.pkoSrvFd
    · exact .inr hl
    · exact .inl ⟨hx.resolve_right hl, hl⟩
  refine ⟨⟨fun x hx => ?_, fun x hx => ?_, by simp, fun n hn => ⟨(hrest.netfs n hn).1, fun hx => ?_, by simp⟩⟩,
    hlink.link⟩
  · exact (hor x hx).elim (hrest.nonneg x) (hlink.sound.nonneg x)
  · exact (hor x hx).elim (hrest.opened x) (hlink.sound.opened x)
  · exact (hor n hx).elim (hrest.netfs n hn).2.1 (hlink.sound.netfs n hn).2.1

theorem Tidy.same (h : Tidy p) {w : World} {s : Session} (hc : s.client = p.session.client)
    (hm : s.masterSet = p.session.masterSet) (ht : s.logToFile = p.session.logToFile) (hf : s.logFFd = p.session.logFFd)
    (hw : Sound (fun x => p.session.Uses x ∨ x = p.world.pkoSrvFd) none w ∧ w.pkoSrvFd = p.world.pkoSrvFd) :
    Tidy ⟨w, s⟩ := by
  have hl : ∀ fd, s.Lists fd → p.session.Lists fd := fun fd hl => by rwa [Session.Lists, hc, hm] at hl
  refine ⟨?_, ?_, ?_, hw.1.mono fun x hx => .inl ?_, ?_, ?_⟩
  · rw [hc, hw.2]
    exact h.slot
  · rw [hm, hw.2]
    exact h.waited
  · rw [hw.2]
    exact h.pos
  · rcases hx with hx | ⟨h0, hx, hx'⟩
    · exact .inl (hl x hx)
    · exact .inr ⟨h0, ht ▸ hx, hf ▸ hx'⟩
  · rw [hc]
    exact h.unique
  · intro fd hfd hlog
    rw [hf]
    exact h.file fd (hl fd hfd) (ht ▸ hlog)

/-- What a slot leaves when nothing but what is typed or a client that has left
releases a descriptor. -/
theorem Tidy.keeps (h : Tidy p) (hs : Sparing p (.slot input i)) (hv : p.session.Visits i)
    (hret : ((Event.slot input i).exec.run p).value = some ()) {S : Int → Prop} (hS : ∀ x, S x → p.session.Uses x)
    (hc : p.session.client i ∉ p.world.standing → p.world.Ended (p.session.client i) → ¬S (p.session.client i))
    (hl : ∀ arg, p.Types input i .log arg → p.session.logToFile = true →
      trimInPlace arg = str "stdout" ∨ trimInPlace arg = [] → ¬S p.session.logFFd) :
    Sound (fun x => S x ∨ x = p.world.pkoSrvFd) none ((serveSlot input i p.session).run p.world).state ∧
      ((serveSlot input i p.session).run p.world).state.pkoSrvFd = p.world.pkoSrvFd := by
  have hw : ((Event.slot input i).exec.run p).state.world = ((serveSlot input i p.session).run p.world).state := by
    rw [Event.exec_world, Event.task, if_pos hv]
  rw [← hw]
  refine h.kept hs (by simp) hret hS fun n hr => ?_
  cases hr with
  | request hr => exact fun hn => (hs.request n hr).1 (hS n hn)
  | client _ hi hl he => exact hc hi ⟨hl, he⟩
  | log ht hl' ha => exact hl _ ht hl' ha

theorem Sound.add {S : Int → Prop} {w : World} {fd : Int} (h : Sound S none w) (h0 : 0 ≤ fd) (ho : w.desc fd ≠ none)
    (hn : w.netfs ≠ some fd) : Sound (fun x => S x ∨ x = fd) none w := by
  refine ⟨?_, ?_, by simp, fun n hn' => ⟨(h.netfs n hn').1, ?_, by simp⟩⟩
  · rintro x (hx | rfl)
    · exact h.nonneg x hx
    · exact h0
  · rintro x (hx | rfl)
    · exact h.opened x hx
    · exact ho
  · rintro (hx | rfl)
    · exact (h.netfs n hn').2.1 hx
    · exact hn hn'

theorem sysAccept_cases (w : World) :
    ∃ fd, (sysAccept.run w).value = some fd ∧ (fd = -1 ∨ 0 ≤ fd ∧ w.desc fd = none ∧
      (sysAccept.run w).state.desc fd ≠ none) := by
  simp only [sysAccept]
  split
  · exact ⟨-1, rfl, .inl rfl⟩
  · rename_i fd k hf
    have hu := World.unused_iff.mp (Option.filter_eq_some_iff.mp hf).2
    exact ⟨fd, rfl, .inr ⟨hu.1, hu.2, by simp⟩⟩

theorem Tidy.fresh (h : Tidy p) {fd : Int} (hn : p.world.desc fd = none) :
    ¬p.session.Lists fd ∧ p.world.netfs ≠ some fd :=
  ⟨fun hl => h.sound.opened fd (.inl hl) hn, fun hnet => (h.sound.netfs fd hnet).1 hn⟩

theorem Tidy.logged (h : Tidy p) {w : World} {s : Session} (fd : Int) (hc : s.client = p.session.client)
    (hm : s.masterSet = p.session.masterSet) (hf : s.logToFile = true → s.logFFd = fd)
    (hn : s.logToFile = true → fd = -1 ∨ 0 ≤ fd ∧ p.world.desc fd = none ∧ w.desc fd ≠ none ∧ w.netfs = p.world.netfs)
    (hw : Sound (fun x => p.session.Lists x ∨ x = p.world.pkoSrvFd) none w ∧ w.pkoSrvFd = p.world.pkoSrvFd) :
    Tidy ⟨w, s⟩ := by
  have hl : ∀ fd, s.Lists fd → p.session.Lists fd := fun fd hl => by rwa [Session.Lists, hc, hm] at hl
  refine ⟨?_, ?_, ?_, ?_, ?_, ?_⟩
  · rw [hc, hw.2]
    exact h.slot
  · rw [hm, hw.2]
    exact h.waited
  · rw [hw.2]
    exact h.pos
  · by_cases ht : s.logToFile = true ∧ 0 ≤ fd
    · obtain ⟨h0, hnone, hopen, hnet⟩ := (hn ht.1).resolve_left (by rintro rfl; exact absurd ht.2 (by decide))
      refine (hw.1.add h0 hopen ?_).mono ?_
      · rw [hnet]
        exact (h.fresh hnone).2
      · rintro x (hx | ⟨_, hx, rfl⟩)
        · exact .inl (.inl (hl x hx))
        · exact .inr (hf hx)
    · refine hw.1.mono ?_
      rintro x (hx | ⟨h0, hx, rfl⟩)
      · exact .inl (hl x hx)
      · exact absurd ⟨hx, hf hx ▸ h0⟩ ht
  · rw [hc]
    exact h.unique
  · intro x hx ht hxf
    have h0 := (hl x hx).1
    rw [← hxf, hf ht] at h0 hx
    obtain ⟨_, hnone, _⟩ := (hn ht).resolve_left (by rintro rfl; exact absurd h0 (by decide))
    exact (h.fresh hnone).1 (hl fd hx)

theorem Tidy.accepted (h : Tidy p) {w : World} {j : Nat} {fd : Int} (hj : p.session.client j < 0)
    (hn : fd = -1 ∨ 0 ≤ fd ∧ p.world.desc fd = none ∧ w.desc fd ≠ none ∧ w.netfs = p.world.netfs)
    (hw : Sound (fun x => p.session.Uses x ∨ x = p.world.pkoSrvFd) none w ∧ w.pkoSrvFd = p.world.pkoSrvFd) :
    Tidy ⟨w, p.session.accepted j fd⟩ := by
  have hat : ∀ i, i ≠ j → (p.session.accepted j fd).client i = p.session.client i :=
    fun i hi => Function.update_of_ne hi _ _
  have hself : (p.session.accepted j fd).client j = fd := Function.update_self _ _ _
  have hl : ∀ x, (p.session.accepted j fd).Lists x → p.session.Lists x ∨ x = fd := by
    rintro x ⟨h0, hx | ⟨i, rfl⟩⟩
    · rcases Finset.mem_insert.mp hx with rfl | hx
      · exact .inr rfl
      · exact .inl ⟨h0, .inl hx⟩
    · by_cases hi : i = j
      · exact .inr (hi ▸ hself)
      · rw [hat i hi] at h0 ⊢
        exact .inl ⟨h0, .inr ⟨i, rfl⟩⟩
  have h1 : 1 ≠ j := by
    rintro rfl
    rw [h.slot] at hj
    exact absurd h.pos (by omega)
  refine ⟨?_, ?_, ?_, ?_, ?_, ?_⟩
  · rw [hat 1 h1, hw.2]
    exact h.slot
  · rw [hw.2]
    exact Finset.mem_insert_of_mem h.waited
  · rw [hw.2]
    exact h.pos
  · rcases hn with rfl | ⟨h0, hnone, hopen, hnet⟩
    · refine hw.1.mono ?_
      rintro x (hx | hx)
      · refine .inl (.inl ((hl x hx).resolve_right ?_))
        rintro rfl
        exact absurd hx.1 (by decide)
      · exact .inl (.inr hx)
    · refine (hw.1.add h0 hopen (hnet ▸ (h.fresh hnone).2)).mono ?_
      rintro x (hx | hx)
      · exact (hl x hx).elim (fun hx => .inl (.inl (.inl hx))) .inr
      · exact .inl (.inl (.inr hx))
  · have hfree : ∀ i, 0 ≤ p.session.client i → p.session.client i ≠ fd := by
      rintro i h0 rfl
      obtain ⟨_, hnone, _⟩ := hn.resolve_left (by omega)
      exact (h.fresh hnone).1 ⟨h0, .inr ⟨i, rfl⟩⟩
    intro i i' h0 he
    by_cases hi : i = j
    · by_cases hi' : i' = j
      · rw [hi, hi']
      · rw [hat i' hi'] at he
        rw [hi, hself] at h0 he
        exact absurd he (hfree i' (he ▸ h0))
    · rw [hat i hi] at h0 he
      by_cases hi' : i' = j
      · rw [hi', hself] at he
        exact absurd he.symm (hfree i h0)
      · rw [hat i' hi'] at he
        exact h.unique i i' h0 he
  · intro x hx ht hxf
    have hxf : p.session.logFFd = x := hxf
    rcases hl x hx with hx' | rfl
    · exact h.file x hx' ht hxf
    · have h0 := hx.1
      obtain ⟨_, hnone, _⟩ := hn.resolve_left (by rintro rfl; exact absurd h0 (by decide))
      exact h.sound.opened x (.inr ⟨h0, ht, hxf⟩) hnone

theorem Tidy.dropped (h : Tidy p) {w : World} (hv : p.session.Visits i) (hi : p.session.client i ≠ p.world.pkoSrvFd)
    (hw : Sound (fun x => (p.session.Uses x ∧ x ≠ p.session.client i) ∨ x = p.world.pkoSrvFd) none w ∧
      w.pkoSrvFd = p.world.pkoSrvFd) : Tidy ⟨w, p.session.dropped i⟩ := by
  have hat : ∀ k, k ≠ i → (p.session.dropped i).client k = p.session.client k := fun k hk => Function.update_of_ne hk _ _
  have hself : (p.session.dropped i).client i = -1 := Function.update_self _ _ _
  have hl : ∀ x, (p.session.dropped i).Lists x → p.session.Lists x ∧ x ≠ p.session.client i := by
    rintro x ⟨h0, hx | ⟨k, rfl⟩⟩
    · exact ⟨⟨h0, .inl (Finset.mem_of_mem_erase hx)⟩, Finset.ne_of_mem_erase hx⟩
    · have hk : k ≠ i := by
        rintro rfl
        rw [hself] at h0
        exact absurd h0 (by decide)
      rw [hat k hk] at h0 ⊢
      exact ⟨⟨h0, .inr ⟨k, rfl⟩⟩, fun he => hk (h.unique i k hv.2.1 he)⟩
  have h1 : 1 ≠ i := by
    rintro rfl
    exact hi h.slot
  refine ⟨?_, ?_, ?_, hw.1.mono ?_, ?_, ?_⟩
  · rw [hat 1 h1, hw.2]
    exact h.slot
  · rw [hw.2]
    exact Finset.mem_erase.mpr ⟨hi.symm, h.waited⟩
  · rw [hw.2]
    exact h.pos
  · rintro x (hx | ⟨h0, ht, hx⟩)
    · exact .inl ⟨.inl (hl x hx).1, (hl x hx).2⟩
    · have hfile : p.session.logFFd ≠ p.session.client i := h.file _ ⟨hv.2.1, .inr ⟨i, rfl⟩⟩ ht
      exact .inl ⟨.inr ⟨h0, ht, hx⟩, fun he => hfile (hx.trans he)⟩
  · intro k k' h0 he
    have hk : k ≠ i := by
      rintro rfl
      rw [hself] at h0
      exact absurd h0 (by decide)
    rw [hat k hk] at h0 he
    by_cases hk' : k' = i
    · rw [hk', hself] at he
      omega
    · rw [hat k' hk'] at he
      exact h.unique k k' h0 he
  · exact fun x hx => h.file x (hl x hx).1

theorem Tidy.call (h : Tidy p) {f : CliFunc} {arg : List Byte}
    (hw : ∀ S : Int → Prop, (∀ x, S x → p.session.Uses x) → (f = .log → p.session.logToFile = true →
        trimInPlace arg = str "stdout" ∨ trimInPlace arg = [] → ¬S p.session.logFFd) →
      Sound (fun x => S x ∨ x = p.world.pkoSrvFd) none ((f.call arg p.session).run p.world).state ∧
        ((f.call arg p.session).run p.world).state.pkoSrvFd = p.world.pkoSrvFd)
    {s : Session} (hs : ((f.call arg p.session).run p.world).value = some s) :
    Tidy ⟨((f.call arg p.session).run p.world).state, s⟩ := by
  by_cases hq : f = .quit
  · subst hq
    obtain rfl : { p.session with doloop := false } = s := Option.some.inj hs
    exact h.same rfl rfl rfl rfl (hw p.session.Uses (fun _ => id) (by simp))
  by_cases hl : f = .log
  · subst hl
    have hlists := hw p.session.Lists (fun _ => .inl) fun _ ht _ hx => h.file _ hx ht rfl
    revert hs hlists
    simp only [CliFunc.call, cliLog]
    by_cases ha : trimInPlace arg = str "stdout" ∨ trimInPlace arg = []
    · rw [if_pos ha]
      by_cases ht : p.session.logToFile = true
      · rw [if_pos ht]
        intro hs hlists
        obtain rfl : { p.session with logToFile := false } = s := Option.some.inj hs
        exact h.logged (-1) rfl rfl (by simp) (by simp) hlists
      · rw [if_neg ht]
        intro hs hlists
        obtain rfl : { p.session with logToFile := false } = s := Option.some.inj hs
        exact h.logged (-1) rfl rfl (by simp) (by simp) hlists
    · rw [if_neg ha, Prog.run_bind_pure]
      intro hs hlists
      obtain ⟨fd, hv, hfd⟩ := sysOpen_cases p.world (trimInPlace arg) logFlags 0o644
      have hnet : ((sysOpen (trimInPlace arg) logFlags 0o644).run p.world).state.netfs = p.world.netfs := by
        rw [World.netfs, World.netfs, (Careful.sysOpen (trimInPlace arg) logFlags 0o644 p.world).2.1]
      rw [hv] at hs
      obtain rfl : { p.session with logToFile := true, logFFd := fd } = s := Option.some.inj hs
      exact h.logged _ rfl rfl (fun _ => rfl) (fun _ => hfd.imp_right fun h => ⟨h.1, h.2.1, h.2.2, hnet⟩) hlists
  · have hall := hw p.session.Uses (fun _ => id) fun hn => absurd hn hl
    rw [CliFunc.call_eq hq hl, Prog.run_bind_pure] at hs hall ⊢
    obtain ⟨_, _, rfl⟩ := Option.map_eq_some_iff.mp hs
    exact h.same rfl rfl rfl rfl hall

theorem Tidy.serve (h : Tidy p) (hs : Sparing p (.slot input i)) (hv : p.session.Visits i)
    (hret : ((Event.slot input i).exec.run p).value = some ()) {s : Session}
    (hval : ((serveSlot input i p.session).run p.world).value = some s) :
    Tidy ⟨((serveSlot input i p.session).run p.world).state, s⟩ := by
  have hkeeps : ∀ S : Int → Prop, (∀ x, S x → p.session.Uses x) →
      (p.session.client i ∉ p.world.standing → p.world.Ended (p.session.client i) → ¬S (p.session.client i)) →
      (∀ arg, p.Types input i .log arg → p.session.logToFile = true →
        trimInPlace arg = str "stdout" ∨ trimInPlace arg = [] → ¬S p.session.logFFd) →
      Sound (fun x => S x ∨ x = p.world.pkoSrvFd) none ((serveSlot input i p.session).run p.world).state ∧
        ((serveSlot input i p.session).run p.world).state.pkoSrvFd = p.world.pkoSrvFd :=
    fun S hS hc hl => h.keeps hs hv hret hS hc hl
  revert hkeeps hval
  refine serveSlot_elim (P := fun r => r.value = some s → (∀ S : Int → Prop, (∀ x, S x → p.session.Uses x) →
      (p.session.client i ∉ p.world.standing → p.world.Ended (p.session.client i) → ¬S (p.session.client i)) →
      (∀ arg, p.Types input i .log arg → p.session.logToFile = true →
        trimInPlace arg = str "stdout" ∨ trimInPlace arg = [] → ¬S p.session.logFFd) →
      Sound (fun x => S x ∨ x = p.world.pkoSrvFd) none r.state ∧ r.state.pkoSrvFd = p.world.pkoSrvFd) →
    Tidy ⟨r.state, s⟩) (fun hi hval hk => ?_) (fun hlog h0 hval hk => ?_) (fun hlog h0 hi hval hk => ?_)
    (fun hne hi hval hk => ?_) fun hi hval hk => ?_
  · have hin : p.session.client i ∈ p.world.standing := by simp [World.standing, hi]
    have hall := hk p.session.Uses (fun _ => id) (fun hn => absurd hin hn)
      fun arg ht => absurd (ht.stdin.symm.trans hi).symm ht.notLog
    rw [pkoLogRead] at hval hall ⊢
    by_cases ht : p.session.logToFile = true
    · rw [if_pos ht, Prog.run_bind_pure] at hval hall ⊢
      obtain ⟨_, _, rfl⟩ := Option.map_eq_some_iff.mp hval
      exact h.same rfl rfl rfl rfl hall
    · rw [if_neg ht] at hval hall ⊢
      obtain rfl := Option.some.inj hval
      exact h.same rfl rfl rfl rfl hall
  · have hin : p.session.client i ∈ p.world.standing := by simp [World.standing, h0]
    rw [rlCallbackReadChar] at hval hk ⊢
    cases hf : input.typed.func with
    | none =>
      rw [hf] at hval hk
      obtain rfl := Option.some.inj hval
      exact h.same rfl rfl rfl rfl (hk p.session.Uses (fun _ => id) (fun hn => absurd hin hn)
        fun arg ht => absurd (hf.symm.trans ht.typed) (by simp))
    | some fa =>
      obtain ⟨f, arg⟩ := fa
      rw [hf] at hval hk
      refine h.call (fun S hS hl => hk S hS (fun hn => absurd hin hn) fun arg' ht htl ha => ?_) hval
      obtain ⟨rfl, rfl⟩ : f = .log ∧ arg = arg' := by
        have he := hf.symm.trans ht.typed
        simpa using he
      exact hl rfl htl ha
  · have hin : p.session.client i ∈ p.world.standing := by simp [World.standing, hi]
    have hall := hk p.session.Uses (fun _ => id) (fun hn => absurd hin hn) fun arg ht => absurd ht.stdin h0
    rw [Prog.run_bind_pure] at hval hall ⊢
    obtain ⟨_, _, rfl⟩ := Option.map_eq_some_iff.mp hval
    exact h.same rfl rfl rfl rfl hall
  · have hin : p.session.client i ∈ p.world.standing := by simp [World.standing, hi]
    have hall := hk p.session.Uses (fun _ => id) (fun hn => absurd hin hn) fun arg ht => absurd ht.stdin hne
    obtain ⟨fd, hv', hfd⟩ := sysAccept_cases p.world
    rw [acceptClient] at hval hall ⊢
    cases hf : p.session.freeSlot with
    | none =>
      simp only [hf, Prog.run_bind, Result.andThen_some _ hv'] at hval
      cases hval
    | some j =>
      simp only [hf, Prog.run_bind_pure] at hval hall ⊢
      have hj : p.session.client j < 0 := by simpa using List.find?_some hf
      have hnet : (sysAccept.run p.world).state.netfs = p.world.netfs := by
        rw [World.netfs, World.netfs, (Careful.sysAccept p.world).2.1]
      rw [hv'] at hval
      obtain rfl := Option.some.inj hval
      exact h.accepted hj (hfd.imp_right fun h => ⟨h.1, h.2.1, h.2.2, hnet⟩) hall
  · have hlink : p.session.client i ≠ p.world.pkoSrvFd := fun he => hi (by simp [World.standing, he])
    have hne : p.session.client i ≠ 0 := fun he => hi (by simp [World.standing, he])
    by_cases hend : p.world.Ended (p.session.client i)
    · have hall := hk (fun x => p.session.Uses x ∧ x ≠ p.session.client i) (fun _ hx => hx.1)
        (fun _ _ hx => hx.2 rfl) fun arg ht => absurd ht.stdin hne
      obtain ⟨as, hrun⟩ := pkoSrvRead_ended hend hlink
      simp only [serveClient, Prog.run_bind, hrun, Result.andThen_mk_some] at hval hall ⊢
      obtain rfl := Option.some.inj hval
      exact h.dropped hv hlink hall
    · have hall := hk p.session.Uses (fun _ => id) (fun _ hn => absurd hn hend) fun arg ht => absurd ht.stdin hne
      rw [serveClient, Prog.run_bind] at hval hall ⊢
      cases hr : ((pkoSrvRead (p.session.client i)).run p.world).value with
      | none =>
        rw [Result.andThen_none _ hr] at hval
        cases hval
      | some r =>
        have h0 : ¬r < 0 := fun h0 => hend ⟨(Carries.pkoSrvRead_negative hr h0 hlink).1, (Carries.pkoSrvRead_negative hr h0 hlink).2.1⟩
        rw [Result.andThen_some _ hr, if_neg h0] at hval hall ⊢
        obtain rfl := Option.some.inj hval
        exact h.same rfl rfl rfl rfl hall

theorem Session.selected_fields (s : Session) (answer : Option (Finset Int)) :
    (s.selected answer).client = s.client ∧ (s.selected answer).masterSet = s.masterSet ∧
      (s.selected answer).logToFile = s.logToFile ∧ (s.selected answer).logFFd = s.logFFd := by
  unfold Session.selected
  cases answer <;> split <;> exact ⟨rfl, rfl, rfl, rfl⟩

theorem Tidy.exec (h : Tidy p) (he : ∀ d, e ≠ .start d) (hs : Sparing p e)
    (hret : (e.exec.run p).value = some ()) : Tidy (e.exec.run p).state := by
  have hval := Event.exec_value e p hret
  have hworld := Event.exec_world e p
  cases e with
  | start d => exact absurd rfl (he d)
  | select answer =>
    obtain ⟨hc, hm, ht, hf⟩ := p.session.selected_fields answer
    refine h.same (s := p.session.selected answer) hc hm ht hf ⟨h.sound.mono fun x hx => ?_, rfl⟩
    rcases hx with hx | rfl
    · exact hx
    · exact .inl ⟨Int.le_of_lt h.pos, .inl h.waited⟩
  | slot input i =>
    rw [Event.task] at hval hworld
    by_cases hv : p.session.Visits i
    · rw [if_pos hv] at hval hworld
      have ht := h.serve hs hv hret hval
      rwa [← hworld] at ht
    · rw [if_neg hv] at hval hworld
      have hp : ((Event.slot input i).exec.run p).state = p :=
        congrArg₂ Shell.mk hworld (Option.some.inj hval).symm
      rwa [hp]

end Table

end Pksh
