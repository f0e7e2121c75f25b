import Pksh.Shell

/-! The log files that `cli_log` opens and closes. -/

namespace Pksh

open Wire Traced

/-- pksh between two log commands, and all that it did for them. -/
structure Logging where
  world : World
  session : Session
  acts : List Act

namespace Logging

def log (p : Logging) (arg : List Byte) : Logging where
  world := ((cliLog arg p.session).run p.world).state
  session := ((cliLog arg p.session).run p.world).value.getD p.session
  acts := p.acts ++ ((cliLog arg p.session).run p.world).acts

def logAll (p : Logging) (args : List (List Byte)) : Logging := args.foldl log p

/-- The descriptors of the log files, the last one behind. -/
def opened (p : Logging) : List Int :=
  p.acts.filterMap fun
    | .openFile _ ret => ret
    | _ => none

def IsOpen (p : Logging) (fd : Int) : Prop := fd ∈ p.opened ∧ p.world.desc fd ≠ none

def ToStdout (arg : List Byte) : Prop := trimInPlace arg = str "stdout" ∨ trimInPlace arg = []

instance (arg : List Byte) : Decidable (ToStdout arg) := inferInstanceAs (Decidable (_ ∨ _))

/-- What `open` returns for the file of a command. -/
def opens (p : Logging) (arg : List Byte) : Option Int :=
  (p.world.os.openFile p.world.now (trimInPlace arg) logFlags 0o644).filter p.world.unused

/-- The two variables say what is the case, and no more than one log file is open. -/
structure Sound (p : Logging) : Prop where
  flag : p.session.logToFile = true ↔ p.opened.getLast? = some p.session.logFFd ∧ p.IsOpen p.session.logFFd
  one : ∀ fd fd', p.IsOpen fd → p.IsOpen fd' → fd = fd'

/-- A file is named while none is logged to, and can be opened. -/
def Changes (p : Logging) (arg : List Byte) : Prop :=
  ToStdout arg ∨ p.session.logToFile = false ∧ p.opens arg ≠ none

/-- The file of the command cannot be opened. -/
def Refused (p : Logging) (arg : List Byte) : Prop := ¬ToStdout arg ∧ p.opens arg = none

structure Fresh (p : Logging) : Prop where
  console : p.session.logToFile = false
  nothing : p.acts = []

/-- The variables and the descriptors when no file is open, and when one is. -/
structure Inv (p : Logging) : Prop where
  console : p.session.logToFile = false → ∀ fd ∈ p.opened, p.world.desc fd = none
  file : p.session.logToFile = true → p.opened.getLast? = some p.session.logFFd ∧
    p.world.desc p.session.logFFd ≠ none ∧ ∀ fd ∈ p.opened, p.world.desc fd ≠ none → fd = p.session.logFFd
  numbers : ∀ fd ∈ p.opened, 0 ≤ fd

theorem Inv.sound {p : Logging} (h : p.Inv) : p.Sound := by
  cases hl : p.session.logToFile with
  | false =>
    have hnone (fd : Int) : ¬p.IsOpen fd := fun ho => ho.2 (h.console hl fd ho.1)
    exact ⟨⟨fun ht => (by rw [hl] at ht; cases ht), fun ho => absurd ho.2 (hnone _)⟩, fun fd _ ho => absurd ho (hnone fd)⟩
  | true =>
    obtain ⟨hlast, hdesc, hone⟩ := h.file hl
    refine ⟨⟨fun _ => ⟨hlast, List.mem_of_getLast? hlast, hdesc⟩, fun _ => hl⟩, fun fd fd' ho ho' => ?_⟩
    rw [hone fd ho.1 ho.2, hone fd' ho'.1 ho'.2]

theorem Fresh.inv {p : Logging} (h : p.Fresh) : p.Inv := by
  have hopened : p.opened = [] := by rw [opened, h.nothing, List.filterMap_nil]
  refine ⟨fun _ fd hfd => ?_, fun hl => ?_, fun fd hfd => ?_⟩
  · rw [hopened] at hfd
    cases hfd
  · rw [h.console] at hl
    cases hl
  · rw [hopened] at hfd
    cases hfd

section Step

variable {p : Logging} {arg : List Byte}

theorem log_close (h : ToStdout arg) (hl : p.session.logToFile = true) :
    p.log arg = ⟨p.world.tick.setDesc p.session.logFFd none, { p.session with logToFile := false },
      p.acts ++ [.close p.session.logFFd]⟩ := by
  have h : trimInPlace arg = str "stdout" ∨ trimInPlace arg = [] := h
  rw [log, cliLog]
  simp only [if_pos h, if_pos hl]
  rfl

theorem log_nothing (h : ToStdout arg) (hl : p.session.logToFile = false) : p.log arg = p := by
  have h : trimInPlace arg = str "stdout" ∨ trimInPlace arg = [] := h
  have hs : { p.session with logToFile := false } = p.session := by rw [← hl]
  rw [log, cliLog]
  simp only [if_pos h, hl, Bool.false_eq_true, if_false, Prog.run_pure, Option.getD_some, hs, List.append_nil]

theorem log_open (h : ¬ToStdout arg) {fd : Int} (ho : p.opens arg = some fd) :
    p.log arg = ⟨p.world.tick.setDesc fd (some .plain), { p.session with logToFile := true, logFFd := fd },
      p.acts ++ [.openFile (trimInPlace arg) (some fd)]⟩ := by
  have h : ¬(trimInPlace arg = str "stdout" ∨ trimInPlace arg = []) := h
  rw [opens] at ho
  rw [log, cliLog]
  simp only [if_neg h, Prog.run_bind, sysOpen, ho]
  rfl

theorem log_refused (h : p.Refused arg) :
    p.log arg = ⟨p.world.tick, { p.session with logToFile := true, logFFd := -1 },
      p.acts ++ [.openFile (trimInPlace arg) none]⟩ := by
  have hn : ¬(trimInPlace arg = str "stdout" ∨ trimInPlace arg = []) := h.1
  have ho := h.2
  rw [opens] at ho
  rw [log, cliLog]
  simp only [if_neg hn, Prog.run_bind, sysOpen, ho]
  rfl

theorem opens_unused {fd : Int} (ho : p.opens arg = some fd) : 0 ≤ fd ∧ p.world.desc fd = none :=
  World.unused_iff.mp (Option.filter_eq_some_iff.mp ho).2

theorem Inv.log (h : p.Inv) (hc : p.Changes arg) : (p.log arg).Inv := by
  by_cases ht : ToStdout arg
  · cases hl : p.session.logToFile with
    | false => rwa [log_nothing ht hl]
    | true =>
      obtain ⟨-, -, hone⟩ := h.file hl
      have hopened : (p.log arg).opened = p.opened := by simp [log_close ht hl, opened]
      refine ⟨fun _ fd hfd => ?_, fun hf => ?_, fun fd hfd => h.numbers fd (hopened ▸ hfd)⟩
      · rw [hopened] at hfd
        rw [log_close ht hl]
        change Function.update p.world.desc p.session.logFFd none fd = none
        by_cases he : fd = p.session.logFFd
        · rw [he, Function.update_self]
        · rw [Function.update_of_ne he]
          exact not_not.mp fun hd => he (hone fd hfd hd)
      · rw [log_close ht hl] at hf
        cases hf
  · obtain ⟨hl, ho⟩ := hc.resolve_left ht
    obtain ⟨fd, ho⟩ := Option.ne_none_iff_exists'.mp ho
    obtain ⟨h0, hfree⟩ := opens_unused ho
    have hopened : (p.log arg).opened = p.opened ++ [fd] := by simp [log_open ht ho, opened]
    have hdesc : (p.log arg).world.desc = Function.update p.world.desc fd (some .plain) := by rw [log_open ht ho]; rfl
    have hfd : (p.log arg).session.logFFd = fd := by rw [log_open ht ho]
    refine ⟨fun hf => ?_, fun _ => ⟨?_, ?_, fun fd' hm hd => ?_⟩, fun fd' hm => ?_⟩
    · rw [log_open ht ho] at hf
      cases hf
    · rw [hopened, hfd, List.getLast?_append]
      rfl
    · rw [hdesc, hfd, Function.update_self]
      simp
    · rw [hfd]
      by_contra hne
      rw [hdesc, Function.update_of_ne hne] at hd
      rw [hopened] at hm
      rcases List.mem_append.mp hm with hm | hm
      · exact hd (h.console hl fd' hm)
      · exact hne (List.mem_singleton.mp hm)
    · rw [hopened] at hm
      rcases List.mem_append.mp hm with hm | hm
      · exact h.numbers fd' hm
      · exact List.mem_singleton.mp hm ▸ h0

theorem Inv.not_sound (h : p.Inv) (hc : ¬p.Changes arg) : ¬(p.log arg).Sound := by
  obtain ⟨ht, hc⟩ := not_or.mp hc
  intro hs
  cases ho : p.opens arg with
  | none =>
    have hlog := log_refused ⟨ht, ho⟩
    have hopened : (p.log arg).opened = p.opened := by simp [hlog, opened]
    have hf := hs.flag.mp (by rw [hlog])
    have hm : (-1 : Int) ∈ p.opened := by
      have hm := hf.2.1
      rwa [hopened, hlog] at hm
    exact absurd (h.numbers _ hm) (by decide)
  | some fd =>
    have hl : p.session.logToFile = true := by
      by_contra hl
      exact hc ⟨by simpa using hl, by rw [ho]; simp⟩
    obtain ⟨hlast, hopen, -⟩ := h.file hl
    have hfree := (opens_unused ho).2
    have hopened : (p.log arg).opened = p.opened ++ [fd] := by simp [log_open ht ho, opened]
    have hdesc : (p.log arg).world.desc = Function.update p.world.desc fd (some .plain) := by rw [log_open ht ho]; rfl
    have hne : p.session.logFFd ≠ fd := fun he => hopen (he ▸ hfree)
    refine hne (hs.one _ _ ⟨?_, ?_⟩ ⟨?_, ?_⟩)
    · rw [hopened]
      exact List.mem_append_left _ (List.mem_of_getLast? hlast)
    · rwa [hdesc, Function.update_of_ne hne]
    · rw [hopened]
      exact List.mem_append_right _ (List.mem_singleton_self fd)
    · rw [hdesc, Function.update_self]
      simp

end Step

/-- Over a run of log commands, in every state the variables are right and a
command that fails changes nothing, exactly when every file is named while none
is logged to, and can be opened. -/
theorem log_sound_iff {p : Logging} (hp : p.Fresh) (args : List (List Byte)) :
    ((∀ k ≤ args.length, (p.logAll (args.take k)).Sound) ∧ ∀ k (hk : k < args.length),
        (p.logAll (args.take k)).Refused args[k] →
          (p.logAll (args.take (k + 1))).session = (p.logAll (args.take k)).session) ↔
      ∀ k (hk : k < args.length), (p.logAll (args.take k)).Changes args[k] := by
  have hstep : ∀ k (hk : k < args.length), p.logAll (args.take (k + 1)) = (p.logAll (args.take k)).log args[k] := by
    intro k hk
    rw [List.take_succ_eq_append_getElem hk, logAll, List.foldl_append]
    rfl
  have hiff := reached_iff (fun q arg q' => q' = Logging.log q arg) Inv Sound Changes (fun _ => Inv.sound)
    (fun q arg q' hs hi hc => hs ▸ hi.log hc) (fun q arg q' hs hi hc => hs ▸ hi.not_sound hc)
    (fun k => p.logAll (args.take k)) hstep hp.inv
  rw [← hiff]
  refine ⟨fun h => h.1, fun h => ⟨h, fun k hk hr => ?_⟩⟩
  exact absurd (hiff.mp h k hk) fun hc => (hc.resolve_left hr.1).2 hr.2

/-- pksh on a host where no file can be opened. -/
def idle : Logging := ⟨World.linked .refusing 7 [], ⟨fun _ => -1, 0, ∅, ∅, true, false, 0⟩, []⟩

/-- pksh on a host where files can be opened. -/
def keeping : Logging :=
  ⟨World.linked { Host.refusing with openFile := fun _ _ _ _ => some 8 } 7 [], ⟨fun _ => -1, 0, ∅, ∅, true, false, 0⟩, []⟩

theorem log_sound_named : (∀ k ≤ 2, (keeping.logAll ([str "a.log", str "stdout"].take k)).Sound) ∧
    ∀ k (hk : k < 2), (keeping.logAll ([str "a.log", str "stdout"].take k)).Refused ([str "a.log", str "stdout"].get ⟨k, hk⟩) →
      (keeping.logAll ([str "a.log", str "stdout"].take (k + 1))).session =
        (keeping.logAll ([str "a.log", str "stdout"].take k)).session := by
  refine (log_sound_iff ⟨rfl, rfl⟩ [str "a.log", str "stdout"]).mpr fun k hk => ?_
  obtain rfl | rfl : k = 0 ∨ k = 1 := by
    rw [List.length_cons, List.length_singleton] at hk
    omega
  · exact .inr ⟨rfl, show keeping.opens (str "a.log") ≠ none by decide⟩
  · exact .inl (.inl (show trimInPlace (str "stdout") = str "stdout" by decide))

/-- A file that cannot be opened is taken for the log file. -/
theorem log_unsound : ¬ ∀ (p : Logging) (args : List (List Byte)), p.Fresh →
    (∀ k ≤ args.length, (p.logAll (args.take k)).Sound) ∧ ∀ k (hk : k < args.length),
      (p.logAll (args.take k)).Refused args[k] →
        (p.logAll (args.take (k + 1))).session = (p.logAll (args.take k)).session := by
  intro h
  have hfresh : idle.Fresh := ⟨rfl, rfl⟩
  have hs : (idle.log (str "a.log")).Sound := (h idle [str "a.log"] hfresh).1 1 (by decide)
  refine hfresh.inv.not_sound (fun hc => ?_) hs
  rcases hc with hc | ⟨-, ho⟩
  · exact absurd hc (by decide)
  · exact ho rfl

end Logging

end Pksh
