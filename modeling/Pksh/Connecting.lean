import Pksh.Relay

/-! The ways in which `cmd_listener` and `pko_cmd_con` can end. -/

namespace Pksh

open Wire Traced

/-- What `cmd_listener` returns, what it did, and the descriptors it leaves. A
socket that is refused at once, or whose pending error cannot be read, is left
open. -/
inductive Listened (w : World) : Int → List Act → (Int → Option Desc) → Prop
  | unmade : Listened w (-1) [.socket .stream none] w.desc
  | linked (fd : Int) (k : Sock) (waits : List Act) (h0 : 0 ≤ fd) (hn : w.desc fd = none)
      (hw : waits = [] ∨ waits = [.connect fd false]) :
      Listened w fd (.socket .stream (some fd) :: (waits ++ [.connect fd true])) (Function.update w.desc fd (some (.sock k)))
  | closed (fd : Int) (waits : List Act) (h0 : 0 ≤ fd) (hn : w.desc fd = none)
      (hw : waits = [.connect fd false] ∨ waits = [.connect fd false, .connect fd false]) :
      Listened w (-1) (.socket .stream (some fd) :: (waits ++ [.close fd])) w.desc
  | left (fd : Int) (waits : List Act) (h0 : 0 ≤ fd) (hn : w.desc fd = none)
      (hw : waits = [.connect fd false] ∨ waits = [.connect fd false, .connect fd false]) :
      Listened w (-1) (.socket .stream (some fd) :: waits) (Function.update w.desc fd (some .fresh))

/-- The socket that `pko_cmd_con` makes stays open. -/
inductive Contacted (w : World) : Int → List Act → (Int → Option Desc) → Prop
  | unmade : Contacted w (-1) [.socket .dgram none] w.desc
  | made (fd : Int) (d : Desc) (made : Bool) (h0 : 0 ≤ fd) (hn : w.desc fd = none) (hd : d ≠ .plain) :
      Contacted w fd [.socket .dgram (some fd), .connect fd made] (Function.update w.desc fd (some d))

theorem sysSocket_cases (type : SockType) (w : World) : (sysSocket type).run w = ⟨some none, w.tick, [.socket type none]⟩ ∨
    ∃ fd, 0 ≤ fd ∧ w.desc fd = none ∧
      (sysSocket type).run w = ⟨some (some fd), w.tick.setDesc fd (some .fresh), [.socket type (some fd)]⟩ := by
  simp only [sysSocket]
  split
  · exact .inl rfl
  · rename_i fd hf
    have hu := World.unused_iff.mp (Option.filter_eq_some_iff.mp hf).2
    exact .inr ⟨fd, hu.1, hu.2, rfl⟩

theorem sysConnect_fresh {w : World} {fd : Int} (h : w.desc fd = some .fresh) :
    (∃ k, w.os.connect w.now fd = none ∧
      (sysConnect fd).run w = ⟨some none, w.tick.setDesc fd (some (.sock k)), [.connect fd true]⟩) ∨
    ∃ e, w.os.connect w.now fd = some e ∧ (sysConnect fd).run w = ⟨some (some e), w.tick, [.connect fd false]⟩ := by
  simp only [sysConnect, h]
  cases w.os.connect w.now fd with
  | none => exact .inl ⟨_, rfl, rfl⟩
  | some e => exact .inr ⟨e, rfl, rfl⟩

theorem sysSoError_fresh {w : World} {fd : Int} (h : w.desc fd = some .fresh) :
    (∃ k, w.os.soError w.now fd = some none ∧
      (sysSoError fd).run w = ⟨some (some none), w.tick.setDesc fd (some (.sock k)), [.connect fd true]⟩) ∨
    ∃ r, w.os.soError w.now fd = r ∧ r ≠ some none ∧ (sysSoError fd).run w = ⟨some r, w.tick, [.connect fd false]⟩ := by
  simp only [sysSoError, h]
  rcases w.os.soError w.now fd with _ | _ | e
  · exact .inr ⟨_, rfl, by simp, rfl⟩
  · exact .inl ⟨_, rfl, rfl⟩
  · exact .inr ⟨_, rfl, by simp, rfl⟩

theorem sysSelectConnect_run (w : World) (fd : Int) :
    (sysSelectConnect fd).run w = ⟨some (w.os.timesOut w.now fd), w.tick, []⟩ := rfl

theorem sysClose_acts (w : World) (fd : Int) : ∃ r, (sysClose fd).run w = ⟨some r, w.tick.setDesc fd none, [.close fd]⟩ :=
  ⟨_, rfl⟩

theorem cmdListenerOn_fresh {w : World} {fd : Int} (h : w.desc fd = some .fresh) : ∃ v w' as,
    (cmdListenerOn fd).run w = ⟨some v, w', as⟩ ∧ w'.toVars = w.toVars ∧
      ((v = fd ∧ ∃ k waits, (waits = [] ∨ waits = [.connect fd false]) ∧ as = waits ++ [.connect fd true] ∧
          w'.desc = Function.update w.desc fd (some (.sock k))) ∨
        v = -1 ∧ (as = [.connect fd false] ∨ as = [.connect fd false, .connect fd false]) ∧ w'.desc = w.desc ∨
        v = -1 ∧ ∃ waits, (waits = [.connect fd false] ∨ waits = [.connect fd false, .connect fd false]) ∧
          as = waits ++ [.close fd] ∧ w'.desc = Function.update w.desc fd none) := by
  rcases sysConnect_fresh h with ⟨k, _, hc⟩ | ⟨e, _, hc⟩
  · refine ⟨fd, w.tick.setDesc fd (some (.sock k)), [.connect fd true], ?_, rfl, .inl ⟨rfl, k, [], .inl rfl, rfl, rfl⟩⟩
    simp only [cmdListenerOn, Prog.run_bind, hc, Result.andThen_mk_some, Prog.run_pure, Result.after_mk,
      List.append_nil]
  by_cases he : e = .EINPROGRESS
  · subst he
    cases hl : w.tick.os.timesOut w.tick.now fd with
    | true =>
      obtain ⟨r, hr⟩ := sysClose_acts w.tick.tick fd
      refine ⟨-1, w.tick.tick.tick.setDesc fd none, [.connect fd false] ++ [.close fd], ?_, rfl,
        .inr (.inr ⟨rfl, _, .inl rfl, rfl, rfl⟩)⟩
      simp only [cmdListenerOn, Prog.run_bind, hc, Result.andThen_mk_some, ne_eq, not_true_eq_false, if_false,
        sysSelectConnect_run, hl, if_true, hr, Prog.run_pure, Result.after_mk, List.nil_append, List.append_nil]
    | false =>
      have hf : w.tick.tick.desc fd = some .fresh := h
      rcases sysSoError_fresh hf with ⟨k, _, hs⟩ | ⟨r, _, hr, hs⟩
      · refine ⟨fd, w.tick.tick.tick.setDesc fd (some (.sock k)), [.connect fd false] ++ [.connect fd true], ?_, rfl,
          .inl ⟨rfl, k, _, .inr rfl, rfl, rfl⟩⟩
        simp only [cmdListenerOn, Prog.run_bind, hc, Result.andThen_mk_some, ne_eq, not_true_eq_false, if_false,
          sysSelectConnect_run, hl, hs, reduceCtorEq, Prog.run_pure, Result.after_mk, List.nil_append, List.append_nil]
      · rcases r with _ | _ | e'
        · refine ⟨-1, w.tick.tick.tick, [.connect fd false, .connect fd false], ?_, rfl,
            .inr (.inl ⟨rfl, .inr rfl, rfl⟩)⟩
          simp only [cmdListenerOn, Prog.run_bind, hc, Result.andThen_mk_some, ne_eq, not_true_eq_false, if_false,
            sysSelectConnect_run, hl, hs, reduceCtorEq, Prog.run_pure, Result.after_mk, List.nil_append,
            List.append_nil, List.cons_append]
        · exact absurd rfl hr
        · obtain ⟨r, hcl⟩ := sysClose_acts w.tick.tick.tick fd
          refine ⟨-1, w.tick.tick.tick.tick.setDesc fd none, [.connect fd false, .connect fd false] ++ [.close fd], ?_,
            rfl, .inr (.inr ⟨rfl, _, .inr rfl, rfl, rfl⟩)⟩
          simp only [cmdListenerOn, Prog.run_bind, hc, Result.andThen_mk_some, ne_eq, not_true_eq_false, if_false,
            sysSelectConnect_run, hl, hs, hcl, reduceCtorEq, Prog.run_pure, Result.after_mk, List.nil_append,
            List.append_nil, List.cons_append]
  · refine ⟨-1, w.tick, [.connect fd false], ?_, rfl, .inr (.inl ⟨rfl, .inl rfl, rfl⟩)⟩
    simp only [cmdListenerOn, Prog.run_bind, hc, Result.andThen_mk_some, ne_eq, he, not_false_eq_true, if_true,
      Prog.run_pure, Result.after_mk, List.append_nil]

theorem cmdListener_listened (w : World) : ∃ v w' as, cmdListener.run w = ⟨some v, w', as⟩ ∧ w'.toVars = w.toVars ∧
    Listened w v as w'.desc := by
  rcases sysSocket_cases .stream w with h | ⟨fd, h0, hn, h⟩
  · refine ⟨-1, w.tick, [.socket .stream none], ?_, rfl, .unmade⟩
    simp only [cmdListener, Prog.run_bind, h, Result.andThen_mk_some, Prog.run_pure, Result.after_mk, List.append_nil]
  · have hf : (w.tick.setDesc fd (some .fresh)).desc fd = some .fresh := World.setDesc_self _ _ _
    have hu : ∀ d, Function.update (w.tick.setDesc fd (some .fresh)).desc fd d = Function.update w.desc fd d :=
      fun d => Function.update_idem _ _ _
    obtain ⟨v, w', as, hrun, hvars, hout⟩ := cmdListenerOn_fresh hf
    refine ⟨v, w', .socket .stream (some fd) :: as, ?_, hvars, ?_⟩
    · simp only [cmdListener, Prog.run_bind, h, Result.andThen_mk_some, hrun, Result.after_mk, List.cons_append,
        List.nil_append]
    · rcases hout with ⟨rfl, k, waits, hw, rfl, hd⟩ | ⟨rfl, hw, hd⟩ | ⟨rfl, waits, hw, rfl, hd⟩
      · rw [hd, hu]
        exact .linked v k waits h0 hn hw
      · rw [hd]
        exact .left fd as h0 hn hw
      · rw [hd, hu, Function.update_eq_self_iff.mpr hn.symm]
        exact .closed fd waits h0 hn hw

theorem pkoCmdCon_contacted (w : World) : ∃ v w' as, pkoCmdCon.run w = ⟨some v, w', as⟩ ∧
    w'.toVars = { w.toVars with cmdFd := w'.cmdFd } ∧ Contacted w w'.cmdFd as w'.desc := by
  rcases sysSocket_cases .dgram w with h | ⟨fd, h0, hn, h⟩
  · refine ⟨-1, { w.tick with cmdFd := -1 }, [.socket .dgram none], ?_, rfl, .unmade⟩
    simp only [pkoCmdCon, Prog.run_bind, h, Result.andThen_mk_some, setVars, Option.getD_none, Prog.run_pure,
      Result.after_mk, List.append_nil]
  · let v : World := { w.tick.setDesc fd (some .fresh) with cmdFd := fd }
    have hf : v.desc fd = some .fresh := World.setDesc_self _ _ _
    have hu : ∀ d, Function.update v.desc fd d = Function.update w.desc fd d := fun d => Function.update_idem _ _ _
    have hset : (setVars fun v => { v with cmdFd := fd }).run (w.tick.setDesc fd (some .fresh)) = ⟨some (), v, []⟩ := rfl
    rcases sysConnect_fresh hf with ⟨k, _, hc⟩ | ⟨e, _, hc⟩
    · refine ⟨fd, v.tick.setDesc fd (some (.sock k)), [.socket .dgram (some fd), .connect fd true], ?_, rfl, ?_⟩
      · simp only [pkoCmdCon, Prog.run_bind, h, Result.andThen_mk_some, Option.getD_some, hset, hc, Prog.run_pure,
          Result.after_mk, List.nil_append, List.append_nil]
        rfl
      · change Contacted w fd _ (Function.update v.desc fd _)
        rw [hu]
        exact .made fd (.sock k) true h0 hn (by simp)
    · refine ⟨-1, v.tick, [.socket .dgram (some fd), .connect fd false], ?_, rfl, ?_⟩
      · simp only [pkoCmdCon, Prog.run_bind, h, Result.andThen_mk_some, Option.getD_some, hset, hc, Prog.run_pure,
          Result.after_mk, List.nil_append, List.append_nil]
        rfl
      · exact .made fd .fresh false h0 hn (by simp)

theorem cmdFd_vars {v v' : Vars} {c : Int} (h : v' = { v with cmdFd := c }) :
    v'.pkoSrvFd = v.pkoSrvFd ∧ v'.ps2NetfsFd = v.ps2NetfsFd ∧ v'.state = v.state := by
  rw [h]
  exact ⟨rfl, rfl, rfl⟩

abbrev KeepsLink : World → List Act → World → Prop := Fixes fun w : World => w.pkoSrvFd

theorem keepsLink_cmdListener : Sat KeepsLink cmdListener := by
  intro w
  obtain ⟨v, w', as, hrun, hv, _⟩ := cmdListener_listened w
  rw [hrun]
  exact congrArg Vars.pkoSrvFd hv

theorem keepsLink_command {req : Int → Io Int} (h : ∀ fd, Sat KeepsLink (req fd)) : Sat KeepsLink (command req) := by
  have hc : Sat KeepsLink pkoCmdCon := by
    intro w
    obtain ⟨v, w', as, hrun, hv, _⟩ := pkoCmdCon_contacted w
    rw [hrun]
    exact (cmdFd_vars hv).1
  exact hc.bind fun _ => Sat.get.bind fun _ => h _

theorem keepsLink_sendReq (sock : Int) (size : Nat) (fields : List (Nat × List Byte)) :
    Sat KeepsLink (sendReq sock size fields) :=
  Sat.get.bind fun _ => fun w => congrArg Vars.pkoSrvFd (sysSend_vars w _ _)

def Holds : World → List Act → World → Prop :=
  fun w as w' => ∀ s, w.desc s ≠ none → .close s ∉ as ∧ w'.desc s ≠ none

instance : Chains Holds where
  nil _ := fun _ h => ⟨by simp, h⟩
  append h h' := by
    intro s hs
    obtain ⟨hc, hd⟩ := h s hs
    obtain ⟨hc', hd'⟩ := h' s hd
    exact ⟨fun hm => (List.mem_append.mp hm).elim hc hc', hd'⟩

namespace Holds

variable {α : Type}

theorem of_close {m : Io α} (h : ∀ w s, w.desc s ≠ none → .close s ∉ (m.run w).acts) : Sat Holds m := by
  intro w s hs
  obtain ⟨d, hd⟩ := Option.ne_none_iff_exists'.mp hs
  obtain ⟨d', hd', _⟩ := (m.keeps w).kept s d hd (h w s hs)
  exact ⟨h w s hs, by simp [hd']⟩

theorem cmdListener : Sat Holds cmdListener := by
  refine of_close fun w s hs hm => ?_
  obtain ⟨v, w', as, hrun, _, hl⟩ := cmdListener_listened w
  rw [hrun] at hm
  generalize w'.desc = desc at hl
  cases hl with
  | unmade => simp at hm
  | linked fd k waits h0 hn hw => rcases hw with rfl | rfl <;> simp at hm
  | closed fd waits h0 hn hw =>
    have he : s = fd := by rcases hw with rfl | rfl <;> simpa using hm
    exact hs (he ▸ hn)
  | left fd waits h0 hn hw => rcases hw with rfl | rfl <;> simp at hm

theorem pkoCmdCon : Sat Holds pkoCmdCon := by
  refine of_close fun w s _ hm => ?_
  obtain ⟨v, w', as, hrun, _, hc⟩ := pkoCmdCon_contacted w
  rw [hrun] at hm
  generalize w'.desc = desc at hc
  generalize w'.cmdFd = c at hc
  cases hc with
  | unmade => simp at hm
  | made fd d made h0 hn hp => simp at hm

theorem setVars (f : Vars → Vars) : Sat Holds (setVars f) := of_close (by simp [Pksh.setVars])

theorem emit {a : Act} {h : a.quiet = true} : Sat Holds (emit a h) := by
  refine of_close fun w s _ hm => ?_
  have ha : Act.close s = a := by simpa [Pksh.emit] using hm
  subst ha
  cases h

theorem sysSend (s : Int) (bs : List Byte) : Sat Holds (sysSend s bs) := by
  refine of_close fun w fd _ hm => ?_
  obtain ⟨ret, ⟨ha, _⟩ | ⟨ha, _⟩⟩ := sysSend_acts w s bs <;> simp [ha] at hm

theorem sendReq (sock : Int) (size : Nat) (fields : List (Nat × List Byte)) : Sat Holds (sendReq sock size fields) :=
  Sat.get.bind fun _ => sysSend _ _

theorem command {req : Int → Io Int} (h : ∀ fd, Sat Holds (req fd)) : Sat Holds (command req) :=
  pkoCmdCon.bind fun _ => Sat.get.bind fun _ => h _

theorem awaitLink (attempts : Nat) : Sat Holds (awaitLink attempts) := by
  induction attempts with
  | zero => exact emit.bind fun _ => .hang
  | succ attempts ih => exact cmdListener.bind fun fd => (setVars _).bind fun _ => .ite (.pure ()) ih

end Holds

theorem cmdListener_open {w w' : World} {v : Int} {as : List Act} (h : cmdListener.run w = ⟨some v, w', as⟩)
    (hv : 0 ≤ v) : w.desc v = none ∧ w'.desc v ≠ none := by
  obtain ⟨v', w'', as', hrun, _, hl⟩ := cmdListener_listened w
  obtain ⟨rfl, rfl, rfl⟩ : v' = v ∧ w'' = w' ∧ as' = as := by
    rw [h] at hrun
    simpa [eq_comm] using hrun
  generalize hd : w''.desc = desc at hl
  cases hl with
  | linked _ k waits h0 hn hw => exact ⟨hn, by simp⟩
  | _ => exact absurd hv (by decide)

end Pksh
