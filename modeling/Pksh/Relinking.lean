import Pksh.Custody

/-! What becomes of the number of the link, read off the trace of what makes a
new one. -/

namespace Pksh

open Wire Traced

inductive Number
  | up
  | down
  | elsewhere
deriving DecidableEq, Repr

/-- A watcher of the number `l` of the link: it is given back when it is closed,
and taken again if the next connection gets it. -/
def follow (l : Int) : Number → Act → Option Number
  | .up, .close fd => some (if fd = l then .down else .up)
  | .down, .connect fd true => some (if fd = l then .up else .elsewhere)
  | .down, .unlinked => some .elsewhere
  | k, _ => some k

/-- The link is open under the number `l`, and nothing else is. -/
structure LinkAt (l : Int) (w : World) : Prop where
  pos : 0 < l
  link : w.pkoSrvFd = l
  sound : Sound (· = l) none w

def Places (l : Int) (k : Number) (w : World) : Prop := k = .elsewhere ∨ k = .up ∧ LinkAt l w

def Rebound (l : Int) (w : World) (as : List Act) (w' : World) : Prop :=
  ∀ k, Places l k w → ∃ k', watch (follow l) k as = some k' ∧ Places l k' w'

instance (l : Int) : Chains (Rebound l) where
  nil _ := fun k h => ⟨k, rfl, h⟩
  append h h' := by
    intro k hk
    obtain ⟨k', hw, hk'⟩ := h k hk
    obtain ⟨k'', hw', hk''⟩ := h' k' hk'
    exact ⟨k'', (watch_append_some hw _).trans hw', hk''⟩

def Settles (l : Int) (w : World) (as : List Act) (w' : World) : Prop :=
  LinkAt l w → ∃ k, watch (follow l) .up as = some k ∧ (k = .up → LinkAt l w')

theorem Sound.mono {S S' : Int → Prop} {own : Option Int} {w : World} (h : Sound S' own w) (hS : ∀ x, S x → S' x) :
    Sound S own w :=
  ⟨fun x hx => h.nonneg x (hS x hx), fun x hx => h.opened x (hS x hx), fun x ho hx => h.notOwn x ho (hS x hx),
    fun n hn => ⟨(h.netfs n hn).1, fun hx => (h.netfs n hn).2.1 (hS n hx), (h.netfs n hn).2.2⟩⟩

theorem Sound.of_netfs {S : Int → Prop} {w w' : World} (h : Sound S none w) (hd : w'.desc = w.desc)
    (hn : w'.ps2NetfsFd = w.ps2NetfsFd) : Sound S none w' := by
  have hnet : w'.netfs = w.netfs := by rw [World.netfs, World.netfs, hn]
  refine ⟨h.nonneg, fun x hx => ?_, by simp, fun n hn' => ?_⟩
  · rw [hd]
    exact h.opened x hx
  · rw [hnet] at hn'
    rw [hd]
    exact h.netfs n hn'

section Follow

variable {l : Int} {w w' : World} {as : List Act}

theorem follow_elsewhere (as : List Act) : watch (follow l) .elsewhere as = some .elsewhere :=
  watch_of_pass fun _ _ => rfl

theorem follow_up (h : .close l ∉ as) : watch (follow l) .up as = some .up := by
  refine watch_of_pass fun a ha => ?_
  cases a with
  | close fd =>
    have hne : fd ≠ l := fun he => h (he ▸ ha)
    simp [follow, hne]
  | _ => rfl

namespace Rebound

theorem plain (h : Holding (· = l) none w as w') (hl : w'.pkoSrvFd = w.pkoSrvFd) : Rebound l w as w' := by
  rintro k (rfl | ⟨rfl, hk⟩)
  · exact ⟨.elsewhere, follow_elsewhere as, .inl rfl⟩
  · obtain ⟨_, hc, hs⟩ := h hk.sound
    exact ⟨.up, follow_up (hc l rfl), .inr ⟨rfl, hk.pos, hl.trans hk.link, hs⟩⟩

theorem of_linkAt (h : LinkAt l w → ∃ k, watch (follow l) .up as = some k ∧ Places l k w') : Rebound l w as w' := by
  rintro k (rfl | ⟨rfl, hk⟩)
  · exact ⟨.elsewhere, follow_elsewhere as, .inl rfl⟩
  · exact h hk

end Rebound

theorem follow_cmdListener (hs : Sound (fun _ => False) none w) : ∃ v w' as k, cmdListener.run w = ⟨some v, w', as⟩ ∧
    watch (follow l) .down as = some k ∧ Sound (fun _ => False) none w' ∧
    (v < 0 ∧ k = .down ∨ 0 ≤ v ∧ (v = l ∧ k = .up ∧ Sound (· = l) none w' ∨ v ≠ l ∧ k = .elsewhere)) := by
  obtain ⟨v, w', as, hrun, hvars, hl⟩ := cmdListener_listened w
  have hsat : Sat (Holding (fun _ => False) none) cmdListener := Holding.careful .cmdListener
  have hs' : Sound (fun _ => False) none w' := by
    have h := (hsat w hs).2.2
    rwa [hrun] at h
  have hnet : w'.netfs = w.netfs := by rw [World.netfs, World.netfs, congrArg Vars.ps2NetfsFd hvars]
  generalize hd : w'.desc = desc at hl
  cases hl with
  | unmade => exact ⟨_, w', _, .down, hrun, rfl, hs', .inl ⟨by decide, rfl⟩⟩
  | linked fd k waits h0 hn hw =>
    refine ⟨_, w', _, if v = l then .up else .elsewhere, hrun, ?_, hs', .inr ⟨h0, ?_⟩⟩
    · rcases hw with rfl | rfl <;> rfl
    by_cases he : v = l
    · subst he
      rw [if_pos rfl]
      refine .inl ⟨rfl, rfl, ⟨?_, ?_, by simp, ?_⟩⟩
      · rintro x rfl
        exact h0
      · rintro x rfl
        simp [hd]
      · intro n hn'
        refine ⟨(hs'.netfs n hn').1, ?_, by simp⟩
        rintro rfl
        exact (hs.netfs n (hnet ▸ hn')).1 hn
    · rw [if_neg he]
      exact .inr ⟨he, rfl⟩
  | closed fd waits h0 hn hw =>
    refine ⟨_, w', _, .down, hrun, ?_, hs', .inl ⟨by decide, rfl⟩⟩
    rcases hw with rfl | rfl <;> rfl
  | left fd waits h0 hn hw =>
    refine ⟨_, w', _, .down, hrun, ?_, hs', .inl ⟨by decide, rfl⟩⟩
    rcases hw with rfl | rfl <;> rfl

theorem follow_awaitLink (attempts : Nat) (hl : 0 < l) (hs : Sound (fun _ => False) none w) :
    ∃ k, watch (follow l) .down ((awaitLink attempts).run w).acts = some k ∧
      Places l k ((awaitLink attempts).run w).state := by
  induction attempts generalizing w with
  | zero => exact ⟨.elsewhere, rfl, .inl rfl⟩
  | succ attempts ih =>
    obtain ⟨v, w', as, k, hrun, hw, hs', hk⟩ := follow_cmdListener (l := l) hs
    have hset : ∀ {S : Int → Prop}, Sound S none w' → Sound S none { w' with pkoSrvFd := v } :=
      fun h => h.of_netfs rfl rfl
    simp only [awaitLink, Prog.run_bind, hrun, Result.andThen_mk_some, setVars, Result.after_acts, Result.after_state,
      List.nil_append]
    rcases hk with ⟨hv, rfl⟩ | ⟨hv, ⟨rfl, rfl, hup⟩ | ⟨hne, rfl⟩⟩
    · rw [if_neg (by omega)]
      obtain ⟨k', hw', hk'⟩ := ih (hset hs')
      exact ⟨k', (watch_append_some hw _).trans hw', hk'⟩
    · rw [if_pos hl]
      exact ⟨.up, (watch_append_some hw _).trans rfl, .inr ⟨rfl, hl, rfl, hset hup⟩⟩
    · exact ⟨.elsewhere, (watch_append_some hw _).trans (follow_elsewhere _), .inl rfl⟩

theorem follow_close (h : LinkAt l w) : ((sysClose w.pkoSrvFd).run w).acts = [.close l] ∧
    Sound (fun _ => False) none ((sysClose w.pkoSrvFd).run w).state := by
  have hne : w.netfs ≠ some w.pkoSrvFd := fun hn => (h.sound.netfs _ hn).2.1 h.link
  refine ⟨by rw [← h.link]; rfl, ?_⟩
  have hclose : Holding (fun _ => False) none w ((sysClose w.pkoSrvFd).run w).acts ((sysClose w.pkoSrvFd).run w).state :=
    .sysClose id hne
  exact (hclose (h.sound.mono fun _ hx => hx.elim)).2.2

namespace Rebound

theorem sat {α : Type} {m : Io α} (h : Sat (Holding (· = l) none) m) (hl : Sat KeepsLink m) : Sat (Rebound l) m :=
  fun w => plain (h w) (hl w)

theorem relinked (w : World) (attempts : Nat) :
    Rebound l w ((sysClose w.pkoSrvFd >>= fun _ => Pksh.awaitLink attempts).run w).acts
      ((sysClose w.pkoSrvFd >>= fun _ => Pksh.awaitLink attempts).run w).state := by
  refine of_linkAt fun h => ?_
  obtain ⟨ha, hs⟩ := follow_close h
  obtain ⟨k, hw, hk⟩ := follow_awaitLink attempts h.pos hs
  obtain ⟨r, hr⟩ : ∃ r, ((sysClose w.pkoSrvFd).run w).value = some r := ⟨_, rfl⟩
  rw [Prog.run_bind, Result.andThen_some _ hr, Result.after_acts, Result.after_state, ha]
  refine ⟨k, ?_, hk⟩
  rw [List.singleton_append, watch_cons]
  simpa [follow] using hw

theorem linkLost (w : World) :
    Rebound l w ((linkLost w.pkoSrvFd).run w).acts ((Pksh.linkLost w.pkoSrvFd).run w).state := by
  have hrest : Sat (Rebound l) closeNetfs := sat Holding.closeNetfs keepsLink_closeNetfs
  have h := Sat.bind_at (relinked (l := l) w ((sysClose w.pkoSrvFd).run w).state.os.patience) fun _ _ => hrest _
  have hrun : (Pksh.linkLost w.pkoSrvFd).run w = ((sysClose w.pkoSrvFd >>= fun _ =>
      Pksh.awaitLink ((sysClose w.pkoSrvFd).run w).state.os.patience) >>= fun _ => closeNetfs).run w := by
    simp only [Prog.run_bind, Result.andThen_assoc]
    rfl
  rwa [hrun]

theorem resetAndReconnect : Sat (Rebound l) resetAndReconnect := by
  intro w
  have h := Sat.bind_at (sat (l := l) Holding.cliReset keepsLink_cliReset w) fun _ _ =>
    relinked (cliReset.run w).state (cliReset.run w).state.os.patience
  exact h

theorem cliExecee (arg : List Byte) : Sat (Rebound l) (cliExecee arg) :=
  have h : Sat (Rebound l) (execee arg) := sat (Holding.execee arg) (keepsLink_execee arg)
  Sat.get.bind fun _ => .ite (resetAndReconnect.bind fun _ => h) h

theorem cliReconnect (w : World) : Settles l w (cliReconnect.run w).acts (Pksh.cliReconnect.run w).state := by
  intro h
  obtain ⟨ha, hs⟩ := follow_close h
  obtain ⟨r, hr⟩ := sysClose_acts w w.pkoSrvFd
  rw [hr] at ha hs
  obtain ⟨v, w', as, k, hrun, hw, hs', hk⟩ := follow_cmdListener (l := l) hs
  obtain ⟨w'', hr'⟩ : ∃ w'', closeNetfs.run { w' with pkoSrvFd := v } = ⟨some (), w'', [.close w'.ps2NetfsFd]⟩ :=
    ⟨_, rfl⟩
  have hstart : watch (follow l) .up (.close w.pkoSrvFd :: as) = some k := by
    rw [watch_cons, h.link]
    simpa [follow] using hw
  simp only [Pksh.cliReconnect, Prog.run_bind, Prog.run_get, Result.andThen_mk_some, hr, hrun, setVars, hr',
    Prog.run_pure, Result.after_acts, Result.after_state, List.nil_append, List.append_nil, List.singleton_append]
  rw [← List.cons_append, watch_append_some hstart]
  rcases hk with ⟨_, rfl⟩ | ⟨_, ⟨rfl, rfl, hup⟩ | ⟨_, rfl⟩⟩
  · exact ⟨.down, rfl, by simp⟩
  · have hlink : LinkAt v { w' with pkoSrvFd := v } := ⟨h.pos, rfl, hup.of_netfs rfl rfl⟩
    have hrest : Sat (Rebound v) closeNetfs := sat Holding.closeNetfs keepsLink_closeNetfs
    obtain ⟨k, hk, hp⟩ := hrest _ .up (.inr ⟨rfl, hlink⟩)
    rw [hr'] at hk hp
    refine ⟨k, hk, fun hu => ?_⟩
    rcases hp with rfl | ⟨_, hp⟩
    · cases hu
    · exact hp
  · exact ⟨.elsewhere, rfl, by simp⟩

theorem carries (l : Int) : Carries (· = l) (Rebound l) (Settles l) where
  plain := plain
  execee := cliExecee
  linkLost _ := linkLost _
  reconnect _ := cliReconnect _
  whole h hl := by
    obtain ⟨k, hw, hk⟩ := h .up (.inr ⟨rfl, hl⟩)
    refine ⟨k, hw, fun hup => ?_⟩
    rcases hk with rfl | ⟨_, hk⟩
    · cases hup
    · exact hk

end Rebound

end Follow

end Pksh
