import Pksh.Tidying

/-! The link in the table of clients. What makes a new link leaves the table as
it is, so that the table is right only as long as the new link gets the number
of the old one. -/

namespace Pksh

open Wire Traced

theorem tidy_start {p q : Shell} {dumpscreen : Bool} {as : List Act} (hp : p.Initial)
    (h : (Event.start dumpscreen).exec.run p = ⟨some (), q, as⟩) (hd : q.session.doloop = true) : Tidy q := by
  have hpack := packed_start hp h hd
  have hclient : q.session.client = fun i => q.world.standing.getD i (-1) := by
    have hc := hpack.client
    rwa [List.reverse_nil, List.append_nil] at hc
  have hset : q.session.masterSet = q.world.standing.toFinset := by
    have hm := hpack.masterSet
    rwa [List.reverse_nil, List.append_nil] at hm
  have hnodup : q.world.standing.Nodup := (List.nodup_append.mp hpack.nodup).1
  have hlink : q.world.pkoSrvFd ∈ q.world.standing := by simp [World.standing]
  have hlists : ∀ x, q.session.Lists x → x ∈ q.world.standing := by
    rintro x ⟨h0, hx | ⟨i, rfl⟩⟩
    · rw [hset] at hx
      exact List.mem_toFinset.mp hx
    · rw [hclient] at h0 ⊢
      exact (getD_mem h0).2
  have hlog : q.session.logToFile = false := by
    rw [(startUp_link (start_run h) hd).1]
    exact hp.logToFile
  have hacc : Accounted p.world as q.world := by
    have hk := (startUp dumpscreen p.session).keeps p.world
    rwa [start_run h] at hk
  have hsound : Sound (fun x => x ∈ q.world.standing) none q.world := by
    refine (start_held h hd fun x hx => ⟨(hpack.opened x (List.mem_append_left _ hx)).1, ?_⟩).2
    simp only [World.standing, hacc.logFd, hacc.pkshSrvFd, List.mem_cons, List.not_mem_nil, or_false] at hx
    rcases hx with rfl | rfl | rfl | rfl
    · exact .inr (by simp [hp.stdin])
    · exact .inl rfl
    · exact .inr (by simp [hp.log.2])
    · exact .inr (by simp [hp.server.2])
  refine ⟨?_, ?_, ?_, hsound.mono ?_, ?_, ?_⟩
  · rw [hclient]
    rfl
  · rw [hset]
    exact List.mem_toFinset.mpr hlink
  · have h0 := hsound.nonneg _ hlink
    have hne : (0 : Int) ≠ q.world.pkoSrvFd := by
      rintro he
      simp [World.standing, ← he] at hnodup
    omega
  · rintro x (hx | ⟨_, ht, _⟩)
    · exact hlists x hx
    · rw [hlog] at ht
      cases ht
  · intro i j h0 he
    rw [hclient] at h0 he
    exact getD_inj hnodup h0 he
  · intro x _ ht
    rw [hlog] at ht
    cases ht

/-- In every run in which each new link gets the number of the old one, and no
request, of the PS2 or of a client, closes a descriptor of pksh, the link is
registered and nothing that was closed is. -/
theorem registered_kept {p q : Shell} {dumpscreen : Bool} {as : List Act} (hp : p.Initial)
    (h : (Event.start dumpscreen).exec.run p = ⟨some (), q, as⟩) (hd : q.session.doloop = true) {es : List Event}
    (hes : ∀ d, .start d ∉ es) (hs : ∀ x ∈ journalOf Event.exec es q, Sparing x.2 x.1)
    (hr : ((runAll Event.exec es).run q).value = some ()) : Registered ((runAll Event.exec es).run q).state := by
  have ht := tidy_start hp h hd
  have hstart : ∀ x ∈ journalOf Event.exec es q, ∀ d, x.1 ≠ .start d := fun x hx d he =>
    hes d (he ▸ mem_of_journalOf hx)
  exact (holds_runAll (I := Tidy) (C := fun e p => (∀ d, e ≠ .start d) ∧ Sparing p e)
    (fun e p ht hc hret => ht.exec hc.1 hc.2 hret) es ht (fun x hx => ⟨hstart x hx, hs x hx⟩) hr).registered

/-- The links of this host are at their end at once. -/
def Host.hangingUp (socket : Nat → Option Int) : Host :=
  { Host.connecting with socket := socket, peer := fun _ _ => ⟨⟨[], .eof⟩, ⟨[], .accepts⟩⟩ }

/-- The first socket gets the number 10, which is given again when it is free. -/
def firstAgain : Host := .hangingUp fun n => some (if n = 0 ∨ 6 < n then 10 else 10 + n)

def linkEnds : List Event := [.select (some {10}), .slot ⟨.nothing, []⟩ 1]

theorem sparing_linkEnds : ∀ x ∈ journalOf Event.exec linkEnds (.entered firstAgain), Sparing x.2 x.1 := by
  have hall : ((journalOf Event.exec linkEnds (.entered firstAgain)).all fun x =>
      (x.1.exec.run x.2).acts.all Act.unasked &&
      decide (watch (follow x.2.world.pkoSrvFd) .up (x.1.exec.run x.2).acts = some .up)) = true := by decide +kernel
  intro x hx
  obtain ⟨hno, hup⟩ := Bool.and_eq_true_iff.mp (List.all_eq_true.mp hall x hx)
  exact ⟨fun n hn => absurd (List.all_eq_true.mp hno _ hn) Bool.false_ne_true, fun _ => of_decide_eq_true hup⟩

theorem registered_kept_linkEnds : Registered ((runAll Event.exec linkEnds).run (.entered firstAgain)).state :=
  registered_kept (initial_called firstAgain) (start_entered firstAgain (by decide +kernel)) (by decide +kernel)
    (by simp [linkEnds]) sparing_linkEnds (by decide +kernel)

/-- The link ends and the next one gets another number. -/
theorem new_link_not_registered : ¬∀ es : List Event, (∀ d, .start d ∉ es) →
    ((runAll Event.exec es).run (.entered (.hangingUp fun n => some (10 + n)))).value = some () →
    Registered ((runAll Event.exec es).run (.entered (.hangingUp fun n => some (10 + n)))).state := by
  intro h
  have hr := h linkEnds (by simp [linkEnds]) (by decide +kernel)
  exact absurd hr.slot (by decide +kernel)

end Pksh
