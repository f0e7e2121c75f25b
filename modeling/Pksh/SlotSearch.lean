import Pksh.Registered

/-! The search for a free slot behind `accept`. The loop counts `j` and tests
`i`, so nothing stops it at the end of the table. -/

namespace Pksh

open Wire Traced

def fdSetsize : Nat := 1024

/-- The cells the search has looked at, the one it has written, the cells as
they are then, and whether it is over. -/
structure Search where
  inspected : List Nat
  written : Option Nat
  client : Nat → Int
  ended : Bool

/-- The given number of rounds from `j` on. -/
def search (i : Nat) (connfd : Int) (client : Nat → Int) : Nat → Nat → Search
  | 0, _ => ⟨[], none, client, false⟩
  | rounds + 1, j =>
    if i < fdSetsize then
      if client j < 0 then ⟨[j], some j, Function.update client j connfd, true⟩
      else
        let r := search i connfd client rounds (j + 1)
        { r with inspected := j :: r.inspected }
    else ⟨[], none, client, true⟩

def Session.cells (s : Session) (beyond : Nat → Int) (j : Nat) : Int :=
  if j < maxClients then s.client j else beyond j

def Session.HasRoom (s : Session) : Prop := ∃ j < maxClients, s.client j < 0

instance (s : Session) : Decidable s.HasRoom := inferInstanceAs (Decidable (∃ j < maxClients, s.client j < 0))

/-- The search stays inside the table and ends, and a table without a free slot
is left as it was. -/
structure SearchKept (s : Session) (beyond : Nat → Int) (i : Nat) (connfd : Int) : Prop where
  inspected : ∀ rounds, ∀ j ∈ (search i connfd (s.cells beyond) rounds 0).inspected, j < maxClients
  written : ∀ rounds j, (search i connfd (s.cells beyond) rounds 0).written = some j → j < maxClients
  full : ¬s.HasRoom → ∀ rounds, ∀ j < maxClients,
    (search i connfd (s.cells beyond) rounds 0).client j = s.client j
  ends : ∃ rounds, (search i connfd (s.cells beyond) rounds 0).ended = true

/-- The slot is found ready, and it is the one of the command server. -/
def Accepts (p : Shell) (i : Nat) : Event → Prop
  | .slot _ k => k = i ∧ p.session.Visits i ∧ p.session.client i = p.world.pkshSrvFd ∧
    p.world.pkshSrvFd ∉ [p.world.logFd, 0, p.world.pkoSrvFd]
  | _ => False

instance (p : Shell) (i : Nat) (e : Event) : Decidable (Accepts p i e) := by
  cases e
  · exact inferInstanceAs (Decidable False)
  · exact inferInstanceAs (Decidable False)
  · exact inferInstanceAs (Decidable (_ ∧ _ ∧ _ ∧ _))

section Search

variable {i : Nat} (connfd : Int) {client : Nat → Int} {j k : Nat}

theorem search_client {l : Nat} (h : 0 ≤ client l) (rounds j : Nat) :
    (search i connfd client rounds j).client l = client l := by
  induction rounds generalizing j with
  | zero => rfl
  | succ rounds ih =>
    rw [search]
    split
    · split
      · rename_i hj
        have hne : l ≠ j := by
          rintro rfl
          omega
        exact Function.update_of_ne hne _ _
      · exact ih (j + 1)
    · rfl

theorem search_within (hk : client k < 0) (rounds : Nat) (hj : j ≤ k) :
    (∀ l ∈ (search i connfd client rounds j).inspected, l ≤ k) ∧
      ∀ l, (search i connfd client rounds j).written = some l → l ≤ k := by
  induction rounds generalizing j with
  | zero => exact ⟨by simp [search], by simp [search]⟩
  | succ rounds ih =>
    rw [search]
    split
    · split
      · exact ⟨by simpa using hj, by simpa using hj⟩
      · rename_i h0
        have hne : j ≠ k := by
          rintro rfl
          exact h0 hk
        obtain ⟨hi, hw⟩ := ih (show j + 1 ≤ k by omega)
        refine ⟨fun l hl => ?_, hw⟩
        rcases List.mem_cons.mp hl with rfl | hl
        · exact hj
        · exact hi l hl
    · exact ⟨by simp, by simp⟩

theorem search_ends (hk : client k < 0) (rounds : Nat) (hj : j ≤ k) (hr : k < j + rounds) :
    (search i connfd client rounds j).ended = true := by
  induction rounds generalizing j with
  | zero => omega
  | succ rounds ih =>
    rw [search]
    split
    · split
      · rfl
      · rename_i h0
        have hne : j ≠ k := by
          rintro rfl
          exact h0 hk
        exact ih (by omega) (by omega)
    · rfl

theorem search_passes (hi : i < fdSetsize) (hfull : ∀ l < k, 0 ≤ client l) (rounds : Nat) (hj : j ≤ k)
    (hr : k < j + rounds) : k ∈ (search i connfd client rounds j).inspected := by
  induction rounds generalizing j with
  | zero => omega
  | succ rounds ih =>
    rw [search, if_pos hi]
    by_cases hjk : j = k
    · subst hjk
      split <;> simp
    · have h0 : ¬client j < 0 := by
        have := hfull j (by omega)
        omega
      rw [if_neg h0]
      exact List.mem_cons_of_mem _ (ih (by omega) (by omega))

theorem search_first (hi : i < fdSetsize) (hfull : ∀ l < k, 0 ≤ client l) (hk : client k < 0) (rounds : Nat)
    (hj : j ≤ k) (hr : k < j + rounds) : (search i connfd client rounds j).written = some k ∧
      (search i connfd client rounds j).client = Function.update client k connfd := by
  induction rounds generalizing j with
  | zero => omega
  | succ rounds ih =>
    rw [search, if_pos hi]
    by_cases hjk : j = k
    · subst hjk
      rw [if_pos hk]
      exact ⟨rfl, rfl⟩
    · have h0 : ¬client j < 0 := by
        have := hfull j (by omega)
        omega
      rw [if_neg h0]
      exact ih (by omega) (by omega)

theorem search_endless (hi : i < fdSetsize) (hfull : ∀ l, 0 ≤ client l) (rounds j : Nat) :
    (search i connfd client rounds j).ended = false := by
  induction rounds generalizing j with
  | zero => rfl
  | succ rounds ih =>
    rw [search, if_pos hi, if_neg (Int.not_lt.mpr (hfull j))]
    exact ih (j + 1)

end Search

section Table

variable {s : Session} {beyond : Nat → Int} {i j : Nat}

theorem Session.cells_of_lt (hj : j < maxClients) : s.cells beyond j = s.client j := by rw [Session.cells, if_pos hj]

theorem freeSlot_eq_none : s.freeSlot = none ↔ ¬s.HasRoom := by
  simp [Session.freeSlot, Session.HasRoom]

/-- The slot `acceptClient` takes is the one the search finds. -/
theorem search_freeSlot (hi : i < fdSetsize) (connfd : Int) (h : s.freeSlot = some j) :
    (search i connfd (s.cells beyond) (j + 1) 0).written = some j ∧
      ∀ l < maxClients, (search i connfd (s.cells beyond) (j + 1) 0).client l = (s.accepted j connfd).client l := by
  obtain ⟨hfree, hmem, hfirst⟩ := List.find?_range_eq_some.mp h
  have hj : j < maxClients := List.mem_range.mp hmem
  have hfull : ∀ l < j, 0 ≤ s.cells beyond l := by
    intro l hl
    rw [Session.cells_of_lt (hl.trans hj)]
    simpa using hfirst l hl
  have hk : s.cells beyond j < 0 := by
    rw [Session.cells_of_lt hj]
    exact of_decide_eq_true hfree
  obtain ⟨hw, hc⟩ := search_first connfd hi hfull hk (j + 1) (Nat.zero_le j) (by omega)
  refine ⟨hw, fun l hl => ?_⟩
  change _ = Function.update s.client j connfd l
  rw [hc]
  by_cases hlj : l = j
  · subst hlj
    rw [Function.update_self, Function.update_self]
  · rw [Function.update_of_ne hlj, Function.update_of_ne hlj, Session.cells_of_lt hl]

theorem search_full (hn : ¬s.HasRoom) (connfd : Int) (rounds : Nat) (hj : j < maxClients) :
    (search i connfd (s.cells beyond) rounds 0).client j = s.client j := by
  have h0 : 0 ≤ s.client j := Int.not_lt.mp fun h0 => hn ⟨j, hj, h0⟩
  rw [search_client connfd (by rwa [Session.cells_of_lt hj]), Session.cells_of_lt hj]

theorem searchKept_iff (hi : i < fdSetsize) (connfd : Int) : SearchKept s beyond i connfd ↔ s.HasRoom := by
  constructor
  · intro h
    by_contra hn
    have hfull : ∀ l < maxClients, 0 ≤ s.cells beyond l := by
      intro l hl
      rw [Session.cells_of_lt hl]
      exact Int.not_lt.mp fun h0 => hn ⟨l, hl, h0⟩
    have hout := search_passes connfd hi hfull (maxClients + 1) (Nat.zero_le _) (by omega)
    exact absurd (h.inspected _ _ hout) (Nat.lt_irrefl _)
  · rintro ⟨k, hk, h0⟩
    have hcell : s.cells beyond k < 0 := by rwa [Session.cells_of_lt hk]
    refine ⟨fun rounds j hj => ?_, fun rounds j hj => ?_, fun hn => absurd ⟨k, hk, h0⟩ hn, ?_⟩
    · have := (search_within connfd hcell rounds (Nat.zero_le k)).1 j hj
      omega
    · have := (search_within connfd hcell rounds (Nat.zero_le k)).2 j hj
      omega
    · exact ⟨k + 1, search_ends connfd hcell (k + 1) (Nat.zero_le k) (by omega)⟩

end Table

/-- `maxi` is a slot, or the loop is not entered any more. -/
def Bounded (p : Shell) : Prop :=
  p.session.maxi < maxClients ∨ p.session.doloop = false ∧ p.session.readset = ∅

section Runs

variable {p : Shell} {i : Nat} {e : Event}

theorem Bounded.lt_of_visits (h : Bounded p) (hv : p.session.Visits i) : i < maxClients := by
  rcases h with h | ⟨_, h⟩
  · exact Nat.lt_of_le_of_lt hv.1 h
  · have hin := hv.2.2
    rw [h] at hin
    cases hin

theorem startUp_value {w : World} {s s' : Session} {dumpscreen : Bool}
    (h : ((startUp dumpscreen s).run w).value = some s') :
    s' = { s with doloop := false } ∨ ∃ fds, s' = s.started fds := by
  obtain ⟨link, _, h⟩ := Prog.value_bind h
  obtain ⟨_, _, h⟩ := Prog.value_bind h
  by_cases h0 : link < 0
  · rw [if_pos h0] at h
    exact .inl (Option.some.inj h).symm
  · rw [if_neg h0] at h
    obtain ⟨_, _, h⟩ := Prog.value_bind h
    obtain ⟨w', _, h⟩ := Prog.value_bind h
    exact .inr ⟨w'.standing, (Option.some.inj h).symm⟩

theorem bounded_start {dumpscreen : Bool} (hp : Bounded p ∨ p.session.readset = ∅)
    (hr : ((Event.start dumpscreen).exec.run p).value = some ()) :
    Bounded ((Event.start dumpscreen).exec.run p).state := by
  rcases startUp_value (Event.exec_value _ p hr) with hs | ⟨fds, hs⟩
  · rw [Bounded, hs]
    rcases hp with (hp | hp) | hp
    · exact .inl hp
    · exact .inr ⟨rfl, hp.2⟩
    · exact .inr ⟨rfl, hp⟩
  · rw [Bounded, hs]
    exact .inl (show 3 < 10 by decide)

theorem call_maxi {f : CliFunc} {arg : List Byte} {s s' : Session} {w : World}
    (h : ((f.call arg s).run w).value = some s') : s'.maxi = s.maxi := by
  by_cases hq : f = .quit
  · subst hq
    obtain rfl : { s with doloop := false } = s' := Option.some.inj h
    rfl
  by_cases hl : f = .log
  · subst hl
    revert h
    simp only [CliFunc.call, cliLog]
    split
    · split
      · intro h
        obtain ⟨_, _, h⟩ := Prog.value_bind h
        rw [← Option.some.inj h]
      · intro h
        rw [← Option.some.inj h]
    · intro h
      obtain ⟨_, _, h⟩ := Prog.value_bind h
      rw [← Option.some.inj h]
  · rw [CliFunc.call_eq hq hl] at h
    obtain ⟨_, _, h⟩ := Prog.value_bind h
    rw [← Option.some.inj h]

theorem selected_maxi (s : Session) (answer : Option (Finset Int)) : (s.selected answer).maxi = s.maxi := by
  unfold Session.selected
  cases answer <;> split <;> rfl

theorem selected_left {s : Session} (hd : s.doloop = false) (answer : Option (Finset Int)) :
    (s.selected answer).doloop = false ∧ (s.selected answer).readset = ∅ := by
  unfold Session.selected
  rw [hd]
  exact ⟨rfl, rfl⟩

theorem serveSlot_maxi {input : Input} (hm : p.session.maxi < maxClients) {s : Session}
    (h : ((serveSlot input i p.session).run p.world).value = some s) : s.maxi < maxClients := by
  revert h
  refine serveSlot_elim (P := fun r => r.value = some s → s.maxi < maxClients) (fun _ h => ?_) (fun _ _ h => ?_)
    (fun _ _ _ h => ?_) (fun _ _ h => ?_) fun _ h => ?_
  · rw [pkoLogRead] at h
    split at h
    · obtain ⟨_, _, h⟩ := Prog.value_bind h
      rwa [← Option.some.inj h]
    · rwa [← Option.some.inj h]
  · rw [rlCallbackReadChar] at h
    split at h
    · rwa [← Option.some.inj h]
    · rwa [call_maxi h]
  · obtain ⟨_, _, h⟩ := Prog.value_bind h
    rwa [← Option.some.inj h]
  · obtain ⟨connfd, _, h⟩ := Prog.value_bind h
    cases hf : p.session.freeSlot with
    | none =>
      rw [hf] at h
      cases h
    | some j =>
      rw [hf] at h
      have hj : j < maxClients := List.mem_range.mp (List.find?_range_eq_some.mp hf).2.1
      rw [← Option.some.inj h]
      exact max_lt hm hj
  · obtain ⟨r, _, h⟩ := Prog.value_bind h
    split at h
    · obtain ⟨_, _, h⟩ := Prog.value_bind h
      rw [← Option.some.inj h]
      exact Nat.lt_of_le_of_lt (Nat.sub_le _ _) hm
    · rwa [← Option.some.inj h]

theorem bounded_exec (e : Event) (p : Shell) (h : Bounded p) (hr : (e.exec.run p).value = some ()) :
    Bounded (e.exec.run p).state := by
  have hv := Event.exec_value e p hr
  cases e with
  | start dumpscreen => exact bounded_start (.inl h) hr
  | select answer =>
    rw [Bounded, ← Option.some.inj hv]
    rcases h with h | ⟨hd, _⟩
    · left
      rwa [selected_maxi]
    · exact .inr (selected_left hd answer)
  | slot input i =>
    rw [Event.task] at hv
    by_cases hvis : p.session.Visits i
    · rw [if_pos hvis] at hv
      rcases h with h | ⟨_, h0⟩
      · exact .inl (serveSlot_maxi h hv)
      · have hin := hvis.2.2
        rw [h0] at hin
        cases hin
    · rw [if_neg hvis] at hv
      rw [Bounded, ← Option.some.inj hv]
      exact h

theorem bounded_main {dumpscreen : Bool} {turns : List (Option (Finset Int) × Input)} (hp : p.session.readset = ∅)
    {x : Event × Shell} (hx : x ∈ journalOf Event.exec (mainEvents dumpscreen turns) p) (ha : Accepts x.2 i x.1) :
    i < maxClients := by
  obtain ⟨e, q⟩ := x
  rcases List.mem_cons.mp hx with hx | hx
  · rw [Prod.mk.injEq] at hx
    rw [hx.1] at ha
    exact ha.elim
  · cases hv : ((Event.start dumpscreen).exec.run p).value with
    | none =>
      rw [hv] at hx
      cases hx
    | some u =>
      rw [hv] at hx
      have hb := holds_journalOf bounded_exec _ (bounded_start (.inr hp) hv) (e, q) hx
      cases e with
      | slot input k => exact hb.lt_of_visits ha.2.1
      | _ => exact ha.elim

end Runs

/-- Whenever `accept` is called the search behind it is kept to the table. -/
def Searched (beyond : Nat → Int) (x : Event × Shell) : Prop :=
  ∀ i connfd, Accepts x.2 i x.1 → (sysAccept.run x.2.world).value = some connfd →
    SearchKept x.2.session beyond i connfd

/-- In every run of `main`, and whatever lies behind the table, all searches are
kept to it exactly when no connection is accepted while all slots are in use. -/
theorem searched_iff {p : Shell} (hp : p.Initial) (dumpscreen : Bool) (turns : List (Option (Finset Int) × Input))
    (beyond : Nat → Int) :
    (∀ x ∈ journalOf Event.exec (mainEvents dumpscreen turns) p, Searched beyond x) ↔
      ∀ x ∈ journalOf Event.exec (mainEvents dumpscreen turns) p, ∀ i, Accepts x.2 i x.1 → x.2.session.HasRoom := by
  refine forall₂_congr fun x hx => ?_
  have hi : ∀ i, Accepts x.2 i x.1 → i < fdSetsize := fun i ha =>
    (bounded_main hp.readset hx ha).trans (show 10 < 1024 by decide)
  constructor
  · intro h i ha
    obtain ⟨connfd, hv, _⟩ := sysAccept_cases x.2.world
    exact (searchKept_iff (hi i ha) connfd).mp (h i connfd ha hv)
  · intro h i connfd ha _
    exact (searchKept_iff (hi i ha) connfd).mpr (h i ha)

def Host.crowding : Host :=
  { Host.connecting with accept := fun n => some (100 + n, ⟨⟨[], .eof⟩, ⟨[], .accepts⟩⟩) }

/-- Clients come one after the other, and nothing else happens. -/
def arrivals (n : Nat) : List (Option (Finset Int) × Input) := List.replicate n (some {5}, ⟨.nothing, []⟩)

theorem room_arrivals : ∀ x ∈ journalOf Event.exec (mainEvents false (arrivals 5)) (.called .crowding),
    x.2.session.HasRoom := by
  decide +kernel

theorem searched_arrivals :
    (∀ x ∈ journalOf Event.exec (mainEvents false (arrivals 5)) (.called .crowding), x.2.session.HasRoom) ∧
      ∀ x ∈ journalOf Event.exec (mainEvents false (arrivals 5)) (.called .crowding), Searched (fun _ => 0) x := by
  refine ⟨room_arrivals, ?_⟩
  apply (searched_iff (initial_called .crowding) false (arrivals 5) fun _ => 0).mpr
  intro x hx _ _
  exact room_arrivals x hx

/-- The seventh client finds all ten slots in use. -/
theorem search_overrun : ¬∀ (p : Shell), p.Initial → ∀ (dumpscreen : Bool)
    (turns : List (Option (Finset Int) × Input)) (beyond : Nat → Int),
    ∀ x ∈ journalOf Event.exec (mainEvents dumpscreen turns) p, Searched beyond x := by
  intro h
  have hfull : ∃ x ∈ journalOf Event.exec (mainEvents false (arrivals 7)) (.called .crowding),
      Accepts x.2 3 x.1 ∧ ¬x.2.session.HasRoom := by
    decide +kernel
  obtain ⟨x, hx, ha, hn⟩ := hfull
  obtain ⟨connfd, hv, _⟩ := sysAccept_cases x.2.world
  have hkept := h _ (initial_called .crowding) false (arrivals 7) (fun _ => 0) x hx 3 connfd ha hv
  exact hn ((searchKept_iff (by decide) connfd).mp hkept)

end Pksh
