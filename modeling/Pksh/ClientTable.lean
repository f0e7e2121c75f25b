import Pksh.MainLoop
import Pksh.Receiving
import Pksh.Connecting
import Mathlib.Data.List.GetD
import Mathlib.Data.List.Nodup
import Mathlib.Data.List.Range
import Mathlib.Data.Finset.Dedup

/-! Clients that come, go and ask, as events of the main loop. -/

namespace Pksh

open Wire Traced

inductive Client
  | connect (fd : Int)
  | disconnect (fd : Int)
deriving DecidableEq, Repr

def roster (cs : List Int) : Client → List Int
  | .connect fd => fd :: cs
  | .disconnect fd => cs.erase fd

def rosterAt (es : List Client) (k : Nat) : List Int := (es.take k).foldl roster []

/-- At most `MAX_CLIENTS - 4` clients at once, and only these leave. -/
def Client.Admissible (cs : List Int) : Client → Prop
  | .connect _ => cs.length < maxClients - 4
  | .disconnect fd => fd ∈ cs

def Client.Last (cs : List Int) : Client → Prop
  | .connect _ => True
  | .disconnect fd => cs.head? = some fd

/-- No whole header is left on the stream, and it has an end. -/
def World.Ended (w : World) (fd : Int) : Prop :=
  (w.pending fd).length < pktHdrSize ∧ (w.inflow fd).stop ≠ .never

def Client.Occurs (w : World) : Client → Prop
  | .connect fd => ∃ k, (w.os.accept w.now).filter (fun r => w.unused r.1) = some (fd, k)
  | .disconnect fd => w.Ended fd

def Client.ready (w : World) : Client → Finset Int
  | .connect _ => {w.pkshSrvFd}
  | .disconnect fd => {fd}

/-- The turn of the loop in which `select` reports what the client does. -/
def Turned (p : Shell) (c : Client) (q : Shell) : Prop :=
  c.Occurs p.world ∧ ∃ input as,
    (runAll Event.exec (turnEvents (some (c.ready p.world), input))).run p = ⟨some (), q, as⟩

/-- Every connected client sits in one slot that is visited and is waited for;
no other number besides the standing ones is in the table or waited for. -/
structure Seated (p : Shell) (cs : List Int) : Prop where
  seat : ∀ fd ∈ cs, fd ∈ p.session.masterSet ∧
    ∃ j ≤ p.session.maxi, p.session.client j = fd ∧ ∀ j', p.session.client j' = fd → j' = j
  gone : ∀ fd, 0 ≤ fd → fd ∉ p.world.standing → fd ∉ cs →
    fd ∉ p.session.masterSet ∧ ∀ j, p.session.client j ≠ fd

/-- The clients sit behind the standing slots in the order they came in. -/
structure Packed (p : Shell) (cs : List Int) : Prop where
  client : p.session.client = fun i => (p.world.standing ++ cs.reverse).getD i (-1)
  maxi : p.session.maxi = 3 + cs.length
  masterSet : p.session.masterSet = (p.world.standing ++ cs.reverse).toFinset
  doloop : p.session.doloop = true
  nodup : (p.world.standing ++ cs.reverse).Nodup
  opened : ∀ fd ∈ p.world.standing ++ cs.reverse, 0 ≤ fd ∧ p.world.desc fd ≠ none
  room : cs.length ≤ maxClients - 4

section Table

variable {l : List Int} {x : Int} {i : Nat}

theorem getD_of_mem (h : x ∈ l) : ∃ i < l.length, l.getD i (-1) = x := by
  obtain ⟨i, hi, rfl⟩ := List.getElem_of_mem h
  exact ⟨i, hi, List.getD_eq_getElem _ _ hi⟩

theorem getD_mem (h : 0 ≤ l.getD i (-1)) : i < l.length ∧ l.getD i (-1) ∈ l := by
  have hi : i < l.length := by
    by_contra hn
    rw [List.getD_eq_default _ _ (Nat.le_of_not_lt hn)] at h
    omega
  refine ⟨hi, ?_⟩
  rw [List.getD_eq_getElem _ _ hi]
  exact List.getElem_mem hi

theorem getD_inj (hn : l.Nodup) {j : Nat} (h0 : 0 ≤ l.getD i (-1)) (h : l.getD j (-1) = l.getD i (-1)) : j = i := by
  obtain ⟨hi, _⟩ := getD_mem h0
  obtain ⟨hj, _⟩ := getD_mem (h ▸ h0)
  rw [List.getD_eq_getElem _ _ hi, List.getD_eq_getElem _ _ hj] at h
  exact (List.Nodup.getElem_inj_iff hn).mp h

theorem update_append (l : List Int) (x : Int) :
    Function.update (fun i => l.getD i (-1)) l.length x = fun i => (l ++ [x]).getD i (-1) := by
  funext i
  rcases Nat.lt_trichotomy i l.length with h | h | h
  · rw [Function.update_of_ne (Nat.ne_of_lt h), List.getD_append _ _ _ _ h]
  · subst h
    simp
  · rw [Function.update_of_ne (Nat.ne_of_gt h), List.getD_eq_default _ _ (Nat.le_of_lt h),
      List.getD_eq_default _ _ (by rw [List.length_append]; exact h)]

theorem update_last (l : List Int) (x : Int) :
    Function.update (fun i => (l ++ [x]).getD i (-1)) l.length (-1) = fun i => l.getD i (-1) := by
  rw [← update_append, Function.update_idem]
  refine Function.update_eq_self_iff.mpr ?_
  rw [List.getD_eq_default _ _ (Nat.le_refl _)]

theorem freeSlot_getD {s : Session} (hc : s.client = fun i => l.getD i (-1)) (h0 : ∀ x ∈ l, 0 ≤ x)
    (hl : l.length < maxClients) : s.freeSlot = some l.length := by
  refine List.find?_range_eq_some.mpr ⟨?_, List.mem_range.mpr hl, fun j hj => ?_⟩
  · simp only [hc, List.getD_eq_default _ _ (Nat.le_refl l.length)]
    decide
  · simp only [hc, List.getD_eq_getElem _ _ hj]
    simpa using h0 _ (List.getElem_mem hj)

end Table

section Turn

variable {p : Shell} (input : Input)

theorem exec_slot (i : Nat) : (Event.slot input i).exec =
    withSession fun s => if s.Visits i then serveSlot input i s else pure s := rfl

theorem exec_slot_skip {i : Nat} (h : ¬p.session.Visits i) :
    (Event.slot input i).exec.run p = ⟨some (), p, []⟩ := by
  simp only [exec_slot, withSession, if_neg h]
  rfl

theorem exec_slot_visit {i : Nat} {s : Session} {w : World} {as : List Act} (h : p.session.Visits i)
    (hrun : (serveSlot input i p.session).run p.world = ⟨some s, w, as⟩) :
    (Event.slot input i).exec.run p = ⟨some (), ⟨w, s⟩, as⟩ := by
  simp only [exec_slot, withSession, if_pos h, hrun]
  rfl

theorem run_skips {is : List Nat} (h : ∀ i ∈ is, ¬p.session.Visits i) :
    (runAll Event.exec (is.map (.slot input))).run p = ⟨some (), p, []⟩ := by
  induction is with
  | nil => rfl
  | cons i is ih =>
    simp only [List.map_cons, runAll, Prog.run_bind]
    rw [exec_slot_skip input (h i List.mem_cons_self), Result.andThen_mk_some, ih fun j hj => h j (List.mem_cons_of_mem _ hj)]
    rfl

theorem run_select (hd : p.session.doloop = true) (ready : Finset Int) (es : List Event) :
    (runAll Event.exec (.select (some ready) :: es)).run p =
      (runAll Event.exec es).run ⟨p.world, { p.session with readset := ready ∩ p.session.masterSet }⟩ := by
  have hs : (Event.select (some ready)).exec.run p =
      ⟨some (), ⟨p.world, { p.session with readset := ready ∩ p.session.masterSet }⟩, []⟩ := by
    simp only [Event.exec, withSession, Event.task, Session.selected, if_pos hd]
    rfl
  rw [runAll, Prog.run_bind, hs]
  rfl

def Shell.readied (p : Shell) (x : Int) : Shell :=
  ⟨p.world, { p.session with readset := {x} ∩ p.session.masterSet }⟩

theorem visits_readied {x : Int} {i : Nat} (h : (p.readied x).session.Visits i) : p.session.client i = x := by
  have := h.2.2
  simp only [Shell.readied, Finset.mem_inter, Finset.mem_singleton] at this
  exact this.1

theorem turn_serves {x : Int} {i : Nat} {s : Session} {w : World} {as : List Act} (hd : p.session.doloop = true)
    (hi : i < maxClients) (hv : (p.readied x).session.Visits i)
    (hu : ∀ j, p.session.client j = x → j = i)
    (hrun : (serveSlot input i (p.readied x).session).run p.world = ⟨some s, w, as⟩)
    (hs : ∀ j, i < j → ¬s.Visits j) :
    (runAll Event.exec (turnEvents (some {x}, input))).run p = ⟨some (), ⟨w, s⟩, as⟩ := by
  obtain ⟨front, back, hr⟩ := List.append_of_mem (List.mem_range.mpr hi)
  have hlt : (front ++ i :: back).Pairwise (· < ·) := hr ▸ List.pairwise_lt_range
  obtain ⟨_, hback, hfront⟩ := List.pairwise_append.mp hlt
  have hskip : ∀ j ∈ front, ¬(p.readied x).session.Visits j := fun j hj hj' =>
    absurd (hu j (visits_readied hj')) (Nat.ne_of_lt (hfront j hj i List.mem_cons_self))
  have hrest : ∀ j ∈ back, ¬(Shell.mk w s).session.Visits j := fun j hj => hs j ((List.pairwise_cons.mp hback).1 j hj)
  have h1 := run_skips input hskip
  have h2 := exec_slot_visit input hv hrun
  have h3 := run_skips input hrest
  have hturn : turnEvents (some {x}, input) = .select (some {x}) :: (front.map (.slot input) ++
      .slot input i :: back.map (.slot input)) := by
    rw [turnEvents, hr, List.map_append, List.map_cons]
  rw [hturn, run_select hd, run_runAll_append]
  simp only [Shell.readied] at h1 h2
  simp only [h1, Result.andThen_mk_some, runAll, Prog.run_bind, h2, h3, Result.after_mk, List.append_nil,
    List.nil_append]

end Turn

end Pksh
