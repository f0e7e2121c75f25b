import Mathlib.Logic.Relation
import Pksh.Quicklink.Stage

/-! The handshake keeps the packets of two hosts that agree on their order apart. -/

namespace Naplink

open Wire Traced Pksh

/-- What holds in every state of two hosts that exchange the packets of `script`. -/
structure Lockstep (script : List Transfer) (n : Net) : Prop where
  stage : ∃ x ts, ts <:+ script ∧ Stage x n ts
  sound : ∀ x, (n.party x).pc.sound

theorem Lockstep.start (script : List Transfer) : Lockstep script (Net.start (jobs script)) :=
  ⟨(Stage.begin_next (x := .pc) (.idle script) (.idle script) rfl fun _ => rfl).imp
    fun _ h => ⟨script, List.suffix_refl _, h⟩, fun _ => trivial⟩

theorem Lockstep.advance {script : List Transfer} {n : Net} (h : Lockstep script n) {u : Usb} (hu : u.Honest n)
    (y : Side) : Lockstep script (n.advance y u) := by
  refine ⟨?_, fun z => ?_⟩
  · obtain ⟨x, ts, hsuf, hs⟩ := h.stage
    cases hs with
    | finished hx hy hr hd hp =>
      have hs : Stage x n [] := .finished hx hy hr hd hp
      rw [hs.finished_all.advance]
      exact ⟨x, [], hsuf, hs⟩
    | asking p ts hx hy hd hp => exact ⟨x, _, hsuf, .advance_asking hx hy hd hp hu y⟩
    | asked p ts hx hxt hy hyt hr hd hp => exact ⟨x, _, hsuf, .advance_asked hx hxt hy hyt hr hd hp hu y⟩
    | moving p ts hx hxt hy hyt hr hd hp hs => exact ⟨x, _, hsuf, .advance_moving hx hxt hy hyt hr hd hp hs hu y⟩
    | moved p ts hx hy hyt hd hp hs =>
      rcases Stage.advance_moved hx hy hyt hd hp hs (h.sound _) hu y with h | ⟨z, h⟩
      · exact ⟨x, _, hsuf, h⟩
      · exact ⟨z, _, (List.suffix_cons _ _).trans hsuf, h⟩
  · rcases y.eq_or_other z with rfl | rfl
    · exact Net.advance_sound (h.sound z)
    · rw [Net.advance_party_ne y.other_ne]
      exact h.sound _

/-- A turn of one of the hosts, in which a poll shows the bits as they are and
no bulk call is cut short. -/
def Net.Moves (n m : Net) : Prop := ∃ y u, Usb.Honest u n ∧ u.cut = false ∧ m = n.step y u

/-- The states of two hosts that exchange the packets of `script`. -/
def Net.Reachable (script : List Transfer) : Net → Prop := Relation.ReflTransGen Net.Moves (Net.start (jobs script))

theorem Net.Reachable.lockstep {script : List Transfer} {n : Net} (h : Net.Reachable script n) : Lockstep script n := by
  induction h with
  | refl => exact .start script
  | tail _ hm ih =>
    obtain ⟨y, u, hu, hw, rfl⟩ := hm
    rw [Net.step_of_whole hw]
    exact ih.advance hu y

def Pc.isWriting : Pc → Bool
  | .writeHeader _ _ | .writeBody _ _ => true
  | _ => false

def Pc.isReading : Pc → Bool
  | .readHeader _ | .readBody _ _ => true
  | _ => false

theorem Begins.pauses {x : Side} {ts : List Transfer} {pc : Pc} {todo : List Job} {r : Bool} (h : Begins x ts pc todo r) :
    pc.isWriting = false ∧ pc.isReading = false := by
  cases h <;> exact ⟨rfl, rfl⟩

theorem Writes.not_reading {p : Raw} {pc : Pc} (h : Writes p pc) : pc.isReading = false := by
  cases h <;> rfl

theorem Listens.not_writing {pc : Pc} (h : Listens pc) : pc.isWriting = false := by
  cases h <;> rfl

/-- Where no bulk call is cut short, a host writes only while the other one
reads what it writes, and a host reads only what is written or about to be. -/
theorem transfers_meet {script : List Transfer} {n : Net} (h : Net.Reachable script n) (x : Side) :
    ((n.party x).pc.isWriting = true → n.req = false ∧ n.pipe x.other = [] ∧ Listens (n.party x.other).pc ∧
        ∃ t ∈ script, t.sender = x ∧
          (n.party x.other).pc.held ++ (n.pipe x ++ (n.party x).pc.left) = t.packet.wire) ∧
      ((n.party x.other).pc.isReading = true → n.pipe x.other = [] ∧ ∃ t ∈ script, t.sender = x ∧
        (Writes t.packet (n.party x).pc ∧
            (n.party x.other).pc.held ++ (n.pipe x ++ (n.party x).pc.left) = t.packet.wire ∨
          n.done = true ∧ (n.party x.other).pc.held ++ n.pipe x = t.packet.wire)) := by
  obtain ⟨z, ts, hsuf, hs⟩ := h.lockstep.stage
  have quiet : ∀ {b c : Bool} {P Q : Prop}, b = false → c = false → (b = true → P) ∧ (c = true → Q) := by
    rintro b c P Q rfl rfl
    exact ⟨nofun, nofun⟩
  cases hs with
  | finished hx hy hr hd hp =>
    rcases z.eq_or_other x with rfl | rfl
    · exact quiet hx.pauses.1 hy.pauses.2
    · rw [Side.other_other]
      exact quiet hy.pauses.1 hx.pauses.2
  | asking p ts hx hy hd hp =>
    rcases z.eq_or_other x with rfl | rfl
    · exact quiet hx.pauses.1 hy.pauses.2
    · rw [Side.other_other]
      exact quiet hy.pauses.1 hx.pauses.2
  | asked p ts hx hxt hy hyt hr hd hp =>
    rcases z.eq_or_other x with rfl | rfl
    · exact quiet (by rw [hx]; rfl) (by rw [hy]; rfl)
    · rw [Side.other_other]
      exact quiet (by rw [hy]; rfl) (by rw [hx]; rfl)
  | moving p ts hx hxt hy hyt hr hd hp hs =>
    have hmem := hsuf.subset List.mem_cons_self
    rcases z.eq_or_other x with rfl | rfl
    · exact ⟨fun _ => ⟨hr, hp, hy, _, hmem, rfl, hs⟩, fun _ => ⟨hp, _, hmem, rfl, .inl ⟨hx, hs⟩⟩⟩
    · rw [Side.other_other]
      exact quiet hy.not_writing hx.not_reading
  | moved p ts hx hy hyt hd hp hs =>
    have hmem := hsuf.subset List.mem_cons_self
    rcases z.eq_or_other x with rfl | rfl
    · refine ⟨fun hw => ?_, fun _ => ⟨hp, _, hmem, rfl, .inr ⟨hd, hs⟩⟩⟩
      rw [hx.pauses.1] at hw
      cases hw
    · rw [Side.other_other]
      refine quiet ?_ hx.pauses.2
      rcases hy with hy | ⟨ph, pb, hy⟩
      · exact hy.not_writing
      · rw [hy]
        rfl

/-- The byte that an honest poll gets when the link is ready. -/
def Net.status (n : Net) : Byte := txRdyBit ||| ((if n.req then txReqBit else 0) ||| (if n.done then txCBit else 0))

def Net.ready (n : Net) : Usb where
  status := some n.status
  taken := true
  moved := 64
  cut := false
  memory _ := 0

theorem Net.ready_honest (n : Net) : n.ready.Honest n := by
  intro b hb
  obtain rfl := Option.some.inj hb
  have bits : ∀ q d : Bool,
      (((txRdyBit ||| ((if q then txReqBit else 0) ||| (if d then txCBit else 0))) &&& txReqBit ≠ 0) ↔ q = true) ∧
      (((txRdyBit ||| ((if q then txReqBit else 0) ||| (if d then txCBit else 0))) &&& txCBit ≠ 0) ↔ d = true) := by
    decide
  exact bits n.req n.done

def alternating (script : List Transfer) : Nat → Net
  | 0 => Net.start (jobs script)
  | k + 1 => (alternating script k).step (if k % 2 = 0 then .pc else .ps2) (alternating script k).ready

theorem alternating_reachable (script : List Transfer) (k : Nat) : Net.Reachable script (alternating script k) := by
  induction k with
  | zero => exact .refl
  | succ k ih => exact ih.tail ⟨_, _, Net.ready_honest _, rfl, rfl⟩

def wazzupAnswered : List Transfer := [⟨.ps2, wazzup⟩, ⟨.pc, noCommand⟩]

/-- The question is under way, and the PC is reading it. -/
theorem wazzup_met : ((alternating wazzupAnswered 10).party .ps2).pc.isWriting = true ∧
    Listens ((alternating wazzupAnswered 10).party .pc).pc :=
  ⟨by decide, ((transfers_meet (alternating_reachable wazzupAnswered 10) .ps2).1 (by decide)).2.2.1⟩

end Naplink
