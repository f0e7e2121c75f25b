import Mathlib.Algebra.GroupWithZero.Nat
import Mathlib.Data.List.Basic

/-! What a byte stream takes when it is written to: how many bytes each send
accepts, the errors that pass in between, and what holds after the last of
them. -/

namespace Wire

variable {ε : Type} {drops : ε → Bool}

inductive Intake (drops : ε → Bool)
  | takes (k : Nat)
  | hiccup (e : ε) (passes : drops e = false)

/-- Later sends are accepted whole, block for ever, or all fail. -/
inductive Sink (ε : Type)
  | accepts
  | blocks
  | fail (e : ε)
deriving DecidableEq, Repr

structure Outflow (drops : ε → Bool) where
  intakes : List (Intake drops)
  sink : Sink ε

/-- How a loop that sends a fixed number of bytes ends. -/
inductive Writing (ε : Type)
  | full
  | closed
  | dropped (e : ε)
  | never
deriving DecidableEq, Repr

namespace Outflow

/-- One send call for `n` bytes: how many it takes, or its error; `none` when
it never returns. -/
def send (n : Nat) (f : Outflow drops) : Option (Except ε Nat × Outflow drops) :=
  match f.intakes with
  | .takes k :: is => some (.ok (min k n), ⟨is, f.sink⟩)
  | .hiccup e _ :: is => some (.error e, ⟨is, f.sink⟩)
  | [] =>
    match f.sink with
    | .accepts => some (.ok n, f)
    | .blocks => none
    | .fail e => some (.error e, f)

def writeFrom (sink : Sink ε) : Nat → List (Intake drops) → Writing ε × Nat × Outflow drops
  | 0, is => (.full, 0, ⟨is, sink⟩)
  | n + 1, [] =>
    match sink with
    | .accepts => (.full, n + 1, ⟨[], sink⟩)
    | .blocks => (.never, 0, ⟨[], sink⟩)
    | .fail e => (if drops e then .dropped e else .never, 0, ⟨[], sink⟩)
  | n + 1, .hiccup _ _ :: is => writeFrom sink (n + 1) is
  | _ + 1, .takes 0 :: is => (.closed, 0, ⟨is, sink⟩)
  | n + 1, .takes (k + 1) :: is =>
    if k < n then
      let r := writeFrom sink (n - k) is
      (r.1, k + 1 + r.2.1, r.2.2)
    else
      (.full, n + 1, ⟨is, sink⟩)

/-- Sending again and again until `n` bytes are accepted: how it ends, how
many were accepted, and what is left. -/
def write (n : Nat) (f : Outflow drops) : Writing ε × Nat × Outflow drops :=
  writeFrom f.sink n f.intakes

@[simp] theorem write_zero (f : Outflow drops) : f.write 0 = (.full, 0, f) := by
  obtain ⟨is, s⟩ := f
  cases is <;> simp [write, writeFrom]

theorem write_eq_send (f : Outflow drops) (n : Nat) :
    f.write n =
      if n = 0 then (.full, 0, f)
      else match f.send n with
        | none => (.never, 0, f)
        | some (.ok 0, g) => (.closed, 0, g)
        | some (.ok (k + 1), g) =>
          ((g.write (n - (k + 1))).1, k + 1 + (g.write (n - (k + 1))).2.1, (g.write (n - (k + 1))).2.2)
        | some (.error e, g) =>
          if drops e then (.dropped e, 0, g) else g.write n := by
  obtain ⟨is, s⟩ := f
  cases n with
  | zero => simp
  | succ n =>
    cases is with
    | nil =>
      cases s with
      | accepts => simp [write, writeFrom, send]
      | blocks => rfl
      | fail e => cases he : drops e <;> simp [write, writeFrom, send, he]
    | cons i is =>
      cases i with
      | hiccup e he => simp [write, writeFrom, send, he]
      | takes k =>
        cases k with
        | zero => simp [write, writeFrom, send]
        | succ k =>
          by_cases hk : k < n
          · have hm : min (k + 1) (n + 1) = k + 1 := by omega
            simp [write, writeFrom, send, hk, hm]
          · have hm : min (k + 1) (n + 1) = n + 1 := by omega
            have hw : (⟨is, s⟩ : Outflow drops).write 0 = (.full, 0, ⟨is, s⟩) := write_zero _
            simp only [send, hm, Nat.sub_self, hw]
            simp [write, writeFrom, hk]

theorem writeFrom_le (sink : Sink ε) (is : List (Intake drops)) (n : Nat) :
    (writeFrom sink n is).2.1 ≤ n ∧
      ((writeFrom sink n is).1 = .full → (writeFrom sink n is).2.1 = n) := by
  induction is generalizing n with
  | nil =>
    cases n with
    | zero => simp [writeFrom]
    | succ n =>
      cases sink with
      | accepts => simp [writeFrom]
      | blocks => simp [writeFrom]
      | fail e => cases he : drops e <;> simp [writeFrom, he]
  | cons i is ih =>
    cases n with
    | zero => simp [writeFrom]
    | succ n =>
      cases i with
      | hiccup e he => simpa [writeFrom] using ih (n + 1)
      | takes k =>
        cases k with
        | zero => simp [writeFrom]
        | succ k =>
          by_cases hk : k < n
          · obtain ⟨h1, h2⟩ := ih (n - k)
            simp only [writeFrom, hk, if_true]
            exact ⟨by omega, fun h => by have := h2 h; omega⟩
          · simp [writeFrom, hk]

theorem write_le (f : Outflow drops) (n : Nat) :
    (f.write n).2.1 ≤ n ∧ ((f.write n).1 = .full → (f.write n).2.1 = n) :=
  writeFrom_le f.sink f.intakes n

/-- The next send call, however much it is asked to send: whether it is
accepted, and what is left; `none` when it never returns. -/
def next (f : Outflow drops) : Option (Bool × Outflow drops) :=
  (f.send 0).map fun r => (r.1.toBool, r.2)

theorem send_next (f : Outflow drops) (n : Nat) : (f.send n).map (fun r => (r.1.toBool, r.2)) = f.next := by
  obtain ⟨is, s⟩ := f
  cases is with
  | nil => cases s <;> rfl
  | cons i is => cases i <;> rfl

theorem send_le {f g : Outflow drops} {n k : Nat} (h : f.send n = some (.ok k, g)) : k ≤ n := by
  obtain ⟨is, s⟩ := f
  cases is with
  | nil => cases s <;> cases h; exact Nat.le_refl n
  | cons i is =>
    cases i with
    | hiccup e he => cases h
    | takes j =>
      cases h
      exact Nat.min_le_right _ _

theorem next_of_sink {f : Outflow drops} (h : f.sink ≠ .blocks) : ∃ b g, f.next = some (b, g) := by
  obtain ⟨is, s⟩ := f
  cases is with
  | nil =>
    cases s with
    | accepts => exact ⟨_, _, rfl⟩
    | blocks => exact absurd rfl h
    | fail e => exact ⟨_, _, rfl⟩
  | cons i is => cases i <;> exact ⟨_, _, rfl⟩

theorem send_sink {f g : Outflow drops} {n : Nat} {r : Except ε Nat} (h : f.send n = some (r, g)) :
    g.sink = f.sink := by
  obtain ⟨is, s⟩ := f
  cases is with
  | nil => cases s <;> cases h <;> rfl
  | cons i is => cases i <;> cases h <;> rfl

theorem next_sink {f g : Outflow drops} {b : Bool} (h : f.next = some (b, g)) : g.sink = f.sink := by
  obtain ⟨⟨r, g'⟩, hs, he⟩ := Option.map_eq_some_iff.mp h
  cases he
  exact send_sink hs

theorem writeFrom_sink (sink : Sink ε) (is : List (Intake drops)) (n : Nat) :
    (writeFrom sink n is).2.2.sink = sink := by
  induction is generalizing n with
  | nil =>
    cases n with
    | zero => rfl
    | succ n => cases sink <;> rfl
  | cons i is ih =>
    cases n with
    | zero => rfl
    | succ n =>
      cases i with
      | hiccup e he => exact ih (n + 1)
      | takes k =>
        cases k with
        | zero => rfl
        | succ k =>
          by_cases hk : k < n
          · simpa [writeFrom, hk] using ih (n - k)
          · simp [writeFrom, hk]

theorem write_sink (f : Outflow drops) (n : Nat) : (f.write n).2.2.sink = f.sink :=
  writeFrom_sink f.sink f.intakes n

/-- Every send that does not fail takes something, and the last of the errors
passes. -/
structure Delivers (f : Outflow drops) : Prop where
  moves : .takes 0 ∉ f.intakes
  accepts : f.sink = .accepts

theorem Delivers.of_send {f g : Outflow drops} {n : Nat} {r : Except ε Nat} (hf : f.Delivers)
    (h : f.send n = some (r, g)) : g.Delivers := by
  obtain ⟨is, s⟩ := f
  obtain ⟨hm, rfl : s = .accepts⟩ := hf
  cases is with
  | nil =>
    cases h
    exact ⟨hm, rfl⟩
  | cons i is =>
    have hg : g = ⟨is, .accepts⟩ := by cases i <;> cases h <;> rfl
    rw [hg]
    exact ⟨fun h => hm (List.mem_cons_of_mem _ h), rfl⟩

theorem writeFrom_accepts {is : List (Intake drops)} (hm : .takes 0 ∉ is) (n : Nat) :
    (writeFrom .accepts n is).1 = .full := by
  induction is generalizing n with
  | nil => cases n <;> rfl
  | cons i is ih =>
    have hm' : .takes 0 ∉ is := fun h => hm (List.mem_cons_of_mem _ h)
    cases n with
    | zero => rfl
    | succ n =>
      cases i with
      | hiccup e he => exact ih hm' (n + 1)
      | takes k =>
        cases k with
        | zero => exact absurd List.mem_cons_self hm
        | succ k =>
          by_cases hk : k < n
          · simpa [writeFrom, hk] using ih hm' (n - k)
          · simp [writeFrom, hk]

theorem Delivers.write {f : Outflow drops} (hf : f.Delivers) (n : Nat) :
    (f.write n).1 = .full ∧ (f.write n).2.1 = n := by
  have h : (f.write n).1 = .full := by
    rw [Outflow.write, hf.accepts]
    exact writeFrom_accepts hf.moves n
  exact ⟨h, (write_le f n).2 h⟩

end Outflow

end Wire
