import Pksh.Shell

/-! The loop of `cli_copy` to the PS2 for any outcomes of `read` and
`ps2netfs_req_write`, and when it comes to an end. -/

namespace Pksh

open Wire Traced

/-- What `read` and `ps2netfs_req_write` return in each round. -/
structure Outcomes where
  reads : Nat → Option (List Byte)
  writes : Nat → Int

/-- The round is kept also when the loop does not end. -/
abbrev RoundM := OptionT (StateM Nat)

namespace Outcomes

variable (o : Outcomes) (buffer : Mem) (size : Int)

def read : RoundM (Option (List Byte)) := do pure (o.reads (← get))

def write : RoundM Int := modifyGet fun i => (o.writes i, i + 1)

/-- From round `i` on, with `total` so far: whether the loop ends within some
rounds, and the rounds behind it. -/
def loopFrom (rounds : Nat) (total : Int) (i : Nat) : Option Unit × Nat :=
  (sendLoop o.read (fun _ _ => o.write) failure rounds buffer size total).run.run i

def loop (rounds : Nat) : Option Unit × Nat := o.loopFrom buffer size rounds 0 0

/-- `total` before a round. -/
def total : Nat → Int
  | 0 => 0
  | i + 1 => total i + o.writes i

def Fails (i : Nat) : Prop := o.reads i = none ∨ o.reads i = some [] ∨ o.writes i < 0

/-- The loop ends, and goes on after a round that failed only with more in
total. -/
def Ends : Prop :=
  (∃ rounds, (o.loop buffer size rounds).1 = some ()) ∧
    ∀ rounds i, i + 1 < (o.loop buffer size rounds).2 → o.Fails i → o.total i < o.total (i + 1)

/-- Bytes were written, or none of the bytes read. -/
def Moves (i : Nat) : Prop := 0 < o.writes i ∨ o.writes i = 0 ∧ ∃ b bs, o.reads i = some (b :: bs)

variable {o buffer size} {rounds i k : Nat} {total : Int}

theorem loopFrom_step (h : total < size) : o.loopFrom buffer size (rounds + 1) total i =
    o.loopFrom (buffer.store 0 ((o.reads i).getD [])) size rounds (total + o.writes i) (i + 1) := by
  rw [loopFrom, sendLoop, if_pos h]
  rfl

theorem loopFrom_done (h : size ≤ total) : o.loopFrom buffer size (rounds + 1) total i = (some (), i) := by
  rw [loopFrom, sendLoop, if_neg (Int.not_lt.mpr h)]
  rfl

theorem loop_goes (buffer : Mem) (h : ∀ i < k, o.total i < size) :
    ∃ buffer', ∀ rounds, o.loop buffer size (rounds + k) = o.loopFrom buffer' size rounds (o.total k) k := by
  induction k with
  | zero => exact ⟨buffer, fun rounds => rfl⟩
  | succ k ih =>
    obtain ⟨buffer', hgoes⟩ := ih fun i hi => h i (Nat.lt_succ_of_lt hi)
    refine ⟨buffer'.store 0 ((o.reads k).getD []), fun rounds => ?_⟩
    rw [show rounds + (k + 1) = rounds + 1 + k by omega, hgoes, loopFrom_step (h k (Nat.lt_succ_self k))]
    rfl

theorem loop_more (h : ∀ i < k, o.total i < size) : o.loop buffer size k = (none, k) := by
  obtain ⟨buffer', hgoes⟩ := loop_goes buffer h
  have := hgoes 0
  rw [Nat.zero_add] at this
  exact this

theorem loop_done (h : ∀ i < k, o.total i < size) (hk : size ≤ o.total k) (hr : k < rounds) :
    o.loop buffer size rounds = (some (), k) := by
  obtain ⟨buffer', hgoes⟩ := loop_goes buffer h
  obtain ⟨n, rfl⟩ := Nat.exists_eq_add_of_le hr
  rw [show k + 1 + n = n + 1 + k by omega, hgoes, loopFrom_done hk]

theorem loop_endless (h : ∀ i, o.total i < size) : (o.loop buffer size rounds).1 = none := by
  rw [loop_more fun i _ => h i]

theorem exists_first (h : ∃ k, size ≤ o.total k) : ∃ k, size ≤ o.total k ∧ ∀ i < k, o.total i < size := by
  classical
  exact ⟨Nat.find h, Nat.find_spec h, fun i hi => Int.not_le.mp (Nat.find_min h hi)⟩

theorem loop_behind (buffer : Mem) (rounds : Nat) (h : ∀ i < k, o.total i < size) (hk : size ≤ o.total k) :
    (o.loop buffer size rounds).2 ≤ k := by
  by_cases hr : k < rounds
  · rw [loop_done h hk hr]
  · rw [loop_more fun i hi => h i (by omega)]
    exact Nat.le_of_not_lt hr

/-- The loop ends, and never goes on without progress after a failure, exactly
when the writes add up to the size and until then every round moves bytes or
has read some. -/
theorem ends_iff : o.Ends buffer size ↔ ∃ k, size ≤ o.total k ∧ ∀ i < k, o.Moves i := by
  constructor
  · rintro ⟨⟨rounds, hret⟩, hprogress⟩
    have hreach : ∃ k, size ≤ o.total k := by
      by_contra hn
      rw [loop_endless fun i => Int.not_le.mp fun hi => hn ⟨i, hi⟩] at hret
      cases hret
    obtain ⟨k, hk, hfirst⟩ := exists_first hreach
    refine ⟨k, hk, fun i hi => ?_⟩
    have hbehind : (o.loop buffer size (k + 1)).2 = k := by rw [loop_done hfirst hk (Nat.lt_succ_self k)]
    have hpos : o.Fails i → 0 < o.writes i := by
      intro hf
      by_cases hlast : i + 1 = k
      · have hlt := hfirst i hi
        rw [← hlast, Outcomes.total] at hk
        omega
      · have hlt := hprogress (k + 1) i (by rw [hbehind]; omega) hf
        rw [Outcomes.total] at hlt
        omega
    by_cases hw : 0 < o.writes i
    · exact .inl hw
    · have hz : ¬o.Fails i := fun hf => hw (hpos hf)
      simp only [Fails, not_or] at hz
      obtain ⟨hnone, hnil, hneg⟩ := hz
      refine .inr ⟨by omega, ?_⟩
      cases hread : o.reads i with
      | none => exact absurd hread hnone
      | some bs =>
        cases bs with
        | nil => exact absurd hread hnil
        | cons b bs => exact ⟨b, bs, rfl⟩
  · rintro ⟨k, hk, hmoves⟩
    obtain ⟨j, hj, hfirst⟩ := exists_first ⟨k, hk⟩
    have hle : j ≤ k := Nat.le_of_not_lt fun hlt => absurd hk (Int.not_le.mpr (hfirst k hlt))
    refine ⟨⟨j + 1, by rw [loop_done hfirst hj (Nat.lt_succ_self j)]⟩, fun rounds i hi hf => ?_⟩
    have hij := loop_behind buffer rounds hfirst hj
    rw [Outcomes.total]
    rcases hmoves i (by omega) with hw | ⟨hw, b, bs, hread⟩
    · omega
    · rcases hf with hf | hf | hf
      · rw [hread] at hf
        cases hf
      · rw [hread] at hf
        cases hf
      · omega

/-- The file is cut off behind the asking for its size: every read is at its
end, and nothing is written. -/
def cutOff : Outcomes := ⟨fun _ => some [], fun _ => 0⟩

theorem cutOff_total (i : Nat) : cutOff.total i = 0 := by
  induction i with
  | zero => rfl
  | succ i ih => rw [Outcomes.total, ih, cutOff, Int.add_zero]

theorem cutOff_endless : ¬∀ (o : Outcomes) (buffer : Mem) (size : Int), o.Ends buffer size := by
  intro h
  obtain ⟨⟨rounds, hret⟩, _⟩ := h cutOff (fun _ => 0) 1
  rw [loop_endless fun i => by rw [cutOff_total]; decide] at hret
  cases hret

end Outcomes

section Run

variable (read : Io (Option (List Byte))) (write : Mem → Int → Io Int)

/-- The state and the buffer of `cli_copy` before each round. -/
def beforeRound (w : World) (buffer : Mem) : Nat → World × Mem
  | 0 => (w, buffer)
  | i + 1 =>
    let s := beforeRound w buffer i
    let got := (read.run s.1).value.getD none
    let buf := s.2.store 0 (got.getD [])
    (((write buf (got.elim (-1) fun bs => (bs.length : Int))).run (read.run s.1).state).state, buf)

variable (w : World) (buffer : Mem)

def roundWrite (i : Nat) : Result World Act Int :=
  let s := beforeRound read write w buffer i
  let got := (read.run s.1).value.getD none
  (write (s.2.store 0 (got.getD [])) (got.elim (-1) fun bs => (bs.length : Int))).run (read.run s.1).state

def outcomes : Outcomes where
  reads i := (read.run (beforeRound read write w buffer i).1).value.getD none
  writes i := (roundWrite read write w buffer i).value.getD 0

def RoundReturns (i : Nat) : Prop :=
  (read.run (beforeRound read write w buffer i).1).value ≠ none ∧ (roundWrite read write w buffer i).value ≠ none

/-- In a run whose rounds all return, the loop ends as their outcomes say. -/
theorem sendLoop_value (size : Int) {rounds : Nat} (h : ∀ i < rounds, RoundReturns read write w buffer i) :
    ((sendLoop read write Prog.hang rounds buffer size 0).run w).value =
      ((outcomes read write w buffer).loop buffer size rounds).1 := by
  have hfrom : ∀ n i total, i + n ≤ rounds →
      ((sendLoop read write Prog.hang n (beforeRound read write w buffer i).2 size total).run
        (beforeRound read write w buffer i).1).value =
      ((outcomes read write w buffer).loopFrom (beforeRound read write w buffer i).2 size n total i).1 := by
    intro n
    induction n with
    | zero => exact fun i total _ => rfl
    | succ n ih =>
      intro i total hi
      by_cases hs : total < size
      · obtain ⟨hread, hwrite⟩ := h i (by omega)
        obtain ⟨got, hgot⟩ := Option.ne_none_iff_exists'.mp hread
        obtain ⟨result, hresult⟩ := Option.ne_none_iff_exists'.mp hwrite
        have hreads : (outcomes read write w buffer).reads i = got := congrArg (Option.getD · none) hgot
        have hwrites : (outcomes read write w buffer).writes i = result := congrArg (Option.getD · 0) hresult
        have hnext := ih (i + 1) (total + result) (by omega)
        rw [roundWrite, hgot, Option.getD_some] at hresult
        rw [beforeRound, hgot, Option.getD_some] at hnext
        rw [Outcomes.loopFrom_step hs, hreads, hwrites, ← hnext, sendLoop, if_pos hs, Prog.run_bind,
          Result.andThen_some _ hgot, Result.after_value, Prog.run_bind, Result.andThen_some _ hresult,
          Result.after_value]
      · rw [Outcomes.loopFrom_done (Int.not_lt.mp hs), sendLoop, if_neg hs]
        rfl
  exact hfrom rounds 0 0 (Nat.le_of_eq (Nat.zero_add rounds))

end Run

end Pksh
