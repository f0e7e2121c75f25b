import Pksh.Lib.Inflow
import Pksh.Lib.Outflow

/-! A loop that moves a fixed number of bytes call by call and tries again after
every error but the dropping ones, and what it makes of a call that fails for
ever. -/

namespace Wire

variable {ε σ : Type}

/-- At most `calls` calls with `left` of `bytes` still to be moved: the value
of the loop when it returns, and the errors after which it tried again. -/
def retry (call : Nat → σ → Option (Except ε Nat × σ)) (drops : ε → Bool) (bytes : Int) :
    Nat → Int → σ → Option Int × List ε
  | 0, _, _ => (none, [])
  | calls + 1, left, s =>
    if left > 0 then
      match call left.toNat s with
      | none => (none, [])
      | some (.error e, t) =>
        if drops e then (some (-1), [])
        else
          let r := retry call drops bytes calls left t
          (r.1, e :: r.2)
      | some (.ok 0, _) => (some 0, [])
      | some (.ok (k + 1), t) => retry call drops bytes calls (left - (k + 1 : Nat)) t
    else (some bytes, [])

/-- Calls that move some bytes or fail in passing, with the errors that pass,
and then one that fails with the same error for ever. -/
inductive FailsFor (call : Nat → σ → Option (Except ε Nat × σ)) (drops : ε → Bool) (e : ε) :
    Nat → σ → List ε → Prop
  | now {n : Nat} {s : σ} (pos : 0 < n) (stuck : call n s = some (.error e, s)) : FailsFor call drops e n s []
  | moves {n k : Nat} {s t : σ} {xs : List ε} (took : call n s = some (.ok (k + 1), t)) (short : k + 1 < n)
      (rest : FailsFor call drops e (n - (k + 1)) t xs) : FailsFor call drops e n s xs
  | passes {n : Nat} {x : ε} {s t : σ} {xs : List ε} (failed : call n s = some (.error x, t)) (passed : drops x = false)
      (rest : FailsFor call drops e n t xs) : FailsFor call drops e n s (x :: xs)

section Retry

variable {call : Nat → σ → Option (Except ε Nat × σ)} {drops : ε → Bool} {e : ε} {bytes : Int} {calls n : Nat} {s t : σ}
  {xs : List ε}

theorem FailsFor.pos (h : FailsFor call drops e n s xs) : 0 < n := by
  induction h with
  | now pos => exact pos
  | moves took short rest ih => exact Nat.zero_lt_of_lt short
  | passes failed passed rest ih => exact ih

theorem retry_done {left : Int} (h : ¬left > 0) : retry call drops bytes (calls + 1) left s = (some bytes, []) := by
  rw [retry, if_neg h]

theorem retry_moves {k : Nat} (took : call n s = some (.ok (k + 1), t)) (le : k + 1 ≤ n) :
    retry call drops bytes (calls + 1) n s = retry call drops bytes calls (n - (k + 1) : Nat) t := by
  have hn : (n : Int) > 0 := by omega
  have hsub : (n : Int) - (k + 1 : Nat) = (n - (k + 1) : Nat) := (Int.ofNat_sub le).symm
  rw [retry, if_pos hn, Int.toNat_natCast, took, ← hsub]

theorem retry_passes {x : ε} (hn : 0 < n) (failed : call n s = some (.error x, t)) (passed : drops x = false) :
    retry call drops bytes (calls + 1) n s =
      ((retry call drops bytes calls n t).1, x :: (retry call drops bytes calls n t).2) := by
  rw [retry, if_pos (Int.natCast_pos.mpr hn), Int.toNat_natCast, failed]
  simp only [passed]
  rfl

theorem retry_closed (hn : 0 < n) (closed : call n s = some (.ok 0, t)) :
    retry call drops bytes (calls + 1) n s = (some 0, []) := by
  rw [retry, if_pos (Int.natCast_pos.mpr hn), Int.toNat_natCast, closed]

theorem retry_blocks (hn : 0 < n) (blocks : call n s = none) :
    (retry call drops bytes (calls + 1) n s).1 = none := by
  rw [retry, if_pos (Int.natCast_pos.mpr hn), Int.toNat_natCast, blocks]

theorem retry_drops (hn : 0 < n) (failed : call n s = some (.error e, t)) (he : drops e = true) :
    retry call drops bytes (calls + 1) n s = (some (-1), []) := by
  rw [retry, if_pos (Int.natCast_pos.mpr hn), Int.toNat_natCast, failed]
  simp only [he, if_true]

theorem retry_mono {left v : Int} {calls' : Nat} (h : (retry call drops bytes calls left s).1 = some v)
    (hc : calls ≤ calls') : (retry call drops bytes calls' left s).1 = some v := by
  induction calls generalizing left s calls' with
  | zero => cases h
  | succ calls ih =>
    obtain ⟨calls', rfl⟩ := Nat.exists_eq_add_one_of_ne_zero (Nat.ne_zero_of_lt hc)
    have hle := Nat.le_of_succ_le_succ hc
    by_cases hl : left > 0
    · rw [retry, if_pos hl] at h ⊢
      rcases hr : call left.toNat s with _ | ⟨x | k, t⟩
      · rw [hr] at h
        cases h
      · rw [hr] at h
        cases hx : drops x with
        | true => simpa [hx] using h
        | false =>
          simp only [hx] at h ⊢
          exact ih h hle
      · rw [hr] at h
        cases k with
        | zero => exact h
        | succ k => exact ih h hle
    · rw [retry_done hl] at h ⊢
      exact h

theorem FailsFor.returns (h : FailsFor call drops e n s xs) (he : drops e = true) :
    ∃ calls, retry call drops bytes calls n s = (some (-1), xs) := by
  induction h with
  | now pos stuck => exact ⟨1, retry_drops pos stuck he⟩
  | moves took short rest ih =>
    obtain ⟨calls, hcalls⟩ := ih
    exact ⟨calls + 1, by rw [retry_moves took (Nat.le_of_lt short), hcalls]⟩
  | passes failed passed rest ih =>
    obtain ⟨calls, hcalls⟩ := ih
    exact ⟨calls + 1, by rw [retry_passes rest.pos failed passed, hcalls]⟩

theorem FailsFor.retried (h : FailsFor call drops e n s xs) (he : drops e = true) (calls : Nat) :
    ∀ x ∈ (retry call drops bytes calls n s).2, x ∈ xs := by
  induction h generalizing calls with
  | now pos stuck =>
    cases calls with
    | zero => exact nofun
    | succ calls =>
      rw [retry_drops pos stuck he]
      exact nofun
  | moves took short rest ih =>
    cases calls with
    | zero => exact nofun
    | succ calls =>
      rw [retry_moves took (Nat.le_of_lt short)]
      exact ih calls
  | passes failed passed rest ih =>
    cases calls with
    | zero => exact nofun
    | succ calls =>
      rw [retry_passes rest.pos failed passed]
      intro y hy
      rcases List.mem_cons.mp hy with rfl | hy
      · exact List.mem_cons_self
      · exact List.mem_cons_of_mem _ (ih calls y hy)

theorem FailsFor.spins (h : FailsFor call drops e n s xs) (he : drops e = false) (calls : Nat) :
    (retry call drops bytes calls n s).1 = none := by
  induction calls generalizing n s xs with
  | zero => rfl
  | succ calls ih =>
    cases h with
    | now pos stuck =>
      rw [retry_passes pos stuck he]
      exact ih (.now pos stuck)
    | moves took short rest =>
      rw [retry_moves took (Nat.le_of_lt short)]
      exact ih rest
    | passes failed passed rest =>
      rw [retry_passes rest.pos failed passed]
      exact ih rest

/-- The loop returns a negative value after finitely many calls, and it tried
again only after errors that allow it. -/
def GivesUp (call : Nat → σ → Option (Except ε Nat × σ)) (drops : ε → Bool) (again : ε → Prop) (bytes : Int) (s : σ) :
    Prop :=
  (∃ calls v, (retry call drops bytes calls bytes s).1 = some v ∧ v < 0) ∧
    ∀ calls, ∀ x ∈ (retry call drops bytes calls bytes s).2, again x

theorem FailsFor.givesUp_iff (h : FailsFor call drops e n s xs) (again : ε → Prop) :
    GivesUp call drops again n s ↔ drops e = true ∧ ∀ x ∈ xs, again x := by
  constructor
  · rintro ⟨⟨calls, v, hv, _⟩, hagain⟩
    have he : drops e = true := by
      by_contra hn
      rw [h.spins (Bool.eq_false_iff.mpr hn)] at hv
      cases hv
    obtain ⟨calls, hcalls⟩ : ∃ calls, retry call drops n calls n s = (some (-1), xs) := h.returns he
    refine ⟨he, fun x hx => hagain calls x ?_⟩
    rw [hcalls]
    exact hx
  · rintro ⟨he, hagain⟩
    obtain ⟨calls, hcalls⟩ : ∃ calls, retry call drops n calls n s = (some (-1), xs) := h.returns he
    exact ⟨⟨calls, -1, by rw [hcalls], by decide⟩, fun calls x hx => hagain x (h.retried he calls x hx)⟩

end Retry

namespace Inflow

variable {β : Type} {drops : ε → Bool}

/-- A receive call as the number of its bytes. -/
def call (n : Nat) (f : Inflow β drops) : Option (Except ε Nat × Inflow β drops) :=
  (f.recv n).map fun r =>
    (match r.1 with
      | .got bs => .ok bs.length
      | .closed => .ok 0
      | .error e => .error e, r.2)

def passing (f : Inflow β drops) : List ε :=
  f.arrivals.flatMap fun
    | .data _ _ => []
    | .hiccup e _ => [e]

theorem failsFor {f : Inflow β drops} {e : ε} {n : Nat} (hf : f.ending = .fail e true) (hn : f.live.length < n) :
    FailsFor call drops e n f f.passing := by
  obtain ⟨as, end'⟩ := f
  obtain rfl : end' = .fail e true := hf
  induction as generalizing n with
  | nil => exact .now hn rfl
  | cons a as ih =>
    cases a with
    | hiccup x hx => exact .passes rfl hx (ih hn)
    | data b bs =>
      simp only [live, List.flatMap_cons, List.length_append, List.length_cons] at hn
      have hlen : (b :: bs).length ≤ n := by
        rw [List.length_cons]
        omega
      refine .moves (k := bs.length) (t := ⟨as, .fail e true⟩) ?_ (by omega) (ih ?_)
      · simp only [call, recv, Option.map_some, List.take_of_length_le hlen, List.drop_of_length_le hlen, push,
          List.length_cons]
      · simp only [live]
        omega

end Inflow

namespace Outflow

variable {drops : ε → Bool}

def passing (f : Outflow drops) : List ε :=
  f.intakes.flatMap fun
    | .takes _ => []
    | .hiccup e _ => [e]

/-- How many bytes are taken before the last of the errors. -/
def room (f : Outflow drops) : Nat :=
  (f.intakes.map fun
    | .takes k => k
    | .hiccup _ _ => 0).sum

theorem failsFor {f : Outflow drops} {e : ε} {n : Nat} (hf : f.sink = .fail e) (hm : .takes 0 ∉ f.intakes)
    (hn : f.room < n) : FailsFor send drops e n f f.passing := by
  obtain ⟨is, sink⟩ := f
  obtain rfl : sink = .fail e := hf
  induction is generalizing n with
  | nil => exact .now hn rfl
  | cons i is ih =>
    have hm' : .takes 0 ∉ is := fun h => hm (List.mem_cons_of_mem _ h)
    cases i with
    | hiccup x hx =>
      simp only [room, List.map_cons, List.sum_cons, Nat.zero_add] at hn
      exact .passes rfl hx (ih hm' hn)
    | takes k =>
      simp only [room, List.map_cons, List.sum_cons] at hn
      cases k with
      | zero => exact absurd List.mem_cons_self hm
      | succ k =>
        have hk : min (k + 1) n = k + 1 := Nat.min_eq_left (by omega)
        refine .moves (k := k) (t := ⟨is, .fail e⟩) ?_ (by omega) (ih hm' ?_)
        · simp only [send, hk]
        · simp only [room]
          omega

end Outflow

end Wire
