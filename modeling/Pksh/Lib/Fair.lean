import Mathlib.Order.Basic
import Mathlib.Tactic.Common

/-! Endless runs of several parties. -/

namespace Traced

variable {σ ι : Type}

/-- Where every step leaves the state or lowers the work, and some party can
always lower it until the run is done, a run in which every party gets its
turn again and again is done at some time, and stays so. -/
theorem done_of_fair {run : Nat → σ} (turn : Nat → ι → Prop) (work : σ → Nat) (Done : σ → Prop)
    (steps : ∀ k, run (k + 1) = run k ∨ work (run (k + 1)) < work (run k))
    (able : ∀ k, ¬Done (run k) → ∃ x, ∀ m, run m = run k → turn m x → work (run (m + 1)) < work (run m))
    (stays : ∀ k, Done (run k) → Done (run (k + 1))) (fair : ∀ x k, ∃ m, k ≤ m ∧ turn m x) :
    ∃ k, ∀ m, k ≤ m → Done (run m) := by
  have settles : ∀ n k, work (run k) = n → ∃ m, Done (run m) := by
    intro n
    induction n using Nat.strongRecOn with
    | ind n ih =>
      intro k hk
      by_cases hd : Done (run k)
      · exact ⟨k, hd⟩
      obtain ⟨x, hx⟩ := able k hd
      obtain ⟨m, hm, ht⟩ := fair x k
      -- Either nothing moves until the turn of `x`, or the work is lower before that.
      have hsame : ∀ d, run (k + d) = run k ∨ ∃ j, work (run j) < n := by
        intro d
        induction d with
        | zero => exact .inl rfl
        | succ d ihd =>
          rcases ihd with h | h
          · rcases steps (k + d) with hs | hs
            · exact .inl (hs.trans h)
            · exact .inr ⟨_, hk ▸ h ▸ hs⟩
          · exact .inr h
      obtain ⟨d, rfl⟩ := Nat.exists_eq_add_of_le hm
      rcases hsame d with h | ⟨j, hj⟩
      · have hlt := hx (k + d) h ht
        rw [h, hk] at hlt
        exact ih _ hlt _ rfl
      · exact ih _ hj _ rfl
  obtain ⟨k, hk⟩ := settles _ 0 rfl
  refine ⟨k, fun m hm => ?_⟩
  obtain ⟨d, rfl⟩ := Nat.exists_eq_add_of_le hm
  clear hm
  induction d with
  | zero => exact hk
  | succ d ih => exact stays (k + d) ih

end Traced
