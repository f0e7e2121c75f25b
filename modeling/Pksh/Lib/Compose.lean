import Pksh.Lib.Watch

/-! Programs put together from given steps. What every step does the whole
program does. -/

namespace Traced

variable {σ ω κ : Type} {R : σ → List ω → σ → Prop} [Chains R]

inductive Composed (step : (α : Type) → Prog R α → Prop) : {α : Type} → Prog R α → Prop
  | step {α : Type} {m : Prog R α} (h : step α m) : Composed step m
  | pure {α : Type} (a : α) : Composed step (pure a)
  | hang {α : Type} : Composed step (Prog.hang : Prog R α)
  | bind {α β : Type} {m : Prog R α} {f : α → Prog R β} (hm : Composed step m) (hf : ∀ a, Composed step (f a)) :
      Composed step (m >>= f)
  | get_bind {α : Type} {g : σ → Prog R α} (h : ∀ s, Composed step (g s)) : Composed step (Prog.get >>= g)

namespace Composed

variable {α : Type} {step : (α : Type) → Prog R α → Prop} {m : Prog R α}

theorem ite {c : Prop} [Decidable c] {p q : Prog R α} (hp : Composed step p) (hq : Composed step q) :
    Composed step (if c then p else q) := by
  split
  · exact hp
  · exact hq

theorem sat {S : σ → List ω → σ → Prop} [Chains S] (h : ∀ {α : Type} {m : Prog R α}, step α m → Sat S m)
    (hm : Composed step m) : Sat S m := by
  induction hm with
  | step hm => exact h hm
  | pure a => exact .pure a
  | hang => exact .hang
  | bind _ _ ihm ihf => exact ihm.bind ihf
  | get_bind _ ih => exact .get_bind fun s => ih s s

theorem triple {next : κ → ω → Option κ} {I : κ → σ → Prop}
    (h : ∀ {α : Type} {m : Prog R α}, step α m → Triple next I m fun _ => I) (hm : Composed step m) :
    Triple next I m fun _ => I := by
  induction hm with
  | step hm => exact h hm
  | pure a => exact .pure a fun _ _ hs => hs
  | hang => exact .hang
  | bind _ _ ihm ihf => exact ihm.bind ihf
  | get_bind _ ih => exact .get_bind fun s => (ih s).consequence (fun _ _ h => h.2) fun _ _ _ h => h

end Composed

end Traced
