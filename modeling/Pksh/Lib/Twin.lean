import Pksh.Lib.Prog

/-! Two runs of a program side by side, from states that a relation takes to be
the same: a part of the state that the relation leaves out does not matter. -/

namespace Traced

variable {σ ω α β : Type} {R : σ → List ω → σ → Prop} {E : σ → σ → Prop}

/-- The same value and the same acts, in states taken to be the same. -/
structure Alike (E : σ → σ → Prop) (r r' : Result σ ω α) : Prop where
  value : r'.value = r.value
  acts : r'.acts = r.acts
  state : E r.state r'.state

namespace Alike

variable {r r' : Result σ ω α} {f g : α → σ → Result σ ω β}

theorem mono {F : σ → σ → Prop} (h : Alike E r r') (hF : E r.state r'.state → F r.state r'.state) : Alike F r r' :=
  ⟨h.value, h.acts, hF h.state⟩

theorem after (h : Alike E r r') (as : List ω) : Alike E (r.after as) (r'.after as) :=
  ⟨h.value, by rw [Result.after_acts, Result.after_acts, h.acts], h.state⟩

theorem andThen (h : Alike E r r') (hf : ∀ a, r.value = some a → Alike E (f a r.state) (g a r'.state)) :
    Alike E (r.andThen f) (r'.andThen g) := by
  cases hv : r.value with
  | none =>
    rw [Result.andThen_none _ hv, Result.andThen_none _ (h.value.trans hv)]
    exact ⟨rfl, h.acts, h.state⟩
  | some a =>
    rw [Result.andThen_some _ hv, Result.andThen_some _ (h.value.trans hv), h.acts]
    exact (hf a hv).after r.acts

end Alike

/-- What `E` leaves out does not matter to the program. -/
def Blind (E : σ → σ → Prop) (m : Prog R α) : Prop := ∀ s t, E s t → Alike E (m.run s) (m.run t)

namespace Blind

variable [Chains R] {m p q : Prog R α}

theorem pure (a : α) : Blind E (pure a : Prog R α) := fun _ _ h => ⟨rfl, rfl, h⟩

theorem bind_at {f : α → Prog R β} {s t : σ} (hm : Alike E (m.run s) (m.run t))
    (hf : ∀ a, (m.run s).value = some a → Alike E ((f a).run (m.run s).state) ((f a).run (m.run t).state)) :
    Alike E ((m >>= f).run s) ((m >>= f).run t) := hm.andThen hf

theorem bind {f : α → Prog R β} (hm : Blind E m) (hf : ∀ a, Blind E (f a)) : Blind E (m >>= f) :=
  fun s t h => (hm s t h).andThen fun a _ => hf a _ _ (hm s t h).state

/-- Reading the state: the continuation must not heed what `E` leaves out. -/
theorem get_bind {g : σ → Prog R α} (hg : ∀ s t, E s t → Alike E ((g s).run s) ((g t).run t)) :
    Blind E (Prog.get >>= g) := hg

theorem hang : Blind E (Prog.hang : Prog R α) := fun _ _ h => ⟨rfl, rfl, h⟩

omit [Chains R] in
theorem ite {c : Prop} [Decidable c] (hp : Blind E p) (hq : Blind E q) : Blind E (if c then p else q) := by
  split
  · exact hp
  · exact hq

end Blind

end Traced
