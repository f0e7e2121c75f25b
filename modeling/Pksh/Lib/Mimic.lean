import Pksh.Lib.Prog

/-! Two programs side by side, over states and acts of their own. A projection
of each says which of its acts are compared. -/

namespace Traced

variable {σ τ ω ν κ α β γ δ : Type}

/-- Related values or none, the same acts as far as they are shown, and states
that are related. -/
structure Mimics (see : ω → Option κ) (see' : ν → Option κ) (E : σ → τ → Prop) (V : α → β → Prop)
    (r : Result σ ω α) (r' : Result τ ν β) : Prop where
  value : Option.Rel V r.value r'.value
  acts : r.acts.filterMap see = r'.acts.filterMap see'
  state : E r.state r'.state

namespace Mimics

variable {see : ω → Option κ} {see' : ν → Option κ} {E : σ → τ → Prop} {V : α → β → Prop} {W : γ → δ → Prop}
  {r : Result σ ω α} {r' : Result τ ν β}

theorem after (h : Mimics see see' E V r r') {as : List ω} {bs : List ν} (ha : as.filterMap see = bs.filterMap see') :
    Mimics see see' E V (r.after as) (r'.after bs) := by
  refine ⟨h.value, ?_, h.state⟩
  rw [Result.after_acts, Result.after_acts, List.filterMap_append, List.filterMap_append, ha, h.acts]

theorem after_left (h : Mimics see see' E V r r') {as : List ω} (ha : ∀ a ∈ as, see a = none) :
    Mimics see see' E V (r.after as) r' := by
  refine ⟨h.value, ?_, h.state⟩
  rw [Result.after_acts, List.filterMap_append, List.filterMap_eq_nil_iff.mpr ha, List.nil_append, h.acts]

theorem andThen (h : Mimics see see' E V r r') {f : α → σ → Result σ ω γ} {g : β → τ → Result τ ν δ}
    (hf : ∀ a b, V a b → r.value = some a → r'.value = some b → Mimics see see' E W (f a r.state) (g b r'.state)) :
    Mimics see see' E W (r.andThen f) (r'.andThen g) := by
  have hv := h.value
  generalize ha : r.value = x at hv
  generalize hb : r'.value = y at hv
  cases hv with
  | none =>
    rw [Result.andThen_none _ ha, Result.andThen_none _ hb]
    exact ⟨.none, h.acts, h.state⟩
  | some hab =>
    rw [Result.andThen_some _ ha, Result.andThen_some _ hb]
    exact (hf _ _ hab ha hb).after h.acts

theorem value_map (h : Option.Rel V r.value r'.value) {f : α → γ} {g : β → δ}
    (hfg : ∀ a b, V a b → W (f a) (g b)) : Option.Rel W (r.value.map f) (r'.value.map g) := by
  generalize r.value = x at h
  generalize r'.value = y at h
  cases h with
  | none => exact .none
  | some hab => exact .some (hfg _ _ hab)

theorem map_left {W : γ → β → Prop} (h : Mimics see see' E V r r') {f : α → γ} (hf : ∀ a b, V a b → W (f a) b) :
    Mimics see see' E W ⟨r.value.map f, r.state, r.acts⟩ r' :=
  ⟨by simpa using value_map h.value (g := id) hf, h.acts, h.state⟩

theorem map_right {W : α → δ → Prop} (h : Mimics see see' E V r r') {g : β → δ} (hg : ∀ a b, V a b → W a (g b)) :
    Mimics see see' E W r ⟨r'.value.map g, r'.state, r'.acts⟩ :=
  ⟨by simpa using value_map h.value (f := id) hg, h.acts, h.state⟩

end Mimics

variable {R : σ → List ω → σ → Prop} {S : τ → List ν → τ → Prop} [Chains R] [Chains S]
  {see : ω → Option κ} {see' : ν → Option κ} {E : σ → τ → Prop} {V : α → β → Prop} {W : γ → δ → Prop}

/-- From related states the second program shows what the first does. -/
def Mimic (see : ω → Option κ) (see' : ν → Option κ) (E : σ → τ → Prop) (V : α → β → Prop) (p : Prog R α)
    (q : Prog S β) : Prop :=
  ∀ s t, E s t → Mimics see see' E V (p.run s) (q.run t)

namespace Mimic

theorem pure {a : α} {b : β} (h : V a b) : Mimic see see' E V (pure a : Prog R α) (pure b : Prog S β) :=
  fun _ _ he => ⟨.some h, rfl, he⟩

theorem bind {p : Prog R α} {q : Prog S β} {f : α → Prog R γ} {g : β → Prog S δ} (hp : Mimic see see' E V p q)
    (hf : ∀ a b, V a b → Mimic see see' E W (f a) (g b)) : Mimic see see' E W (p >>= f) (q >>= g) :=
  fun s t he => (hp s t he).andThen fun a b hab _ _ => hf a b hab _ _ (hp s t he).state

omit [Chains R] [Chains S] in
theorem ite {c : Prop} [Decidable c] {p p' : Prog R α} {q q' : Prog S β} (hp : c → Mimic see see' E V p q)
    (hq : ¬c → Mimic see see' E V p' q') : Mimic see see' E V (if c then p else p') (if c then q else q') := by
  split
  · exact hp ‹_›
  · exact hq ‹_›

omit [Chains S] in
theorem map_left {p : Prog R α} {q : Prog S β} {W : γ → β → Prop} (hp : Mimic see see' E V p q) {f : α → γ}
    (hf : ∀ a b, V a b → W (f a) b) : Mimic see see' E W (p >>= fun a => Pure.pure (f a)) q :=
  fun s t he => (Prog.run_bind_pure p f s).symm ▸ (hp s t he).map_left hf

omit [Chains R] in
theorem map_right {p : Prog R α} {q : Prog S β} {W : α → δ → Prop} (hp : Mimic see see' E V p q) {g : β → δ}
    (hg : ∀ a b, V a b → W a (g b)) : Mimic see see' E W p (q >>= fun b => Pure.pure (g b)) :=
  fun s t he => (Prog.run_bind_pure q g t).symm ▸ (hp s t he).map_right hg

theorem get_bind {f : σ → Prog R γ} {g : τ → Prog S δ}
    (h : ∀ s t, E s t → Mimics see see' E W ((f s).run s) ((g t).run t)) :
    Mimic see see' E W (Prog.get >>= f) (Prog.get >>= g) := h

end Mimic

end Traced
