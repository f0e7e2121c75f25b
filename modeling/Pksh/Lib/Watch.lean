import Pksh.Lib.Prog

/-! Watchers over traces. A watcher has a memory that every act updates or
refuses, and a triple says what it is left with behind a program. -/

namespace Traced

variable {σ ω κ α β ι : Type}

def watch (step : κ → ω → Option κ) : κ → List ω → Option κ
  | k, [] => some k
  | k, a :: as => (step k a).bind fun k' => watch step k' as

variable {step : κ → ω → Option κ}

@[simp] theorem watch_nil (k : κ) : watch step k [] = some k := rfl

@[simp] theorem watch_cons (k : κ) (a : ω) (as : List ω) :
    watch step k (a :: as) = (step k a).bind fun k' => watch step k' as := rfl

theorem watch_append (k : κ) (as bs : List ω) :
    watch step k (as ++ bs) = (watch step k as).bind fun k' => watch step k' bs := by
  induction as generalizing k with
  | nil => rfl
  | cons a as ih =>
    simp only [List.cons_append, watch_cons, Option.bind_assoc]
    exact Option.bind_congr fun k' _ => ih k'

theorem watch_append_none {k : κ} {as : List ω} (h : watch step k as = none) (bs : List ω) :
    watch step k (as ++ bs) = none := by
  rw [watch_append, h, Option.bind_none]

theorem watch_append_some {k k' : κ} {as : List ω} (h : watch step k as = some k') (bs : List ω) :
    watch step k (as ++ bs) = watch step k' bs := by
  rw [watch_append, h, Option.bind_some]

theorem watch_of_pass {k : κ} {as : List ω} (h : ∀ a ∈ as, step k a = some k) : watch step k as = some k := by
  induction as with
  | nil => rfl
  | cons a as ih =>
    rw [watch_cons, h a List.mem_cons_self, Option.bind_some]
    exact ih fun b hb => h b (List.mem_cons_of_mem _ hb)

variable {R : σ → List ω → σ → Prop} {P P' : κ → σ → Prop} {Q Q' : α → κ → σ → Prop} {m : Prog R α}

/-- From `P` no act of the program is refused, and behind it `Q` holds if it
returns. -/
def Triple (step : κ → ω → Option κ) (P : κ → σ → Prop) (m : Prog R α) (Q : α → κ → σ → Prop) : Prop :=
  ∀ k s, P k s → ∃ k', watch step k (m.run s).acts = some k' ∧
    ∀ a, (m.run s).value = some a → Q a k' (m.run s).state

namespace Triple

theorem consequence (h : Triple step P m Q) (hp : ∀ k s, P' k s → P k s) (hq : ∀ a k s, Q a k s → Q' a k s) :
    Triple step P' m Q' := by
  intro k s hs
  obtain ⟨k', hw, hk⟩ := h k s (hp k s hs)
  exact ⟨k', hw, fun a ha => hq _ _ _ (hk a ha)⟩

theorem ite {c : Prop} [Decidable c] {p q : Prog R α} (hp : c → Triple step P p Q) (hq : ¬c → Triple step P q Q) :
    Triple step P (if c then p else q) Q := by
  split
  · exact hp ‹_›
  · exact hq ‹_›

theorem of_pass (h : ∀ k s, P k s → (∀ a ∈ (m.run s).acts, step k a = some k) ∧
    ∀ a, (m.run s).value = some a → P k (m.run s).state) : Triple step P m fun _ => P :=
  fun k s hs => ⟨k, watch_of_pass (h k s hs).1, (h k s hs).2⟩

variable [Chains R]

theorem pure (a : α) (h : ∀ k s, P k s → Q a k s) : Triple step P (pure a : Prog R α) Q :=
  fun k s hs => ⟨k, rfl, fun _ hb => Option.some.inj hb ▸ h k s hs⟩

theorem hang : Triple step P (Prog.hang : Prog R α) Q := fun k _ _ => ⟨k, rfl, fun _ h => nomatch h⟩

theorem bind_at {f : α → Prog R β} {Q' : β → κ → σ → Prop} {k : κ} {s : σ}
    (hm : ∃ k', watch step k (m.run s).acts = some k' ∧ ∀ a, (m.run s).value = some a → Q a k' (m.run s).state)
    (hf : ∀ a, Triple step (Q a) (f a) Q') : ∃ k', watch step k ((m >>= f).run s).acts = some k' ∧
      ∀ b, ((m >>= f).run s).value = some b → Q' b k' ((m >>= f).run s).state := by
  obtain ⟨k', hw, hq⟩ := hm
  cases hv : (m.run s).value with
  | none =>
    rw [Prog.run_bind, Result.andThen_none _ hv]
    exact ⟨k', hw, fun _ h => nomatch h⟩
  | some a =>
    obtain ⟨k'', hw', hq'⟩ := hf a k' _ (hq a hv)
    rw [Prog.run_bind, Result.andThen_some _ hv]
    exact ⟨k'', (watch_append_some hw _).trans hw', hq'⟩

theorem bind {f : α → Prog R β} {Q' : β → κ → σ → Prop} (hm : Triple step P m Q)
    (hf : ∀ a, Triple step (Q a) (f a) Q') : Triple step P (m >>= f) Q' :=
  fun k s hs => bind_at (hm k s hs) hf

theorem get_bind {g : σ → Prog R α} (h : ∀ s, Triple step (fun k t => t = s ∧ P k t) (g s) Q) :
    Triple step P (Prog.get >>= g) Q :=
  fun k s hs => h s k s ⟨rfl, hs⟩

end Triple

section Runs

variable [Chains R] (exec : ι → Prog R Unit)

def runAll : List ι → Prog R Unit
  | [] => pure ()
  | e :: es => do
    exec e
    runAll es

/-- The events of a run, each with the state it starts from. -/
def journalOf : List ι → σ → List (ι × σ)
  | [], _ => []
  | e :: es, s => (e, s) :: match ((exec e).run s).value with
    | none => []
    | some _ => journalOf es ((exec e).run s).state

variable {exec}

omit [Chains R] in
theorem mem_of_journalOf {es : List ι} {s : σ} {x : ι × σ} (h : x ∈ journalOf exec es s) : x.1 ∈ es := by
  induction es generalizing s with
  | nil => cases h
  | cons e es ih =>
    rcases List.mem_cons.mp h with rfl | h
    · exact List.mem_cons_self
    · cases hv : ((exec e).run s).value with
      | none =>
        rw [hv] at h
        cases h
      | some u =>
        rw [hv] at h
        exact List.mem_cons_of_mem _ (ih h)

omit [Chains R] in
/-- What every event keeps that returns holds where each event of a run starts. -/
theorem holds_journalOf {I : σ → Prop} (h : ∀ e s, I s → ((exec e).run s).value = some () → I ((exec e).run s).state)
    (es : List ι) {s : σ} (hs : I s) : ∀ x ∈ journalOf exec es s, I x.2 := by
  induction es generalizing s with
  | nil => exact fun _ hx => nomatch hx
  | cons e es ih =>
    intro x hx
    rcases List.mem_cons.mp hx with rfl | hx
    · exact hs
    · cases hv : ((exec e).run s).value with
      | none =>
        rw [hv] at hx
        cases hx
      | some u =>
        rw [hv] at hx
        exact ih (h e s hs hv) x hx

theorem Triple.runAll {I : κ → σ → Prop} (h : ∀ e, Triple step I (exec e) fun _ => I) (es : List ι) :
    Triple step I (runAll exec es) fun _ => I := by
  induction es with
  | nil => exact .pure () fun _ _ hs => hs
  | cons e es ih => exact (h e).bind fun _ => ih

/-- When every event that meets its condition keeps a relation, so does a run
of them. -/
theorem keeps_runAll {T : σ → List ω → σ → Prop} [Chains T] {C : ι → σ → Prop}
    (h : ∀ e s, C e s → T s ((exec e).run s).acts ((exec e).run s).state) (es : List ι) {s : σ}
    (hc : ∀ e ∈ journalOf exec es s, C e.1 e.2) :
    T s ((runAll exec es).run s).acts ((runAll exec es).run s).state := by
  induction es generalizing s with
  | nil => exact Chains.nil s
  | cons e es ih =>
    refine Sat.bind_at (h e s (hc (e, s) List.mem_cons_self)) fun u hu => ih fun e' he => ?_
    exact hc e' (List.mem_cons_of_mem _ (by rw [hu]; exact he))

/-- What every event keeps that meets its condition and returns holds behind a
run that returns. -/
theorem holds_runAll {I : σ → Prop} {C : ι → σ → Prop}
    (h : ∀ e s, I s → C e s → ((exec e).run s).value = some () → I ((exec e).run s).state) (es : List ι) {s : σ}
    (hs : I s) (hc : ∀ e ∈ journalOf exec es s, C e.1 e.2) (hr : ((runAll exec es).run s).value = some ()) :
    I ((runAll exec es).run s).state := by
  induction es generalizing s with
  | nil => exact hs
  | cons e es ih =>
    rw [Traced.runAll, Prog.run_bind] at hr ⊢
    cases hv : ((exec e).run s).value with
    | none =>
      rw [Result.andThen_none _ hv] at hr
      cases hr
    | some u =>
      rw [Result.andThen_some _ hv] at hr ⊢
      refine ih (h e s hs (hc (e, s) List.mem_cons_self) hv) (fun e' he => ?_) hr
      exact hc e' (List.mem_cons_of_mem _ (by rw [hv]; exact he))

/-- When an event may only rely on its condition, the run is right if every
event meets its own. -/
theorem watch_runAll {I : κ → σ → Prop} {C : ι → σ → Prop}
    (hgood : ∀ e, Triple step (fun k s => I k s ∧ C e s) (exec e) fun _ => I) (es : List ι) {k : κ} {s : σ}
    (hs : I k s) (hc : ∀ e ∈ journalOf exec es s, C e.1 e.2) :
    ∃ k', watch step k ((runAll exec es).run s).acts = some k' ∧
      ∀ a, ((runAll exec es).run s).value = some a → I k' ((runAll exec es).run s).state := by
  induction es generalizing k s with
  | nil => exact ⟨k, rfl, fun _ _ => hs⟩
  | cons e es ih =>
    obtain ⟨k', hw, hi⟩ := hgood e k s ⟨hs, hc (e, s) List.mem_cons_self⟩
    cases hv : ((exec e).run s).value with
    | none =>
      simp only [Traced.runAll, Prog.run_bind, Result.andThen_none _ hv]
      exact ⟨k', hw, fun _ h => nomatch h⟩
    | some _ =>
      have hj : ∀ e' ∈ journalOf exec es ((exec e).run s).state, C e'.1 e'.2 := by
        intro e' he
        exact hc e' (List.mem_cons_of_mem _ (by rw [hv]; exact he))
      obtain ⟨k'', hw', hi'⟩ := ih (hi _ hv) hj
      simp only [Traced.runAll, Prog.run_bind, Result.andThen_some _ hv]
      exact ⟨k'', (watch_append_some hw _).trans hw', hi'⟩

/-- When moreover an event that misses its condition is refused, so is a run
with such an event. -/
theorem watch_runAll_none {I : κ → σ → Prop} {C : ι → σ → Prop}
    (hgood : ∀ e, Triple step (fun k s => I k s ∧ C e s) (exec e) fun _ => I)
    (hbad : ∀ e k s, I k s → ¬C e s → watch step k ((exec e).run s).acts = none) (es : List ι) {k : κ} {s : σ}
    (hs : I k s) (hc : ¬∀ e ∈ journalOf exec es s, C e.1 e.2) :
    watch step k ((runAll exec es).run s).acts = none := by
  induction es generalizing k s with
  | nil => exact absurd (fun _ h => nomatch h) hc
  | cons e es ih =>
    by_cases he : C e s
    · obtain ⟨k', hw, hi⟩ := hgood e k s ⟨hs, he⟩
      cases hv : ((exec e).run s).value with
      | none =>
        refine absurd (fun e' h => ?_) hc
        rw [journalOf, hv, List.mem_singleton] at h
        exact h ▸ he
      | some _ =>
        simp only [Traced.runAll, Prog.run_bind, Result.andThen_some _ hv]
        refine (watch_append_some hw _).trans (ih (hi _ hv) fun hj => hc ?_)
        rw [journalOf, hv, List.forall_mem_cons]
        exact ⟨he, hj⟩
    · obtain ⟨bs, hbs⟩ := Result.acts_prefix_andThen ((exec e).run s) fun _ => (Traced.runAll exec es).run
      simp only [Traced.runAll, Prog.run_bind, ← hbs]
      exact watch_append_none (hbad e k s hs he) bs

theorem run_runAll_append (es es' : List ι) (s : σ) :
    (runAll exec (es ++ es')).run s = ((runAll exec es).run s).andThen fun _ => (runAll exec es').run := by
  induction es generalizing s with
  | nil =>
    rw [List.nil_append, Traced.runAll, Prog.run_pure, Result.andThen_mk_some]
    rfl
  | cons e es ih =>
    simp only [List.cons_append, Traced.runAll, Prog.run_bind, Result.andThen_assoc]
    exact congrArg _ (funext fun _ => funext fun t => ih t)

variable (exec) in
def Unrolls (m : Prog R α) : Prop :=
  ∀ s, ∃ es, ((runAll exec es).run s).acts = (m.run s).acts ∧ ((runAll exec es).run s).state = (m.run s).state ∧
    (((runAll exec es).run s).value = none ↔ (m.run s).value = none)

namespace Unrolls

variable {m : Prog R α}

theorem pure (a : α) : Unrolls exec (pure a : Prog R α) := fun _ => ⟨[], rfl, rfl, by simp [Traced.runAll]⟩

theorem single (e : ι) (h : ∀ s, ((exec e).run s).acts = (m.run s).acts ∧ ((exec e).run s).state = (m.run s).state ∧
    (((exec e).run s).value = none ↔ (m.run s).value = none)) : Unrolls exec m := by
  intro s
  obtain ⟨ha, ht, hv⟩ := h s
  refine ⟨[e], ?_⟩
  rw [← ha, ← ht, ← hv]
  cases he : ((exec e).run s).value with
  | none => simp [Traced.runAll, Result.andThen_none _ he]
  | some a => simp [Traced.runAll, Result.andThen_some _ he]

theorem event (e : ι) : Unrolls exec (exec e) := single e fun _ => ⟨rfl, rfl, .rfl⟩

theorem bind_at {f : α → Prog R β} {s : σ} {es : List ι} (hm : ((runAll exec es).run s).acts = (m.run s).acts ∧
      ((runAll exec es).run s).state = (m.run s).state ∧
      (((runAll exec es).run s).value = none ↔ (m.run s).value = none))
    (hf : ∀ a, (m.run s).value = some a → Unrolls exec (f a)) :
    ∃ es, ((runAll exec es).run s).acts = ((m >>= f).run s).acts ∧
      ((runAll exec es).run s).state = ((m >>= f).run s).state ∧
      (((runAll exec es).run s).value = none ↔ ((m >>= f).run s).value = none) := by
  obtain ⟨ha, ht, hv⟩ := hm
  cases hm : (m.run s).value with
  | none => exact ⟨es, by simp [Result.andThen_none _ hm, ha, ht, hv.mpr hm]⟩
  | some a =>
    obtain ⟨u, hu⟩ := Option.ne_none_iff_exists'.mp fun hn => by simpa [hm] using hv.mp hn
    obtain ⟨es', ha', ht', hv'⟩ := hf a hm (m.run s).state
    refine ⟨es ++ es', ?_⟩
    simp only [run_runAll_append, Prog.run_bind, Result.andThen_some _ hm, Result.andThen_some _ hu, ht,
      Result.after_acts, Result.after_state, Result.after_value, ha, ha', ht', hv', and_self]

theorem bind {f : α → Prog R β} (hm : Unrolls exec m) (hf : ∀ a, Unrolls exec (f a)) : Unrolls exec (m >>= f) :=
  fun s => bind_at (hm s).choose_spec fun a _ => hf a

theorem get_bind {g : σ → Prog R α} (h : ∀ s, Unrolls exec (g s)) : Unrolls exec (Prog.get >>= g) :=
  fun s => h s s

theorem ite {c : Prop} [Decidable c] {p q : Prog R α} (hp : Unrolls exec p) (hq : Unrolls exec q) :
    Unrolls exec (if c then p else q) := by
  split
  · exact hp
  · exact hq

end Unrolls

end Runs

end Traced
