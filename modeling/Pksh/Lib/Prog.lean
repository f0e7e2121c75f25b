import Mathlib.Data.List.Basic

/-! Programs over a state that leave a trace of acts and may never return.
A call that never returns still has the effects and the acts it had before.
A program carries the proof that every run of it keeps a relation between the
state before, the acts, and the state after. -/

namespace Traced

structure Result (σ ω α : Type) where
  value : Option α
  state : σ
  acts : List ω

variable {σ ω α β ι : Type}

/-- A relation that holds of a whole run as soon as it holds of its parts. -/
class Chains (R : σ → List ω → σ → Prop) : Prop where
  nil : ∀ s, R s [] s
  append : ∀ {s t u as bs}, R s as t → R t bs u → R s (as ++ bs) u

structure Prog (R : σ → List ω → σ → Prop) (α : Type) where
  run : σ → Result σ ω α
  keeps : ∀ s, R s (run s).acts (run s).state

namespace Result

/-- The acts of an earlier part of the run come first. -/
def after (as : List ω) (r : Result σ ω α) : Result σ ω α := ⟨r.value, r.state, as ++ r.acts⟩

def andThen (r : Result σ ω α) (f : α → σ → Result σ ω β) : Result σ ω β :=
  match r.value with
  | none => ⟨none, r.state, r.acts⟩
  | some a => (f a r.state).after r.acts

@[simp] theorem after_value (as : List ω) (r : Result σ ω α) : (r.after as).value = r.value := rfl

@[simp] theorem after_state (as : List ω) (r : Result σ ω α) : (r.after as).state = r.state := rfl

@[simp] theorem after_acts (as : List ω) (r : Result σ ω α) : (r.after as).acts = as ++ r.acts := rfl

@[simp] theorem after_mk (as bs : List ω) (v : Option α) (s : σ) :
    (Result.mk v s bs).after as = ⟨v, s, as ++ bs⟩ := rfl

theorem after_after (as bs : List ω) (r : Result σ ω α) : (r.after bs).after as = r.after (as ++ bs) := by
  rw [after, after, after, List.append_assoc]

theorem andThen_none {r : Result σ ω α} (f : α → σ → Result σ ω β) (h : r.value = none) :
    r.andThen f = ⟨none, r.state, r.acts⟩ := by
  simp [andThen, h]

theorem andThen_some {r : Result σ ω α} (f : α → σ → Result σ ω β) {a : α}
    (h : r.value = some a) : r.andThen f = (f a r.state).after r.acts := by
  simp [andThen, h]

theorem acts_prefix_andThen (r : Result σ ω α) (f : α → σ → Result σ ω β) :
    r.acts <+: (r.andThen f).acts := by
  cases h : r.value with
  | none => simp [andThen_none f h]
  | some a =>
    rw [andThen_some f h]
    exact List.prefix_append _ _

theorem acts_andThen_pure (r : Result σ ω α) (b : β) :
    (r.andThen fun _ s => (⟨some b, s, []⟩ : Result σ ω β)).acts = r.acts := by
  cases h : r.value with
  | none => rw [andThen_none _ h]
  | some a => rw [andThen_some _ h, after_acts, List.append_nil]

theorem andThen_assoc {γ : Type} (r : Result σ ω α) (f : α → σ → Result σ ω β) (g : β → σ → Result σ ω γ) :
    (r.andThen f).andThen g = r.andThen fun a s => (f a s).andThen g := by
  obtain ⟨_ | a, s, as⟩ := r
  · rfl
  · rcases h : f a s with ⟨_ | b, t, bs⟩
    · simp [andThen, after, h]
    · simp [andThen, after, h]

@[simp] theorem andThen_mk_some (a : α) (s : σ) (as : List ω) (f : α → σ → Result σ ω β) :
    (Result.mk (some a) s as).andThen f = (f a s).after as := rfl

@[simp] theorem andThen_mk_none (s : σ) (as : List ω) (f : α → σ → Result σ ω β) :
    (Result.mk (none : Option α) s as).andThen f = ⟨none, s, as⟩ := rfl

end Result

namespace Prog

variable {R : σ → List ω → σ → Prop}

theorem keeps_andThen [Chains R] (m : Prog R α) (f : α → Prog R β) (s : σ) :
    R s ((m.run s).andThen fun a => (f a).run).acts ((m.run s).andThen fun a => (f a).run).state := by
  cases hv : (m.run s).value with
  | none =>
    rw [Result.andThen_none _ hv]
    exact m.keeps s
  | some a =>
    rw [Result.andThen_some _ hv]
    exact Chains.append (m.keeps s) ((f a).keeps _)

instance [Chains R] : Monad (Prog R) where
  pure a := ⟨fun s => ⟨some a, s, []⟩, Chains.nil⟩
  bind m f := ⟨fun s => (m.run s).andThen fun a => (f a).run, keeps_andThen m f⟩

section Basic

variable [Chains R]

def get : Prog R σ := ⟨fun s => ⟨some s, s, []⟩, Chains.nil⟩

def hang : Prog R α := ⟨fun s => ⟨none, s, []⟩, Chains.nil⟩

@[simp] theorem run_pure (a : α) (s : σ) : (pure a : Prog R α).run s = ⟨some a, s, []⟩ := rfl

@[simp] theorem run_bind (m : Prog R α) (f : α → Prog R β) (s : σ) :
    (m >>= f).run s = (m.run s).andThen fun a => (f a).run := rfl

theorem run_bind_pure (m : Prog R α) (f : α → β) (s : σ) :
    (m >>= fun a => pure (f a)).run s = ⟨(m.run s).value.map f, (m.run s).state, (m.run s).acts⟩ := by
  rw [run_bind]
  cases hv : (m.run s).value with
  | none => rw [Result.andThen_none _ hv, Option.map_none]
  | some a => rw [Result.andThen_some _ hv, run_pure, Result.after_mk, List.append_nil, Option.map_some]

theorem value_bind {m : Prog R α} {f : α → Prog R β} {s : σ} {b : β} (h : ((m >>= f).run s).value = some b) :
    ∃ a, (m.run s).value = some a ∧ ((f a).run (m.run s).state).value = some b := by
  rw [run_bind] at h
  cases hv : (m.run s).value with
  | none =>
    rw [Result.andThen_none _ hv] at h
    cases h
  | some a =>
    rw [Result.andThen_some _ hv] at h
    exact ⟨a, rfl, h⟩

@[simp] theorem run_get (s : σ) : (get : Prog R σ).run s = ⟨some s, s, []⟩ := rfl

@[simp] theorem run_hang (s : σ) : (hang : Prog R α).run s = ⟨none, s, []⟩ := rfl

end Basic

end Prog

def Sat {R : σ → List ω → σ → Prop} (S : σ → List ω → σ → Prop) (m : Prog R α) : Prop :=
  ∀ s, S s (m.run s).acts (m.run s).state

namespace Sat

variable {R S T : σ → List ω → σ → Prop} {m : Prog R α}

theorem mono (hm : Sat S m) (h : ∀ {s as t}, S s as t → T s as t) : Sat T m := fun s => h (hm s)

theorem ite {c : Prop} [Decidable c] {p q : Prog R α} (hp : Sat S p) (hq : Sat S q) :
    Sat S (if c then p else q) := by
  split
  · exact hp
  · exact hq

theorem ite_at {c : Prop} [Decidable c] {p q : Prog R α} {s : σ} (hp : c → S s (p.run s).acts (p.run s).state)
    (hq : ¬c → S s (q.run s).acts (q.run s).state) :
    S s ((if c then p else q).run s).acts ((if c then p else q).run s).state := by
  by_cases hc : c
  · simp only [if_pos hc]
    exact hp hc
  · simp only [if_neg hc]
    exact hq hc

variable [Chains R]

theorem get_bind {g : σ → Prog R β}
    (hg : ∀ s, S s ((g s).run s).acts ((g s).run s).state) : Sat S (Prog.get >>= g) :=
  fun s => hg s

variable [Chains S] {f : α → Prog R β}

theorem pure (a : α) : Sat S (pure a : Prog R α) := fun s => Chains.nil s

theorem get : Sat S (Prog.get : Prog R σ) := fun s => Chains.nil s

theorem hang : Sat S (Prog.hang : Prog R α) := fun s => Chains.nil s

theorem bind_at {s : σ} (hm : S s (m.run s).acts (m.run s).state)
    (hf : ∀ a, (m.run s).value = some a →
      S (m.run s).state ((f a).run (m.run s).state).acts ((f a).run (m.run s).state).state) :
    S s ((m >>= f).run s).acts ((m >>= f).run s).state := by
  cases hv : (m.run s).value with
  | none =>
    rw [Prog.run_bind, Result.andThen_none _ hv]
    exact hm
  | some a =>
    rw [Prog.run_bind, Result.andThen_some _ hv]
    exact Chains.append hm (hf a hv)

theorem bind (hm : Sat S m) (hf : ∀ a, Sat S (f a)) : Sat S (m >>= f) :=
  fun s => bind_at (hm s) fun a _ => hf a (m.run s).state

end Sat

/-- Every act satisfies `φ`. -/
def AllActs (φ : ω → Prop) : σ → List ω → σ → Prop := fun _ as _ => ∀ a ∈ as, φ a

instance (φ : ω → Prop) : Chains (AllActs φ : σ → List ω → σ → Prop) where
  nil := by simp [AllActs]
  append h h' := by
    intro a ha
    rcases List.mem_append.mp ha with ha | ha
    · exact h a ha
    · exact h' a ha

/-- A part of the state, or a property of it, that never changes. -/
def Fixes {γ : Type} (p : σ → γ) : σ → List ω → σ → Prop := fun s _ t => p t = p s

instance {γ : Type} (p : σ → γ) : Chains (Fixes p : σ → List ω → σ → Prop) where
  nil _ := rfl
  append h h' := h'.trans h

/-- When every step that meets its condition keeps an invariant, and one that
misses it leads where the property fails, the property holds in every state
reached exactly when every step meets its condition. -/
theorem reached_iff (step : σ → ι → σ → Prop) (I P : σ → Prop) (C : σ → ι → Prop) (himp : ∀ s, I s → P s)
    (good : ∀ s i t, step s i t → I s → C s i → I t) (bad : ∀ s i t, step s i t → I s → ¬C s i → ¬P t)
    {is : List ι} (x : Nat → σ) (hx : ∀ k (h : k < is.length), step (x k) is[k] (x (k + 1))) (h0 : I (x 0)) :
    (∀ k ≤ is.length, P (x k)) ↔ ∀ k (h : k < is.length), C (x k) is[k] := by
  have hI : ∀ n ≤ is.length, (∀ k (_ : k < n) (h : k < is.length), C (x k) is[k]) → I (x n) := by
    intro n
    induction n with
    | zero => exact fun _ _ => h0
    | succ n ih =>
      intro hn hC
      have hi := ih (Nat.le_of_succ_le hn) fun k hk => hC k (Nat.lt_succ_of_lt hk)
      exact good _ _ _ (hx n hn) hi (hC n (Nat.lt_succ_self n) hn)
  constructor
  · intro hP k
    induction k using Nat.strongRecOn with
    | ind k ih =>
      intro hk
      by_contra hc
      exact bad _ _ _ (hx k hk) (hI k (Nat.le_of_lt hk) fun j hj => ih j hj) hc (hP (k + 1) hk)
  · exact fun hC k hk => himp _ (hI k hk fun j _ hn => hC j hn)

end Traced
