import Pksh.Lib.Recut
import Pksh.Lib.Twin
import Pksh.MainLoop
import Pksh.Receiving

/-! States that differ in how the bytes of their connections are cut into
segments, and in the passing errors between them. -/

namespace Pksh

open Wire Traced

/-- Two sockets that bring the same bytes and take the same. -/
structure Sock.Recut (k k' : Sock) : Prop where
  inflow : k.inflow.Recut k'.inflow
  outflow : k'.outflow = k.outflow

inductive Desc.Recut : Desc → Desc → Prop
  | same (d : Desc) : Desc.Recut d d
  | sock {k k' : Sock} (h : k.Recut k') : Desc.Recut (.sock k) (.sock k')

theorem Desc.Recut.view {d d' : Desc} (h : d.Recut d') :
    (∃ k k', d = .sock k ∧ d' = .sock k' ∧ k.Recut k') ∨ (d' = d ∧ ∀ k, d ≠ .sock k) := by
  cases h with
  | sock h => exact .inl ⟨_, _, rfl, rfl, h⟩
  | same =>
    cases d with
    | sock k => exact .inl ⟨k, k, rfl, rfl, .refl _, rfl⟩
    | _ => exact .inr ⟨rfl, fun _ he => by cases he⟩

/-- Other streams for a state: behind its descriptors, and behind the
connections that are made and taken later. -/
structure Refit where
  desc : Int → Option Desc
  peer : Nat → Int → Sock
  accept : Nat → Option (Int × Sock)

def World.refit (w : World) (r : Refit) : World :=
  { w with desc := r.desc, os := { w.os with peer := r.peer, accept := r.accept } }

/-- They only differ in how they are cut. The descriptors in `files` are no
sockets. -/
structure World.Fits (files : Int → Prop) (w : World) (r : Refit) : Prop where
  desc : ∀ fd, Option.Rel Desc.Recut (w.desc fd) (r.desc fd)
  peer : ∀ t fd, (w.os.peer t fd).Recut (r.peer t fd)
  accept : ∀ t, Option.Rel (fun c c' => c'.1 = c.1 ∧ c.2.Recut c'.2) (w.os.accept t) (r.accept t)
  files : ∀ fd, files fd → ∀ k, w.desc fd ≠ some (.sock k)

def World.Recut (files : Int → Prop) (w w' : World) : Prop := ∃ r, w' = w.refit r ∧ w.Fits files r

abbrev Seamless {α : Type} (files : Int → Prop) (m : Io α) : Prop := Blind (World.Recut files) m

namespace World

variable {files : Int → Prop} {w : World} {r : Refit}

namespace Fits

theorem tick (h : w.Fits files r) : w.tick.Fits files r := ⟨h.desc, h.peer, h.accept, h.files⟩

theorem vars (h : w.Fits files r) (v : Vars) : Fits files { w with toVars := v } r := ⟨h.desc, h.peer, h.accept, h.files⟩

theorem weaken (h : w.Fits files r) {files' : Int → Prop} (hf : ∀ fd, files' fd → ∀ k, w.desc fd ≠ some (.sock k)) :
    w.Fits files' r := ⟨h.desc, h.peer, h.accept, hf⟩

theorem unused (h : w.Fits files r) : (w.refit r).unused = w.unused := by
  funext fd
  have hd := h.desc fd
  have hn : (r.desc fd).isNone = (w.desc fd).isNone := by
    generalize w.desc fd = d at hd
    generalize r.desc fd = d' at hd
    cases hd <;> rfl
  rw [World.unused, World.unused]
  exact congrArg (decide (0 ≤ fd) && ·) hn

theorem isSome (h : w.Fits files r) (fd : Int) : (r.desc fd).isSome = (w.desc fd).isSome := by
  have hd := h.desc fd
  generalize w.desc fd = d at hd
  generalize r.desc fd = d' at hd
  cases hd <;> rfl

theorem setDesc (h : w.Fits files r) (fd : Int) {d d' : Option Desc} (hd : Option.Rel Desc.Recut d d')
    (hf : files fd → ∀ k, d ≠ some (.sock k)) :
    (w.setDesc fd d).Fits files { r with desc := Function.update r.desc fd d' } := by
  refine ⟨fun x => ?_, h.peer, h.accept, fun x hx => ?_⟩
  · by_cases hx : x = fd
    · subst hx
      simpa [World.setDesc] using hd
    · simpa [World.setDesc, Function.update_of_ne hx] using h.desc x
  · by_cases hfd : x = fd
    · subst hfd
      simpa [World.setDesc] using hf hx
    · simpa [World.setDesc, Function.update_of_ne hfd] using h.files x hx

theorem sockAt (h : w.Fits files r) (s : Int) : (w.sockAt s).Recut ((w.refit r).sockAt s) := by
  have hd := h.desc s
  have hr : (w.refit r).desc s = r.desc s := rfl
  rw [World.sockAt, World.sockAt, hr]
  generalize w.desc s = d at hd
  generalize r.desc s = d' at hd
  cases hd with
  | none => exact ⟨.refl _, rfl⟩
  | some hd =>
    cases hd with
    | same => exact ⟨.refl _, rfl⟩
    | sock hk => exact hk

theorem inflow (h : w.Fits files r) (s : Int) : (w.inflow s).Recut ((w.refit r).inflow s) := (h.sockAt s).inflow

theorem outflow (h : w.Fits files r) (s : Int) : (w.refit r).outflow s = w.outflow s := (h.sockAt s).outflow

theorem putSock (h : w.Fits files r) (s : Int) {k k' : Sock} (hk : k.Recut k') :
    World.Recut files (w.putSock s k) ((w.refit r).putSock s k') := by
  have hd := h.desc s
  have hr : (w.refit r).desc s = r.desc s := rfl
  rw [World.putSock, World.putSock, hr]
  generalize hx : w.desc s = d at hd
  generalize r.desc s = d' at hd
  cases hd with
  | none => exact ⟨r, rfl, h⟩
  | @some d d' hd =>
    cases hd with
    | same =>
      cases d with
      | sock k0 => exact ⟨_, rfl, h.setDesc s (.some (.sock hk)) fun hs => absurd hx (h.files s hs k0)⟩
      | fresh => exact ⟨r, rfl, h⟩
      | plain => exact ⟨r, rfl, h⟩
    | @sock k0 k0' hk0 => exact ⟨_, rfl, h.setDesc s (.some (.sock hk)) fun hs => absurd hx (h.files s hs k0)⟩

theorem putInflow (h : w.Fits files r) (s : Int) {f f' : Inflow Byte Errno.drops} (hf : f.Recut f') :
    World.Recut files (w.putInflow s f) ((w.refit r).putInflow s f') := h.putSock s ⟨hf, h.outflow s⟩

theorem putOutflow (h : w.Fits files r) (s : Int) (f : Outflow Errno.drops) :
    World.Recut files (w.putOutflow s f) ((w.refit r).putOutflow s f) := h.putSock s ⟨h.inflow s, rfl⟩

end Fits

end World

end Pksh
