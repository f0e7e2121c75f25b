import Pksh.Lib.Inflow

/-! The same bytes cut into other chunks, with other passing errors between
them: a reader of a fixed number of bytes does not tell them apart. -/

namespace Wire

namespace Inflow

variable {ε β : Type} {drops : ε → Bool}

structure Recut (f f' : Inflow β drops) : Prop where
  live : f'.live = f.live
  ending : f'.ending = f.ending

namespace Recut

variable {f f' g : Inflow β drops}

theorem refl (f : Inflow β drops) : f.Recut f := ⟨rfl, rfl⟩

theorem symm (h : f.Recut f') : f'.Recut f := ⟨h.live.symm, h.ending.symm⟩

theorem trans (h : f.Recut f') (h' : f'.Recut g) : f.Recut g := ⟨h'.live.trans h.live, h'.ending.trans h.ending⟩

theorem stop (h : f.Recut f') : f'.stop = f.stop := congrArg (Ending.stop drops) h.ending

/-- A reader gets the same from both, and what it leaves is the same again. -/
theorem read (h : f.Recut f') (n : Nat) :
    (f'.read n).1 = (f.read n).1 ∧ (f'.read n).2.1 = (f.read n).2.1 ∧ (f.read n).2.2.Recut (f'.read n).2.2 := by
  by_cases hn : n ≤ f.live.length
  · obtain ⟨h1, h2, h3, h4⟩ := read_full hn
    obtain ⟨h1', h2', h3', h4'⟩ := read_full (f := f') (h.live ▸ hn)
    exact ⟨h1'.trans h1.symm, by rw [h2', h2, h.live], by rw [h3', h3, h.live], by rw [h4', h4, h.ending]⟩
  · have hs := Nat.lt_of_not_le hn
    rw [read_short hs, read_short (f := f') (h.live ▸ hs), h.stop, h.live, h.ending]
    exact ⟨rfl, rfl, .refl _⟩

end Recut

end Inflow

end Wire
