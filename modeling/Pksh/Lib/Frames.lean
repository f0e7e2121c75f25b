import Mathlib.Data.List.Basic

/-! Packets on a stream, one behind the other. `next` takes the first one off,
`wire` puts one on. -/

namespace Wire

variable {β ρ : Type}

/-- All packets of a stream that is used up by them, as long as there are no
more than the fuel allows. -/
def framesFrom (next : List β → Option (ρ × List β)) : Nat → List β → Option (List ρ)
  | _, [] => some []
  | 0, _ :: _ => none
  | n + 1, b :: bs => (next (b :: bs)).bind fun r => (framesFrom next n r.2).map (r.1 :: ·)

/-- Every packet takes at least one element off the stream. -/
def frames (next : List β → Option (ρ × List β)) (bs : List β) : Option (List ρ) := framesFrom next bs.length bs

section Wires

variable {next : List β → Option (ρ × List β)} {wire : ρ → List β}
  (hnext : ∀ r rest, next (wire r ++ rest) = some (r, rest)) (hne : ∀ r, wire r ≠ [])

include hnext hne

theorem framesFrom_flatMap {rs : List ρ} {n : Nat} (hn : rs.length ≤ n) :
    framesFrom next n (rs.flatMap wire) = some rs := by
  induction rs generalizing n with
  | nil => cases n <;> rfl
  | cons r rs ih =>
    obtain ⟨b, bs, hb⟩ := List.exists_cons_of_ne_nil (hne r)
    cases n with
    | zero => cases hn
    | succ n =>
      have hc : (r :: rs).flatMap wire = b :: (bs ++ rs.flatMap wire) := by
        rw [List.flatMap_cons, hb, List.cons_append]
      have hf : next (b :: (bs ++ rs.flatMap wire)) = some (r, rs.flatMap wire) := by
        rw [← List.cons_append, ← hb]
        exact hnext r _
      rw [hc, framesFrom, hf, Option.bind_some, ih (Nat.le_of_succ_le_succ hn)]
      rfl

theorem frames_flatMap (rs : List ρ) : frames next (rs.flatMap wire) = some rs := by
  refine framesFrom_flatMap hnext hne ?_
  induction rs with
  | nil => exact Nat.zero_le _
  | cons r rs ih =>
    have := List.length_pos_of_ne_nil (hne r)
    rw [List.flatMap_cons, List.length_append, List.length_cons]
    omega

end Wires

end Wire
