import Pksh.NapReads

/-! Which bytes of the packets from the PS2 the dispatcher and `get_return` read. -/

namespace Naplink

open Wire Traced Pksh

variable {α β : Type}

section Packets

variable {p : Raw} {heap : Mem} {beyond : Nat} {w : World} {debug : Bool}

theorem rawOpen_inside_iff : (∀ u ∈ ((rawOpen debug (p.block heap beyond)).run w).acts, u.inside p.body.length) ↔
    0 ∈ p.body.drop 4 := by
  have hb := p.covers heap beyond
  constructor
  · intro h
    by_contra h0
    have hstr : ∀ {β : Type} {f : List Byte → Handler β} {v : World},
        Strays p.body.length ((p.block heap beyond).loadStr 4 >>= f) v := by
      intro β f v
      refine Strays.bind (Strays.bind (Strays.loads ?_))
      have hl := @Raw.block_cstr_long p heap beyond h0
      omega
    obtain ⟨u, hu, hn⟩ : Strays p.body.length (rawOpen debug (p.block heap beyond)) w := by
      refine .behind_perform rfl (.behind_perform rfl (.behind_debug (fun g hg => hstr) ?_))
      refine .behind_debug (fun g hg => .behind_loadInt hb (hg _)) (.behind_strcmp hb fun v hv => ?_)
      cases v with
      | false => exact .behind_loadInt hb <| hstr
      | true =>
        obtain ⟨hlt, hz⟩ := hv rfl
        exact absurd (Raw.nul_mem_iff.mpr ⟨_, Nat.le_add_right _ _, hlt, hz⟩) h0
    exact hn (h u hu)
  · intro h0
    obtain ⟨hs, hl⟩ := @Raw.block_cstr p heap beyond h0
    have hstr : Sat (Within p.body.length) ((p.block heap beyond).loadStr 4) := .loadStr (by rw [hs]; exact hl)
    have hint : Sat (Within p.body.length) ((p.block heap beyond).loadInt 0) := .loadInt (by omega)
    obtain ⟨i, h4, hi, hz⟩ := (@Raw.nul_mem_iff p heap beyond).mp h0
    have hcmp : Sat (Within p.body.length) ((p.block heap beyond).strcmp 4 devTty) := .strcmp (by decide) h4 hi hz
    have halong : ∀ flags dirs, Sat (Within p.body.length) (rawOpenAlong (p.block heap beyond) flags dirs) := by
      intro flags dirs
      induction dirs with
      | nil => exact .pure _
      | cons dir dirs ih => exact hstr.bind fun _ => (Within.perform _).bind fun _ => .ite (.pure _) ih
    have hall : Sat (Within p.body.length) (rawOpen debug (p.block heap beyond)) := by
      refine (Within.perform _).bind fun _ => (Within.perform _).bind fun _ => (Within.whenDebug hstr).bind fun _ =>
        (Within.whenDebug hint).bind fun _ => hcmp.bind fun _ => .ite (Within.perform _) ?_
      refine hint.bind fun _ => hstr.bind fun _ => (Within.perform _).bind fun _ => .ite ?_ (Within.perform _)
      exact Sat.get.bind fun _ => (halong _ _).bind fun _ => Within.perform _
    exact hall w

theorem rawClose_inside_iff : (∀ u ∈ ((rawClose debug (p.block heap beyond)).run w).acts, u.inside p.body.length) ↔
    4 ≤ p.body.length := by
  have hb := p.covers heap beyond
  constructor
  · intro h
    by_contra hl
    obtain ⟨u, hu, hn⟩ : Strays p.body.length (rawClose debug (p.block heap beyond)) w :=
      .behind_perform rfl (.behind_perform rfl (.behind_debug (fun g hg => .behind_loadInt hb (hg _))
        (Strays.bind (Strays.loadInt (by omega)))))
    exact hn (h u hu)
  · intro hl
    have hint : Sat (Within p.body.length) ((p.block heap beyond).loadInt 0) := .loadInt hl
    have hall : Sat (Within p.body.length) (rawClose debug (p.block heap beyond)) :=
      (Within.perform _).bind fun _ => (Within.perform _).bind fun _ => (Within.whenDebug hint).bind fun _ =>
        hint.bind fun _ => .ite (Within.perform _) ((Within.perform _).bind fun _ => Within.perform _)
    exact hall w

theorem rawRead_inside_iff : (∀ u ∈ ((rawRead debug (p.block heap beyond)).run w).acts, u.inside p.body.length) ↔
    8 ≤ p.body.length := by
  have hb := p.covers heap beyond
  constructor
  · intro h
    by_contra hl
    obtain ⟨u, hu, hn⟩ : Strays p.body.length (rawRead debug (p.block heap beyond)) w :=
      .behind_perform rfl (.behind_debug (fun g hg => .behind_loadInt hb (hg _))
        (.behind_debug (fun g hg => .behind_loadInt hb (hg _)) (Strays.bind (Strays.loadInt (by omega)))))
    exact hn (h u hu)
  · intro hl
    have hint : ∀ off, off + 4 ≤ 8 → Sat (Within p.body.length) ((p.block heap beyond).loadInt off) :=
      fun off ho => .loadInt (by omega)
    have hall : Sat (Within p.body.length) (rawRead debug (p.block heap beyond)) := by
      refine (Within.perform _).bind fun _ => (Within.whenDebug (hint 0 (by omega))).bind fun _ =>
        (Within.whenDebug (hint 4 (by omega))).bind fun _ => (hint 4 (by omega)).bind fun _ => Sat.get.bind fun _ => .ite ?_ ?_
      · exact (Within.perform _).bind fun _ => Within.perform _
      · refine (hint 0 (by omega)).bind fun _ => (Within.perform _).bind fun r => ?_
        cases r with
        | none => exact Within.perform _
        | some buffer2 => exact Within.perform _
    exact hall w

theorem rawLseek_inside_iff : (∀ u ∈ ((rawLseek debug (p.block heap beyond)).run w).acts, u.inside p.body.length) ↔
    12 ≤ p.body.length := by
  have hb := p.covers heap beyond
  constructor
  · intro h
    by_contra hl
    obtain ⟨u, hu, hn⟩ : Strays p.body.length (rawLseek debug (p.block heap beyond)) w := by
      refine .behind_perform rfl (.behind_debug (fun g hg => .behind_loadInt hb (hg _))
        (.behind_debug (fun g hg => .behind_loadInt hb (hg _)) (.behind_debug (fun g hg => .behind_loadInt hb (hg _)) ?_)))
      exact .behind_loadInt hb <| .behind_loadInt hb <| Strays.bind (Strays.loadInt (by omega))
    exact hn (h u hu)
  · intro hl
    have hint : ∀ off, off + 4 ≤ 12 → Sat (Within p.body.length) ((p.block heap beyond).loadInt off) :=
      fun off ho => .loadInt (by omega)
    have hall : Sat (Within p.body.length) (rawLseek debug (p.block heap beyond)) := by
      refine (Within.perform _).bind fun _ => (Within.whenDebug (hint 0 (by omega))).bind fun _ =>
        (Within.whenDebug (hint 4 (by omega))).bind fun _ => (Within.whenDebug (hint 8 (by omega))).bind fun _ => ?_
      exact (hint 0 (by omega)).bind fun _ => (hint 4 (by omega)).bind fun _ => (hint 8 (by omega)).bind fun _ =>
        (Within.perform _).bind fun _ => Within.perform _
    exact hall w

theorem rawWrite_inside_iff : (∀ u ∈ ((rawWrite debug (p.block heap beyond)).run w).acts, u.inside p.body.length) ↔
    8 ≤ p.body.length ∧ (w.benchmarking = true ∨ sizeT (p.int 4) ≤ p.body.length - 8) := by
  have hb := p.covers heap beyond
  constructor
  · intro h
    by_contra hl
    obtain ⟨u, hu, hn⟩ : Strays p.body.length (rawWrite debug (p.block heap beyond)) w := by
      refine .behind_perform rfl (.behind_debug (fun g hg => .behind_loadInt hb (hg _))
        (.behind_debug (fun g hg => .behind_loadInt hb (hg _)) (Strays.behind (m := Prog.get) rfl (.ite ?_ ?_))))
      · intro hbench
        have h8 : ¬8 ≤ p.body.length := fun h8 => hl ⟨h8, .inl hbench⟩
        exact Strays.bind (Strays.loadInt h8)
      · intro hbench
        refine .behind_loadInt hb ?_
        by_cases h8 : 8 ≤ p.body.length
        · refine .behind_loadInt hb (Strays.bind ⟨_, List.mem_singleton.mpr rfl, ?_⟩)
          rw [Raw.block_int h8]
          have hlong : ¬sizeT (p.int 4) ≤ p.body.length - 8 := fun hc => hl ⟨h8, .inr hc⟩
          simp only [Use.inside]
          omega
        · exact Strays.bind (Strays.loadInt h8)
    exact hn (h u hu)
  · rintro ⟨hl, hc⟩
    have hint : ∀ off, off + 4 ≤ 8 → Sat (Within p.body.length) ((p.block heap beyond).loadInt off) :=
      fun off ho => .loadInt (by omega)
    have hdebug : ∀ off, off + 4 ≤ 8 → Sat (Within p.body.length) (whenDebug debug ((p.block heap beyond).loadInt off)) :=
      fun off ho => .whenDebug (hint off ho)
    have hall : Within p.body.length w ((rawWrite debug (p.block heap beyond)).run w).acts
        ((rawWrite debug (p.block heap beyond)).run w).state := by
      refine Sat.bind_at (Within.perform (npSetCounter 0) w) fun _ _ => ?_
      refine Sat.bind_at (hdebug 0 (by omega) _) fun _ _ => Sat.bind_at (hdebug 4 (by omega) _) fun _ _ => ?_
      rw [state_whenDebug, state_whenDebug]
      refine Sat.bind_at (m := Prog.get) (Chains.nil _) fun v hv => Sat.ite_at (fun _ => ?_) fun hbench => ?_
      · exact (hint 4 (by omega)).bind (fun _ => (Within.perform _).bind fun _ => Within.perform _) _
      · obtain rfl := Option.some.inj hv
        refine (hint 0 (by omega)).bind (fun _ s => ?_) _
        refine Sat.bind_at (hint 4 (by omega) s) fun count hcount => ?_
        have hle : sizeT count ≤ p.body.length - 8 := by
          rw [value_loadInt hcount, Raw.block_int hl]
          exact hc.resolve_left hbench
        exact (Within.passes (by omega)).bind (fun _ => (Within.perform _).bind fun _ => Within.perform _) _
    exact hall

theorem rawProcess_inside_iff (benchmark : Np Unit) :
    (∀ u ∈ ((rawProcess debug benchmark p.type (p.block heap beyond)).run w).acts, u.inside p.body.length) ↔
      p.Fits w.benchmarking := by
  rw [rawProcess, Raw.Fits]
  by_cases h1 : p.type = packetOpen
  · rw [if_pos h1, if_pos h1]
    exact rawOpen_inside_iff
  rw [if_neg h1, if_neg h1]
  by_cases h2 : p.type = packetClose
  · rw [if_pos h2, if_pos h2]
    exact rawClose_inside_iff
  rw [if_neg h2, if_neg h2]
  by_cases h3 : p.type = packetRead
  · rw [if_pos h3, if_pos h3]
    exact rawRead_inside_iff
  rw [if_neg h3, if_neg h3]
  by_cases h4 : p.type = packetWrite
  · rw [if_pos h4, if_pos h4]
    exact rawWrite_inside_iff
  rw [if_neg h4, if_neg h4]
  by_cases h5 : p.type = packetLseek
  · rw [if_pos h5, if_pos h5]
    exact rawLseek_inside_iff
  rw [if_neg h5, if_neg h5]
  by_cases h6 : p.type = packetWazzup
  · rw [if_pos h6]
    exact iff_of_true (Within.perform _ w) trivial
  · rw [if_neg h6]
    exact iff_of_true (Chains.nil (R := Within p.body.length) w) trivial

theorem rawGetReturn_inside_iff (data : Bool) :
    (∀ u ∈ ((rawGetReturn data p.size p.type (p.block heap beyond)).run w).acts, u.inside p.body.length) ↔
      p.FitsReturn := by
  have hb := p.covers heap beyond
  rw [rawGetReturn, Raw.FitsReturn]
  by_cases ht : p.type = packetReturn
  · rw [if_neg (by simpa using ht)]
    constructor
    · intro h _
      by_contra hl
      obtain ⟨u, hu, hn⟩ : Strays p.body.length (if 4 < p.size.toNat ∧ data = true then do
          let _ ← (p.block heap beyond).loads 4 (p.size.toNat - 4)
          let rv ← (p.block heap beyond).loadInt 0
          pure rv.toInt
        else do
          let rv ← (p.block heap beyond).loadInt 0
          pure rv.toInt) w := by
        have hs := p.sized
        exact .ite (fun hd => absurd hd.1 (by omega)) fun _ => Strays.bind (Strays.loadInt (by omega))
      exact hn (h u hu)
    · intro hl
      have hs := p.sized
      have hrv : Sat (Within p.body.length) (do
          let rv ← (p.block heap beyond).loadInt 0
          pure rv.toInt) := (Within.loadInt (hl ht)).bind fun _ => .pure _
      by_cases hd : 4 < p.size.toNat ∧ data = true
      · rw [if_pos hd]
        exact (Within.loads (by omega)).bind (fun _ => hrv) w
      · rw [if_neg hd]
        exact hrv w
  · rw [if_pos ht]
    exact iff_of_true (Chains.nil (R := Within p.body.length) w) fun h => absurd h ht

end Packets

end Naplink
