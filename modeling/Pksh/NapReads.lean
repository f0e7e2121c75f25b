import Pksh.NapHeap

/-! Which bytes are read by the loads that the handlers are made of. -/

namespace Naplink

open Wire Traced Pksh

variable {α β : Type}

def Within (size : Nat) (_ : World) (us : List Use) (_ : World) : Prop := ∀ u ∈ us, u.inside size

instance (size : Nat) : Chains (Within size) where
  nil _ := by simp [Within]
  append h h' := fun u hu => (List.mem_append.mp hu).elim (h u) (h' u)

def Strays (size : Nat) (m : Handler α) (w : World) : Prop := ∃ u ∈ (m.run w).acts, ¬u.inside size

section Reads

variable {size : Nat} {b : Block} {off n : Nat} {w : World}

theorem state_loadInt : ((b.loadInt off).run w).state = w := by
  rw [Block.loadInt, Prog.run_bind_pure]
  rfl

theorem value_loadInt {v : Word} (h : ((b.loadInt off).run w).value = some v) : v = b.bytes.word off := by
  rw [Block.loadInt, Prog.run_bind_pure] at h
  obtain ⟨_, _, he⟩ := Option.map_eq_some_iff.mp h
  exact he.symm

theorem state_whenDebug {debug : Bool} : ((whenDebug debug (b.loadInt off)).run w).state = w := by
  cases debug with
  | true =>
    rw [whenDebug, if_pos rfl, Prog.run_bind_pure]
    exact state_loadInt
  | false => rfl

namespace Within

theorem perform (m : Np α) : Sat (Within size) (perform m) := by
  intro w u hu
  obtain ⟨a, _, rfl⟩ := List.mem_map.mp hu
  trivial

theorem loads (h : off + n ≤ size) : Sat (Within size) (b.loads off n) := by
  intro w u hu
  obtain rfl : u = .load off n := List.mem_singleton.mp hu
  exact h

theorem passes (h : off + n ≤ size) : Sat (Within size) (b.passes off n) := by
  intro w u hu
  obtain rfl : u = .load off n := List.mem_singleton.mp hu
  exact h

theorem loadInt (h : off + 4 ≤ size) : Sat (Within size) (b.loadInt off) := (loads h).bind fun _ => .pure _

theorem loadStr (h : off + (b.bytes.cstr off (b.mapped - off)).length + 1 ≤ size) :
    Sat (Within size) (b.loadStr off) := (loads (by omega)).bind fun _ => .pure _

theorem strcmp {s : List Byte} (hs : 0 ∉ s) {i : Nat} (ho : off ≤ i) (hi : i < size) (hz : b.bytes i = 0) :
    Sat (Within size) (b.strcmp off s) := by
  induction s generalizing off with
  | nil => exact (loads (by omega)).bind fun _ => .pure _
  | cons c s ih =>
    refine (loads (by omega)).bind fun _ => ?_
    by_cases hc : b.bytes off = c
    · rw [if_pos hc]
      refine ih (fun h => hs (List.mem_cons_of_mem _ h)) (Nat.lt_of_le_of_ne ho ?_)
      rintro rfl
      exact hs (by rw [← hc, hz]; exact List.mem_cons_self)
    · rw [if_neg hc]
      exact .pure _

theorem whenDebug {debug : Bool} {m : Handler α} (h : Sat (Within size) m) : Sat (Within size) (whenDebug debug m) := by
  cases debug with
  | true => exact h.bind fun _ => .pure _
  | false => exact .pure _

end Within

/-- Of the block as much is mapped as was announced. -/
def Block.Covers (b : Block) (size : Nat) : Prop := ∀ i < size, i < b.mapped

theorem Raw.covers (p : Raw) (heap : Mem) (beyond : Nat) : (p.block heap beyond).Covers p.body.length := by
  intro i hi
  have hne : p.size ≠ 0 := by
    intro h0
    have hl := p.sized
    rw [h0] at hl
    exact absurd hi (by rw [hl]; exact Nat.not_lt_zero i)
  rw [Raw.block, if_neg hne]
  exact Nat.lt_add_right _ hi

namespace Strays

variable {m : Handler α} {f : α → Handler β}

theorem bind (h : Strays size m w) : Strays size (m >>= f) w := by
  obtain ⟨u, hu, hn⟩ := h
  exact ⟨u, (Result.acts_prefix_andThen _ _).subset hu, hn⟩

theorem behind {a : α} (hv : (m.run w).value = some a) (h : Strays size (f a) (m.run w).state) :
    Strays size (m >>= f) w := by
  obtain ⟨u, hu, hn⟩ := h
  refine ⟨u, ?_, hn⟩
  rw [Prog.run_bind, Result.andThen_some _ hv]
  exact List.mem_append_right _ hu

theorem loads (h : ¬off + n ≤ size) : Strays size (b.loads off n) w := ⟨_, List.mem_singleton.mpr rfl, h⟩

theorem loadInt (h : ¬off + 4 ≤ size) : Strays size (b.loadInt off) w := (loads h).bind

theorem behind_loads (hb : b.Covers size) {f : List Byte → Handler β} (h : ∀ bs, Strays size (f bs) w) :
    Strays size (b.loads off (n + 1) >>= f) w := by
  by_cases hin : off + (n + 1) ≤ size
  · have hm := hb (off + n) (by omega)
    exact behind (m := b.loads off (n + 1)) (if_pos (by omega)) (h _)
  · exact (loads hin).bind

theorem behind_loadInt (hb : b.Covers size) {f : Word → Handler β} (h : Strays size (f (b.bytes.word off)) w) :
    Strays size (b.loadInt off >>= f) w := by
  have hrun : (b.loadInt off >>= f).run w = (b.loads off 4 >>= fun _ => f (b.bytes.word off)).run w := by
    simp only [Block.loadInt, Prog.run_bind, Result.andThen_assoc, Prog.run_pure, Result.andThen_mk_some]
    rfl
  rw [Strays, hrun]
  exact behind_loads hb fun _ => h

theorem behind_debug {debug : Bool} {f : Unit → Handler β} (hm : ∀ g : α → Handler β, (∀ v, Strays size (g v) w) →
    Strays size (m >>= g) w) (h : Strays size (f ()) w) : Strays size (whenDebug debug m >>= f) w := by
  cases debug with
  | true =>
    have hrun : (whenDebug true m >>= f).run w = (m >>= fun _ => f ()).run w := by
      simp only [whenDebug, if_true, Prog.run_bind, Result.andThen_assoc, Prog.run_pure, Result.andThen_mk_some]
      rfl
    rw [Strays, hrun]
    exact hm _ fun _ => h
  | false => exact behind (m := whenDebug false m) (a := ()) rfl h

theorem behind_perform {m : Np α} {a : α} (hv : (m.run w).value = some a) (h : Strays size (f a) (m.run w).state) :
    Strays size (perform m >>= f) w := behind (m := perform m) hv h

theorem ite {c : Prop} [Decidable c] {p q : Handler α} (hp : c → Strays size p w) (hq : ¬c → Strays size q w) :
    Strays size (if c then p else q) w := by
  split
  · exact hp ‹_›
  · exact hq ‹_›

theorem behind_strcmp (hb : b.Covers size) {s : List Byte} {f : Bool → Handler β}
    (h : ∀ v, (v = true → off + s.length < size ∧ b.bytes (off + s.length) = 0) → Strays size (f v) w) :
    Strays size (b.strcmp off s >>= f) w := by
  induction s generalizing off with
  | nil =>
    have hrun : (b.strcmp off [] >>= f).run w = (b.loads off 1 >>= fun _ => f (decide (b.bytes off = 0))).run w := by
      simp only [Block.strcmp, Prog.run_bind, Result.andThen_assoc, Prog.run_pure, Result.andThen_mk_some]
      rfl
    rw [Strays, hrun]
    by_cases hin : off + 1 ≤ size
    · exact behind_loads hb fun _ => h _ fun hv => ⟨hin, of_decide_eq_true hv⟩
    · exact (loads hin).bind
  | cons c s ih =>
    have hrun : (b.strcmp off (c :: s) >>= f).run w = (b.loads off 1 >>= fun _ =>
        (if b.bytes off = c then b.strcmp (off + 1) s else pure false) >>= f).run w := by
      simp only [Block.strcmp, Prog.run_bind, Result.andThen_assoc]
      rfl
    rw [Strays, hrun]
    refine behind_loads hb fun _ => ?_
    by_cases hc : b.bytes off = c
    · rw [if_pos hc]
      refine ih fun v hv => h v fun he => ?_
      have heq : off + 1 + s.length = off + (c :: s).length := by
        rw [List.length_cons]
        omega
      rw [← heq]
      exact hv he
    · rw [if_neg hc]
      exact behind (m := (pure false : Handler Bool)) rfl (h false fun he => nomatch he)

end Strays

end Reads

namespace Raw

variable {p : Raw} {heap : Mem} {beyond : Nat}

theorem block_slice {off n : Nat} (h : off + n ≤ p.body.length) :
    (p.block heap beyond).bytes.slice off n = (p.body.drop off).take n := by
  have hs : (p.block heap beyond).bytes.slice 0 p.body.length = p.body := Mem.slice_store heap 0 p.body
  have hd := Mem.slice_drop (p.block heap beyond).bytes 0 (n := p.body.length) (k := off) (by omega)
  rw [hs, Nat.zero_add] at hd
  rw [hd, Mem.slice_take _ _ (by omega)]

theorem block_int {off : Nat} (h : off + 4 ≤ p.body.length) : (p.block heap beyond).bytes.word off = p.int off := by
  have hb : ∀ i, i < p.body.length → (p.block heap beyond).bytes i = (Mem.store (fun _ => 0) 0 p.body) i :=
    fun i hi => Mem.store_congr heap (fun _ => 0) (by omega)
  rw [int, Mem.word, Mem.word, hb off (by omega), hb (off + 1) (by omega), hb (off + 2) (by omega), hb (off + 3) (by omega)]

theorem block_string (h : 4 ≤ p.body.length) : ∃ rest,
    (p.block heap beyond).bytes.slice 4 ((p.block heap beyond).mapped - 4) = p.body.drop 4 ++ rest := by
  have hlast := p.covers heap beyond (p.body.length - 1) (by omega)
  refine ⟨(p.block heap beyond).bytes.slice p.body.length ((p.block heap beyond).mapped - p.body.length), ?_⟩
  have hn : (p.block heap beyond).mapped - 4 = (p.body.length - 4) + ((p.block heap beyond).mapped - p.body.length) := by omega
  have h4 : 4 + (p.body.length - 4) = p.body.length := by omega
  rw [hn, Mem.slice_add, h4, block_slice (by omega), List.take_of_length_le (by simp)]

theorem nul_mem_iff : 0 ∈ p.body.drop 4 ↔ ∃ i, 4 ≤ i ∧ i < p.body.length ∧ (p.block heap beyond).bytes i = 0 := by
  have hbyte : ∀ i b, p.body[i]? = some b → (p.block heap beyond).bytes i = b := by
    intro i b hi
    have h : heap.store 0 p.body (0 + i) = b := Mem.store_of_mem hi
    rwa [Nat.zero_add] at h
  constructor
  · intro h
    obtain ⟨j, hj⟩ := List.mem_iff_getElem?.mp h
    rw [List.getElem?_drop] at hj
    exact ⟨4 + j, Nat.le_add_right _ _, (List.getElem?_eq_some_iff.mp hj).1, hbyte _ _ hj⟩
  · rintro ⟨i, h4, hi, hz⟩
    refine List.mem_iff_getElem?.mpr ⟨i - 4, ?_⟩
    have he : p.body[i]? = some p.body[i] := List.getElem?_eq_getElem hi
    rw [List.getElem?_drop, Nat.add_sub_cancel' h4, he, ← hbyte _ _ he, hz]

theorem block_cstr (h0 : 0 ∈ p.body.drop 4) :
    (p.block heap beyond).bytes.cstr 4 ((p.block heap beyond).mapped - 4) = (p.body.drop 4).takeWhile (· ≠ 0) ∧
      4 + ((p.body.drop 4).takeWhile (· ≠ 0)).length + 1 ≤ p.body.length := by
  have hl : 4 < p.body.length := by
    have hp := List.length_pos_of_mem h0
    rw [List.length_drop] at hp
    omega
  obtain ⟨rest, hs⟩ := @block_string p heap beyond (by omega)
  refine ⟨?_, ?_⟩
  · rw [Mem.cstr, hs, Mem.takeWhile_append_of_mem h0 (by simp)]
  · have hlt : ((p.body.drop 4).takeWhile (· ≠ 0)).length < (p.body.drop 4).length := by
      refine Nat.lt_of_le_of_ne (List.takeWhile_prefix _).length_le fun he => ?_
      have hall := List.takeWhile_eq_self_iff.mp ((List.takeWhile_prefix _).eq_of_length he) 0 h0
      simp at hall
    rw [List.length_drop] at hlt
    omega

theorem block_cstr_long (h0 : 0 ∉ p.body.drop 4) :
    p.body.length ≤ 4 + ((p.block heap beyond).bytes.cstr 4 ((p.block heap beyond).mapped - 4)).length := by
  by_cases hl : 4 ≤ p.body.length
  · obtain ⟨rest, hs⟩ := @block_string p heap beyond hl
    rw [Mem.cstr, hs, takeWhile_ne_append h0, List.length_append, List.length_drop]
    omega
  · omega

end Raw

end Naplink
