import Pksh.Lib.Memory

/-! Strings in memory, and loops that move an index over a memory while a test
holds of the cell under it. -/

namespace Wire

namespace Mem

/-- The memory holds a string and its terminator from `off` on. -/
structure StringAt (m : Mem) (off : Nat) (s : List Byte) : Prop where
  bytes : m.slice off (s.length + 1) = s ++ [0]
  free : 0 ∉ s

namespace StringAt

variable {m m' : Mem} {off : Nat} {s s' : List Byte}

theorem drop (h : m.StringAt off s) {k : Nat} (hk : k ≤ s.length) : m.StringAt (off + k) (s.drop k) where
  bytes := by
    have hd := congrArg (List.drop k) h.bytes
    rw [slice_drop m off (by omega), List.drop_append_of_le_length hk] at hd
    rw [List.length_drop, ← hd]
    congr 1
    omega
  free hm := h.free (List.mem_of_mem_drop hm)

theorem append_right (h : m.StringAt off (s ++ s')) : m.StringAt (off + s.length) s' := by
  have hd := h.drop (k := s.length) (by rw [List.length_append]; omega)
  rwa [List.drop_left] at hd

theorem slice_prefix (h : m.StringAt off (s ++ s')) : m.slice off s.length = s := by
  have ht := congrArg (List.take s.length) h.bytes
  rwa [slice_take m off (by rw [List.length_append]; omega), List.append_assoc, List.take_left] at ht

theorem cstr_take (h : m.StringAt off s) {n : Nat} (hn : n ≤ s.length) : m.cstr off n = s.take n := by
  have hs := List.take_append_drop n s
  have hp := slice_prefix (hs.symm ▸ h)
  rw [List.length_take, Nat.min_eq_left hn] at hp
  rw [cstr, hp]
  exact List.takeWhile_eq_self_iff.mpr (ne_of_not_mem fun hm => h.free (List.mem_of_mem_take hm))

theorem head (h : m.StringAt off s) : m off = s.headD 0 := by
  have hb := h.bytes
  rw [Nat.add_comm, slice_add] at hb
  cases s with
  | nil => exact (List.cons.inj hb).1
  | cons b s => exact (List.cons.inj hb).1

theorem congr (h : m.StringAt off s) (hm : ∀ i, off ≤ i → i ≤ off + s.length → m' i = m i) : m'.StringAt off s where
  bytes := by
    rw [← h.bytes]
    exact slice_congr fun i hi hlt => hm i hi (by omega)
  free := h.free

theorem store_disjoint (h : m.StringAt off s) {off' : Nat} {bs : List Byte}
    (hd : off + s.length < off' ∨ off' + bs.length ≤ off) : (m.store off' bs).StringAt off s where
  bytes := by
    rw [slice_store_disjoint (by omega)]
    exact h.bytes
  free := h.free

theorem cstr_eq (h : m.StringAt off s) {n : Nat} (hn : s.length < n) : m.cstr off n = s := by
  obtain ⟨k, rfl⟩ := Nat.exists_eq_add_of_lt hn
  have hs : m.slice off (s.length + k + 1) = s ++ 0 :: m.slice (off + (s.length + 1)) k := by
    rw [Nat.add_right_comm, slice_add, h.bytes, List.append_assoc]
    rfl
  exact cstr_of_slice hs h.free

theorem zero_mem (h : m.StringAt off s) {n : Nat} (hn : s.length < n) : 0 ∈ m.slice off n := by
  have hb : m.slice off (s.length + 1) = (m.slice off n).take (s.length + 1) := (slice_take m off hn).symm
  refine List.mem_of_mem_take (i := s.length + 1) ?_
  rw [← hb, h.bytes]
  exact List.mem_append_right _ List.mem_cons_self

theorem cut (h : m.StringAt off (s ++ s')) : (m.store (off + s.length) [0]).StringAt off s where
  bytes := by
    rw [slice_add, slice_store_disjoint (.inl (Nat.le_refl _)), h.slice_prefix]
    exact congrArg (s ++ ·) (slice_store m _ [0])
  free hm := h.free (List.mem_append_left _ hm)

end StringAt

end Mem

/-- Where such a loop stops, and the cells it has looked at. -/
structure Scan where
  stop : Nat
  reads : List Nat

/-- `while (p(m[i])) i++` in at most `turns` turns. -/
def scan {β : Type} (p : β → Bool) (m : Nat → β) : Nat → Nat → Option Scan
  | 0, _ => none
  | turns + 1, i =>
    if p (m i) then (scan p m turns (i + 1)).map fun s => ⟨s.stop, i :: s.reads⟩ else some ⟨i, [i]⟩

section Scan

variable {p : Byte → Bool} {m : Mem} {off turns : Nat} {s s' : List Byte}

theorem scan_append (h : m.StringAt off (s ++ s')) (hs : ∀ b ∈ s, p b = true) (hstop : p (s'.headD 0) = false)
    (ht : s.length < turns) : scan p m turns off = some ⟨off + s.length, List.range' off (s.length + 1)⟩ := by
  induction s generalizing off turns with
  | nil =>
    obtain ⟨turns, rfl⟩ := Nat.exists_eq_add_one_of_ne_zero (Nat.ne_zero_of_lt ht)
    rw [scan, h.head, List.nil_append, hstop]
    rfl
  | cons b s ih =>
    obtain ⟨turns, rfl⟩ := Nat.exists_eq_add_one_of_ne_zero (Nat.ne_zero_of_lt ht)
    have htail : m.StringAt (off + 1) (s ++ s') := h.append_right (s := [b])
    have hi := ih htail (fun x hx => hs x (List.mem_cons_of_mem _ hx)) (Nat.lt_of_succ_lt_succ ht)
    have hstopped : off + 1 + s.length = off + (s.length + 1) := by omega
    rw [scan, h.head, List.cons_append, List.headD_cons, hs b List.mem_cons_self, if_pos rfl, hi, hstopped]
    rfl

theorem headD_dropWhile (s : List Byte) : s.dropWhile p = [] ∨ p ((s.dropWhile p).headD 0) = false := by
  cases hd : s.dropWhile p with
  | nil => exact .inl rfl
  | cons b rest =>
    have hb := List.head_dropWhile_not p (l := s) (by rw [hd]; exact List.cons_ne_nil b rest)
    simp only [hd] at hb
    exact .inr hb

/-- A test that stops at the terminator stops behind the longest start of the
string that satisfies it. -/
theorem scan_takeWhile {q : Byte → Bool} (h : m.StringAt off s) (h0 : q 0 = false) (hq : ∀ b, b ≠ 0 → q b = p b)
    (ht : s.length < turns) :
    scan q m turns off = some ⟨off + (s.takeWhile p).length, List.range' off ((s.takeWhile p).length + 1)⟩ := by
  have hsplit := List.takeWhile_append_dropWhile (p := p) (l := s)
  have hfree {b : Byte} (hb : b ∈ s) : b ≠ 0 := fun hz => h.free (hz ▸ hb)
  have hparts : m.StringAt off (s.takeWhile p ++ s.dropWhile p) := hsplit.symm ▸ h
  refine scan_append hparts ?_ ?_ ?_
  · intro b hb
    rw [hq b (hfree ((List.takeWhile_prefix p).subset hb))]
    exact List.mem_takeWhile_imp hb
  · rcases headD_dropWhile (p := p) s with hd | hd
    · rw [hd]
      exact h0
    · cases hs : s.dropWhile p with
      | nil => exact h0
      | cons b rest =>
        rw [hs] at hd
        exact (hq b (hfree ((List.dropWhile_suffix p).subset (hs ▸ List.mem_cons_self)))).trans hd
  · exact Nat.lt_of_le_of_lt (List.takeWhile_prefix p).length_le ht

/-- `m[i] && p(m[i])` -/
theorem scan_guarded (h : m.StringAt off s) (ht : s.length < turns) :
    scan (fun c => c ≠ 0 && p c) m turns off =
      some ⟨off + (s.takeWhile p).length, List.range' off ((s.takeWhile p).length + 1)⟩ := by
  have hq (b : Byte) (hb : b ≠ 0) : (b ≠ 0 && p b) = p b := by rw [decide_eq_true hb, Bool.true_and]
  exact scan_takeWhile h (by simp) hq ht

end Scan

end Wire
