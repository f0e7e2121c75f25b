import Pksh.Shell
import Mathlib.Data.List.DropRight

/-! The one byte that `trim` stores. Both loops count from the start of the
string, and the store goes as far behind the first byte that is no space. -/

namespace Pksh

open Wire

/-- The spaces that the second loop steps over. -/
def trimStart (s : List Byte) : Nat := (s.takeWhile (· = space)).length

/-- `i` behind the first loop. -/
def trimEnd (s : List Byte) : Nat := (s.rdropWhile (· = space)).length

/-- The offset of the terminator, from the start of the string. -/
def trimStore (s : List Byte) : Nat := trimStart s + trimEnd s

theorem trimInPlace_eq (s : List Byte) : trimInPlace s = s.take (trimStore s) := by
  rw [trimInPlace, trimStore, trimStart, trimEnd, List.rdropWhile, List.length_reverse]

/-- A string without its leading and its trailing spaces. -/
def stripped (s : List Byte) : List Byte := (s.dropWhile (· = space)).rdropWhile (· = space)

structure IsCore (core : List Byte) : Prop where
  ne : core ≠ []
  first : core.head? ≠ some space
  last : core.getLast? ≠ some space

def padded (before : Nat) (core : List Byte) (behind : Nat) : List Byte :=
  List.replicate before space ++ core ++ List.replicate behind space

theorem IsCore.head {core : List Byte} (h : IsCore core) (rest : List Byte) : (core ++ rest).head? ≠ some space := by
  rw [List.head?_append_of_ne_nil _ h.ne]
  exact h.first

theorem rtakeWhile_eq_spaces (s : List Byte) :
    s.rtakeWhile (· = space) = List.replicate (s.rtakeWhile (· = space)).length space :=
  List.eq_replicate_of_mem fun _ hb => of_decide_eq_true (List.mem_rtakeWhile_imp (p := (· = space)) hb)

theorem eq_padded {s : List Byte} (h : ∃ b ∈ s, b ≠ space) :
    ∃ before behind, IsCore (stripped s) ∧ s = padded before (stripped s) behind := by
  have hd : s.dropWhile (· = space) ≠ [] := by
    rw [Ne, List.dropWhile_eq_nil_iff]
    obtain ⟨b, hb, hn⟩ := h
    exact fun ha => hn (of_decide_eq_true (ha b hb))
  obtain ⟨b, tail, he⟩ := List.exists_cons_of_ne_nil hd
  have hb : b ≠ space := fun hb => head_dropWhile_ne (b := space) s (he ▸ congrArg some hb)
  have hne : stripped s ≠ [] := by
    rw [stripped, Ne, List.rdropWhile_eq_nil_iff]
    exact fun ha => hb (of_decide_eq_true (ha b (by rw [he]; exact List.mem_cons_self)))
  refine ⟨trimStart s, ((s.dropWhile (· = space)).rtakeWhile (· = space)).length, ⟨hne, ?_, ?_⟩, ?_⟩
  · obtain ⟨rest, hrest⟩ := List.rdropWhile_prefix (· = space) (l := s.dropWhile (· = space))
    obtain ⟨c, core, hc⟩ := List.exists_cons_of_ne_nil hne
    rw [← stripped, hc, he, List.cons_append, List.cons.injEq] at hrest
    rw [hc, hrest.1]
    exact fun h => hb (Option.some.inj h)
  · rw [List.getLast?_eq_getLast_of_ne_nil hne]
    intro hl
    exact List.rdropWhile_last_not (· = space) _ hne (decide_eq_true (Option.some.inj hl))
  · rw [padded, trimStart, ← takeWhile_eq_gap, ← rtakeWhile_eq_spaces, List.append_assoc, stripped,
      List.rdropWhile_append_rtakeWhile, List.takeWhile_append_dropWhile]

section Padded

variable {core : List Byte} (before behind : Nat)

theorem IsCore.trimStart_padded (h : IsCore core) : trimStart (padded before core behind) = before := by
  rw [trimStart, padded, List.append_assoc, takeWhile_gap, takeWhile_of_head (h.head _), List.append_nil, List.length_replicate]

theorem IsCore.trimEnd_padded (h : IsCore core) : trimEnd (padded before core behind) = before + core.length := by
  have hl : (List.replicate before space ++ core).getLast? ≠ some space := by
    rw [List.getLast?_append_of_ne_nil _ h.ne]
    exact h.last
  rw [trimEnd, padded, rdropWhile_gap, rdropWhile_of_last hl, List.length_append, List.length_replicate]

theorem IsCore.trimInPlace_padded (h : IsCore core) :
    trimInPlace (padded before core behind) = padded before core (min before behind) := by
  rw [trimInPlace_eq, trimStore, h.trimStart_padded, h.trimEnd_padded, padded, padded,
    show before + (before + core.length) = (List.replicate before space ++ core).length + before by
      simp only [List.length_append, List.length_replicate]
      omega,
    List.take_length_add_append, List.take_replicate]

theorem IsCore.trim_padded (h : IsCore core) :
    trim (padded before core behind) = core ++ List.replicate (min before behind) space := by
  rw [trim, h.trimInPlace_padded, padded, List.append_assoc, dropWhile_gap, dropWhile_of_head (h.head _)]

theorem IsCore.stripped_padded (h : IsCore core) : stripped (padded before core behind) = core := by
  rw [stripped, padded, List.append_assoc, dropWhile_gap, dropWhile_of_head (h.head _), rdropWhile_gap, rdropWhile_of_last h.last]

end Padded

theorem trim_spaces (n : Nat) : trim (List.replicate n space) = [] := by
  rw [trim, trimInPlace_eq, List.take_replicate, List.dropWhile_eq_nil_iff]
  exact fun b hb => decide_eq_true (List.eq_of_mem_replicate hb)

theorem trimStore_spaces (n : Nat) : trimStore (List.replicate n space) = n := by
  have hr : (List.replicate n space).rdropWhile (· = space) = [] :=
    List.rdropWhile_eq_nil_iff.mpr fun b hb => decide_eq_true (List.eq_of_mem_replicate hb)
  rw [trimStore, trimStart, trimEnd, hr, ← List.append_nil (List.replicate n space), takeWhile_gap]
  simp

theorem trimInPlace_spaces (n : Nat) : trimInPlace (List.replicate n space) = List.replicate n space := by
  rw [trimInPlace_eq, trimStore_spaces, List.take_replicate, Nat.min_self]

theorem eq_spaces {s : List Byte} (h : ¬∃ b ∈ s, b ≠ space) : s = List.replicate s.length space :=
  List.eq_replicate_of_mem fun b hb => not_not.mp fun hn => h ⟨b, hb, hn⟩

theorem trimStart_le (s : List Byte) : trimStart s ≤ (trimInPlace s).length := by
  by_cases h : ∃ b ∈ s, b ≠ space
  · obtain ⟨before, behind, hc, hs⟩ := eq_padded h
    rw [hs, hc.trimStart_padded, hc.trimInPlace_padded, padded, List.length_append, List.length_append,
      List.length_replicate, Nat.add_assoc]
    exact Nat.le_add_right _ _
  · rw [eq_spaces h, trimInPlace_spaces, trimStart]
    exact (List.takeWhile_prefix _).length_le

theorem trim_eq_drop (s : List Byte) : trim s = (trimInPlace s).drop (trimStart s) := by
  by_cases h : ∃ b ∈ s, b ≠ space
  · obtain ⟨before, behind, hc, hs⟩ := eq_padded h
    rw [hs, hc.trim_padded, hc.trimInPlace_padded, hc.trimStart_padded, padded, List.append_assoc,
      List.drop_append_of_le_length (by rw [List.length_replicate]), List.drop_replicate, Nat.sub_self]
    rfl
  · have hs := trimStore_spaces s.length
    have hr : (List.replicate s.length space).rdropWhile (· = space) = [] :=
      List.rdropWhile_eq_nil_iff.mpr fun b hb => decide_eq_true (List.eq_of_mem_replicate hb)
    rw [trimStore, trimEnd, hr, List.length_nil, Nat.add_zero] at hs
    rw [eq_spaces h, trim_spaces, trimInPlace_spaces, hs, List.drop_replicate, Nat.sub_self]
    rfl

section Stored

variable {m : Mem} {s : List Byte}

theorem cstr_trimInPlace (hm : m.slice 0 (s.length + 1) = s ++ [0]) (h0 : 0 ∉ s) :
    (m.store (trimStore s) [0]).cstr 0 (s.length + 1) = trimInPlace s := by
  have h0' : 0 ∉ trimInPlace s := fun h => h0 (trimInPlace_eq s ▸ h |> List.mem_of_mem_take)
  rw [trimInPlace_eq] at h0' ⊢
  by_cases hn : trimStore s ≤ s.length
  · obtain ⟨x, rest, hx⟩ : ∃ x rest, (s ++ [0]).drop (trimStore s) = x :: rest :=
      List.exists_cons_of_ne_nil (by
        rw [Ne, List.drop_eq_nil_iff, List.length_append]
        exact Nat.not_le.mpr (Nat.lt_succ_of_le hn))
    have hs : m.slice 0 (s.length + 1) = s.take (trimStore s) ++ [x] ++ rest := by
      rw [hm, List.append_assoc, List.singleton_append, ← hx, ← List.take_append_of_le_length hn, List.take_append_drop]
    have hl : (s.take (trimStore s)).length = trimStore s := List.length_take_of_le hn
    have hst := @Mem.slice_store_mid _ _ _ _ _ [0] _ hs rfl
    rw [hl, Nat.zero_add, List.append_assoc] at hst
    exact Mem.cstr_of_slice hst h0'
  · have hst : (m.store (trimStore s) [0]).slice 0 (s.length + 1) = s ++ 0 :: [] := by
      rw [← hm]
      exact Mem.slice_congr fun i _ hi => Mem.store_of_lt (by omega)
    rw [List.take_of_length_le (Nat.le_of_not_le hn)] at h0' ⊢
    exact Mem.cstr_of_slice hst h0'

theorem cstr_trim (hm : m.slice 0 (s.length + 1) = s ++ [0]) (h0 : 0 ∉ s) :
    (m.store (trimStore s) [0]).cstr (trimStart s) (s.length + 1 - trimStart s) = trim s := by
  have hi := cstr_trimInPlace hm h0
  have hd := @Mem.cstr_drop _ 0 _ _ (hi ▸ trimStart_le s)
  rw [Nat.zero_add, hi, ← trim_eq_drop] at hd
  exact hd

end Stored

/-- `trim(s)` does what it is for. -/
structure Trims (s : List Byte) : Prop where
  result : trim s = stripped s
  inside : trimStore s ≤ s.length
  idempotent : trim (trim s) = trim s

theorem trims_spaces (n : Nat) : Trims (List.replicate n space) where
  result := by
    rw [trim_spaces, stripped, List.dropWhile_eq_nil_iff.mpr fun b hb => decide_eq_true (List.eq_of_mem_replicate hb)]
    rfl
  inside := by rw [trimStore_spaces, List.length_replicate]
  idempotent := by
    rw [trim_spaces]
    exact trim_spaces 0

theorem IsCore.trims {core : List Byte} (h : IsCore core) (behind : Nat) : Trims (padded 0 core behind) where
  result := by
    rw [h.trim_padded, h.stripped_padded, Nat.zero_min]
    exact List.append_nil core
  inside := by
    rw [trimStore, h.trimStart_padded, h.trimEnd_padded, padded, List.length_append]
    simp
  idempotent := by
    have hc : core = padded 0 core 0 := (List.append_nil core).symm
    rw [h.trim_padded, Nat.zero_min, List.replicate_zero, List.append_nil]
    nth_rewrite 1 [hc]
    rw [h.trim_padded, Nat.zero_min]
    exact List.append_nil core

/-- With spaces in front, either as many stay behind or the store misses the string. -/
theorem IsCore.trims_padded_iff {core : List Byte} (h : IsCore core) (before behind : Nat) :
    Trims (padded before core behind) ↔ before = 0 := by
  constructor
  · intro ht
    have hr := congrArg List.length ht.result
    have hi := ht.inside
    rw [h.trim_padded, h.stripped_padded, List.length_append, List.length_replicate] at hr
    rw [trimStore, h.trimStart_padded, h.trimEnd_padded, padded, List.length_append, List.length_append,
      List.length_replicate, List.length_replicate] at hi
    omega
  · rintro rfl
    exact h.trims behind

theorem trims_iff (s : List Byte) : Trims s ↔ s.head? ≠ some space ∨ ∀ b ∈ s, b = space := by
  by_cases h : ∃ b ∈ s, b ≠ space
  · obtain ⟨before, behind, hc, hs⟩ := eq_padded h
    have hn : ¬∀ b ∈ s, b = space := fun ha => by
      obtain ⟨b, hb, hne⟩ := h
      exact hne (ha b hb)
    have hhead : s.head? ≠ some space ↔ before = 0 := by
      rw [hs, padded, List.append_assoc]
      cases before with
      | zero =>
        obtain ⟨b, tail, he⟩ := List.exists_cons_of_ne_nil hc.ne
        have hf := hc.first
        rw [he] at hf ⊢
        exact iff_of_true hf rfl
      | succ before => simp [List.replicate_succ]
    rw [or_iff_left hn, hhead, hs]
    exact hc.trims_padded_iff before behind
  · have hall : ∀ b ∈ s, b = space := fun b hb => not_not.mp fun hn => h ⟨b, hb, hn⟩
    rw [eq_spaces h]
    refine iff_of_true (trims_spaces _) (.inr ?_)
    rw [← eq_spaces h]
    exact hall

/-- One space in front of a word. -/
theorem trim_store_outside : ¬∀ s : List Byte, 0 ∉ s → Trims s := by
  intro h
  exact absurd (h (str " a") (by decide)).inside (by decide)

end Pksh
