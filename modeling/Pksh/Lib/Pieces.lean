import Mathlib.Data.List.Basic
import Mathlib.Data.List.DropRight
import Mathlib.Data.List.TakeWhile
import Mathlib.Tactic.Common

/-! Splitting a list at a separator, read from the front: the list is one piece
without the separator, or such a piece, the separator and a shorter list. -/

namespace Wire

variable {α : Type} [BEq α] [LawfulBEq α] {a : α}

theorem pieces_induction {motive : List α → Prop} (a : α) (single : ∀ l, a ∉ l → motive l)
    (more : ∀ l rest, a ∉ l → motive rest → motive (l ++ a :: rest)) (s : List α) : motive s := by
  induction hn : s.length using Nat.strongRecOn generalizing s with
  | ind n ih =>
    by_cases ha : a ∈ s
    · obtain ⟨l, rest, hs, hl⟩ := List.eq_append_cons_of_mem ha
      have hlen : rest.length < n := by
        rw [← hn, hs, List.length_append, List.length_cons]
        omega
      rw [hs]
      exact more l rest hl (ih rest.length hlen rest rfl)
    · exact single s ha

theorem mem_iff_mem_splitOn {s : List α} {b : α} (hb : b ≠ a) : b ∈ s ↔ ∃ l ∈ s.splitOn a, b ∈ l := by
  induction s using pieces_induction a with
  | single s hs => rw [List.splitOn_eq_singleton hs]; simp
  | more first rest hf ih =>
    rw [List.splitOn_append_cons_self_of_not_mem hf, List.exists_mem_cons_iff, ← ih, List.mem_append, List.mem_cons,
      or_iff_right hb]

theorem getLast_splitOn_eq_nil {s : List α} :
    (s.splitOn a).getLast (List.splitOn_ne_nil a s) = [] ↔ s = [] ∨ s.getLast? = some a := by
  induction s using pieces_induction a with
  | single s hs =>
    have hn : s.getLast? ≠ some a := fun h => hs (List.mem_of_getLast? h)
    simp only [List.splitOn_eq_singleton hs, List.getLast_singleton, or_iff_left hn]
  | more first rest hf ih =>
    have hl : (first ++ a :: rest).getLast? = some a ↔ rest = [] ∨ rest.getLast? = some a := by
      cases rest with
      | nil => simp
      | cons b rest => simp [List.getLast?_append]
    simp only [List.splitOn_append_cons_self_of_not_mem hf, List.getLast_cons (List.splitOn_ne_nil a rest), ih, hl,
      List.append_eq_nil_iff, reduceCtorEq, and_false, false_or]

section Terminated

variable {β : Type} [DecidableEq β] {b : β} {l : List β}

theorem ne_of_not_mem (h : b ∉ l) : ∀ x ∈ l, decide (x ≠ b) = true := by
  intro x hx
  apply decide_eq_true
  rintro rfl
  exact h hx

theorem takeWhile_ne_append (h : b ∉ l) (l' : List β) : (l ++ l').takeWhile (· ≠ b) = l ++ l'.takeWhile (· ≠ b) :=
  List.takeWhile_append_of_pos (ne_of_not_mem h)

theorem takeWhile_ne_append_cons (h : b ∉ l) (l' : List β) : (l ++ b :: l').takeWhile (· ≠ b) = l := by
  rw [takeWhile_ne_append h, List.takeWhile_cons_of_neg (by simp), List.append_nil]

end Terminated

section Gaps

variable {β : Type} [DecidableEq β] {b : β}

theorem eq_of_mem_gap {n : Nat} : ∀ x ∈ List.replicate n b, decide (x = b) = true :=
  fun _ hx => decide_eq_true (List.eq_of_mem_replicate hx)

theorem takeWhile_gap (n : Nat) (s : List β) :
    (List.replicate n b ++ s).takeWhile (· = b) = List.replicate n b ++ s.takeWhile (· = b) :=
  List.takeWhile_append_of_pos eq_of_mem_gap

theorem dropWhile_gap (n : Nat) (s : List β) : (List.replicate n b ++ s).dropWhile (· = b) = s.dropWhile (· = b) :=
  List.dropWhile_append_of_pos eq_of_mem_gap

theorem rdropWhile_gap (n : Nat) (s : List β) : (s ++ List.replicate n b).rdropWhile (· = b) = s.rdropWhile (· = b) := by
  rw [List.rdropWhile, List.reverse_append, List.reverse_replicate, dropWhile_gap, ← List.rdropWhile]

theorem takeWhile_of_head {s : List β} (h : s.head? ≠ some b) : s.takeWhile (· = b) = [] := by
  cases s with
  | nil => rfl
  | cons c s => exact List.takeWhile_cons_of_neg fun hc => h (congrArg some (of_decide_eq_true hc))

theorem dropWhile_of_head {s : List β} (h : s.head? ≠ some b) : s.dropWhile (· = b) = s := by
  cases s with
  | nil => rfl
  | cons c s => exact List.dropWhile_cons_of_neg fun hc => h (congrArg some (of_decide_eq_true hc))

theorem rdropWhile_of_last {s : List β} (h : s.getLast? ≠ some b) : s.rdropWhile (· = b) = s := by
  rw [← List.head?_reverse] at h
  rw [List.rdropWhile, dropWhile_of_head h, List.reverse_reverse]

theorem takeWhile_eq_gap (s : List β) : s.takeWhile (· = b) = List.replicate (s.takeWhile (· = b)).length b :=
  List.eq_replicate_of_mem fun _ hx => of_decide_eq_true (List.mem_takeWhile_imp (p := (· = b)) hx)

theorem head_dropWhile_ne (s : List β) : (s.dropWhile (· = b)).head? ≠ some b := by
  intro h
  have hn := List.head?_dropWhile_not (· = b) s
  rw [h] at hn
  exact absurd rfl (of_decide_eq_false hn)

end Gaps

end Wire
