import Pksh.Common
import Mathlib.Data.List.Infix

/-! What `arg_prepend_host` makes of a name, by what occurs in it. -/

namespace Pksh

open Wire

def colon : Byte := 0x3a

section Strstr

theorem strstr_eq_some {pat s t : List Byte} (h : strstr pat s = some t) : pat <+: t ∧ t <:+ s := by
  induction s with
  | nil =>
    rw [strstr] at h
    split at h
    · cases h
      exact ⟨List.isPrefixOf_iff_prefix.mp ‹_›, List.suffix_refl _⟩
    · cases h
  | cons b s ih =>
    rw [strstr] at h
    split at h
    · cases h
      exact ⟨List.isPrefixOf_iff_prefix.mp ‹_›, List.suffix_refl _⟩
    · exact ⟨(ih h).1, (ih h).2.trans (List.suffix_cons b s)⟩

theorem strstr_start {pat s : List Byte} (h : pat <+: s) : strstr pat s = some s := by
  have hp := List.isPrefixOf_iff_prefix.mpr h
  cases s with
  | nil => rw [strstr, if_pos hp]
  | cons b s => rw [strstr, if_pos hp]

theorem strstr_isSome_iff {pat s : List Byte} : (strstr pat s).isSome = true ↔ pat <:+: s := by
  constructor
  · intro h
    obtain ⟨t, ht⟩ := Option.isSome_iff_exists.mp h
    exact (strstr_eq_some ht).1.isInfix.trans (strstr_eq_some ht).2.isInfix
  · intro h
    induction s with
    | nil => rw [strstr_start (List.infix_nil.mp h ▸ List.nil_prefix)]; rfl
    | cons b s ih =>
      rw [strstr]
      split
      · rfl
      · rename_i hp
        refine ih ((List.infix_cons_iff.mp h).resolve_left fun hpre => hp ?_)
        exact List.isPrefixOf_iff_prefix.mpr hpre

theorem strstr_colon (s : List Byte) : (strstr (str ":") s).isSome = true ↔ colon ∈ s := by
  rw [strstr_isSome_iff]
  exact List.singleton_infix_iff colon s

theorem argDeviceCheck_iff (word : List Byte) : argDeviceCheck word = true ↔ colon ∈ word := by
  have hsub (pat : List Byte) (hc : colon ∈ pat) (h : (strstr pat word).isSome = true) : colon ∈ word :=
    (strstr_isSome_iff.mp h).subset hc
  rw [argDeviceCheck, Bool.or_eq_true, Bool.or_eq_true, strstr_colon]
  constructor
  · rintro ((h | h) | h)
    · exact hsub _ (by decide) h
    · exact hsub _ (by decide) h
    · exact h
  · exact .inr

end Strstr

theorem colon_of_host (s : List Byte) : strstr (str ":") (str "host:" ++ s) = some (str ":" ++ s) := by
  rw [← strstr_start (List.prefix_append (str ":") s)]
  rfl

/-- A name that starts with the prefix keeps it, whichever test finds it. -/
theorem argPrependHost_host (s : List Byte) : argPrependHost (str "host:" ++ s) = str "host:" ++ s := by
  rw [argPrependHost]
  split
  · rfl
  · rw [strstr_start (List.prefix_append _ _)]
    simp only [colon_of_host, Option.getD_some]
    rfl

/-- A name keeps its form, loses what is in front of `host:`, or is given the
prefix. -/
theorem argPrependHost_cases (old : List Byte) :
    (argPrependHost old = old ∧ colon ∈ old) ∨
    (∃ s, argPrependHost old = str "host:" ++ s ∧ str "host:" ++ s <:+ old ∧ ¬str ":/" <:+: old) ∨
    (argPrependHost old = str "host:" ++ old ∧ colon ∉ old) := by
  rw [argPrependHost]
  by_cases hs : (strstr (str ":/") old).isSome = true
  · rw [if_pos hs]
    exact .inl ⟨rfl, (strstr_isSome_iff.mp hs).subset (by decide)⟩
  rw [if_neg hs]
  cases hh : strstr (str "host:") old with
  | some t =>
    obtain ⟨⟨s, rfl⟩, hsuf⟩ := strstr_eq_some hh
    refine .inr (.inl ⟨s, ?_, hsuf, fun h => hs (strstr_isSome_iff.mpr h)⟩)
    simp only [colon_of_host, Option.getD_some]
    rfl
  | none =>
    by_cases hc : (strstr (str ":") old).isSome = true
    · simp only [if_pos hc]
      exact .inl ⟨trivial, (strstr_colon old).mp hc⟩
    · simp only [if_neg hc]
      exact .inr (.inr ⟨trivial, fun h => hc ((strstr_colon old).mpr h)⟩)

theorem colon_mem_argPrependHost (old : List Byte) : colon ∈ argPrependHost old := by
  have hhost (s : List Byte) : colon ∈ str "host:" ++ s := List.mem_append_left s (by decide)
  rcases argPrependHost_cases old with ⟨he, hc⟩ | ⟨s, he, -, -⟩ | ⟨he, -⟩
  · rwa [he]
  · exact he ▸ hhost s
  · exact he ▸ hhost old

theorem argPrependHost_idem (old : List Byte) : argPrependHost (argPrependHost old) = argPrependHost old := by
  rcases argPrependHost_cases old with ⟨he, -⟩ | ⟨s, he, -, -⟩ | ⟨he, -⟩
  · rw [he, he]
  · rw [he, argPrependHost_host]
  · rw [he, argPrependHost_host]

theorem argPrependHost_length_le (old : List Byte) : (argPrependHost old).length ≤ old.length + 5 := by
  have h5 : (str "host:").length = 5 := rfl
  rcases argPrependHost_cases old with ⟨he, -⟩ | ⟨s, he, hs, -⟩ | ⟨he, -⟩
  · rw [he]
    exact Nat.le_add_right _ 5
  · rw [he]
    exact Nat.le_add_right_of_le hs.length_le
  · rw [he, List.length_append, h5, Nat.add_comm]

theorem zero_not_mem_argPrependHost {old : List Byte} (h0 : 0 ∉ old) : 0 ∉ argPrependHost old := by
  rcases argPrependHost_cases old with ⟨he, -⟩ | ⟨s, he, hs, -⟩ | ⟨he, -⟩
  · rwa [he]
  · rw [he]
    exact fun hm => h0 (hs.subset hm)
  · rw [he, List.mem_append, not_or]
    exact ⟨by decide, h0⟩

/-- The name comes back as it was when it already names a device, unless what
names it is a `host:` with no `:/` behind or before it. -/
theorem argPrependHost_eq_self {old : List Byte}
    (h : colon ∈ old ∧ ¬str "host:" <:+: old ∨ str ":/" <:+: old) : argPrependHost old = old := by
  rcases argPrependHost_cases old with ⟨he, -⟩ | ⟨s, -, hs, hn⟩ | ⟨-, hc⟩
  · exact he
  · rcases h with ⟨-, h⟩ | h
    · exact absurd ((List.prefix_append (str "host:") s).isInfix.trans hs.isInfix) h
    · exact absurd h hn
  · rcases h with ⟨h, -⟩ | h
    · exact absurd h hc
    · exact absurd (h.subset (by decide)) hc

/-- A name that `arg_prepend_host` has made names a device, and is left alone
from then on. -/
theorem argPrependHost_settles (x : List Byte) :
    argDeviceCheck (argPrependHost x) = true ∧
    argPrependHost (argPrependHost x) = argPrependHost x ∧
    (argPrependHost x).length ≤ x.length + 5 ∧
    (colon ∈ x ∧ ¬str "host:" <:+: x ∨ str ":/" <:+: x → argPrependHost x = x) :=
  ⟨(argDeviceCheck_iff _).mpr (colon_mem_argPrependHost x), argPrependHost_idem x, argPrependHost_length_le x,
    argPrependHost_eq_self⟩

theorem argPrependHost_settles_device : argPrependHost (str "mc0:/host:a") = str "mc0:/host:a" :=
  (argPrependHost_settles (str "mc0:/host:a")).2.2.2 (.inr (strstr_isSome_iff.mp (by decide)))

end Pksh
