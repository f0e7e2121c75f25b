import Pksh.Lib.Scan
import Pksh.Words
import Mathlib.Data.List.GetD

/-! `fix_cmd_arg` index by index: `ai` and `pi` at every copy out of the typed
line, and the size of the block. -/

namespace Pksh

open Wire

/-- `argv[0..ac)`, `argc`, and `ai` and `pi` at each copy so far. -/
structure Fixing where
  argv : List Byte
  argc : Nat
  copies : List (Nat × Nat)

/-- The copy of `cmd[ai..pi)` into `arg`, and from there into the block. -/
def Fixing.copied (f : Fixing) (isFile : List Byte → Bool) (cmd : Mem) (ai pi : Nat) : Fixing where
  argv := f.argv ++ fixWord isFile (cmd.cstr ai (pi - ai)) ++ [0]
  argc := f.argc + 1
  copies := f.copies ++ [(ai, pi)]

/-- The outer loop, in at most so many rounds, with at most `turns` turns of
each inner loop. `isFile` is asked once a round. -/
def fixCmdArgRounds (isFile : Nat → List Byte → Bool) (cmd : Mem) (turns : Nat) :
    Nat → Nat → Nat → Fixing → Option Fixing
  | 0, _, _, _ => none
  | rounds + 1, ai, pi, f =>
    if cmd pi = 0 then some f
    else do
      let word ← scan (fun c => c ≠ 0 && c ≠ space) cmd turns pi
      let gap ← scan (fun c => c ≠ 0 && c = space) cmd turns word.stop
      -- `ai = pi; ai++` stands before the loop over the spaces
      fixCmdArgRounds isFile cmd turns rounds (word.stop + 1) gap.stop (f.copied (isFile f.argc) cmd ai word.stop)

def fixCmdArgAt (isFile : Nat → List Byte → Bool) (cmd : Mem) (turns : Nat) : Option Fixing :=
  fixCmdArgRounds isFile cmd turns turns 0 0 ⟨[], 0, []⟩

/-- What holds whenever the outer loop tests `cmd[pi]`, for a line of `n` characters. -/
structure Fixing.Sound (cmd : Mem) (n ai pi : Nat) (f : Fixing) : Prop where
  within : pi ≤ n
  ahead : ai ≤ n + 1
  ordered : cmd pi ≠ 0 → ai ≤ pi
  copies : ∀ c ∈ f.copies, c.1 ≤ c.2 ∧ c.2 ≤ n
  terminators : f.argv.count 0 = f.argc
  last : 0 < f.argc → f.argv.getLast? = some 0
  size : f.argv.length ≤ ai + 5 * f.argc

section Runs

variable {p : Byte → Bool} {s : List Byte} {i : Nat}

theorem le_runEnd : i ≤ runEnd p s i := Nat.le_add_right _ _

theorem runEnd_le (hi : i ≤ s.length) : runEnd p s i ≤ s.length := by
  have hl := (List.takeWhile_prefix (l := s.drop i) p).length_le
  rw [List.length_drop] at hl
  rw [runEnd]
  omega

theorem charAt_runEnd (hlt : runEnd p s i < s.length) : p (charAt s (runEnd p s i)) = false := by
  have hsplit := List.takeWhile_append_dropWhile (p := p) (l := s.drop i)
  have hc : charAt s (runEnd p s i) = ((s.drop i).dropWhile p).headD 0 := by
    rw [← charAt_length ((s.drop i).takeWhile p), hsplit, charAt, charAt, runEnd, List.getD_eq_getElem?_getD,
      List.getD_eq_getElem?_getD, List.getElem?_drop]
  rw [hc]
  refine (headD_dropWhile (s.drop i)).resolve_left fun hnil => ?_
  have hlen := congrArg List.length hsplit
  rw [hnil, List.append_nil, List.length_drop] at hlen
  rw [runEnd, hlen] at hlt
  omega

theorem lt_runEnd (hlt : i < s.length) (hp : p (charAt s i) = true) : i < runEnd p s i := by
  rw [charAt, List.getD_eq_getElem _ _ hlt] at hp
  rw [runEnd, List.drop_eq_getElem_cons hlt, List.takeWhile_cons_of_pos hp, List.length_cons]
  omega

end Runs

section Rounds

variable {isFile : Nat → List Byte → Bool} {cmd : Mem} {s : List Byte} {turns rounds ai pi : Nat} {f : Fixing}

theorem charAt_of_string (h : cmd.StringAt 0 s) (hpi : pi ≤ s.length) : cmd pi = charAt s pi := by
  have hd := (h.drop hpi).head
  rw [Nat.zero_add] at hd
  rw [hd, charAt, List.getD_eq_getElem?_getD, ← List.head?_drop, List.headD_eq_head?_getD]

theorem scan_runEnd (h : cmd.StringAt 0 s) (p : Byte → Bool) (hpi : pi ≤ s.length) (ht : s.length < turns) :
    ∃ reads, scan (fun c => c ≠ 0 && p c) cmd turns pi = some ⟨runEnd p s pi, reads⟩ := by
  have hd := h.drop hpi
  rw [Nat.zero_add] at hd
  refine ⟨_, scan_guarded hd ?_⟩
  rw [List.length_drop]
  omega

theorem fixCmdArgRounds_end (h : cmd.StringAt 0 s) :
    fixCmdArgRounds isFile cmd turns (rounds + 1) ai s.length f = some f := by
  have hend : cmd s.length = 0 := by
    rw [charAt_of_string h (Nat.le_refl _)]
    simp [charAt]
  rw [fixCmdArgRounds, if_pos hend]

theorem charAt_ne_zero (h : cmd.StringAt 0 s) (hpi : pi < s.length) : cmd pi ≠ 0 := by
  rw [charAt_of_string h (Nat.le_of_lt hpi), charAt, List.getD_eq_getElem _ _ hpi]
  exact fun h0 => h.free (h0 ▸ List.getElem_mem hpi)

theorem fixCmdArgRounds_round (h : cmd.StringAt 0 s) (hpi : pi < s.length) (ht : s.length < turns) :
    fixCmdArgRounds isFile cmd turns (rounds + 1) ai pi f =
      fixCmdArgRounds isFile cmd turns rounds (runEnd (· ≠ space) s pi + 1)
        (runEnd (· = space) s (runEnd (· ≠ space) s pi))
        (f.copied (isFile f.argc) cmd ai (runEnd (· ≠ space) s pi)) := by
  obtain ⟨reads, hword⟩ := scan_runEnd h (· ≠ space) (Nat.le_of_lt hpi) ht
  obtain ⟨reads', hgap⟩ := scan_runEnd h (· = space) (runEnd_le (p := (· ≠ space)) (Nat.le_of_lt hpi)) ht
  rw [fixCmdArgRounds, if_neg (charAt_ne_zero h hpi), hword, Option.bind_eq_bind, Option.bind_some, hgap,
    Option.bind_some]

/-- Where a round ends: behind the space that ended the word, if one did. -/
theorem round_advances (hpi : pi < s.length) :
    pi < runEnd (· = space) s (runEnd (· ≠ space) s pi) ∧
    (runEnd (· ≠ space) s pi < s.length →
      runEnd (· ≠ space) s pi < runEnd (· = space) s (runEnd (· ≠ space) s pi)) := by
  have hle : pi ≤ runEnd (· ≠ space) s pi := le_runEnd
  have hnext : runEnd (· ≠ space) s pi < s.length →
      runEnd (· ≠ space) s pi < runEnd (· = space) s (runEnd (· ≠ space) s pi) := by
    intro hlt
    have hc := charAt_runEnd hlt
    exact lt_runEnd hlt (by simpa using hc)
  refine ⟨?_, hnext⟩
  by_cases hlt : runEnd (· ≠ space) s pi < s.length
  · exact Nat.lt_of_le_of_lt hle (hnext hlt)
  · exact Nat.lt_of_lt_of_le hpi ((Nat.le_of_not_lt hlt).trans le_runEnd)

theorem Fixing.Sound.round (hf : f.Sound cmd s.length ai pi) (h : cmd.StringAt 0 s) (hpi : pi < s.length)
    (isFile : List Byte → Bool) :
    (f.copied isFile cmd ai (runEnd (· ≠ space) s pi)).Sound cmd s.length (runEnd (· ≠ space) s pi + 1)
      (runEnd (· = space) s (runEnd (· ≠ space) s pi)) := by
  have hle : pi ≤ runEnd (· ≠ space) s pi := le_runEnd
  have hend : runEnd (· ≠ space) s pi ≤ s.length := runEnd_le (Nat.le_of_lt hpi)
  have hordered := hf.ordered (charAt_ne_zero h hpi)
  generalize hstop : runEnd (· ≠ space) s pi = stop at *
  have hword : 0 ∉ fixWord isFile (cmd.cstr ai (stop - ai)) :=
    not_zero_mem_fixWord fun hm => Mem.ne_zero_of_mem_cstr hm rfl
  have hlen : (fixWord isFile (cmd.cstr ai (stop - ai))).length ≤ stop - ai + 5 := by
    have hc : (cmd.cstr ai (stop - ai)).length ≤ stop - ai :=
      (List.takeWhile_prefix _).length_le.trans_eq (Mem.slice_length cmd ai _)
    rw [fixWord]
    split
    · rw [List.length_append, Nat.add_comm]
      exact Nat.add_le_add_right hc 5
    · exact Nat.le_add_right_of_le hc
  refine ⟨runEnd_le hend, Nat.succ_le_succ hend, fun hc => ?_, ?_, ?_, fun _ => ?_, ?_⟩
  · by_contra hgt
    have hlt : stop < s.length := by
      by_contra hge
      have hn : runEnd (· = space) s stop = s.length := le_antisymm (runEnd_le hend) ((Nat.le_of_not_lt hge).trans le_runEnd)
      exact hc (by rw [hn, charAt_of_string h (Nat.le_refl _)]; simp [charAt])
    have hadv := (round_advances hpi).2
    rw [hstop] at hadv
    exact hgt (hadv hlt)
  · intro c hc
    rcases List.mem_append.mp hc with hc | hc
    · exact hf.copies c hc
    · rw [List.mem_singleton.mp hc]
      exact ⟨hordered.trans hle, hend⟩
  · simp only [copied, List.count_append, hf.terminators, List.count_eq_zero.mpr hword]
    rfl
  · exact List.getLast?_concat
  · have hsize := hf.size
    simp only [copied, List.length_append, List.length_singleton]
    omega

theorem fixCmdArgRounds_ends (hf : f.Sound cmd s.length ai pi) (h : cmd.StringAt 0 s) :
    ∃ f' ai', f'.Sound cmd s.length ai' s.length ∧ ∀ rounds turns, s.length - pi < rounds → s.length < turns →
      fixCmdArgRounds isFile cmd turns rounds ai pi f = some f' := by
  induction hn : s.length - pi using Nat.strongRecOn generalizing ai pi f with
  | ind n ih =>
    by_cases hpi : pi < s.length
    · have hadv := (round_advances hpi).1
      have hend : runEnd (· = space) s (runEnd (· ≠ space) s pi) ≤ s.length :=
        runEnd_le (runEnd_le (Nat.le_of_lt hpi))
      obtain ⟨f', ai', hf', hrun⟩ := ih _ (by omega) (hf.round h hpi (isFile f.argc)) rfl
      refine ⟨f', ai', hf', fun rounds turns hr ht => ?_⟩
      obtain ⟨rounds, rfl⟩ := Nat.exists_eq_add_one_of_ne_zero (Nat.ne_zero_of_lt hr)
      rw [fixCmdArgRounds_round h hpi ht]
      exact hrun rounds turns (by omega) ht
    · obtain rfl : pi = s.length := le_antisymm hf.within (Nat.le_of_not_lt hpi)
      refine ⟨f, ai, hf, fun rounds turns hr ht => ?_⟩
      obtain ⟨rounds, rfl⟩ := Nat.exists_eq_add_one_of_ne_zero (Nat.ne_zero_of_lt hr)
      exact fixCmdArgRounds_end h

theorem fixCmdArgRounds_eq {isFile : List Byte → Bool} (h : cmd.StringAt 0 s) (hf : f.Sound cmd s.length ai pi)
    (ht : s.length < turns) (hr : s.length - pi ≤ rounds) :
    (fixCmdArgRounds (fun _ => isFile) cmd turns (rounds + 1) ai pi f).map (fun f => (f.argv, f.argc)) =
      some (fixCmdArgLoop isFile s rounds pi ai f.argv f.argc) := by
  induction rounds generalizing ai pi f with
  | zero =>
    have hlast : s.length ≤ pi := Nat.sub_eq_zero_iff_le.mp (Nat.le_zero.mp hr)
    obtain rfl : pi = s.length := le_antisymm hf.within hlast
    rw [fixCmdArgRounds_end h, fixCmdArgLoop_end]
    rfl
  | succ rounds ih =>
    by_cases hpi : pi < s.length
    · have hadv := (round_advances hpi).1
      have hle : pi ≤ runEnd (· ≠ space) s pi := le_runEnd
      have hend : runEnd (· ≠ space) s pi ≤ s.length := runEnd_le (Nat.le_of_lt hpi)
      have hordered := hf.ordered (charAt_ne_zero h hpi)
      have harg : cmd.cstr ai (runEnd (· ≠ space) s pi - ai) = (s.drop ai).take (runEnd (· ≠ space) s pi - ai) := by
        have hd := h.drop (hordered.trans hf.within)
        rw [Nat.zero_add] at hd
        exact hd.cstr_take (by rw [List.length_drop]; omega)
      have hc : charAt s pi ≠ 0 := charAt_of_string h (Nat.le_of_lt hpi) ▸ charAt_ne_zero h hpi
      rw [fixCmdArgRounds_round h hpi ht, fixCmdArgLoop, if_neg hc, ih (hf.round h hpi isFile) (by omega)]
      simp only [Fixing.copied, harg]
      rfl
    · obtain rfl : pi = s.length := le_antisymm hf.within (Nat.le_of_not_lt hpi)
      rw [fixCmdArgRounds_end h, fixCmdArgLoop_end]
      rfl

end Rounds

theorem Fixing.Sound.start (cmd : Mem) (n : Nat) : Fixing.Sound cmd n 0 0 ⟨[], 0, []⟩ :=
  ⟨Nat.zero_le _, Nat.zero_le _, fun _ => Nat.le_refl 0, nofun, rfl, nofun, Nat.zero_le _⟩

/-- As long as the files stay what they are, the block is that of `fixCmdArg`. -/
theorem fixCmdArgAt_eq {cmd : Mem} {s : List Byte} {turns : Nat} (h : cmd.StringAt 0 s) (isFile : List Byte → Bool)
    (ht : s.length < turns) :
    (fixCmdArgAt (fun _ => isFile) cmd turns).map (fun f => (f.argv, f.argc)) = some (fixCmdArg isFile s) := by
  obtain ⟨f, ai, -, hrun⟩ := @fixCmdArgRounds_ends (fun _ => isFile) cmd s 0 0 _ (.start cmd s.length) h
  rw [fixCmdArgAt, hrun turns turns (by omega) ht, ← hrun (s.length + 1) turns (by omega) ht]
  exact fixCmdArgRounds_eq h (.start cmd s.length) ht (Nat.sub_le _ _)

/-- Whatever the spacing, the loop ends, no copy has a negative length or goes
past the line, and the block has one terminator for each argument, the last of
its bytes among them, and no more than five bytes an argument beyond the line. -/
theorem fixCmdArg_bounded {cmd : Mem} {s : List Byte} (h : cmd.StringAt 0 s) (isFile : Nat → List Byte → Bool) :
    ∃ f, (∀ turns, s.length < turns → fixCmdArgAt isFile cmd turns = some f) ∧
      (∀ c ∈ f.copies, c.1 ≤ c.2 ∧ c.2 ≤ s.length) ∧
      f.argv.count 0 = f.argc ∧
      (0 < f.argc → f.argv.getLast? = some 0) ∧
      f.argv.length ≤ s.length + 1 + 5 * f.argc := by
  obtain ⟨f, ai, hf, hrun⟩ := @fixCmdArgRounds_ends isFile cmd s 0 0 _ (.start cmd s.length) h
  refine ⟨f, fun turns ht => hrun turns turns (by omega) ht, hf.copies, hf.terminators, hf.last, ?_⟩
  have hsize := hf.size
  have hahead := hf.ahead
  omega

theorem fixCmdArg_bounded_gaps : ∃ f, (∀ turns, 7 < turns →
      fixCmdArgAt (fun _ arg => arg = str "b") (Mem.store (fun _ => 0) 0 (str " a  b  ")) turns = some f) ∧
    (∀ c ∈ f.copies, c.1 ≤ c.2 ∧ c.2 ≤ 7) ∧ f.argv.count 0 = f.argc ∧
    (0 < f.argc → f.argv.getLast? = some 0) ∧ f.argv.length ≤ 7 + 1 + 5 * f.argc :=
  @fixCmdArg_bounded (Mem.store (fun _ => 0) 0 (str " a  b  ")) (str " a  b  ") ⟨by decide, by decide⟩
    fun _ arg => arg = str "b"

end Pksh
