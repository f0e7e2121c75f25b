import Pksh.HostPaths
import Pksh.Lib.Pieces
import Mathlib.Data.List.DropRight

/-! The words of a command line and the block that `fix_cmd_arg` makes of them. -/

namespace Pksh

open Wire

/-- What `fix_cmd_arg` makes of one word. -/
def fixWord (isFile : List Byte → Bool) (word : List Byte) : List Byte :=
  if isFile word && !argDeviceCheck word then str "host:" ++ word else word

def IsWord (word : List Byte) : Prop := word ≠ [] ∧ space ∉ word ∧ 0 ∉ word

/-- A word and the words behind it, each with the number of spaces in front of
it beyond the first. -/
def spelled : List Byte → List (Nat × List Byte) → List Byte
  | word, [] => word
  | word, (gap, next) :: rest => word ++ space :: (List.replicate gap space ++ spelled next rest)

/-- The arguments that come out of such a line. -/
def spelledArgs (word : List Byte) (rest : List (Nat × List Byte)) : List (List Byte) :=
  word :: rest.map fun p => List.replicate p.1 space ++ p.2

section Loop

variable {isFile : List Byte → Bool}

theorem takeWhile_word {word rest : List Byte} (hw : space ∉ word) (hr : rest = [] ∨ rest.head? = some space) :
    (word ++ rest).takeWhile (· ≠ space) = word := by
  rw [takeWhile_ne_append hw]
  rcases hr with rfl | hr
  · simp
  · obtain ⟨tail, rfl⟩ : ∃ tail, rest = space :: tail := by
      cases rest with
      | nil => cases hr
      | cons b tail => exact ⟨tail, by rw [Option.some.inj hr]⟩
    simp

theorem runEnd_word {pre word rest : List Byte} (hw : space ∉ word) (hr : rest = [] ∨ rest.head? = some space) :
    runEnd (· ≠ space) (pre ++ word ++ rest) pre.length = pre.length + word.length := by
  rw [runEnd, List.append_assoc, List.drop_left, takeWhile_word hw hr]

theorem runEnd_gap {pre rest : List Byte} (gap : Nat) (hr : rest.head? ≠ some space) :
    runEnd (· = space) (pre ++ (List.replicate gap space ++ rest)) pre.length = pre.length + gap := by
  rw [runEnd, List.drop_left, takeWhile_gap, takeWhile_of_head hr, List.append_nil, List.length_replicate]

theorem charAt_length (pre rest : List Byte) : charAt (pre ++ rest) pre.length = rest.headD 0 := by
  cases rest <;> simp [charAt]

theorem fixCmdArgLoop_end (cmd : List Byte) (rounds ai : Nat) (argv : List Byte) (argc : Nat) :
    fixCmdArgLoop isFile cmd rounds cmd.length ai argv argc = (argv, argc) := by
  cases rounds with
  | zero => rfl
  | succ rounds => rw [fixCmdArgLoop, if_pos (by simp [charAt])]

theorem fixCmdArgLoop_round (pre word rest : List Byte) (gap : Nat) (argv : List Byte) (argc rounds : Nat)
    (hw : space ∉ word) (hr : rest = [] ∨ rest.head? = some space) (h0 : (word ++ rest).headD 0 ≠ 0) :
    fixCmdArgLoop isFile (pre ++ List.replicate gap space ++ word ++ rest) (rounds + 1) (pre.length + gap) pre.length
        argv argc =
      fixCmdArgLoop isFile (pre ++ List.replicate gap space ++ word ++ rest) rounds
        (runEnd (· = space) (pre ++ List.replicate gap space ++ word ++ rest) (pre.length + gap + word.length))
        (pre.length + gap + word.length + 1) (argv ++ fixWord isFile (List.replicate gap space ++ word) ++ [0])
        (argc + 1) := by
  have hlen : pre.length + gap = (pre ++ List.replicate gap space).length := by
    rw [List.length_append, List.length_replicate]
  have hc : charAt (pre ++ List.replicate gap space ++ word ++ rest) (pre.length + gap) ≠ 0 := by
    rwa [hlen, List.append_assoc, charAt_length]
  have hend : runEnd (· ≠ space) (pre ++ List.replicate gap space ++ word ++ rest) (pre.length + gap) =
      pre.length + gap + word.length := by
    rw [hlen, runEnd_word hw hr]
  have harg : ((pre ++ List.replicate gap space ++ word ++ rest).drop pre.length).take
      (pre.length + gap + word.length - pre.length) = List.replicate gap space ++ word := by
    have hn : pre.length + gap + word.length - pre.length = (List.replicate gap space ++ word).length := by
      rw [List.length_append, List.length_replicate]
      omega
    rw [hn, List.append_assoc, List.append_assoc, List.drop_left, ← List.append_assoc, List.take_left]
  rw [fixCmdArgLoop, if_neg hc]
  simp only [hend, harg]
  rfl

theorem head_word_append {word : List Byte} (hw : IsWord word) (rest : List Byte) :
    (word ++ rest).headD 0 ≠ 0 ∧ (word ++ rest).head? ≠ some space := by
  obtain ⟨b, tail, rfl⟩ := List.exists_cons_of_ne_nil hw.1
  refine ⟨fun h => hw.2.2 (h ▸ List.mem_cons_self), fun h => hw.2.1 ?_⟩
  rw [← Option.some.inj h]
  exact List.mem_cons_self

theorem head_spelled_append {word : List Byte} {rest : List (Nat × List Byte)} (hw : IsWord word) (behind : List Byte) :
    (spelled word rest ++ behind).head? ≠ some space := by
  cases rest with
  | nil => exact (head_word_append hw behind).2
  | cons p rest =>
    rw [spelled, List.append_assoc]
    exact (head_word_append hw _).2

theorem spelled_ne_nil {word : List Byte} {rest : List (Nat × List Byte)} (hw : IsWord word) : spelled word rest ≠ [] := by
  cases rest with
  | nil => exact hw.1
  | cons p rest => exact List.append_ne_nil_of_left_ne_nil hw.1 _

theorem line_ne_nil {word : List Byte} {rest : List (Nat × List Byte)} (hw : IsWord word) (behind : List Byte) :
    spelled word rest ++ behind ≠ [] :=
  List.append_ne_nil_of_left_ne_nil (spelled_ne_nil hw) behind

theorem fixCmdArgLoop_spelled (pre word : List Byte) (gap : Nat) (rest : List (Nat × List Byte)) (behind : Nat)
    (argv : List Byte) (argc : Nat) {rounds : Nat} (hr : rest.length < rounds) (hw : space ∉ word) (hw0 : 0 ∉ word)
    (hne : word = [] → rest ≠ [] ∨ 0 < behind) (hs : ∀ p ∈ rest, IsWord p.2) :
    fixCmdArgLoop isFile (pre ++ List.replicate gap space ++ (spelled word rest ++ List.replicate behind space)) rounds
        (pre.length + gap) pre.length argv argc =
      (argv ++ (spelledArgs (List.replicate gap space ++ word) rest).flatMap (fixWord isFile · ++ [0]),
        argc + rest.length + 1) := by
  obtain ⟨k, rfl⟩ : ∃ k, rounds = k + 1 := ⟨rounds - 1, by omega⟩
  induction rest generalizing pre word gap argv argc k with
  | nil =>
    have h0 : (word ++ List.replicate behind space).headD 0 ≠ 0 := by
      cases word with
      | nil =>
        obtain ⟨n, hn⟩ := Nat.exists_eq_succ_of_ne_zero ((hne rfl).resolve_left (fun h => h rfl)).ne'
        rw [hn]
        exact show space ≠ 0 by decide
      | cons b word => exact fun h => hw0 (h ▸ List.mem_cons_self)
    have hsp : List.replicate behind space = [] ∨ (List.replicate behind space).head? = some space := by
      cases behind with
      | zero => exact .inl rfl
      | succ n => exact .inr rfl
    have hpi : pre.length + gap + word.length = (pre ++ List.replicate gap space ++ word).length := by
      simp [Nat.add_assoc]
    have hgap := @runEnd_gap (pre ++ List.replicate gap space ++ word) [] behind (by simp)
    rw [List.append_nil] at hgap
    have hend : (pre ++ List.replicate gap space ++ word).length + behind =
        (pre ++ List.replicate gap space ++ word ++ List.replicate behind space).length := by
      simp [Nat.add_assoc]
    rw [spelled, ← List.append_assoc, fixCmdArgLoop_round pre word _ gap argv argc k hw hsp h0, hpi, hgap, hend,
      fixCmdArgLoop_end]
    simp [spelledArgs]
  | cons p rest ih =>
    obtain ⟨gap', next⟩ := p
    obtain ⟨k, rfl⟩ : ∃ j, k = j + 1 := ⟨k - 1, by rw [List.length_cons] at hr; omega⟩
    have hnext : IsWord next := hs (gap', next) List.mem_cons_self
    have hrest : ∀ p ∈ rest, IsWord p.2 := fun p hp => hs p (List.mem_cons_of_mem _ hp)
    have hcmd : pre ++ List.replicate gap space ++ (spelled word ((gap', next) :: rest) ++ List.replicate behind space) =
        pre ++ List.replicate gap space ++ word ++
          space :: (List.replicate gap' space ++ (spelled next rest ++ List.replicate behind space)) := by
      simp [spelled]
    have hcmd' : pre ++ List.replicate gap space ++ word ++
          space :: (List.replicate gap' space ++ (spelled next rest ++ List.replicate behind space)) =
        pre ++ List.replicate gap space ++ word ++ [space] ++ List.replicate gap' space ++
          (spelled next rest ++ List.replicate behind space) := by
      simp
    have h0 : (word ++ space :: (List.replicate gap' space ++ (spelled next rest ++ List.replicate behind space))).headD 0 ≠
        0 := by
      cases word with
      | nil => exact show space ≠ 0 by decide
      | cons b word => exact fun h => hw0 (h ▸ List.mem_cons_self)
    have hpi : pre.length + gap + word.length + 1 = (pre ++ List.replicate gap space ++ word ++ [space]).length := by
      simp [Nat.add_assoc]
    have hend : runEnd (· = space) (pre ++ List.replicate gap space ++ word ++
        space :: (List.replicate gap' space ++ (spelled next rest ++ List.replicate behind space)))
          (pre.length + gap + word.length) =
        (pre ++ List.replicate gap space ++ word ++ [space]).length + gap' := by
      have hg := @runEnd_gap (pre ++ List.replicate gap space ++ word) _ (gap' + 1)
        (@head_spelled_append next rest hnext (List.replicate behind space))
      rw [List.replicate_succ, List.cons_append] at hg
      simp only [List.length_append, List.length_replicate, List.length_singleton] at hg ⊢
      rw [hg]
      omega
    rw [hcmd, fixCmdArgLoop_round pre word _ gap argv argc _ hw (.inr rfl) h0, hend, hpi, hcmd',
      ih _ next gap' _ _ hnext.2.1 hnext.2.2 (fun h => absurd h hnext.1) hrest k (by rw [List.length_cons] at hr; omega)]
    simp [spelledArgs, Nat.add_assoc, Nat.add_comm 1]

end Loop

theorem exists_spelled {cmd : List Byte} (h0 : 0 ∉ cmd) : ∃ word rest behind, space ∉ word ∧ 0 ∉ word ∧
    (∀ p ∈ rest, IsWord p.2) ∧ cmd = spelled word rest ++ List.replicate behind space := by
  induction cmd using pieces_induction space with
  | single word hw => exact ⟨word, [], 0, hw, h0, by simp, by simp [spelled]⟩
  | more word line hw ih =>
    rw [List.mem_append, List.mem_cons, not_or, not_or] at h0
    obtain ⟨next, rest, behind, hn, hn0, hr, rfl⟩ := ih h0.2.2
    by_cases he : next = []
    · subst he
      cases rest with
      | nil => exact ⟨word, [], behind + 1, hw, h0.1, hr, rfl⟩
      | cons p rest =>
        exact ⟨word, (p.1 + 1, p.2) :: rest, behind, hw, h0.1, by simpa using hr,
          by simp [spelled, List.replicate_succ]⟩
    · refine ⟨word, (0, next) :: rest, behind, hw, h0.1, ?_, by simp [spelled]⟩
      intro p hp
      rcases List.mem_cons.mp hp with rfl | hp
      · exact ⟨he, hn, hn0⟩
      · exact hr p hp

theorem two_mul_length_le_spelled (word : List Byte) {rest : List (Nat × List Byte)} (hs : ∀ p ∈ rest, IsWord p.2) :
    2 * rest.length ≤ (spelled word rest).length := by
  induction rest generalizing word with
  | nil => exact Nat.zero_le _
  | cons p rest ih =>
    have hi := ih [] fun q hq => hs q (List.mem_cons_of_mem _ hq)
    have hpos := List.length_pos_of_ne_nil (hs p List.mem_cons_self).1
    have hp : (spelled [] rest).length + p.2.length = (spelled p.2 rest).length := by
      cases rest with
      | nil => simp [spelled]
      | cons q rest =>
        simp only [spelled, List.nil_append, List.length_append]
        omega
    simp only [spelled, List.length_append, List.length_cons]
    omega

section Block

variable {isFile : List Byte → Bool}

theorem fixCmdArg_spelled {word : List Byte} {rest : List (Nat × List Byte)} {behind : Nat} (hw : space ∉ word)
    (hw0 : 0 ∉ word) (hs : ∀ p ∈ rest, IsWord p.2) (hne : spelled word rest ++ List.replicate behind space ≠ []) :
    fixCmdArg isFile (spelled word rest ++ List.replicate behind space) =
      ((spelledArgs word rest).flatMap (fixWord isFile · ++ [0]), (spelledArgs word rest).length) := by
  have hempty : word = [] → rest ≠ [] ∨ 0 < behind := by
    rintro rfl
    by_contra hc
    rw [not_or, not_not, Nat.not_lt, Nat.le_zero] at hc
    rw [hc.1, hc.2] at hne
    exact hne rfl
  have hlen := two_mul_length_le_spelled word hs
  have hpos := List.length_pos_of_ne_nil hne
  have hr : rest.length < (spelled word rest ++ List.replicate behind space).length := by
    rw [List.length_append] at hpos ⊢
    omega
  have hloop := @fixCmdArgLoop_spelled isFile [] word 0 rest behind [] 0 _ hr hw hw0 hempty hs
  rw [fixCmdArg]
  simpa [spelledArgs] using hloop

theorem spelled_single (word : List Byte) (words : List (List Byte)) :
    spelled word (words.map (0, ·)) = word ++ words.flatMap (space :: ·) := by
  induction words generalizing word with
  | nil => simp [spelled]
  | cons next words ih => simp [spelled, ih]

theorem fixCmdArg_words {word : List Byte} {words : List (List Byte)} (hw : IsWord word) (hs : ∀ x ∈ words, IsWord x) :
    fixCmdArg isFile (word ++ words.flatMap (space :: ·)) =
      ((word :: words).flatMap (fixWord isFile · ++ [0]), words.length + 1) := by
  have hne : spelled word (words.map (0, ·)) ++ List.replicate 0 space ≠ [] := line_ne_nil hw _
  have hargs : spelledArgs word (words.map (0, ·)) = word :: words := by simp [spelledArgs, Function.comp_def]
  have hf := @fixCmdArg_spelled isFile word (words.map (0, ·)) 0 hw.2.1 hw.2.2 (by simpa using hs) hne
  rwa [hargs, List.replicate_zero, List.append_nil, spelled_single] at hf

end Block

section Expansion

variable {isFile : List Byte → Bool}

theorem not_zero_mem_fixWord {word : List Byte} (h : 0 ∉ word) : 0 ∉ fixWord isFile word := by
  rw [fixWord]
  split
  · rw [List.mem_append, not_or]
    exact ⟨by decide, h⟩
  · exact h

end Expansion

end Pksh
