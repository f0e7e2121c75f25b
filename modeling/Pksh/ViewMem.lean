import Pksh.Common
import Mathlib.Logic.Function.Iterate

/-! The last loop of `viewmem`, which prints the dump it has waited for. -/

namespace Pksh

open Wire

/-- The little-endian words of a run of bytes; up to three bytes may be over. -/
def wordsLe : List Byte → List Word
  | b0 :: b1 :: b2 :: b3 :: rest => joinWord b3 b2 b1 b0 :: wordsLe rest
  | _ => []

/-- What is left to read of the dump, and the four bytes of `data`. -/
structure View where
  fp : List Byte
  data : Mem

/-- `fread(&data, 4, 1, fp)`, whose result nobody looks at. -/
def View.fread (v : View) : View := ⟨v.fp.drop 4, v.data.store 0 (v.fp.take 4)⟩

inductive Shown
  | hex (w : Word)
  | float (w : Word)
  | newline
deriving DecidableEq, Repr

def Shown.word? : Shown → Option Word
  | .hex w | .float w => some w
  | .newline => none

/-- The loop over `j`, which prints `width / 4` words. -/
def viewLine (dumpAsFloat : Bool) : Nat → View → View × List Shown
  | 0, v => (v, [])
  | n + 1, v =>
    let v := v.fread
    let r := viewLine dumpAsFloat n v
    (r.1, (if dumpAsFloat then .float (v.data.word 0) else .hex (v.data.word 0)) :: r.2)

/-- The loop over `i`, in at most `turns` turns. -/
def viewLines (dumpAsFloat : Bool) (width : Nat) (size : Word) : Nat → Word → View → Option (List Shown)
  | 0, _, _ => none
  | turns + 1, i, v =>
    if i.toInt < size.toInt then
      let r := viewLine dumpAsFloat (width / 4) v
      (viewLines dumpAsFloat width size turns (i + BitVec.ofNat 32 width) r.1).map fun out => r.2 ++ .newline :: out
    else some []

def viewDump (dumpAsFloat : Bool) (width : Nat) (size : Word) (turns : Nat) (dump : List Byte) : Option (List Shown) :=
  viewLines dumpAsFloat width size turns 0 ⟨dump, fun _ => 0⟩

/-- The loop ends, and the words it has printed are those of the dump. -/
def ViewedOnce (dumpAsFloat : Bool) (width : Nat) (size : Word) (dump : List Byte) : Prop :=
  ∃ least, ∀ turns, least ≤ turns → ∃ out,
    viewDump dumpAsFloat width size turns dump = some out ∧ out.filterMap Shown.word? = wordsLe dump

section Words

theorem wordsLe_cons {bs : List Byte} (h : 4 ≤ bs.length) :
    ∃ w, wordsLe bs = w :: wordsLe (bs.drop 4) ∧ ∀ m : Mem, (m.store 0 (bs.take 4)).word 0 = w := by
  match bs, h with
  | b0 :: b1 :: b2 :: b3 :: rest, _ => exact ⟨joinWord b3 b2 b1 b0, rfl, fun m => rfl⟩

theorem wordsLe_length (bs : List Byte) : (wordsLe bs).length = bs.length / 4 := by
  induction bs using wordsLe.induct with
  | case1 b0 b1 b2 b3 rest ih =>
    rw [wordsLe, List.length_cons, ih]
    simp only [List.length_cons]
    omega
  | case2 bs hbs =>
    match bs, hbs with
    | [], _ | [_], _ | [_, _], _ | [_, _, _], _ => simp [wordsLe]
    | b0 :: b1 :: b2 :: b3 :: rest, hbs => exact absurd rfl (hbs b0 b1 b2 b3 rest)

end Words

/-- The words that are in `data` after each of so many reads. -/
def readWords : Nat → View → List Word
  | 0, _ => []
  | k + 1, v => v.fread.data.word 0 :: readWords k v.fread

section Reads

variable {v : View} {k n : Nat}

theorem readWords_length (k : Nat) (v : View) : (readWords k v).length = k := by
  induction k generalizing v with
  | zero => rfl
  | succ k ih => rw [readWords, List.length_cons, ih]

theorem readWords_add (n k : Nat) (v : View) : readWords (n + k) v = readWords n v ++ readWords k (View.fread^[n] v) := by
  induction n generalizing v with
  | zero => rw [Nat.zero_add]; rfl
  | succ n ih =>
    rw [Nat.add_right_comm, readWords, ih]
    rfl

theorem readWords_dump (h : 4 * k ≤ v.fp.length) : readWords k v = (wordsLe v.fp).take k := by
  induction k generalizing v with
  | zero => rfl
  | succ k ih =>
    have hword : 4 ≤ v.fp.length := by omega
    obtain ⟨w, hw, hdata⟩ := wordsLe_cons hword
    have hrest : 4 * k ≤ v.fread.fp.length := by
      rw [View.fread, List.length_drop]
      omega
    rw [hw, List.take_succ_cons, readWords, ih hrest]
    exact congrArg (· :: _) (hdata v.data)

theorem readWords_end (h : v.fp = []) : readWords k v = List.replicate k (v.data.word 0) := by
  have hstay : v.fread = v := by
    obtain ⟨fp, data⟩ := v
    obtain rfl : fp = [] := h
    exact congrArg (View.mk []) (Mem.store_nil data 0)
  induction k with
  | zero => rfl
  | succ k ih => rw [readWords, hstay, ih, List.replicate_succ]

theorem fread_iterate_fp (k : Nat) (v : View) : (View.fread^[k] v).fp = v.fp.drop (4 * k) := by
  induction k generalizing v with
  | zero => rfl
  | succ k ih =>
    rw [Function.iterate_succ_apply, ih, View.fread, List.drop_drop]
    congr 1
    omega

theorem fread_iterate_word (k : Nat) (v : View) :
    (View.fread^[k] v).data.word 0 = (readWords k v).getLastD (v.data.word 0) := by
  induction k generalizing v with
  | zero => rfl
  | succ k ih => rw [Function.iterate_succ_apply, ih, readWords, List.getLastD_cons]

/-- The words of the whole dump, and then its last one as often as is read on. -/
theorem readWords_behind (h : 4 * k = v.fp.length) (n : Nat) :
    readWords (k + n) v = wordsLe v.fp ++ List.replicate n ((wordsLe v.fp).getLastD (v.data.word 0)) := by
  have hall : readWords k v = wordsLe v.fp := by
    rw [readWords_dump (Nat.le_of_eq h), List.take_of_length_le]
    rw [wordsLe_length]
    omega
  have hend : (View.fread^[k] v).fp = [] := by
    rw [fread_iterate_fp]
    exact List.drop_of_length_le (Nat.le_of_eq h.symm)
  rw [readWords_add, readWords_end hend, fread_iterate_word, hall]

end Reads

section Lines

variable {asFloat : Bool} {width turns i rows : Nat} {size : Word} {v : View} {out : List Shown}

theorem viewLine_eq (n : Nat) (v : View) : (viewLine asFloat n v).1 = View.fread^[n] v ∧
    (viewLine asFloat n v).2.filterMap Shown.word? = readWords n v := by
  induction n generalizing v with
  | zero => exact ⟨rfl, rfl⟩
  | succ n ih =>
    refine ⟨(ih v.fread).1, ?_⟩
    have hshown (w : Word) : (if asFloat then Shown.float w else .hex w).word? = some w := by
      cases asFloat with
      | true => rfl
      | false => rfl
    rw [viewLine, List.filterMap_cons_some (hshown _), (ih v.fread).2]
    rfl

theorem words_line (n : Nat) (v : View) (out : List Shown) :
    ((viewLine asFloat n v).2 ++ .newline :: out).filterMap Shown.word? =
      readWords n v ++ out.filterMap Shown.word? := by
  rw [List.filterMap_append, (viewLine_eq n v).2, List.filterMap_cons_none rfl]

theorem viewLines_whole {j : Word} (h : viewLines asFloat width size turns j v = some out) :
    ∃ rows, out.filterMap Shown.word? = readWords (rows * (width / 4)) v := by
  induction turns generalizing j v out with
  | zero => cases h
  | succ turns ih =>
    rw [viewLines] at h
    split at h
    · obtain ⟨rest, hrest, rfl⟩ := Option.map_eq_some_iff.mp h
      obtain ⟨rows, hrows⟩ := ih hrest
      refine ⟨rows + 1, ?_⟩
      rw [words_line, hrows, (viewLine_eq _ v).1, ← readWords_add, Nat.add_one_mul, Nat.add_comm]
    · cases h
      exact ⟨0, by rw [Nat.zero_mul]; rfl⟩

theorem toInt_ofNat_of_lt (h : i < 2 ^ 31) : (BitVec.ofNat 32 i).toInt = i := by
  rw [BitVec.toInt_eq_toNat_of_lt (by rw [BitVec.toNat_ofNat]; omega), BitVec.toNat_ofNat]
  omega

/-- As many lines as it takes to have `size` bytes. -/
theorem viewLines_ends {s : Nat} (hs : size.toInt = s) (hroom : i + rows * width < 2 ^ 31)
    (hle : s ≤ i + rows * width) (hlt : rows = 0 ∨ i + (rows - 1) * width < s) (ht : rows < turns) :
    ∃ out, viewLines asFloat width size turns (BitVec.ofNat 32 i) v = some out ∧
      out.filterMap Shown.word? = readWords (rows * (width / 4)) v := by
  induction rows generalizing i v turns with
  | zero =>
    obtain ⟨turns, rfl⟩ := Nat.exists_eq_add_one_of_ne_zero (Nat.ne_zero_of_lt ht)
    refine ⟨[], ?_, by rw [Nat.zero_mul]; rfl⟩
    rw [viewLines, toInt_ofNat_of_lt (by omega), hs, if_neg (by omega)]
  | succ rows ih =>
    obtain ⟨turns, rfl⟩ := Nat.exists_eq_add_one_of_ne_zero (Nat.ne_zero_of_lt ht)
    have hbefore : i + rows * width < s := hlt.resolve_left (Nat.succ_ne_zero rows)
    have hlast : rows = 0 ∨ i + width + (rows - 1) * width < s := by
      cases rows with
      | zero => exact .inl rfl
      | succ rows =>
        rw [Nat.add_one_mul] at hbefore
        exact .inr (by rw [Nat.add_sub_cancel]; omega)
    rw [Nat.add_one_mul] at hle hroom
    obtain ⟨out, hout, hwords⟩ := ih (i := i + width) (v := (viewLine asFloat (width / 4) v).1) (by omega) (by omega)
      hlast (Nat.lt_of_succ_lt_succ ht)
    refine ⟨(viewLine asFloat (width / 4) v).2 ++ .newline :: out, ?_, ?_⟩
    · rw [viewLines, toInt_ofNat_of_lt (by omega), hs, if_pos (by omega), ← BitVec.ofNat_add]
      simp only [hout, Option.map_some]
    · rw [words_line, hwords, (viewLine_eq _ v).1, ← readWords_add, Nat.add_one_mul, Nat.add_comm]

end Lines

section Dump

variable {asFloat : Bool} {n : Nat} {size : Word} {dump : List Byte}

/-- How many words the last line of so many words is short of, at `n` a line. -/
def missing (n words : Nat) : Nat := (n - words % n) % n

theorem missing_rows (hn : 0 < n) (words : Nat) :
    ∃ rows, rows * n = words + missing n words ∧ (rows = 0 ∨ (rows - 1) * n < words) := by
  have hdiv := Nat.div_add_mod' words n
  by_cases hz : words % n = 0
  · refine ⟨words / n, ?_, ?_⟩
    · rw [missing, hz, Nat.sub_zero, Nat.mod_self]
      omega
    · cases hq : words / n with
      | zero => exact .inl rfl
      | succ q =>
        rw [hq, Nat.add_one_mul] at hdiv
        exact .inr (by rw [Nat.add_sub_cancel]; omega)
  · have hmod := Nat.mod_lt words hn
    refine ⟨words / n + 1, ?_, .inr ?_⟩
    · rw [missing, Nat.mod_eq_of_lt (by omega), Nat.add_one_mul]
      omega
    · rw [Nat.add_sub_cancel]
      omega

theorem missing_of_dvd {words : Nat} (h : n ∣ words) : missing n words = 0 := by
  rw [missing, Nat.mod_eq_zero_of_dvd h, Nat.sub_zero, Nat.mod_self]

/-- The words that are printed: those of the dump, and in a last line that the
dump does not fill its last word again. -/
theorem viewDump_words {words : Nat} (hn : 0 < n) (hsize : size.toInt = dump.length) (hlen : dump.length = 4 * words)
    (hroom : 4 * (words + missing n words) < 2 ^ 31) : ∃ least, ∀ turns, least ≤ turns → ∃ out,
      viewDump asFloat (4 * n) size turns dump = some out ∧ out.filterMap Shown.word? =
        wordsLe dump ++ List.replicate (missing n words) ((wordsLe dump).getLastD 0) := by
  obtain ⟨rows, hrows, hlast⟩ := missing_rows hn words
  have hwidth (q : Nat) : q * (4 * n) = 4 * (q * n) := Nat.mul_left_comm q 4 n
  have hzero : Mem.word (fun _ => 0) 0 = 0 := by decide
  refine ⟨rows + 1, fun turns ht => ?_⟩
  obtain ⟨out, hout, hshown⟩ : ∃ out, viewDump asFloat (4 * n) size turns dump = some out ∧
      out.filterMap Shown.word? = readWords (rows * (4 * n / 4)) ⟨dump, fun _ => 0⟩ := by
    refine viewLines_ends (i := 0) hsize ?_ ?_ ?_ ht
    · rw [hwidth]
      omega
    · rw [hwidth]
      omega
    · refine hlast.imp_right fun h => ?_
      rw [hwidth]
      omega
  refine ⟨out, hout, ?_⟩
  have hread := readWords_behind (v := ⟨dump, fun _ => 0⟩) hlen.symm (missing n words)
  rw [hshown, Nat.mul_div_cancel_left n (by omega), hrows, hread, hzero]

theorem viewedOnce_iff (hn : 0 < n) (hsize : size.toInt = dump.length) (h4 : 4 ∣ dump.length) :
    ViewedOnce asFloat (4 * n) size dump ↔ 4 * n ∣ dump.length := by
  obtain ⟨words, hlen⟩ := h4
  constructor
  · rintro ⟨least, h⟩
    obtain ⟨out, hout, hshown⟩ := h least (Nat.le_refl _)
    obtain ⟨rows, hrows⟩ := viewLines_whole hout
    have hcount := congrArg List.length (hrows.symm.trans hshown)
    rw [readWords_length, wordsLe_length, Nat.mul_div_cancel_left n (by omega), hlen,
      Nat.mul_div_cancel_left words (by omega)] at hcount
    rw [hlen, ← hcount]
    exact Nat.mul_dvd_mul_left 4 (Nat.dvd_mul_left n rows)
  · intro hd
    have hnone := missing_of_dvd (Nat.dvd_of_mul_dvd_mul_left (by omega) (hlen ▸ hd))
    have hbound := BitVec.toInt_lt (x := size)
    obtain ⟨least, h⟩ := @viewDump_words asFloat _ _ _ _ hn hsize hlen (by rw [hnone]; omega)
    refine ⟨least, fun turns ht => ?_⟩
    obtain ⟨out, hout, hshown⟩ := h turns ht
    refine ⟨out, hout, hshown.trans ?_⟩
    rw [hnone]
    exact List.append_nil _

/-- A dump is printed when `stat` finds it to have the size that was asked for. -/
theorem viewmem_prints_iff {width : Nat} {size : Word} {dump : List Byte} (hw : width = 4 ∨ width = 16)
    (hsize : size.toInt = dump.length) (h4 : 4 ∣ dump.length) :
    ViewedOnce false width size dump ↔ width = 4 ∨ 16 ∣ dump.length := by
  rcases hw with rfl | rfl
  · exact ⟨fun _ => .inl rfl, fun _ => (viewedOnce_iff (n := 1) Nat.one_pos hsize h4).mpr h4⟩
  · rw [viewedOnce_iff (n := 4) (by omega) hsize h4]
    exact ⟨.inr, fun h => h.resolve_left (by decide)⟩

/-- `viewmem -q` of four words. -/
theorem viewmem_prints_line : ViewedOnce false 16 16 (str "0123456789abcdef") ↔ 16 = 4 ∨ 16 ∣ 16 :=
  viewmem_prints_iff (.inr rfl) rfl (by decide)

/-- `viewmem -q` of one word prints it four times. -/
theorem viewmem_repeats : ¬∀ (width : Nat) (size : Word) (dump : List Byte), (width = 4 ∨ width = 16) →
    size.toInt = dump.length → 4 ∣ dump.length → ViewedOnce false width size dump := by
  intro h
  obtain ⟨least, hout⟩ := h 16 4 [1, 2, 3, 4] (.inr rfl) rfl (by decide)
  obtain ⟨out, hdump, hwords⟩ := hout (least + 2) (by omega)
  have hrun : viewDump false 16 4 (least + 2) [1, 2, 3, 4] =
      some [.hex 0x04030201, .hex 0x04030201, .hex 0x04030201, .hex 0x04030201, .newline] := by
    rfl
  rw [hrun] at hdump
  cases hdump
  exact absurd hwords (by decide)

end Dump

end Pksh
