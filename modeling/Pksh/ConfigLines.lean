import Pksh.Shell
import Pksh.Lib.Pieces

/-! The lines that `read_config` gets from `read_line`, and where in its buffer
the bytes go. -/

namespace Pksh

open Wire

/-- The array `line`, and the offsets of the stores made into it so far. -/
structure LineBuf where
  mem : Mem
  stored : List Int

namespace LineBuf

def put (b : LineBuf) (off : Int) (c : Byte) : LineBuf := ⟨b.mem.store off.toNat [c], b.stored ++ [off]⟩

/-- `cs` stored from `i` on. -/
def puts (b : LineBuf) (i : Nat) (cs : List Byte) : LineBuf :=
  ⟨b.mem.store i cs, b.stored ++ (List.range' i cs.length).map Int.ofNat⟩

end LineBuf

/-- The loop of `read_line`, with the rounds left until `i` is `MAXPATHLEN`, on
what is left of the file. Nothing comes back behind the end of the file. -/
def readLineLoop : Nat → Byte → Nat → LineBuf → List Byte → LineBuf × Option (Nat × List Byte)
  | 0, _, i, b, file => (b, some (i, file))
  | left + 1, c, i, b, file =>
    if c = newline then (b, some (i, file))
    else match file with
      | [] => (b, none)
      | c :: file => readLineLoop left c (i + 1) (b.put i c) file

/-- One call, with the rest of the file unless it returns -1. -/
def readLine (b : LineBuf) (file : List Byte) : LineBuf × Option (List Byte) :=
  match readLineLoop maxpathlen 0 0 b file with
  | (b, none) => (b, none)
  | (b, some (i, rest)) => (b.put (i - 1) 0, some rest)

theorem LineBuf.puts_nil (b : LineBuf) (i : Nat) : b.puts i [] = b := by
  simp [LineBuf.puts]

theorem LineBuf.put_puts (b : LineBuf) (i : Nat) (c : Byte) (cs : List Byte) :
    (b.put i c).puts (i + 1) cs = b.puts i (c :: cs) := by
  have hm : b.mem.store i (c :: cs) = (b.mem.store i [c]).store (i + 1) cs := Mem.store_append b.mem i [c] cs
  simp [LineBuf.put, LineBuf.puts, hm, List.range'_succ]

section Loop

variable {left i : Nat} {c : Byte} {b : LineBuf} {l : List Byte}

theorem readLineLoop_newline (rest : List Byte) : readLineLoop left newline i b rest = (b, some (i, rest)) := by
  cases left with
  | zero => rfl
  | succ left => cases rest <;> simp [readLineLoop]

theorem readLineLoop_line (rest : List Byte) (hl : newline ∉ l) (hn : l.length < left) (hc : c ≠ newline) :
    readLineLoop left c i b (l ++ newline :: rest) = (b.puts i (l ++ [newline]), some (i + l.length + 1, rest)) := by
  obtain ⟨left, rfl⟩ : ∃ k, left = k + 1 := ⟨left - 1, by omega⟩
  induction l generalizing left i c b with
  | nil =>
    rw [List.nil_append, readLineLoop, if_neg hc, readLineLoop_newline, List.nil_append, ← LineBuf.put_puts,
      LineBuf.puts_nil]
    rfl
  | cons d l ih =>
    rw [List.mem_cons, not_or] at hl
    rw [List.length_cons] at hn
    obtain ⟨left, rfl⟩ : ∃ k, left = k + 1 := ⟨left - 1, by omega⟩
    rw [List.cons_append, readLineLoop, if_neg hc, ih hl.2 (Ne.symm hl.1) left (by omega), List.cons_append,
      LineBuf.put_puts, List.length_cons, Nat.add_assoc i 1, Nat.add_comm 1]

theorem readLineLoop_last (hl : newline ∉ l) (hn : l.length < left) (hc : c ≠ newline) :
    readLineLoop left c i b l = (b.puts i l, none) := by
  obtain ⟨left, rfl⟩ : ∃ k, left = k + 1 := ⟨left - 1, by omega⟩
  induction l generalizing left i c b with
  | nil => rw [readLineLoop, if_neg hc, LineBuf.puts_nil]
  | cons d l ih =>
    rw [List.mem_cons, not_or] at hl
    rw [List.length_cons] at hn
    obtain ⟨left, rfl⟩ : ∃ k, left = k + 1 := ⟨left - 1, by omega⟩
    rw [readLineLoop, if_neg hc, ih hl.2 (Ne.symm hl.1) left (by omega), LineBuf.put_puts]

theorem readLineLoop_full (rest : List Byte) (hl : newline ∉ l) (hc : c ≠ newline) :
    readLineLoop l.length c i b (l ++ rest) = (b.puts i l, some (i + l.length, rest)) := by
  induction l generalizing i c b with
  | nil => rw [List.nil_append, List.length_nil, readLineLoop, LineBuf.puts_nil, Nat.add_zero]
  | cons d l ih =>
    rw [List.mem_cons, not_or] at hl
    rw [List.cons_append, List.length_cons, readLineLoop, if_neg hc, ih hl.2 (Ne.symm hl.1), LineBuf.put_puts,
      Nat.add_assoc i 1, Nat.add_comm 1]

end Loop

/-- What the first `n` bytes of a file can be. -/
inductive Chunk (n : Nat) : List Byte → Prop
  | line (l rest : List Byte) (hl : newline ∉ l) (hn : l.length < n) : Chunk n (l ++ newline :: rest)
  | last (l : List Byte) (hl : newline ∉ l) (hn : l.length < n) : Chunk n l
  | full (l rest : List Byte) (hl : newline ∉ l) (hn : l.length = n) : Chunk n (l ++ rest)

theorem Chunk.of (n : Nat) (file : List Byte) : Chunk n file := by
  by_cases hm : newline ∈ file.take n
  · obtain ⟨l, rest, hs, hl⟩ := List.eq_append_cons_of_mem hm
    have hlen := congrArg List.length hs
    rw [List.length_take, List.length_append, List.length_cons] at hlen
    have hf : file = l ++ newline :: (rest ++ file.drop n) := by
      rw [← List.cons_append, ← List.append_assoc, ← hs, List.take_append_drop]
    rw [hf]
    exact .line l _ hl (by omega)
  · by_cases hn : file.length < n
    · rw [List.take_of_length_le (by omega)] at hm
      exact .last file hm hn
    · rw [← List.take_append_drop n file]
      exact .full _ _ hm (List.length_take_of_le (by omega))

section Call

variable {b : LineBuf} {l rest : List Byte}

theorem readLine_line (hl : newline ∉ l) (hn : l.length < maxpathlen) : readLine b (l ++ newline :: rest) =
    ((b.puts 0 (l ++ [newline])).put l.length 0, some rest) := by
  have hi : ((0 + l.length + 1 : Nat) : Int) - 1 = l.length := by omega
  rw [readLine, readLineLoop_line rest hl hn (by decide), ← hi]

theorem readLine_last (hl : newline ∉ l) (hn : l.length < maxpathlen) : readLine b l = (b.puts 0 l, none) := by
  rw [readLine, readLineLoop_last hl hn (by decide)]

theorem readLine_full (hl : newline ∉ l) (hn : l.length = maxpathlen) :
    readLine b (l ++ rest) = ((b.puts 0 l).put (maxpathlen - 1) 0, some rest) := by
  have hloop := @readLineLoop_full 0 0 b l rest hl (by decide)
  rw [hn, Nat.zero_add] at hloop
  rw [readLine, hloop]

theorem readLine_rest_lt {b' : LineBuf} {file : List Byte} (h : readLine b file = (b', some rest)) :
    rest.length < file.length := by
  cases Chunk.of maxpathlen file with
  | line l rest' hl hn =>
    rw [readLine_line hl hn] at h
    cases h
    rw [List.length_append, List.length_cons]
    omega
  | last l hl hn =>
    rw [readLine_last hl hn] at h
    cases h
  | full l rest' hl hn =>
    rw [readLine_full hl hn] at h
    cases h
    rw [List.length_append, hn]
    exact Nat.lt_add_of_pos_left (by decide)

end Call

/-- The strings of successive calls, until one returns -1. -/
def readLines (b : LineBuf) (file : List Byte) : LineBuf × List (List Byte) :=
  match _h : readLine b file with
  | (b, none) => (b, [])
  | (b, some rest) =>
    let r := readLines b rest
    (r.1, b.mem.cstr 0 maxpathlen :: r.2)
termination_by file.length
decreasing_by exact readLine_rest_lt _h

theorem readLines_none {b b' : LineBuf} {file : List Byte} (h : readLine b file = (b', none)) :
    readLines b file = (b', []) := by
  rw [readLines]
  split <;> simp_all

theorem readLines_some {b b' : LineBuf} {file rest : List Byte} (h : readLine b file = (b', some rest)) :
    readLines b file = ((readLines b' rest).1, b'.mem.cstr 0 maxpathlen :: (readLines b' rest).2) := by
  rw [readLines]
  split <;> simp_all

theorem LineBuf.puts_stored {b : LineBuf} {i : Nat} {cs : List Byte} {n : Int} (hn : i + cs.length ≤ n)
    (hb : ∀ o ∈ b.stored, 0 ≤ o ∧ o < n) : ∀ o ∈ (b.puts i cs).stored, 0 ≤ o ∧ o < n := by
  intro o ho
  rcases List.mem_append.mp ho with ho | ho
  · exact hb o ho
  · obtain ⟨k, hk, rfl⟩ := List.mem_map.mp ho
    obtain ⟨-, hlt⟩ := List.mem_range'_1.mp hk
    exact ⟨Int.natCast_nonneg k, by simp only [Int.ofNat_eq_natCast]; omega⟩

theorem LineBuf.put_stored {b : LineBuf} {off n : Int} {c : Byte} (h0 : 0 ≤ off) (hn : off < n)
    (hb : ∀ o ∈ b.stored, 0 ≤ o ∧ o < n) : ∀ o ∈ (b.put off c).stored, 0 ≤ o ∧ o < n := by
  intro o ho
  rcases List.mem_append.mp ho with ho | ho
  · exact hb o ho
  · rw [List.mem_singleton.mp ho]
    exact ⟨h0, hn⟩

theorem readLine_stored {b : LineBuf} (file : List Byte) (hb : ∀ o ∈ b.stored, 0 ≤ o ∧ o < maxpathlen) :
    ∀ o ∈ (readLine b file).1.stored, 0 ≤ o ∧ o < maxpathlen := by
  cases Chunk.of maxpathlen file with
  | line l rest hl hn =>
    rw [readLine_line hl hn]
    exact LineBuf.put_stored (by omega) (by omega) (LineBuf.puts_stored (by simp; omega) hb)
  | last l hl hn =>
    rw [readLine_last hl hn]
    exact LineBuf.puts_stored (by omega) hb
  | full l rest hl hn =>
    rw [readLine_full hl hn]
    exact LineBuf.put_stored (by decide) (by decide) (LineBuf.puts_stored (by omega) hb)

theorem readLines_stored {b : LineBuf} (file : List Byte) (hb : ∀ o ∈ b.stored, 0 ≤ o ∧ o < maxpathlen) :
    ∀ o ∈ (readLines b file).1.stored, 0 ≤ o ∧ o < maxpathlen := by
  induction hn : file.length using Nat.strongRecOn generalizing b file with
  | ind n ih =>
    have hcall := readLine_stored file hb
    rcases hr : readLine b file with ⟨b', _ | rest⟩
    · rw [hr] at hcall
      rwa [readLines_none hr]
    · rw [hr] at hcall
      rw [readLines_some hr]
      exact ih rest.length (hn ▸ readLine_rest_lt hr) rest hcall rfl

theorem takeWhile_append_zero (l rest : List Byte) : (l ++ 0 :: rest).takeWhile (· ≠ 0) = l.takeWhile (· ≠ 0) := by
  induction l with
  | nil => rfl
  | cons b l ih => simp only [List.cons_append, List.takeWhile_cons, ih]

theorem cstr_line (b : LineBuf) {l : List Byte} (hn : l.length < maxpathlen) :
    ((b.puts 0 (l ++ [newline])).put l.length 0).mem.cstr 0 maxpathlen = l.takeWhile (· ≠ 0) := by
  have hs : (b.mem.store 0 (l ++ [newline])).slice 0 (l.length + 1) = l ++ [newline] ++ [] := by
    have hst := Mem.slice_store b.mem 0 (l ++ [newline])
    rw [List.length_append, List.length_singleton] at hst
    exact hst.trans (List.append_nil _).symm
  have hm := @Mem.slice_store_mid _ _ _ _ _ [0] _ hs rfl
  rw [Nat.zero_add] at hm
  obtain ⟨k, hk⟩ := Nat.exists_eq_add_of_lt hn
  rw [LineBuf.put, LineBuf.puts, Mem.cstr, hk, Nat.add_right_comm, Mem.slice_add, Int.toNat_natCast, hm,
    List.append_nil, List.append_assoc]
  exact takeWhile_append_zero l _

theorem readLines_short {content : List Byte} (h : ∀ l ∈ content.splitOn newline, l.length < maxpathlen) (b : LineBuf) :
    (readLines b content).2 = (content.splitOn newline).dropLast.map (·.takeWhile (· ≠ 0)) := by
  induction content using pieces_induction newline generalizing b with
  | single l hl =>
    rw [List.splitOn_eq_singleton hl] at h ⊢
    rw [readLines_none (readLine_last hl (h l List.mem_cons_self))]
    rfl
  | more l rest hl ih =>
    rw [List.splitOn_append_cons_self_of_not_mem hl] at h ⊢
    have hn := h l List.mem_cons_self
    rw [readLines_some (readLine_line hl hn), ih fun l' hl' => h l' (List.mem_cons_of_mem l hl'),
      List.dropLast_cons_of_ne_nil (List.splitOn_ne_nil newline rest), List.map_cons, cstr_line b hn]

/-- The lines of a file, with or without a newline behind the last one. -/
def fileLines (content : List Byte) : List (List Byte) :=
  if (content.splitOn newline).getLast (List.splitOn_ne_nil newline content) = [] then (content.splitOn newline).dropLast
  else content.splitOn newline

theorem fileLines_short {content : List Byte} (h : ∀ l ∈ fileLines content, l.length < maxpathlen - 1) :
    ∀ l ∈ content.splitOn newline, l.length < maxpathlen := by
  intro l hl
  rw [fileLines] at h
  split at h
  · rename_i hlast
    rw [← List.dropLast_append_getLast (List.splitOn_ne_nil newline content), hlast, List.mem_append,
      List.mem_singleton] at hl
    rcases hl with hl | rfl
    · exact (h l hl).trans (by decide)
    · decide
  · exact (h l hl).trans (by decide)

theorem takeWhile_eq_self_iff (l : List Byte) : l.takeWhile (· ≠ 0) = l ↔ 0 ∉ l := by
  rw [List.takeWhile_eq_self_iff]
  constructor
  · intro h h0
    exact absurd rfl (of_decide_eq_true (h 0 h0))
  · intro h0 b hb
    exact decide_eq_true fun he => h0 (he ▸ hb)

theorem readLines_eq_fileLines_iff {content : List Byte} (h : ∀ l ∈ fileLines content, l.length < maxpathlen - 1)
    (b : LineBuf) : (readLines b content).2 = fileLines content ↔
      (content = [] ∨ content.getLast? = some newline) ∧ 0 ∉ content := by
  have hn : (0 : Byte) ≠ newline := by decide
  rw [readLines_short (fileLines_short h), ← getLast_splitOn_eq_nil, mem_iff_mem_splitOn hn, fileLines]
  split
  · rename_i hlast
    have hpieces : ∀ l, l ∈ content.splitOn newline ↔ l ∈ (content.splitOn newline).dropLast ∨ l = [] := by
      intro l
      rw [← List.mem_singleton, ← hlast, ← List.mem_append, List.dropLast_append_getLast]
    have hid : (content.splitOn newline).dropLast.map (·.takeWhile (· ≠ 0)) = (content.splitOn newline).dropLast ↔
        ∀ l ∈ (content.splitOn newline).dropLast, l.takeWhile (· ≠ 0) = l := by
      nth_rewrite 2 [← List.map_id (content.splitOn newline).dropLast]
      exact List.map_inj_left
    rw [and_iff_right hlast, hid]
    constructor
    · rintro h ⟨l, hl, h0⟩
      rcases (hpieces l).mp hl with hl | rfl
      · exact (takeWhile_eq_self_iff l).mp (h l hl) h0
      · cases h0
    · intro h l hl
      exact (takeWhile_eq_self_iff l).mpr fun h0 => h ⟨l, (hpieces l).mpr (.inl hl), h0⟩
  · rename_i hlast
    refine iff_of_false ?_ fun ha => hlast ha.1
    intro he
    have hlen := congrArg List.length he
    rw [List.length_map, List.length_dropLast] at hlen
    have := List.length_pos_of_ne_nil (List.splitOn_ne_nil newline content)
    omega

/-- `read_line` does what it is for on this file, whatever is in the array before. -/
structure ReadsFile (mem : Mem) (content : List Byte) : Prop where
  inside : ∀ o ∈ (readLines ⟨mem, []⟩ content).1.stored, 0 ≤ o ∧ o < maxpathlen
  lines : (∀ l ∈ fileLines content, l.length < maxpathlen - 1) → (readLines ⟨mem, []⟩ content).2 = fileLines content

theorem readsFile_iff (mem : Mem) (content : List Byte) : ReadsFile mem content ↔
    ((∀ l ∈ fileLines content, l.length < maxpathlen - 1) →
      (content = [] ∨ content.getLast? = some newline) ∧ 0 ∉ content) := by
  constructor
  · intro hr hs
    exact (readLines_eq_fileLines_iff hs ⟨mem, []⟩).mp (hr.lines hs)
  · intro h
    exact ⟨readLines_stored content (by simp), fun hs => (readLines_eq_fileLines_iff hs ⟨mem, []⟩).mpr (h hs)⟩

/-- A file of one line without a newline. -/
theorem last_line_dropped : ¬∀ (mem : Mem) (content : List Byte), ReadsFile mem content := by
  intro h
  have hr := h (fun _ => 0) (str "ip=127.0.0.1")
  have hnl : newline ∉ str "ip=127.0.0.1" := by decide
  have hlines : fileLines (str "ip=127.0.0.1") = [str "ip=127.0.0.1"] := by
    simp only [fileLines, List.splitOn_eq_singleton hnl]
    rfl
  have he := hr.lines (by rw [hlines]; decide)
  rw [hlines, readLines_none (readLine_last hnl (by decide))] at he
  cases he

end Pksh
