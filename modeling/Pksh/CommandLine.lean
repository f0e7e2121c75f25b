import Pksh.Lib.Scan
import Pksh.Shell

/-! `execute_line` on the line it cuts in place. -/

namespace Pksh

open Wire

/-- What is done with a line: a handler is called with a pointer into it, or the
system shell with a copy of it. -/
inductive LineCall
  | handler (func : CliFunc) (arg : Nat)
  | system (cmd : List Byte)
deriving DecidableEq, Repr

/-- The line afterwards, the offsets in it that were read, and the calls made. -/
structure LineRun where
  line : Mem
  reads : List Nat
  calls : List LineCall

/-- Whether `strcmp(line + i, name)` is 0, and what it reads of the line. -/
def strcmpAt (line : Mem) : Nat → List Byte → Bool × List Nat
  | i, [] => (line i = 0, [i])
  | i, b :: name =>
    if line i = b then
      let r := strcmpAt line (i + 1) name
      (r.1, i :: r.2)
    else (false, [i])

/-- `find_command` over the entries of a table. -/
def findCommandAt (line : Mem) (name : Nat) : List (List Byte × CliFunc) → Option CliFunc × List Nat
  | [] => (none, [])
  | c :: table =>
    let r := strcmpAt line name c.1
    if r.1 then (some c.2, r.2)
    else
      let s := findCommandAt line name table
      (s.1, r.2 ++ s.2)

/-- `if (line[i]) line[i++] = '\0'` -/
def cutWord (line : Mem) (i : Nat) : Mem × Nat := if line i ≠ 0 then (line.store i [0], i + 1) else (line, i)

/-- `execute_line` with at most `turns` turns of each loop; `arg` is the copy
that `strdup` makes. -/
def executeLineAt (line : Mem) (turns : Nat) : Option LineRun := do
  let arg ← scan (· ≠ 0) line turns 0
  let blanks ← scan (fun c => c ≠ 0 && whitespace c) line turns 0
  let word ← scan (fun c => c ≠ 0 && !whitespace c) line turns blanks.stop
  let cut := cutWord line word.stop
  let command := findCommandAt cut.1 blanks.stop commands
  let reads := arg.reads ++ blanks.reads ++ word.reads ++ [word.stop] ++ command.2
  match command.1 with
  | none => some ⟨cut.1, reads, [.system (line.slice 0 arg.stop)]⟩
  | some func => do
    let gap ← scan whitespace cut.1 turns cut.2
    some ⟨cut.1, reads ++ gap.reads, [.handler func gap.stop]⟩

section Find

variable {line : Mem} {i : Nat} {word : List Byte}

theorem strcmpAt_spec (h : line.StringAt i word) {name : List Byte} (hn : 0 ∉ name) :
    ((strcmpAt line i name).1 = true ↔ name = word) ∧ ∀ k ∈ (strcmpAt line i name).2, k ≤ i + word.length := by
  induction name generalizing i word with
  | nil =>
    have hhead := h.head
    cases word with
    | nil => exact ⟨iff_of_true (decide_eq_true hhead) rfl, by simp [strcmpAt]⟩
    | cons c word =>
      have hc : c ≠ 0 := fun h0 => h.free (h0 ▸ List.mem_cons_self)
      have hi : line i ≠ 0 := hhead ▸ hc
      exact ⟨iff_of_false (fun h0 => hi (of_decide_eq_true h0)) (by simp), by simp [strcmpAt]⟩
  | cons b name ih =>
    rw [List.mem_cons, not_or] at hn
    have hhead := h.head
    cases word with
    | nil =>
      have hi : line i ≠ b := fun hb => hn.1 (hhead.symm.trans hb)
      rw [strcmpAt, if_neg hi]
      exact ⟨iff_of_false (by simp) (by simp), by simp⟩
    | cons c word =>
      by_cases hc : c = b
      · subst hc
        have htail : line.StringAt (i + 1) word := h.append_right (s := [c])
        obtain ⟨heq, hreads⟩ := ih htail hn.2
        rw [strcmpAt, if_pos (show line i = c from hhead)]
        refine ⟨by simpa using heq, fun k hk => ?_⟩
        rcases List.mem_cons.mp hk with rfl | hk
        · exact Nat.le_add_right _ _
        · have hle := hreads k hk
          rw [List.length_cons]
          omega
      · have hi : line i ≠ b := fun hb => hc (hhead.symm.trans hb)
        rw [strcmpAt, if_neg hi]
        exact ⟨iff_of_false (by simp) fun h => hc (List.cons.inj h).1.symm, by simp⟩

theorem findCommandAt_spec (h : line.StringAt i word) {table : List (List Byte × CliFunc)} (hn : ∀ c ∈ table, 0 ∉ c.1) :
    (findCommandAt line i table).1 = (table.find? fun c => c.1 = word).map Prod.snd ∧
      ∀ k ∈ (findCommandAt line i table).2, k ≤ i + word.length := by
  induction table with
  | nil => exact ⟨rfl, nofun⟩
  | cons c table ih =>
    obtain ⟨heq, hreads⟩ := strcmpAt_spec h (hn c List.mem_cons_self)
    obtain ⟨hfind, hmore⟩ := ih fun d hd => hn d (List.mem_cons_of_mem _ hd)
    by_cases hc : c.1 = word
    · rw [findCommandAt, if_pos (heq.mpr hc), List.find?_cons_of_pos (by simpa using hc)]
      exact ⟨rfl, hreads⟩
    · rw [findCommandAt, if_neg fun h => hc (heq.mp h), List.find?_cons_of_neg (by simpa using hc)]
      refine ⟨hfind, fun k hk => ?_⟩
      rcases List.mem_append.mp hk with hk | hk
      · exact hreads k hk
      · exact hmore k hk

end Find

section Cut

variable {line : Mem} {i : Nat} {word rest : List Byte}

/-- Where the cut leaves the word and what is behind it. `rest` is what the word
ended at. -/
theorem cutWord_spec (h : line.StringAt i (word ++ rest)) (hr : ∀ b ∈ rest.head?, whitespace b = true) :
    ∃ rest', (cutWord line (i + word.length)).1.StringAt i word ∧
      (cutWord line (i + word.length)).1.StringAt (cutWord line (i + word.length)).2 rest' ∧
      (cutWord line (i + word.length)).2 + rest'.length = i + word.length + rest.length ∧
      rest'.dropWhile whitespace = rest.dropWhile whitespace := by
  have hhead := h.append_right.head
  cases rest with
  | nil =>
    rw [cutWord, if_neg (by simpa using hhead)]
    exact ⟨[], by simpa using h, h.append_right, rfl, rfl⟩
  | cons b rest =>
    have hb : b ≠ 0 := fun h0 => h.free (List.mem_append_right _ (h0 ▸ List.mem_cons_self))
    have htail : line.StringAt (i + word.length + 1) rest := h.append_right.append_right (s := [b])
    have hne : line (i + word.length) ≠ 0 := hhead ▸ hb
    rw [cutWord, if_pos hne]
    refine ⟨rest, h.cut, htail.congr fun k hk _ => Mem.store_of_ge hk, ?_, ?_⟩
    · rw [List.length_cons]
      omega
    · rw [List.dropWhile_cons_of_pos (hr b rfl)]

end Cut

theorem commands_names : ∀ c ∈ commands, 0 ∉ c.1 := by decide

def wordStart (s : List Byte) : Nat := (s.takeWhile whitespace).length

def wordEnd (s : List Byte) : Nat := wordStart s + (splitLine s).1.length

/-- What is read before the table is searched: the copy, the two scans, and the
test of the byte they end at. -/
def scannedReads (s : List Byte) : List Nat :=
  List.range' 0 (s.length + 1) ++ List.range' 0 (wordStart s + 1) ++
    List.range' (wordStart s) ((splitLine s).1.length + 1) ++ [wordEnd s]

section Line

variable {line : Mem} {s : List Byte} {turns : Nat}

theorem line_parts (s : List Byte) : ∃ rest, s = s.takeWhile whitespace ++ ((splitLine s).1 ++ rest) ∧
    (∀ b ∈ rest.head?, whitespace b = true) ∧ (splitLine s).2 = rest.dropWhile whitespace := by
  refine ⟨(s.dropWhile whitespace).dropWhile fun c => !whitespace c, ?_, ?_, rfl⟩
  · rw [splitLine, List.takeWhile_append_dropWhile, List.takeWhile_append_dropWhile]
  · intro b hb
    cases hd : (s.dropWhile whitespace).dropWhile (fun c => !whitespace c) with
    | nil =>
      rw [hd] at hb
      cases hb
    | cons c rest =>
      have hhead := (headD_dropWhile (p := fun c => !whitespace c) (s.dropWhile whitespace)).resolve_left (by simp [hd])
      rw [hd] at hb hhead
      cases hb
      simpa using hhead

theorem whitespace_zero : whitespace 0 = false := by decide

theorem scan_copy (h : line.StringAt 0 s) (ht : s.length < turns) :
    scan (· ≠ 0) line turns 0 = some ⟨s.length, List.range' 0 (s.length + 1)⟩ := by
  have hs : line.StringAt 0 (s ++ []) := by rwa [List.append_nil]
  have hne : ∀ b ∈ s, decide (b ≠ 0) = true := ne_of_not_mem h.free
  have hscan := scan_append (p := (· ≠ 0)) hs hne (by simp) ht
  rwa [Nat.zero_add] at hscan

theorem executeLineAt_eq (h : line.StringAt 0 s) (ht : s.length < turns) :
    executeLineAt line turns =
      match findCommandAt (cutWord line (wordEnd s)).1 (wordStart s) commands with
      | (none, reads) => some ⟨(cutWord line (wordEnd s)).1, scannedReads s ++ reads, [.system s]⟩
      | (some func, reads) => (scan whitespace (cutWord line (wordEnd s)).1 turns (cutWord line (wordEnd s)).2).map
          fun gap => ⟨(cutWord line (wordEnd s)).1, scannedReads s ++ reads ++ gap.reads, [.handler func gap.stop]⟩ := by
  have hblanks : scan (fun c => c ≠ 0 && whitespace c) line turns 0 = some ⟨wordStart s, List.range' 0 (wordStart s + 1)⟩ := by
    have hscan := scan_guarded (p := whitespace) h ht
    rwa [Nat.zero_add] at hscan
  have htail : line.StringAt (wordStart s) (s.dropWhile whitespace) := by
    have hs := List.takeWhile_append_dropWhile (p := whitespace) (l := s)
    have ha := (hs.symm ▸ h).append_right
    rwa [Nat.zero_add] at ha
  have hword := scan_guarded (p := fun c => !whitespace c) htail
    (Nat.lt_of_le_of_lt (List.dropWhile_suffix _).length_le ht)
  have hcopy : line.slice 0 s.length = s := by
    have hs : line.StringAt 0 (s ++ []) := by rwa [List.append_nil]
    exact hs.slice_prefix
  have hend : wordStart s + ((s.dropWhile whitespace).takeWhile fun c => !whitespace c).length = wordEnd s := rfl
  rw [executeLineAt, scan_copy h ht, Option.bind_eq_bind, Option.bind_some, hblanks, Option.bind_some, hword,
    Option.bind_some, hend]
  simp only [hcopy]
  rcases hc : findCommandAt (cutWord line (wordEnd s)).1 (wordStart s) commands with ⟨_ | func, reads⟩
  · rfl
  · cases scan whitespace (cutWord line (wordEnd s)).1 turns (cutWord line (wordEnd s)).2 <;> rfl

end Line

/-- The run of a line, by what `find_command` finds. -/
theorem executeLineAt_runs {line : Mem} {s : List Byte} (h : line.StringAt 0 s) :
    ∃ r, (∀ turns, s.length < turns → executeLineAt line turns = some r) ∧
      (∀ k ∈ r.reads, k ≤ s.length) ∧
      (findCommand (splitLine s).1 = none → r.calls = [.system s]) ∧
      ∀ func, findCommand (splitLine s).1 = some func →
        ∃ arg, r.calls = [.handler func arg] ∧ r.line.StringAt arg (splitLine s).2 := by
  obtain ⟨rest, hs, hrest, hafter⟩ := line_parts s
  have htail : line.StringAt (wordStart s) ((splitLine s).1 ++ rest) := by
    have ha := (hs ▸ h).append_right
    rwa [Nat.zero_add] at ha
  have hlen : s.length = wordEnd s + rest.length := by
    rw [wordEnd, wordStart, Nat.add_assoc, ← List.length_append, ← List.length_append, ← hs]
  obtain ⟨rest', hword, hgap, hstop, hdrop⟩ := cutWord_spec htail hrest
  rw [← wordEnd] at hword hgap hstop
  obtain ⟨hfind, hfound⟩ := findCommandAt_spec hword commands_names
  have hscanned : ∀ k ∈ scannedReads s, k ≤ s.length := by
    intro k hk
    simp only [scannedReads, List.mem_append, List.mem_range'_1, List.mem_singleton] at hk
    rw [wordEnd] at hk hlen
    omega
  rcases hc : findCommandAt (cutWord line (wordEnd s)).1 (wordStart s) commands with ⟨found, reads⟩
  rw [hc] at hfind hfound
  have hreads : ∀ k ∈ scannedReads s ++ reads, k ≤ s.length := by
    intro k hk
    rcases List.mem_append.mp hk with hk | hk
    · exact hscanned k hk
    · exact (hfound k hk).trans (hlen ▸ Nat.le_add_right _ _)
  rw [← findCommand] at hfind
  simp only [← hfind]
  cases found with
  | none =>
    refine ⟨⟨(cutWord line (wordEnd s)).1, scannedReads s ++ reads, [.system s]⟩, fun turns ht => ?_, hreads,
      fun _ => rfl, nofun⟩
    rw [executeLineAt_eq h ht, hc]
  | some func =>
    have hsplit := List.takeWhile_append_dropWhile (p := whitespace) (l := rest')
    have harg := (hsplit.symm ▸ hgap).append_right
    rw [hdrop, ← hafter] at harg
    let gap : Scan := ⟨(cutWord line (wordEnd s)).2 + (rest'.takeWhile whitespace).length,
      List.range' (cutWord line (wordEnd s)).2 ((rest'.takeWhile whitespace).length + 1)⟩
    refine ⟨⟨(cutWord line (wordEnd s)).1, scannedReads s ++ reads ++ gap.reads, [.handler func gap.stop]⟩,
      fun turns ht => ?_, ?_, nofun, ?_⟩
    · have hskip : scan whitespace (cutWord line (wordEnd s)).1 turns (cutWord line (wordEnd s)).2 = some gap :=
        scan_takeWhile hgap whitespace_zero (fun _ _ => rfl) (by omega)
      rw [executeLineAt_eq h ht, hc]
      simp only [hskip, Option.map_some]
    · intro k hk
      rcases List.mem_append.mp hk with hk | hk
      · exact hreads k hk
      · have hle := (List.takeWhile_prefix whitespace (l := rest')).length_le
        rw [List.mem_range'_1] at hk
        omega
    · rintro _ ⟨⟩
      exact ⟨gap.stop, rfl, harg⟩

/-- Every line has exactly one call made for it: of the handler of the first
entry that has the line's first word for its name, with what stands behind the
blanks that follow the word, or of the shell, with the line as it was. Nothing
behind the terminator is read. -/
theorem executeLine_once {line : Mem} {s : List Byte} (h : line.StringAt 0 s) :
    ∃ r, (∀ turns, s.length < turns → executeLineAt line turns = some r) ∧
      (∀ k ∈ r.reads, k ≤ s.length) ∧
      ((∃ k, ∃ hk : k < commands.length, commands[k].1 = (splitLine s).1 ∧
          (∀ j, (hj : j < k) → commands[j].1 ≠ (splitLine s).1) ∧
          ∃ arg, r.calls = [.handler commands[k].2 arg] ∧ r.line.StringAt arg (splitLine s).2) ∨
        (∀ c ∈ commands, c.1 ≠ (splitLine s).1) ∧ r.calls = [.system s]) := by
  obtain ⟨r, hrun, hreads, hnone, hsome⟩ := executeLineAt_runs h
  refine ⟨r, hrun, hreads, ?_⟩
  cases hc : commands.find? fun c => c.1 = (splitLine s).1 with
  | none =>
    refine .inr ⟨fun c hm he => List.find?_eq_none.mp hc c hm (decide_eq_true he), hnone ?_⟩
    rw [findCommand, hc, Option.map_none]
  | some c =>
    obtain ⟨hname, k, hk, rfl, hfirst⟩ := List.find?_eq_some_iff_getElem.mp hc
    refine .inl ⟨k, hk, of_decide_eq_true hname, fun j hj => by simpa using hfirst j hj, hsome _ ?_⟩
    rw [findCommand, hc, Option.map_some]

theorem executeLine_once_list : ∃ r,
    (∀ turns, 9 < turns → executeLineAt (Mem.store (fun _ => 0x2a) 0 (str " ls mc0:/" ++ [0])) turns = some r) ∧
      (∀ k ∈ r.reads, k ≤ 9) ∧
      ((∃ k, ∃ hk : k < commands.length, commands[k].1 = (splitLine (str " ls mc0:/")).1 ∧
          (∀ j, (hj : j < k) → commands[j].1 ≠ (splitLine (str " ls mc0:/")).1) ∧
          ∃ arg, r.calls = [.handler commands[k].2 arg] ∧ r.line.StringAt arg (splitLine (str " ls mc0:/")).2) ∨
        (∀ c ∈ commands, c.1 ≠ (splitLine (str " ls mc0:/")).1) ∧ r.calls = [.system (str " ls mc0:/")]) :=
  @executeLine_once (Mem.store (fun _ => 0x2a) 0 (str " ls mc0:/" ++ [0])) (str " ls mc0:/") ⟨by decide, by decide⟩

/-- What the line does in `executeLine` is what is called for it here. -/
theorem executeLine_performs {line : Mem} {s : List Byte} (h : line.StringAt 0 s) (session : Session) :
    ∃ r, (∀ turns, s.length < turns → executeLineAt line turns = some r) ∧
      (r.calls = [.system s] ∧ executeLine s session = pure session ∨
        ∃ func arg, r.calls = [.handler func arg] ∧ r.line.StringAt arg (splitLine s).2 ∧
          executeLine s session = func.call (splitLine s).2 session) := by
  obtain ⟨r, hrun, -, hnone, hsome⟩ := executeLineAt_runs h
  refine ⟨r, hrun, ?_⟩
  rw [executeLine]
  cases hc : findCommand (splitLine s).1 with
  | none => exact .inl ⟨hnone hc, rfl⟩
  | some func =>
    obtain ⟨arg, hcalls, harg⟩ := hsome func hc
    exact .inr ⟨func, arg, hcalls, harg, rfl⟩

end Pksh
