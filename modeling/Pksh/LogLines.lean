import Pksh.MainLoop

/-! The text of the log. `pko_log_read` collects what comes in a static buffer
until it finds a line in it or the buffer is full. -/

namespace Pksh

open Wire Traced

/-- The static variables: the memory that `buf` is part of, and `loc`. -/
structure LogBuf where
  mem : Mem
  loc : Int

inductive LogAct
  /-- What is written to `log_f_fd`. -/
  | write (text : List Byte)
  | writeLogLine (text : List Byte)
deriving DecidableEq

namespace LogBuf

/-- `sizeof(buf)`. -/
def size : Nat := 1024

/-- A line is printed, or what has come waits for the rest of it. The last
character is made a newline if it is none. -/
def logToConsole (buf : Nat) (mem : Mem) (loc : Int) : LogBuf × List LogAct :=
  let text := mem.cstr buf size
  if newline ∈ text ∨ (size : Int) - loc - 1 = 0 then
    let last := buf + text.length - 1
    let mem := if mem last ≠ newline then mem.store last [newline] else mem
    (⟨mem, 0⟩, [.writeLogLine (mem.cstr buf size)])
  else (⟨mem, loc⟩, [])

/-- One call, with `buf` at an address. The datagram that comes is cut off
where the buffer ends; there is none when `recvfrom` fails. -/
def pkoLogRead (buf : Nat) (logToFile : Bool) (datagram : Option (List Byte)) (s : LogBuf) :
    Int × LogBuf × List LogAct :=
  let mem := if s.loc = 0 then s.mem.store buf (List.replicate size 0) else s.mem
  let got := datagram.map (·.take ((size : Int) - s.loc - 1).toNat)
  let ret : Int := got.elim (-1) fun bytes => bytes.length
  let mem := mem.store (buf + s.loc).toNat (got.getD [])
  let loc := s.loc + ret
  (ret, if logToFile then (⟨mem, 0⟩, [.write (mem.cstr buf size)]) else logToConsole buf mem loc)

/-- One call after the other, for datagrams that are logged to the console. -/
def pkoLogReads (buf : Nat) : List (List Byte) → LogBuf → LogBuf × List LogAct
  | [], s => (s, [])
  | d :: ds, s =>
    let r := s.pkoLogRead buf false (some d)
    let r' := pkoLogReads buf ds r.2.1
    (r'.1, r.2.2 ++ r'.2)

def pending (buf : Nat) (s : LogBuf) : List Byte := s.mem.slice buf s.loc.toNat

end LogBuf

def printed (as : List LogAct) : List (List Byte) :=
  as.filterMap fun
    | .writeLogLine text => some text
    | .write _ => none

def performLog (s : Session) : List LogAct → Io Unit
  | [] => pure ()
  | .write text :: as => do
    let _ ← sysWrite s.logFFd text
    performLog s as
  | .writeLogLine _ :: as => performLog s as

theorem performLog_console (s : Session) (buf : Nat) (mem : Mem) (loc : Int) :
    performLog s (LogBuf.logToConsole buf mem loc).2 = pure () := by
  rw [LogBuf.logToConsole]
  by_cases h : newline ∈ mem.cstr buf LogBuf.size ∨ (LogBuf.size : Int) - loc - 1 = 0
  · simp only [if_pos h]
    rfl
  · simp only [if_neg h]
    rfl

theorem pkoLogRead_performs (buf : Nat) (datagram : Option (List Byte)) (b : LogBuf) (s : Session) :
    ∃ text, ∀ w, (pkoLogRead text s).run w = (do
      performLog s (b.pkoLogRead buf s.logToFile datagram).2.2
      pure s).run w := by
  cases hl : s.logToFile with
  | true =>
    obtain ⟨text, ht⟩ : ∃ text, (b.pkoLogRead buf true datagram).2.2 = [.write text] := ⟨_, rfl⟩
    refine ⟨text, fun w => ?_⟩
    simp only [pkoLogRead, hl, if_true, ht, performLog, Prog.run_bind, Result.andThen_assoc]
    rfl
  | false =>
    refine ⟨[], fun w => ?_⟩
    have hquiet : performLog s (b.pkoLogRead buf false datagram).2.2 = pure () := by
      simp only [LogBuf.pkoLogRead, Bool.false_eq_true, if_false]
      exact performLog_console s buf _ _
    simp only [hquiet, pkoLogRead, hl, Bool.false_eq_true, if_false]
    rfl

/-- What waits of a text, and what is printed of it. A last character that is
not a newline makes room for one. -/
def settle (t : List Byte) : List Byte × List (List Byte) :=
  if newline ∈ t ∨ t.length = 1023 then ([], [if t.getLast? = some newline then t else t.dropLast ++ [newline]])
  else (t, [])

def takeDatagram (p d : List Byte) : List Byte × List (List Byte) := settle (p ++ d.take (1023 - p.length))

def takeDatagrams : List (List Byte) → List Byte → List Byte × List (List Byte)
  | [], p => (p, [])
  | d :: ds, p =>
    let r := takeDatagram p d
    let r' := takeDatagrams ds r.1
    (r'.1, r.2 ++ r'.2)

/-- The buffer holds `p`. -/
structure LogBuf.Holds (buf : Nat) (s : LogBuf) (p : List Byte) : Prop where
  loc : s.loc = p.length
  room : p.length < 1023
  line : newline ∉ p
  nul : 0 ∉ p
  mem : p ≠ [] → s.mem.slice buf LogBuf.size = p ++ List.replicate (LogBuf.size - p.length) 0

namespace LogBuf

variable {buf : Nat} {s : LogBuf} {p d : List Byte}

theorem Holds.initial (h : s.loc = 0) : s.Holds buf [] where
  loc := h
  room := by decide
  line := List.not_mem_nil
  nul := List.not_mem_nil
  mem := fun h => absurd rfl h

theorem Holds.pending (h : s.Holds buf p) : s.pending buf = p := by
  rw [LogBuf.pending, h.loc, Int.toNat_natCast]
  by_cases hp : p = []
  · rw [hp]
    rfl
  · have hle : p.length ≤ LogBuf.size := Nat.le_of_lt (Nat.lt_succ_of_lt h.room)
    rw [← Mem.slice_take _ _ hle, h.mem hp, List.take_left]

theorem Holds.received (h : s.Holds buf p) (d : List Byte) : ∃ mem : Mem,
    mem.slice buf size = p ++ d.take (1023 - p.length) ++
      0 :: List.replicate (1023 - (p ++ d.take (1023 - p.length)).length) 0 ∧
    (s.pkoLogRead buf false (some d)).2 = logToConsole buf mem (p ++ d.take (1023 - p.length)).length := by
  have hroom : ((size : Int) - s.loc - 1).toNat = 1023 - p.length := by
    rw [h.loc, size]
    omega
  have hat : (buf + s.loc).toNat = buf + p.length := by
    rw [h.loc]
    omega
  have hmem : (if s.loc = 0 then s.mem.store buf (List.replicate size 0) else s.mem).slice buf size =
      p ++ List.replicate (size - p.length) 0 := by
    by_cases hp : p = []
    · rw [if_pos (by rw [h.loc, hp]; rfl), hp]
      exact Mem.slice_store_eq _ _ List.length_replicate
    · have hne : s.loc ≠ 0 := by
        rw [h.loc]
        exact_mod_cast fun h0 => hp (List.length_eq_zero_iff.mp h0)
      rw [if_neg hne]
      exact h.mem hp
  have ht : (d.take (1023 - p.length)).length ≤ 1023 - p.length := by
    rw [List.length_take]
    exact Nat.min_le_left _ _
  have hroom' := h.room
  have hzero : List.replicate (size - p.length) (0 : Byte) = List.replicate (d.take (1023 - p.length)).length 0 ++
      0 :: List.replicate (1023 - (p ++ d.take (1023 - p.length)).length) 0 := by
    have hn : size - p.length = (d.take (1023 - p.length)).length +
        (1023 - (p ++ d.take (1023 - p.length)).length + 1) := by
      rw [List.length_append, size]
      omega
    rw [hn, List.replicate_add, List.replicate_succ]
  rw [hzero, ← List.append_assoc] at hmem
  refine ⟨_, Mem.slice_store_mid hmem List.length_replicate.symm, ?_⟩
  have hloc : s.loc + ((d.take (1023 - p.length)).length : Int) = (p ++ d.take (1023 - p.length)).length := by
    rw [h.loc, List.length_append]
    exact (Int.natCast_add _ _).symm
  simp only [pkoLogRead, Bool.false_eq_true, if_false, hat, hroom, Option.map_some, Option.elim_some, Option.getD_some, hloc]

theorem logToConsole_holds {mem : Mem} {t : List Byte} (h0 : 0 ∉ t) (hl : t.length ≤ 1023)
    (hm : mem.slice buf size = t ++ 0 :: List.replicate (1023 - t.length) 0) :
    (logToConsole buf mem t.length).1.Holds buf (settle t).1 ∧
      printed (logToConsole buf mem t.length).2 = (settle t).2 := by
  have htext : mem.cstr buf size = t := Mem.cstr_of_slice hm h0
  have hfull : (size : Int) - t.length - 1 = 0 ↔ t.length = 1023 := by
    rw [size]
    omega
  rw [logToConsole, settle, htext]
  simp only [hfull]
  by_cases hflush : newline ∈ t ∨ t.length = 1023
  · rw [if_pos hflush, if_pos hflush]
    refine ⟨.initial rfl, ?_⟩
    have hne : t ≠ [] := by
      rintro rfl
      rcases hflush with hn | hn
      · cases hn
      · cases hn
    obtain ⟨front, c, rfl⟩ := (List.eq_nil_or_concat t).resolve_left hne
    rw [List.concat_eq_append] at *
    have hlast : buf + (front ++ [c]).length - 1 = buf + front.length := by
      rw [List.length_append, List.length_singleton]
      omega
    have hc : mem (buf + front.length) = c := by
      have hi := @Mem.slice_getElem? mem buf size front.length (by
        rw [List.length_append, List.length_singleton] at hl
        rw [size]
        omega)
      rw [hm, List.append_assoc, List.getElem?_append_right (Nat.le_refl _), Nat.sub_self] at hi
      exact (Option.some.inj hi).symm
    simp only [hlast, hc, List.getLast?_append, List.getLast?_singleton, Option.some_or, Option.some.injEq,
      List.dropLast_concat]
    by_cases hnl : c = newline
    · rw [if_neg (not_not.mpr hnl), if_pos hnl, htext]
      rfl
    · rw [if_pos hnl, if_neg hnl]
      have hput : (mem.store (buf + front.length) [newline]).slice buf size =
          front ++ [newline] ++ 0 :: List.replicate (1023 - (front ++ [c]).length) 0 := Mem.slice_store_mid hm rfl
      have h0' : 0 ∉ front ++ [newline] := by
        intro hz
        rcases List.mem_append.mp hz with hz | hz
        · exact h0 (List.mem_append_left _ hz)
        · exact absurd (List.mem_singleton.mp hz) (by decide)
      rw [Mem.cstr_of_slice hput h0']
      rfl
  · rw [if_neg hflush, if_neg hflush]
    obtain ⟨hn, hlt⟩ := not_or.mp hflush
    refine ⟨⟨rfl, Nat.lt_of_le_of_ne hl hlt, hn, h0, fun _ => ?_⟩, rfl⟩
    have hs : size - t.length = 1023 - t.length + 1 := by
      rw [size]
      omega
    rw [hm, hs, List.replicate_succ]

theorem Holds.step (h : s.Holds buf p) (hd : 0 ∉ d) :
    (s.pkoLogRead buf false (some d)).2.1.Holds buf (takeDatagram p d).1 ∧
      printed (s.pkoLogRead buf false (some d)).2.2 = (takeDatagram p d).2 := by
  obtain ⟨mem, hm, hs⟩ := h.received d
  rw [hs]
  have h0 : 0 ∉ p ++ d.take (1023 - p.length) := by
    intro h0
    rcases List.mem_append.mp h0 with h0 | h0
    · exact h.nul h0
    · exact hd (List.mem_of_mem_take h0)
  have hroom := h.room
  exact logToConsole_holds h0 (by rw [List.length_append, List.length_take]; omega) hm

theorem Holds.steps {ds : List (List Byte)} (h : s.Holds buf p) (hd : ∀ d ∈ ds, 0 ∉ d) :
    (pkoLogReads buf ds s).1.Holds buf (takeDatagrams ds p).1 ∧
      printed (pkoLogReads buf ds s).2 = (takeDatagrams ds p).2 := by
  induction ds generalizing s p with
  | nil => exact ⟨h, rfl⟩
  | cons d ds ih =>
    obtain ⟨hs, hp⟩ := h.step (hd d List.mem_cons_self)
    obtain ⟨hs', hp'⟩ := ih hs fun d' hd' => hd d' (List.mem_cons_of_mem _ hd')
    rw [pkoLogReads, takeDatagrams]
    refine ⟨hs', ?_⟩
    rw [printed, List.filterMap_append, ← printed, ← printed, hp, hp']

end LogBuf

/-- The second text is the first with newlines put in. -/
inductive Padded : List Byte → List Byte → Prop
  | nil : Padded [] []
  | cons (b : Byte) {xs ys : List Byte} (h : Padded xs ys) : Padded (b :: xs) (b :: ys)
  | newline {xs ys : List Byte} (h : Padded xs ys) : Padded xs (newline :: ys)

theorem Padded.refl (xs : List Byte) : Padded xs xs := by
  induction xs with
  | nil => exact .nil
  | cons b xs ih => exact .cons b ih

theorem Padded.length_le {xs ys : List Byte} (h : Padded xs ys) : xs.length ≤ ys.length := by
  induction h with
  | nil => exact Nat.le_refl _
  | cons b h ih => exact Nat.succ_le_succ ih
  | newline h ih => exact Nat.le_succ_of_le ih

theorem Padded.eq {xs ys : List Byte} (h : Padded xs ys) (hl : ys.length ≤ xs.length) : ys = xs := by
  induction h with
  | nil => rfl
  | cons b h ih => rw [ih (Nat.le_of_succ_le_succ hl)]
  | newline h ih => exact absurd h.length_le (by rw [List.length_cons] at hl; omega)

/-- Everything that is printed, and what waits behind it. -/
def output (r : List Byte × List (List Byte)) : List Byte := r.2.flatten ++ r.1

/-- Every datagram with a newline ends in one, and what comes between two of
them fits into the buffer: `n` characters are waiting. -/
def WholeLines : Nat → List (List Byte) → Prop
  | _, [] => True
  | n, d :: ds =>
    if newline ∈ d then n + d.length ≤ 1023 ∧ d.getLast? = some newline ∧ WholeLines 0 ds
    else n + d.length < 1023 ∧ WholeLines (n + d.length) ds

theorem settle_output_length (t : List Byte) : ((settle t).2.flatten ++ (settle t).1).length = t.length := by
  rw [settle]
  by_cases h : newline ∈ t ∨ t.length = 1023
  · rw [if_pos h]
    have hpos : 0 < t.length := by
      rcases h with h | h
      · exact List.length_pos_of_mem h
      · omega
    by_cases hl : t.getLast? = some newline
    · rw [if_pos hl, List.flatten_singleton, List.append_nil]
    · rw [if_neg hl, List.flatten_singleton, List.append_nil, List.length_append, List.length_dropLast, List.length_singleton]
      omega
  · rw [if_neg h]
    rfl

theorem output_takeDatagrams_cons (d : List Byte) (ds : List (List Byte)) (p : List Byte) :
    output (takeDatagrams (d :: ds) p) = (takeDatagram p d).2.flatten ++ output (takeDatagrams ds (takeDatagram p d).1) := by
  rw [takeDatagrams, output, output, List.flatten_append, List.append_assoc]

theorem output_length_le (ds : List (List Byte)) (p : List Byte) :
    (output (takeDatagrams ds p)).length ≤ p.length + ds.flatten.length := by
  induction ds generalizing p with
  | nil => exact Nat.le_of_eq rfl
  | cons d ds ih =>
    have hih := ih (takeDatagram p d).1
    have hs := settle_output_length (p ++ d.take (1023 - p.length))
    rw [List.length_append, List.length_append, List.length_take, ← takeDatagram] at hs
    rw [output_takeDatagrams_cons, List.length_append, List.flatten_cons, List.length_append]
    omega

theorem fits_of_output_eq {ds : List (List Byte)} {p d : List Byte}
    (h : output (takeDatagrams (d :: ds) p) = p ++ (d :: ds).flatten) (hl : p.length < 1023) :
    p.length + d.length ≤ 1023 := by
  have hle := output_length_le ds (takeDatagram p d).1
  have hs := settle_output_length (p ++ d.take (1023 - p.length))
  have hlen := congrArg List.length h
  rw [List.length_append, List.length_append, List.length_take, ← takeDatagram] at hs
  rw [output_takeDatagrams_cons, List.length_append, List.length_append, List.flatten_cons, List.length_append] at hlen
  omega

/-- A line that is printed is what was there only if it ended in a newline. -/
theorem patched_eq_iff {t out rest : List Byte} (hne : t ≠ []) :
    (if t.getLast? = some newline then t else t.dropLast ++ [newline]) ++ out = t ++ rest ↔
      t.getLast? = some newline ∧ out = rest := by
  obtain ⟨front, c, rfl⟩ := (List.eq_nil_or_concat t).resolve_left hne
  simp only [List.concat_eq_append, List.getLast?_concat, List.dropLast_concat, Option.some.injEq]
  by_cases hc : c = newline
  · rw [if_pos hc, List.append_cancel_left_eq]
    exact (and_iff_right hc).symm
  · rw [if_neg hc, List.append_assoc, List.append_assoc, List.append_cancel_left_eq, List.singleton_append,
      List.singleton_append, List.cons.injEq]
    exact and_congr_left fun _ => eq_comm

theorem output_eq_iff {ds : List (List Byte)} {p : List Byte} (hp : newline ∉ p) (hl : p.length < 1023) :
    output (takeDatagrams ds p) = p ++ ds.flatten ↔ WholeLines p.length ds := by
  induction ds generalizing p with
  | nil =>
    rw [takeDatagrams, output, List.flatten_nil, List.nil_append, List.append_nil]
    exact iff_of_true rfl trivial
  | cons d ds ih =>
    rw [WholeLines]
    by_cases hfit : p.length + d.length ≤ 1023
    · have ht : takeDatagram p d = settle (p ++ d) := by
        rw [takeDatagram, List.take_of_length_le (by omega)]
      rw [output_takeDatagrams_cons, ht, settle, List.flatten_cons, ← List.append_assoc]
      by_cases hn : newline ∈ d
      · have hne : d ≠ [] := List.ne_nil_of_mem hn
        have hlast : (p ++ d).getLast? = d.getLast? := List.getLast?_append_of_ne_nil p hne
        rw [if_pos (.inl (List.mem_append_right p hn)), if_pos hn, List.flatten_singleton,
          patched_eq_iff (List.append_ne_nil_of_right_ne_nil p hne), hlast, ← List.nil_append ds.flatten,
          ih List.not_mem_nil (by decide)]
        exact (and_iff_right hfit).symm
      · have hn' : newline ∉ p ++ d := fun h => (List.mem_append.mp h).elim hp hn
        rw [if_neg hn]
        by_cases hfull : (p ++ d).length = 1023
        · have hne : p ++ d ≠ [] := List.ne_nil_of_length_pos (by omega)
          rw [if_pos (.inr hfull), List.flatten_singleton, patched_eq_iff hne]
          rw [List.length_append] at hfull
          exact iff_of_false (fun h => hn' (List.mem_of_getLast? h.1)) fun h => absurd h.1 (by omega)
        · rw [if_neg (not_or.mpr ⟨hn', hfull⟩), List.flatten_nil, List.nil_append]
          rw [List.length_append] at hfull
          rw [ih hn' (by rw [List.length_append]; omega), List.length_append]
          exact (and_iff_right (by omega)).symm
    · refine iff_of_false (fun h => hfit (fits_of_output_eq h hl)) ?_
      by_cases hn : newline ∈ d
      · rw [if_pos hn]
        exact fun h => hfit h.1
      · rw [if_neg hn]
        exact fun h => hfit (Nat.le_of_lt h.1)

/-- What is printed and what waits is what came, newlines aside, exactly when
whole lines come. -/
theorem log_kept_iff (buf : Nat) {s : LogBuf} (hs : s.loc = 0) {ds : List (List Byte)} (hd : ∀ d ∈ ds, 0 ∉ d) :
    Padded ds.flatten ((printed (s.pkoLogReads buf ds).2).flatten ++ (s.pkoLogReads buf ds).1.pending buf) ↔
      WholeLines 0 ds := by
  obtain ⟨hholds, hprinted⟩ := (show s.Holds buf [] from .initial hs).steps hd
  rw [hprinted, hholds.pending]
  change Padded ds.flatten (output (takeDatagrams ds [])) ↔ _
  have hiff : output (takeDatagrams ds []) = [] ++ ds.flatten ↔ _ := output_eq_iff List.not_mem_nil (by decide)
  rw [List.nil_append] at hiff
  rw [← @List.length_nil Byte, ← hiff]
  refine ⟨fun h => h.eq ?_, fun h => h ▸ .refl _⟩
  have hle := output_length_le ds []
  rwa [List.length_nil, Nat.zero_add] at hle

theorem log_kept_iff_line : Padded [str "up", [newline]].flatten
    ((printed ((LogBuf.mk (fun _ => 0) 0).pkoLogReads 1 [str "up", [newline]]).2).flatten ++
      ((LogBuf.mk (fun _ => 0) 0).pkoLogReads 1 [str "up", [newline]]).1.pending 1) ↔
    WholeLines 0 [str "up", [newline]] := log_kept_iff 1 rfl (by decide)

/-- What comes behind a newline in the same datagram. -/
theorem log_overwritten : ¬Padded (str "a" ++ newline :: str "b")
    ((printed ((LogBuf.mk (fun _ => 0) 0).pkoLogReads 1 [str "a" ++ newline :: str "b"]).2).flatten ++
      ((LogBuf.mk (fun _ => 0) 0).pkoLogReads 1 [str "a" ++ newline :: str "b"]).1.pending 1) := by
  have hd : ∀ d ∈ [str "a" ++ newline :: str "b"], 0 ∉ d := by decide
  obtain ⟨hholds, hprinted⟩ := (show (LogBuf.mk (fun _ => 0) 0).Holds 1 [] from .initial rfl).steps hd
  rw [hprinted, hholds.pending]
  intro h
  exact absurd (h.eq (by decide)) (by decide)

end Pksh
