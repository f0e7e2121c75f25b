import Pksh.LogLines

/-! Where `pko_log_read` writes. The buffer and `loc` stay from one call to the
next, whatever comes and wherever it is logged to. -/

namespace Pksh

open Wire

namespace LogBuf

abbrev Call := Bool × Option (List Byte)

variable (buf : Nat) (c : Call) (s : LogBuf)

/-- The bytes that `recvfrom` stores at `loc`. -/
def got (datagram : Option (List Byte)) (s : LogBuf) : Option (List Byte) :=
  datagram.map (·.take ((size : Int) - s.loc - 1).toNat)

def cleared : Mem := if s.loc = 0 then s.mem.store buf (List.replicate size 0) else s.mem

/-- The memory behind `recvfrom`. -/
def received : Mem := (s.cleared buf).store (buf + s.loc).toNat ((s.got c.2).getD [])

/-- `loc` behind `loc += ret`. -/
def moved : Int := s.loc + (s.got c.2).elim (-1) fun bytes => (bytes.length : Int)

def after : LogBuf := (s.pkoLogRead buf c.1 c.2).2.1

def Flushes : Prop := c.1 = false ∧ (newline ∈ (s.received buf c).cstr buf size ∨ (size : Int) - s.moved c - 1 = 0)

structure Safe : Prop where
  inside : 0 ≤ s.loc ∧ s.loc + ((s.got c.2).getD []).length < size
  last : s.received buf c (buf + (size - 1)) = 0
  loc : 0 ≤ (s.after buf c).loc ∧ (s.after buf c).loc < size
  text : s.Flushes buf c → 0 < ((s.received buf c).cstr buf size).length

/-- The calls that do not: on the console, `recvfrom` fails while nothing
waits, or fills up a buffer that begins with a NUL. -/
def Bad : Prop :=
  c.1 = false ∧ (c.2 = none ∧ s.loc = 0 ∨
    ∃ bytes, c.2 = some bytes ∧ (size : Int) - 1 ≤ s.loc + bytes.length ∧
      if s.loc = 0 then bytes.head? = some 0 else s.mem buf = 0)

structure Kept : Prop where
  nonneg : 0 ≤ s.loc
  room : s.loc < (size : Int) - 1
  last : s.loc ≠ 0 → s.mem (buf + (size - 1)) = 0

section Step

variable {buf c s}

theorem after_eq : s.after buf c =
    if c.1 = true then ⟨s.received buf c, 0⟩ else (logToConsole buf (s.received buf c) (s.moved c)).1 := by
  obtain ⟨logToFile, datagram⟩ := c
  cases logToFile with
  | true => simp only [after, pkoLogRead, received, cleared, got, if_true]
  | false => simp only [after, pkoLogRead, received, cleared, got, moved, Bool.false_eq_true, if_false]

theorem after_of_flushes (h : c.1 = true ∨ s.Flushes buf c) : (s.after buf c).loc = 0 := by
  rw [after_eq]
  cases hc : c.1 with
  | true => rfl
  | false =>
    have hf := (h.resolve_left (by rw [hc]; decide)).2
    rw [if_neg (by decide), logToConsole]
    simp only [if_pos hf]

theorem after_of_not_flushes (hc : c.1 = false) (h : ¬s.Flushes buf c) : s.after buf c = ⟨s.received buf c, s.moved c⟩ := by
  have hf : ¬(newline ∈ (s.received buf c).cstr buf size ∨ (size : Int) - s.moved c - 1 = 0) := fun hf => h ⟨hc, hf⟩
  rw [after_eq, hc, if_neg (by decide), logToConsole]
  simp only [if_neg hf]

theorem Kept.got_length (h : s.Kept buf) : s.loc + ((s.got c.2).getD []).length ≤ (size : Int) - 1 := by
  have hr := h.room
  have hn := h.nonneg
  cases hd : c.2 with
  | none =>
    simp only [got, Option.map_none, Option.getD_none, List.length_nil]
    omega
  | some bytes =>
    simp only [got, Option.map_some, Option.getD_some, List.length_take]
    omega

theorem Kept.cleared_last (h : s.Kept buf) : s.cleared buf (buf + (size - 1)) = 0 := by
  rw [cleared]
  by_cases h0 : s.loc = 0
  · rw [if_pos h0]
    exact Mem.store_of_mem (by rw [List.getElem?_replicate, if_pos (by decide)])
  · rw [if_neg h0]
    exact h.last h0

theorem Kept.received_last (h : s.Kept buf) : s.received buf c (buf + (size - 1)) = 0 := by
  have hl := @Kept.got_length buf c s h
  have hn := h.nonneg
  rw [received, Mem.store_of_ge, h.cleared_last]
  rw [size] at hl ⊢
  omega

theorem Kept.received_first (h : s.Kept buf) {bytes : List Byte} (hd : c.2 = some bytes) (hb : s.loc = 0 → bytes ≠ []) :
    s.received buf c buf = 0 ↔ if s.loc = 0 then bytes.head? = some 0 else s.mem buf = 0 := by
  have hn := h.nonneg
  have hr := h.room
  by_cases h0 : s.loc = 0
  · obtain ⟨b, bytes, rfl⟩ := List.exists_cons_of_ne_nil (hb h0)
    have hroom : ((size : Int) - s.loc - 1).toNat = 1022 + 1 := by
      rw [h0]
      rfl
    have hat : (buf + s.loc : Int).toNat = buf := by omega
    have hfirst : s.received buf c buf = b := by
      rw [received, hat, got, hd, Option.map_some, Option.getD_some, hroom, List.take_succ_cons]
      exact @Mem.store_of_mem _ buf 0 _ b rfl
    rw [if_pos h0, hfirst, List.head?_cons, Option.some.injEq]
  · rw [if_neg h0, received, Mem.store_of_lt (by omega), cleared, if_neg h0]

theorem Kept.moved_le (h : s.Kept buf) : s.moved c ≤ (size : Int) - 1 ∧ (s.moved c < 0 ↔ c.2 = none ∧ s.loc = 0) := by
  have hl := @Kept.got_length buf c s h
  have hn := h.nonneg
  have hr := h.room
  rw [moved]
  cases hd : c.2 with
  | none =>
    simp only [got, Option.map_none, Option.elim_none, true_and]
    omega
  | some bytes =>
    rw [hd, got, Option.map_some, Option.getD_some] at hl
    simp only [got, Option.map_some, Option.elim_some, reduceCtorEq, false_and, iff_false]
    omega

theorem Kept.moved_eq_iff (h : s.Kept buf) :
    s.moved c = (size : Int) - 1 ↔ ∃ bytes, c.2 = some bytes ∧ (size : Int) - 1 ≤ s.loc + bytes.length := by
  have hn := h.nonneg
  have hr := h.room
  rw [moved]
  cases hd : c.2 with
  | none =>
    simp only [got, Option.map_none, Option.elim_none, reduceCtorEq, false_and, exists_false, iff_false]
    omega
  | some bytes =>
    simp only [got, Option.map_some, Option.elim_some, List.length_take, Option.some.injEq, exists_eq_left']
    omega

theorem received_none (hd : c.2 = none) (h0 : s.loc = 0) : (s.received buf c).cstr buf size = [] := by
  rw [Mem.cstr_eq_nil_iff (by decide), received, got, hd, Option.map_none, Option.getD_none, Mem.store_nil, cleared,
    if_pos h0]
  exact @Mem.store_of_mem _ buf 0 _ 0 (by rw [List.getElem?_replicate, if_pos (by decide)])

theorem text_eq_nil_iff : (s.received buf c).cstr buf size = [] ↔ s.received buf c buf = 0 :=
  Mem.cstr_eq_nil_iff (by decide)

theorem Kept.safe_iff (h : s.Kept buf) : s.Safe buf c ↔ ¬s.Bad buf c := by
  have hl := @Kept.got_length buf c s h
  obtain ⟨hle, hneg⟩ := @Kept.moved_le buf c s h
  have hn := h.nonneg
  constructor
  · rintro hs ⟨hc, ⟨hd, h0⟩ | ⟨bytes, hd, hlen, hfirst⟩⟩
    · have hmoved := hneg.mpr ⟨hd, h0⟩
      have hf : ¬s.Flushes buf c := by
        rintro ⟨-, hf | hf⟩
        · rw [received_none hd h0] at hf
          cases hf
        · omega
      have hloc := hs.loc.1
      rw [after_of_not_flushes hc hf] at hloc
      exact absurd hloc (Int.not_le.mpr hmoved)
    · have hmoved := h.moved_eq_iff.mpr ⟨bytes, hd, hlen⟩
      have hb : s.loc = 0 → bytes ≠ [] := by
        rintro h0 rfl
        rw [h0] at hlen
        exact absurd hlen (by decide)
      have htext := text_eq_nil_iff.mpr ((h.received_first hd hb).mpr hfirst)
      have hpos := hs.text ⟨hc, .inr (by omega)⟩
      rw [htext] at hpos
      cases hpos
  · intro hbad
    refine ⟨⟨hn, by omega⟩, h.received_last, ?_, ?_⟩
    · by_cases hf : c.1 = true ∨ s.Flushes buf c
      · rw [after_of_flushes hf]
        decide
      · rw [not_or, Bool.not_eq_true] at hf
        rw [after_of_not_flushes hf.1 hf.2]
        have hpos : ¬s.moved c < 0 := fun hm => hbad ⟨hf.1, .inl (hneg.mp hm)⟩
        exact ⟨Int.not_lt.mp hpos, show s.moved c < size by omega⟩
    · rintro ⟨hc, hnl | hfull⟩
      · exact List.length_pos_of_mem hnl
      · obtain ⟨bytes, hd, hlen⟩ := (@Kept.moved_eq_iff buf c s h).mp (by omega)
        have hb : s.loc = 0 → bytes ≠ [] := by
          rintro h0 rfl
          rw [h0] at hlen
          exact absurd hlen (by decide)
        refine List.length_pos_of_ne_nil fun htext => hbad ⟨hc, .inr ⟨bytes, hd, hlen, ?_⟩⟩
        exact (h.received_first hd hb).mp (text_eq_nil_iff.mp htext)

theorem Kept.after (h : s.Kept buf) (hs : s.Safe buf c) : (s.after buf c).Kept buf := by
  have hlast := @Kept.received_last buf c s h
  obtain ⟨hle, -⟩ := @Kept.moved_le buf c s h
  by_cases hf : c.1 = true ∨ s.Flushes buf c
  · have h0 := after_of_flushes hf
    have hsize : (0 : Int) < (size : Int) - 1 := by decide
    exact ⟨h0.ge, h0.trans_lt hsize, fun hne => absurd h0 hne⟩
  · rw [not_or, Bool.not_eq_true] at hf
    have hloc := hs.loc.1
    rw [after_of_not_flushes hf.1 hf.2] at hloc ⊢
    have hfull : (size : Int) - s.moved c - 1 ≠ 0 := fun he => hf.2 ⟨hf.1, .inr he⟩
    exact ⟨hloc, by show s.moved c < _; omega, fun _ => hlast⟩

end Step

def SafeRun (buf : Nat) : List Call → LogBuf → Prop
  | [], _ => True
  | c :: cs, s => s.Safe buf c ∧ SafeRun buf cs (s.after buf c)

def CleanRun (buf : Nat) : List Call → LogBuf → Prop
  | [], _ => True
  | c :: cs, s => ¬s.Bad buf c ∧ CleanRun buf cs (s.after buf c)

theorem Kept.safeRun_iff {buf : Nat} {calls : List Call} {s : LogBuf} (h : s.Kept buf) :
    SafeRun buf calls s ↔ CleanRun buf calls s := by
  induction calls generalizing s with
  | nil => exact Iff.rfl
  | cons c calls ih =>
    rw [SafeRun, CleanRun, h.safe_iff]
    exact and_congr_right fun hc => ih (h.after (h.safe_iff.mpr hc))

theorem Kept.start (buf : Nat) (mem : Mem) : Kept buf ⟨mem, 0⟩ :=
  ⟨Int.le_refl 0, show (0 : Int) < (size : Int) - 1 by decide, fun h => absurd rfl h⟩

/-- A run is safe exactly when none of its calls is a bad one. -/
theorem log_safe_iff (buf : Nat) (mem : Mem) (calls : List Call) : SafeRun buf calls ⟨mem, 0⟩ ↔ CleanRun buf calls ⟨mem, 0⟩ :=
  (Kept.start buf mem).safeRun_iff

/-- The first call fails. -/
theorem failed_receive_unsafe : ¬∀ (buf : Nat) (mem : Mem) (calls : List Call), SafeRun buf calls ⟨mem, 0⟩ := by
  intro h
  have hs := h 1000 (fun _ => 0) [(false, none)]
  exact (Kept.start 1000 fun _ => 0).safe_iff.mp hs.1 ⟨rfl, .inl ⟨rfl, rfl⟩⟩

end LogBuf

end Pksh
