import Pksh.Lib.Frames
import Mathlib.Data.List.Basic
import Mathlib.Data.List.DropRight
import Mathlib.Data.Nat.Init

/-! Texts made of fields: how a field is written, and how a text is taken apart
again field by field, with the fields that print numbers. -/

namespace Wire

/-- A field that shows where it ends: what is written for a value is read back
as this value, whatever comes behind it. -/
structure Item (β α : Type) where
  put : α → List β
  get : List β → Option (α × List β)
  back : ∀ a rest, get (put a ++ rest) = some (a, rest)

namespace Item

variable {β α γ : Type}

theorem seq_back (f : Item β α) (g : Item β γ) (p : α × γ) (rest : List β) :
    ((f.get (f.put p.1 ++ g.put p.2 ++ rest)).bind fun r => (g.get r.2).map fun q => ((r.1, q.1), q.2)) = some (p, rest) := by
  rw [List.append_assoc, f.back, Option.bind_some, g.back, Option.map_some]

def seq (f : Item β α) (g : Item β γ) : Item β (α × γ) where
  put p := f.put p.1 ++ g.put p.2
  get s := (f.get s).bind fun r => (g.get r.2).map fun q => ((r.1, q.1), q.2)
  back := seq_back f g

theorem via_back (f : Item β α) {into : γ → α} {out : α → γ} (h : ∀ c, out (into c) = c) (c : γ) (rest : List β) :
    (f.get (f.put (into c) ++ rest)).map (fun r => (out r.1, r.2)) = some (c, rest) := by
  rw [f.back, Option.map_some, h]

def via (f : Item β α) (into : γ → α) (out : α → γ) (h : ∀ c, out (into c) = c) : Item β γ where
  put c := f.put (into c)
  get s := (f.get s).map fun r => (out r.1, r.2)
  back := via_back f h

theorem frames_put (f : Item β α) (hne : ∀ a, f.put a ≠ []) (as : List α) : frames f.get (as.flatMap f.put) = some as :=
  frames_flatMap f.back hne as

variable [DecidableEq β]

def strip (l s : List β) : Option (List β) := if s.take l.length = l then some (s.drop l.length) else none

theorem strip_append (l rest : List β) : strip l (l ++ rest) = some rest := by
  rw [strip, List.take_left, if_pos rfl, List.drop_left]

theorem tagged_back (l : List β) (f : Item β α) (a : α) (rest : List β) :
    (strip l (l ++ f.put a ++ rest)).bind f.get = some (a, rest) := by
  rw [List.append_assoc, strip_append, Option.bind_some, f.back]

def tagged (l : List β) (f : Item β α) : Item β α where
  put a := l ++ f.put a
  get s := (strip l s).bind f.get
  back := tagged_back l f

end Item

structure Line {β : Type} (stop : β) where
  text : List β
  unbroken : stop ∉ text

structure Cell {β : Type} (stop blank : β) extends Line stop where
  trimmed : ∀ h : text ≠ [], text.getLast h ≠ blank

section Lines

variable {β : Type} {stop blank : β}

theorem filled_unbroken (hb : blank ≠ stop) (k : Nat) (c : Cell stop blank) : stop ∉ c.text ++ List.replicate k blank := by
  rw [List.mem_append, List.mem_replicate]
  rintro (h | ⟨-, h⟩)
  · exact c.unbroken h
  · exact hb h.symm

def Cell.filled (hb : blank ≠ stop) (k : Nat) (c : Cell stop blank) : Line stop :=
  ⟨c.text ++ List.replicate k blank, filled_unbroken hb k c⟩

variable [DecidableEq β]

theorem not_mem_takeWhile_ne (s : List β) : stop ∉ s.takeWhile (· ≠ stop) := fun h => by
  simpa using List.mem_takeWhile_imp h

def Line.first (stop : β) (s : List β) : Line stop := ⟨s.takeWhile (· ≠ stop), not_mem_takeWhile_ne s⟩

theorem line_back (l : Line stop) (rest : List β) :
    (if stop ∈ l.text ++ [stop] ++ rest then
      some (Line.first stop (l.text ++ [stop] ++ rest), ((l.text ++ [stop] ++ rest).dropWhile (· ≠ stop)).tail) else none) =
        some (l, rest) := by
  obtain ⟨text, h⟩ := l
  have hne : ∀ c ∈ text, decide (c ≠ stop) = true := fun c hc => decide_eq_true fun he => h (he ▸ hc)
  have htake : (text ++ [stop] ++ rest).takeWhile (· ≠ stop) = text := by
    rw [List.append_assoc, List.takeWhile_append_of_pos hne]
    simp
  have hdrop : (text ++ [stop] ++ rest).dropWhile (· ≠ stop) = stop :: rest := by
    rw [List.append_assoc, List.dropWhile_append_of_pos hne]
    simp
  rw [if_pos (by simp), hdrop, List.tail_cons]
  simp only [Line.first, htake]

def Item.line (stop : β) : Item β (Line stop) where
  put l := l.text ++ [stop]
  get s := if stop ∈ s then some (Line.first stop s, (s.dropWhile (· ≠ stop)).tail) else none
  back := line_back

variable (blank) in
theorem rdropWhile_blanks {l : Line stop} : stop ∉ l.text.rdropWhile (· = blank) := fun h =>
  l.unbroken ((List.rdropWhile_prefix _ _).subset h)

variable (blank) in
theorem rdropWhile_trimmed (s : List β) (h : s.rdropWhile (· = blank) ≠ []) :
    (s.rdropWhile (· = blank)).getLast h ≠ blank := by
  simpa using List.rdropWhile_last_not _ _ h

def Line.trim (blank : β) (l : Line stop) : Cell stop blank :=
  ⟨⟨l.text.rdropWhile (· = blank), rdropWhile_blanks blank⟩, rdropWhile_trimmed blank l.text⟩

theorem Cell.trim_filled (hb : blank ≠ stop) (k : Nat) (c : Cell stop blank) : (c.filled hb k).trim blank = c := by
  obtain ⟨⟨text, unbroken⟩, trimmed⟩ := c
  have hd : (text ++ List.replicate k blank).rdropWhile (· = blank) = text := by
    induction k with
    | zero =>
      rw [List.replicate_zero, List.append_nil, List.rdropWhile_eq_self_iff]
      exact fun hne h => trimmed hne (of_decide_eq_true h)
    | succ k ih =>
      have hpos : (fun c => decide (c = blank)) blank = true := decide_eq_true rfl
      rw [List.replicate_succ', ← List.append_assoc, List.rdropWhile_concat_pos (fun c => decide (c = blank)) _ _ hpos, ih]
  simp only [Line.trim, Cell.filled, hd]

/-- A cell and the rest of its line, filled up with blanks as its length asks
for. -/
def Item.cell (hb : blank ≠ stop) (fill : Nat → Nat) : Item β (Cell stop blank) :=
  (Item.line stop).via (fun c => c.filled hb (fill c.text.length)) (Line.trim blank)
    fun c => Cell.trim_filled hb (fill c.text.length) c

end Lines

section Numerals

variable {β : Type} (enc : Char → β) (dec : β → Nat) (base : Nat)

def numeral (n : Nat) : List β := (Nat.toDigits base n).map enc

/-- The number the first digits stand for, and what is behind them. -/
def scanNumeral (s : List β) : Nat × List β :=
  ((s.takeWhile fun c => dec c < base).foldl (fun n c => n * base + dec c) 0, s.dropWhile fun c => dec c < base)

/-- The characters of the digits are read as these digits. -/
structure Spells : Prop where
  more : 1 < base
  digit : ∀ d < base, dec (enc d.digitChar) = d

namespace Spells

variable {enc dec base} (h : Spells enc dec base)

include h

theorem pos : 0 < base := Nat.lt_of_succ_lt h.more

theorem zero : dec (enc '0') = 0 := h.digit 0 h.pos

/-- Digits are appended on the right: the number is one digit, or the digits of
its quotient and one more. -/
theorem numeral_induct {motive : Nat → Prop} (one : ∀ n < base, numeral enc base n = [enc n.digitChar] → motive n)
    (more : ∀ n, base ≤ n → numeral enc base n = numeral enc base (n / base) ++ [enc (n % base).digitChar] →
      motive (n / base) → motive n) (n : Nat) : motive n := by
  induction n using Nat.strong_induction_on with
  | _ n ih =>
    rcases Nat.lt_or_ge n base with hn | hn
    · refine one n hn ?_
      rw [numeral, Nat.toDigits_of_lt_base hn, List.map_singleton]
    · refine more n hn ?_ (ih _ (Nat.div_lt_self (Nat.lt_of_lt_of_le h.pos hn) h.more))
      rw [numeral, Nat.toDigits_of_base_le h.more hn, List.map_append, List.map_singleton, numeral]

theorem digits_lt (n : Nat) : ∀ c ∈ numeral enc base n, dec c < base := by
  induction n using h.numeral_induct with
  | one n hn he =>
    intro c hc
    rw [he, List.mem_singleton] at hc
    rw [hc, h.digit n hn]
    exact hn
  | more n hn he ih =>
    intro c hc
    rw [he, List.mem_append, List.mem_singleton] at hc
    rcases hc with hc | rfl
    · exact ih c hc
    · have hlt := Nat.mod_lt n h.pos
      rwa [h.digit _ hlt]

theorem foldl_numeral (n : Nat) : (numeral enc base n).foldl (fun n c => n * base + dec c) 0 = n := by
  induction n using h.numeral_induct with
  | one n hn he => rw [he, List.foldl_cons, List.foldl_nil, h.digit n hn, Nat.zero_mul, Nat.zero_add]
  | more n hn he ih =>
    rw [he, List.foldl_append, ih, List.foldl_cons, List.foldl_nil, h.digit _ (Nat.mod_lt n h.pos)]
    exact Nat.div_add_mod' n base

theorem numeral_ne_nil (n : Nat) : numeral enc base n ≠ [] := by
  cases n using h.numeral_induct with
  | one n hn he =>
    rw [he]
    exact List.cons_ne_nil _ _
  | more n hn he =>
    rw [he]
    exact List.append_ne_nil_of_right_ne_nil _ (List.cons_ne_nil _ _)

theorem head_ne_zero {n : Nat} (hn : n ≠ 0) : (numeral enc base n).head? ≠ some (enc '0') := by
  induction n using h.numeral_induct with
  | one n hlt he =>
    rw [he, List.head?_cons]
    intro hc
    have hd := congrArg dec (Option.some.inj hc)
    rw [h.digit n hlt, h.zero] at hd
    exact hn hd
  | more n hge he ih =>
    rw [he, List.head?_append_of_ne_nil _ (h.numeral_ne_nil _)]
    exact ih (Nat.ne_of_gt (Nat.div_pos hge h.pos))

theorem padded_lt (width n : Nat) : ∀ c ∈ (numeral enc base n).leftpad width (enc '0'), dec c < base := by
  intro c hc
  rcases List.mem_append.mp hc with hc | hc
  · rw [List.eq_of_mem_replicate hc, h.zero]
    exact h.pos
  · exact h.digits_lt n c hc

theorem foldl_padded (width n : Nat) :
    ((numeral enc base n).leftpad width (enc '0')).foldl (fun n c => n * base + dec c) 0 = n := by
  have hz (k : Nat) : (List.replicate k (enc '0')).foldl (fun n c => n * base + dec c) 0 = 0 := by
    induction k with
    | zero => rfl
    | succ k ih => rw [List.replicate_succ, List.foldl_cons, h.zero, Nat.zero_mul, Nat.zero_add, ih]
  rw [List.leftpad, List.foldl_append, hz, h.foldl_numeral]

/-- A number, with zeros in front or without, is read up to what cannot be a
digit of it. -/
theorem scan_padded (width n : Nat) {rest : List β} (hr : ∀ c ∈ rest.head?, ¬dec c < base) :
    scanNumeral dec base ((numeral enc base n).leftpad width (enc '0') ++ rest) = (n, rest) := by
  have hd : ∀ c ∈ (numeral enc base n).leftpad width (enc '0'), decide (dec c < base) = true :=
    fun c hc => decide_eq_true (h.padded_lt width n c hc)
  have htake : rest.takeWhile (fun c => dec c < base) = [] ∧ rest.dropWhile (fun c => dec c < base) = rest := by
    cases rest with
    | nil => exact ⟨rfl, rfl⟩
    | cons c cs =>
      have hc := hr c rfl
      exact ⟨List.takeWhile_cons_of_neg (by simpa using hc), List.dropWhile_cons_of_neg (by simpa using hc)⟩
  rw [scanNumeral, List.takeWhile_append_of_pos hd, List.dropWhile_append_of_pos hd, htake.1, htake.2, List.append_nil,
    h.foldl_padded]

theorem scan_numeral (n : Nat) {rest : List β} (hr : ∀ c ∈ rest.head?, ¬dec c < base) :
    scanNumeral dec base (numeral enc base n ++ rest) = (n, rest) := by
  have hs := h.scan_padded 0 n hr
  rwa [List.leftpad, Nat.zero_sub, List.replicate_zero, List.nil_append] at hs

end Spells

end Numerals

section NumberFields

variable {β : Type} {enc : Char → β} {dec : β → Nat} {base : Nat}

/-- What comes behind a number and is no digit of it. -/
def Closes (dec : β → Nat) (base : Nat) (stop : List β) : Prop := ∃ c cs, stop = c :: cs ∧ ¬dec c < base

theorem Closes.head {stop : List β} (h : Closes dec base stop) (rest : List β) : ∀ c ∈ (stop ++ rest).head?, ¬dec c < base := by
  obtain ⟨c, cs, rfl, hc⟩ := h
  intro c' hc'
  rw [List.cons_append, List.head?_cons, Option.mem_some_iff] at hc'
  rwa [← hc']

def signed (enc : Char → β) (base : Nat) (i : Int) : List β :=
  if i < 0 then enc '-' :: numeral enc base i.natAbs else numeral enc base i.natAbs

/-- A blank that is neither a sign nor a digit, and a sign that is no digit. -/
structure Column (enc : Char → β) (dec : β → Nat) (base : Nat) (blank : β) : Prop extends Spells enc dec base where
  minus : ¬dec (enc '-') < base
  empty : ¬dec blank < base
  apart : enc '-' ≠ blank

namespace Column

variable {blank : β} (h : Column enc dec base blank)

include h

theorem numeral_head (n : Nat) : ∃ c cs, numeral enc base n = c :: cs ∧ c ≠ blank ∧ c ≠ enc '-' := by
  obtain ⟨c, cs, hc⟩ := List.exists_cons_of_ne_nil (h.numeral_ne_nil n)
  have hlt := h.digits_lt n c (hc ▸ List.mem_cons_self)
  exact ⟨c, cs, hc, fun he => h.empty (he ▸ hlt), fun he => h.minus (he ▸ hlt)⟩

theorem signed_head (i : Int) : ∃ c cs, signed enc base i = c :: cs ∧ c ≠ blank := by
  by_cases hi : i < 0
  · exact ⟨_, _, if_pos hi, h.apart⟩
  · obtain ⟨c, cs, hc, hb, -⟩ := h.numeral_head i.natAbs
    exact ⟨c, cs, (if_neg hi).trans hc, hb⟩

end Column

variable [DecidableEq β]

theorem Spells.zeroed_back (h : Spells enc dec base) (width : Nat) {stop : List β} (hs : Closes dec base stop) (n : Nat)
    (rest : List β) :
    (Item.strip stop (scanNumeral dec base ((numeral enc base n).leftpad width (enc '0') ++ stop ++ rest)).2).map
      (fun r => ((scanNumeral dec base ((numeral enc base n).leftpad width (enc '0') ++ stop ++ rest)).1, r)) =
        some (n, rest) := by
  rw [List.append_assoc, h.scan_padded width n (hs.head rest), Item.strip_append, Option.map_some]

def Item.zeroed (h : Spells enc dec base) (width : Nat) (stop : List β) (hs : Closes dec base stop) : Item β Nat where
  put n := (numeral enc base n).leftpad width (enc '0') ++ stop
  get s := (Item.strip stop (scanNumeral dec base s).2).map fun r => ((scanNumeral dec base s).1, r)
  back := h.zeroed_back width hs

/-- Blanks are skipped, and then a number with its sign is read. -/
def scanSigned (enc : Char → β) (dec : β → Nat) (base : Nat) (blank : β) (s : List β) : Int × List β :=
  let s := s.dropWhile (· = blank)
  if s.head? = some (enc '-') then (-((scanNumeral dec base s.tail).1 : Int), (scanNumeral dec base s.tail).2)
  else ((scanNumeral dec base s).1, (scanNumeral dec base s).2)

namespace Column

variable {blank : β} (h : Column enc dec base blank)

include h

theorem skip_blanks (width : Nat) (i : Int) (rest : List β) :
    ((signed enc base i).leftpad width blank ++ rest).dropWhile (· = blank) = signed enc base i ++ rest := by
  obtain ⟨c, cs, hc, hb⟩ := h.signed_head i
  have hr : ∀ b ∈ List.replicate (width - (signed enc base i).length) blank, decide (b = blank) = true :=
    fun b hm => decide_eq_true (List.eq_of_mem_replicate hm)
  rw [List.leftpad, List.append_assoc, List.dropWhile_append_of_pos hr, hc, List.cons_append]
  exact List.dropWhile_cons_of_neg (by simpa using hb)

theorem scan_signed (width : Nat) (i : Int) {rest : List β} (hr : ∀ c ∈ rest.head?, ¬dec c < base) :
    scanSigned enc dec base blank ((signed enc base i).leftpad width blank ++ rest) = (i, rest) := by
  rw [scanSigned, h.skip_blanks]
  by_cases hi : i < 0
  · rw [signed, if_pos hi, List.cons_append, List.head?_cons, if_pos rfl, List.tail_cons, h.scan_numeral _ hr]
    exact Prod.ext (by omega) rfl
  · obtain ⟨c, cs, hc, -, hs⟩ := h.numeral_head i.natAbs
    rw [signed, if_neg hi, hc, List.cons_append, List.head?_cons, if_neg (fun he => hs (Option.some.inj he)), ← List.cons_append,
      ← hc, h.scan_numeral _ hr]
    exact Prod.ext (by omega) rfl

theorem spaced_back (width : Nat) {stop : List β} (hs : Closes dec base stop) (i : Int) (rest : List β) :
    (Item.strip stop (scanSigned enc dec base blank ((signed enc base i).leftpad width blank ++ stop ++ rest)).2).map
      (fun r => ((scanSigned enc dec base blank ((signed enc base i).leftpad width blank ++ stop ++ rest)).1, r)) =
        some (i, rest) := by
  rw [List.append_assoc, h.scan_signed width i (hs.head rest), Item.strip_append, Option.map_some]

end Column

/-- A number with its sign, filled up with blanks. -/
def Item.spaced {blank : β} (h : Column enc dec base blank) (width : Nat) (stop : List β) (hs : Closes dec base stop) :
    Item β Int where
  put i := (signed enc base i).leftpad width blank ++ stop
  get s := (Item.strip stop (scanSigned enc dec base blank s).2).map fun r => ((scanSigned enc dec base blank s).1, r)
  back := h.spaced_back width hs

end NumberFields

end Wire
