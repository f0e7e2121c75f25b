import Pksh.Batch
import Pksh.Dumps
import Pksh.Printing

/-! Numbers as they are typed, on the way from a command line into a request. -/

namespace Pksh

open Wire Traced

inductive Radix
  | decimal
  | hex
  | octal

def Radix.spell (n : Nat) : Radix → List Byte
  | decimal => numeral byteOf 10 n
  | hex => str "0x" ++ numeral byteOf 16 n
  | octal => byteOf '0' :: numeral byteOf 8 n

/-- A number that fits a `long`. -/
structure Figure where
  negative : Bool
  radix : Radix
  magnitude : Nat
  small : magnitude < 2 ^ 63

namespace Figure

def text (f : Figure) : List Byte :=
  if f.negative then byteOf '-' :: f.radix.spell f.magnitude else f.radix.spell f.magnitude

def amount (f : Figure) : Int := if f.negative then -(f.magnitude : Int) else f.magnitude

end Figure

theorem spells_eight : Spells byteOf digitValue 8 := ⟨by decide, by decide⟩

def SetOff (rest : List Byte) : Prop := ∀ c ∈ rest.head?, c = space

theorem SetOff.stops {rest : List Byte} (h : SetOff rest) {base : Nat} (hb : base ≤ 36) : ∀ c ∈ rest.head?, ¬digitValue c < base := by
  intro c hc
  rw [h c hc, show digitValue space = 36 from rfl]
  exact Nat.not_lt.mpr hb

theorem digits_eq (base : Nat) (s : List Byte) : digits base s = (scanNumeral digitValue base s).1 := rfl

section Spelling

variable {rest : List Byte} (hr : SetOff rest) (n : Nat)

theorem Radix.spell_head (radix : Radix) : ∃ c cs, radix.spell n = c :: cs ∧ digitValue c < 10 := by
  cases radix with
  | decimal =>
    obtain ⟨c, cs, hc⟩ := List.exists_cons_of_ne_nil (spells_ten.numeral_ne_nil n)
    exact ⟨c, cs, hc, spells_ten.digits_lt n c (hc ▸ List.mem_cons_self)⟩
  | hex => exact ⟨_, _, rfl, by decide⟩
  | octal => exact ⟨_, _, rfl, by decide⟩

/-- Behind a digit that can be followed by one of its base or by nothing there is no `x`. -/
theorem take_two_ne {base : Nat} (hb : base ≤ 10) {c x : Byte} {cs : List Byte} (hx : 33 ≤ digitValue x) (hs : x ≠ space)
    (hd : ∀ d ∈ cs, digitValue d < base) (hr : SetOff rest) : (c :: (cs ++ rest)).take 2 ≠ [byteOf '0', x] := by
  intro he
  have htake : (cs ++ rest).take 1 = [x] := (List.cons.inj he).2
  have hhead : (cs ++ rest).head? = some x := by
    cases h : cs ++ rest with
    | nil =>
      rw [h] at htake
      cases htake
    | cons d ds =>
      rw [h] at htake
      exact congrArg some (List.cons.inj htake).1
  cases cs with
  | nil => exact hs (hr x hhead)
  | cons d ds =>
    have hlt := hd d List.mem_cons_self
    rw [Option.some.inj hhead] at hlt
    omega

theorem not_hex {base : Nat} (hb : base ≤ 10) {c : Byte} {cs : List Byte} (hd : ∀ d ∈ cs, digitValue d < base) (hr : SetOff rest) :
    ¬(((c :: (cs ++ rest)).take 2 = str "0x" ∨ (c :: (cs ++ rest)).take 2 = str "0X") ∧
      digitValue ((c :: (cs ++ rest)).getD 2 0) < 16) := fun h =>
  h.1.elim (take_two_ne hb (by decide) (by decide) hd hr) (take_two_ne hb (by decide) (by decide) hd hr)

include hr

theorem unsignedNumber_decimal : unsignedNumber 0 (numeral byteOf 10 n ++ rest) = n := by
  obtain ⟨c, cs, hc⟩ := List.exists_cons_of_ne_nil (spells_ten.numeral_ne_nil n)
  have hd : ∀ d ∈ cs, digitValue d < 10 := fun d hm => spells_ten.digits_lt n d (hc ▸ List.mem_cons_of_mem c hm)
  have hx := not_hex (Nat.le_refl 10) hd hr (c := c)
  rw [← List.cons_append, ← hc] at hx
  rw [unsignedNumber, if_pos rfl, if_neg hx]
  by_cases hn : n = 0
  · have hz : numeral byteOf 10 0 = numeral byteOf 8 0 := by decide
    have hhead : (numeral byteOf 8 0 ++ rest).head? = some 0x30 := rfl
    rw [hn, hz, if_pos hhead, digits_eq, spells_eight.scan_numeral 0 (hr.stops (by decide))]
  · have hhead := spells_ten.head_ne_zero hn
    have hne : (numeral byteOf 10 n ++ rest).head? ≠ some 0x30 := by
      rw [List.head?_append_of_ne_nil _ (spells_ten.numeral_ne_nil n)]
      exact hhead
    rw [if_neg hne, digits_eq, spells_ten.scan_numeral n (hr.stops (by decide))]

theorem unsignedNumber_hex : unsignedNumber 0 (str "0x" ++ numeral byteOf 16 n ++ rest) = n := by
  obtain ⟨c, cs, hc⟩ := List.exists_cons_of_ne_nil (spells_sixteen.numeral_ne_nil n)
  have hlt := spells_sixteen.digits_lt n c (hc ▸ List.mem_cons_self)
  have hx : ((str "0x" ++ numeral byteOf 16 n ++ rest).take 2 = str "0x" ∨
      (str "0x" ++ numeral byteOf 16 n ++ rest).take 2 = str "0X") ∧
        digitValue ((str "0x" ++ numeral byteOf 16 n ++ rest).getD 2 0) < 16 := by
    rw [hc]
    exact ⟨.inl rfl, hlt⟩
  rw [unsignedNumber, if_pos rfl, if_pos hx, List.append_assoc, List.drop_left' (show (str "0x").length = 2 from rfl), digits_eq,
    spells_sixteen.scan_numeral n (hr.stops (by decide))]

theorem unsignedNumber_octal : unsignedNumber 0 (byteOf '0' :: numeral byteOf 8 n ++ rest) = n := by
  have hx := not_hex (show 8 ≤ 10 by decide) (spells_eight.digits_lt n) hr (c := byteOf '0')
  have hpad : byteOf '0' :: numeral byteOf 8 n = (numeral byteOf 8 n).leftpad ((numeral byteOf 8 n).length + 1) (byteOf '0') := by
    rw [List.leftpad, Nat.add_sub_cancel_left]
    rfl
  rw [unsignedNumber, if_pos rfl, List.cons_append, if_neg hx, if_pos (by rfl), ← List.cons_append, hpad, digits_eq,
    spells_eight.scan_padded _ n (hr.stops (by decide))]

theorem unsignedNumber_spell (radix : Radix) : unsignedNumber 0 (radix.spell n ++ rest) = n := by
  cases radix with
  | decimal => exact unsignedNumber_decimal hr n
  | hex => exact unsignedNumber_hex hr n
  | octal => exact unsignedNumber_octal hr n

end Spelling

section Strtol

variable {rest : List Byte}

theorem not_space_of_digit {c : Byte} (h : digitValue c < 10) : isSpace c = false ∧ c ≠ 0x2d ∧ c ≠ 0x2b := by
  revert c
  decide

theorem skip_gap (gap : Nat) {s : List Byte} (hs : ∀ c ∈ s.head?, isSpace c = false) :
    (List.replicate gap space ++ s).dropWhile isSpace = s := by
  have hg : ∀ c ∈ List.replicate gap space, isSpace c = true := fun c hc => by
    rw [List.eq_of_mem_replicate hc]
    rfl
  rw [List.dropWhile_append_of_pos hg]
  cases s with
  | nil => rfl
  | cons c s => exact List.dropWhile_cons_of_neg (by simp [hs c rfl])

theorem strtol_unsigned {base : Nat} (gap : Nat) {c : Byte} (hc : digitValue c < 10) (cs : List Byte) :
    strtol base (List.replicate gap space ++ c :: cs) = min (unsignedNumber base (c :: cs) : Int) (2 ^ 63 - 1) := by
  obtain ⟨hs, hm, hp⟩ := not_space_of_digit hc
  rw [strtol, skip_gap gap fun d hd => by cases hd; exact hs]
  split
  · rename_i h
    exact absurd (List.cons.inj h).1 hm
  · rename_i h
    exact absurd (List.cons.inj h).1 hp
  · rfl

theorem strtol_minus {base : Nat} (gap : Nat) (s : List Byte) :
    strtol base (List.replicate gap space ++ byteOf '-' :: s) = max (-(unsignedNumber base s : Int)) (-2 ^ 63) := by
  rw [strtol, skip_gap gap fun d hd => by cases hd; rfl]
  rfl

namespace Figure

variable (f : Figure)

theorem strtol_text (gap : Nat) (hr : SetOff rest) : strtol 0 (List.replicate gap space ++ (f.text ++ rest)) = f.amount := by
  have hsmall := f.small
  rw [text, amount]
  by_cases hn : f.negative = true
  · rw [if_pos hn, if_pos hn, List.cons_append, strtol_minus, unsignedNumber_spell hr]
    omega
  · obtain ⟨c, cs, hc, hd⟩ := f.radix.spell_head f.magnitude
    rw [if_neg hn, if_neg hn, hc, List.cons_append, strtol_unsigned gap hd, ← List.cons_append, ← hc, unsignedNumber_spell hr]
    omega

theorem strtol_alone (gap : Nat) : strtol 0 (List.replicate gap space ++ f.text) = f.amount := by
  have h := @strtol_text [] f gap fun c hc => by cases hc
  rwa [List.append_nil] at h

theorem text_head : ∃ c cs, f.text = c :: cs ∧ isSpace c = false := by
  rw [text]
  by_cases hn : f.negative = true
  · exact ⟨byteOf '-', _, if_pos hn, rfl⟩
  · obtain ⟨c, cs, hc, hd⟩ := f.radix.spell_head f.magnitude
    exact ⟨c, cs, (if_neg hn).trans hc, (not_space_of_digit hd).1⟩

theorem isNumber_text : isNumber f.text = true := by
  obtain ⟨d, ds, hd, hlt⟩ := f.radix.spell_head f.magnitude
  obtain ⟨hs, hm, hp⟩ := not_space_of_digit hlt
  rw [isNumber, text]
  by_cases hn : f.negative = true
  · rw [if_pos hn, hd, List.dropWhile_cons_of_neg (by decide)]
    exact decide_eq_true hlt
  · rw [if_neg hn, hd, List.dropWhile_cons_of_neg (by simp [hs])]
    split
    · rename_i h
      exact absurd (List.cons.inj h).1 hm
    · rename_i h
      exact absurd (List.cons.inj h).1 hp
    · exact decide_eq_true hlt

theorem text_word : f.text ≠ [] ∧ space ∉ f.text := by
  have hdigits {base : Nat} (h : Spells byteOf digitValue base) (hb : base ≤ 36) : space ∉ numeral byteOf base f.magnitude := by
    intro hm
    have hlt := h.digits_lt f.magnitude space hm
    rw [show digitValue space = 36 from rfl] at hlt
    omega
  have hspell : space ∉ f.radix.spell f.magnitude := by
    cases f.radix with
    | decimal => exact hdigits spells_ten (by decide)
    | hex => exact fun hm => (List.mem_append.mp hm).elim (by decide) (hdigits spells_sixteen (by decide))
    | octal => exact fun hm => (List.mem_cons.mp hm).elim (by decide) (hdigits spells_eight (by decide))
  obtain ⟨c, cs, hc, -⟩ := f.text_head
  refine ⟨hc ▸ List.cons_ne_nil c cs, ?_⟩
  rw [text]
  by_cases hn : f.negative = true
  · rw [if_pos hn]
    exact fun hm => (List.mem_cons.mp hm).elim (by decide) hspell
  · rwa [if_neg hn]

end Figure

end Strtol

theorem splitLine_word {lead name sep arg : List Byte} (hl : ∀ c ∈ lead, whitespace c = true) (hn : name ≠ [])
    (hname : ∀ c ∈ name, whitespace c = false) (hs : sep ≠ []) (hsep : ∀ c ∈ sep, whitespace c = true)
    (ha : ∀ c ∈ arg.head?, whitespace c = false) : splitLine (lead ++ (name ++ (sep ++ arg))) = (name, arg) := by
  have hword : ∀ c ∈ name, (fun c => !whitespace c) c = true := fun c hc => by simp [hname c hc]
  obtain ⟨d, ds, rfl⟩ := List.exists_cons_of_ne_nil hs
  have hd : ¬((fun c => !whitespace c) d = true) := by simp [hsep d List.mem_cons_self]
  have hlead : (lead ++ (name ++ (d :: ds ++ arg))).dropWhile whitespace = name ++ (d :: ds ++ arg) := by
    obtain ⟨c, cs, rfl⟩ := List.exists_cons_of_ne_nil hn
    rw [List.dropWhile_append_of_pos hl, List.cons_append]
    exact List.dropWhile_cons_of_neg (by simp [hname c List.mem_cons_self])
  have htake : (name ++ (d :: ds ++ arg)).takeWhile (fun c => !whitespace c) = name := by
    rw [List.takeWhile_append_of_pos hword, List.cons_append, List.takeWhile_cons, if_neg hd, List.append_nil]
  have hdrop : (name ++ (d :: ds ++ arg)).dropWhile (fun c => !whitespace c) = d :: ds ++ arg := by
    rw [List.dropWhile_append_of_pos hword, List.cons_append, List.dropWhile_cons, if_neg hd]
  have harg : (d :: ds ++ arg).dropWhile whitespace = arg := by
    rw [List.dropWhile_append_of_pos hsep]
    cases arg with
    | nil => rfl
    | cons c cs => exact List.dropWhile_cons_of_neg (by simp [ha c rfl])
  simp only [splitLine, hlead, htake, hdrop, harg]

/-- A dump as it is typed: the file, two numbers, and the blanks between and
around them. -/
structure TypedDump where
  lead : List Byte
  sep : List Byte
  file : List Byte
  gap : Nat
  offset : Figure
  gap' : Nat
  size : Figure
  behind : Nat
  leading : ∀ c ∈ lead, whitespace c = true
  parted : sep ≠ []
  blank : ∀ c ∈ sep, whitespace c = true
  named : file ≠ []
  word : space ∉ file
  first : ∀ c ∈ file.head?, whitespace c = false

namespace TypedDump

variable (d : TypedDump)

def numbers : List Byte := d.offset.text ++ space :: (List.replicate d.gap' space ++ d.size.text)

def core : List Byte := d.file ++ space :: (List.replicate d.gap space ++ d.numbers)

def arg : List Byte := d.core ++ List.replicate d.behind space

def line : List Byte := d.lead ++ (str "dumpmem" ++ (d.sep ++ d.arg))

def dump : Dump := .mem (cWord d.offset.amount) (cWord d.size.amount)

theorem numbers_core : IsCore d.numbers := by
  obtain ⟨hne, hs⟩ := d.offset.text_word
  obtain ⟨hne', hs'⟩ := d.size.text_word
  refine isCore_line hne hs (List.append_ne_nil_of_right_ne_nil _ hne') ?_
  rw [List.getLast?_append_of_ne_nil _ hne']
  exact (isCore_word hne' hs').last

theorem core_core : IsCore d.core := by
  refine isCore_line d.named d.word (List.append_ne_nil_of_right_ne_nil _ d.numbers_core.ne) ?_
  rw [List.getLast?_append_of_ne_nil _ d.numbers_core.ne]
  exact d.numbers_core.last

/-- The two numbers and the file are taken from the line as they were typed. -/
theorem cliDumpmem_arg : cliDumpmem d.arg =
    (dumpmem d.file (cWord d.offset.amount) (cWord d.size.amount) >>= fun _ => pure 0) := by
  have htrim : trimInPlace d.arg = d.core := d.core_core.trimInPlace d.behind
  have hfirst : fromSpace d.core = some (space :: (List.replicate d.gap space ++ d.numbers)) := fromSpace_append d.word _
  have hoffset : strtol 0 (space :: (List.replicate d.gap space ++ d.numbers)) = d.offset.amount :=
    d.offset.strtol_text (d.gap + 1) fun c hc => by cases hc; rfl
  have hrest : trim (space :: (List.replicate d.gap space ++ d.numbers)) = d.numbers := by
    have h := d.numbers_core.trim_padded (d.gap + 1) 0
    rw [padded, Nat.min_zero, List.replicate_zero, List.append_nil, List.append_nil] at h
    exact h
  have hsecond : fromSpace d.numbers = some (space :: (List.replicate d.gap' space ++ d.size.text)) :=
    fromSpace_append d.offset.text_word.2 _
  have hsize : strtol 0 (space :: (List.replicate d.gap' space ++ d.size.text)) = d.size.amount :=
    d.size.strtol_alone (d.gap' + 1)
  have hfile : d.core.take (d.core.length - (space :: (List.replicate d.gap space ++ d.numbers)).length) = d.file := by
    have hlen : d.core.length - (space :: (List.replicate d.gap space ++ d.numbers)).length = d.file.length := by
      rw [core, List.length_append, Nat.add_sub_cancel]
    rw [hlen, core, List.take_left]
  rw [cliDumpmem, htrim, hfirst]
  simp only [hrest, hsecond, hoffset, hsize, hfile]

theorem executeLine_line (s : Session) : executeLine d.line s = cliDumpmem d.arg >>= fun _ => pure s := by
  have hhead : ∀ c ∈ d.arg.head?, whitespace c = false := by
    rw [arg, core, List.append_assoc, List.head?_append_of_ne_nil _ d.named]
    exact d.first
  have hsplit : splitLine d.line = (str "dumpmem", d.arg) :=
    splitLine_word d.leading (by decide) (by decide) d.parted d.blank hhead
  have hfind : findCommand (str "dumpmem") = some .dumpmem := by decide
  rw [executeLine, hsplit, hfind]
  rfl

end TypedDump

theorem command_sends_on {req : Int → Io Int} {bytes : List Byte}
    (h : ∀ fd w, outgoing ((req fd).run w).acts = [(fd, bytes)]) (ht : ∀ fd v, trail ((req fd).run v).acts = [.sent fd])
    (w : World) : ∃ fd, outgoing ((command req).run w).acts = [(fd, bytes)] ∧
      (cmdSocks (trail ((command req).run w).acts)).head? = some fd := by
  have hw := (Wires.pkoCmdCon w).1
  obtain ⟨v, w', as, hrun, -, hc⟩ := pkoCmdCon_contacted w
  rw [hrun] at hw
  have hacts : ((command req).run w).acts = as ++ ((req w'.cmdFd).run w').acts := by
    rw [command, Prog.run_bind, hrun, Result.andThen_mk_some, Result.after_acts]
    rfl
  refine ⟨w'.cmdFd, ?_, ?_⟩
  · rw [hacts, outgoing_append, outgoing_wires hw, List.nil_append, h]
  · rw [hacts, trail_append, ht]
    generalize w'.desc = desc at hc
    generalize w'.cmdFd = c at hc ⊢
    cases hc with
    | unmade => rfl
    | made d made h0 hn hd => rfl

theorem trail_dumpmem (file : List Byte) (offset size : Word) (fd : Int) (w : World) :
    trail ((pkoDumpmemoryReq fd file offset size).run w).acts = [.sent fd] := trail_sendReq _ _ _ _

/-- A line sends one request on the command socket, with the file put on the host. -/
theorem TypedDump.line_sends (d : TypedDump) (s : Session) (w : World) :
    ∃ fd, outgoing ((executeLine d.line s).run w).acts = [(fd, d.dump.packet (argPrependHost d.file))] ∧
      (cmdSocks (trail ((executeLine d.line s).run w).acts)).head? = some fd := by
  have hcli : ((executeLine d.line s).run w).acts = ((cliDumpmem d.arg).run w).acts := by
    rw [d.executeLine_line]
    exact Result.acts_andThen_pure _ _
  have hdump : ((cliDumpmem d.arg).run w).acts = ((dumpmem d.file (cWord d.offset.amount) (cWord d.size.amount)).run w).acts := by
    rw [d.cliDumpmem_arg]
    exact Result.acts_andThen_pure _ _
  rw [hcli, hdump]
  exact command_sends_on (fun fd v => d.dump.request_sends (argPrependHost d.file) fd v) (trail_dumpmem _ _ _) w

theorem ps2linkOpen_quiet (w : World) : ∃ (fd : Int) (made : Bool) (w' : World) (as : List Act),
    ps2linkOpen.run w = ⟨some (fd, if made then 0 else -1), w', as⟩ ∧ outgoing as = [] ∧ trail as = [.joined fd made] := by
  have hwires : Wires ps2linkOpen := (Wires.sysSocket _).bind fun _ => (Wires.sysConnect _).bind fun _ => .pure _
  obtain ⟨fd, made, w', as, hrun, ht, -⟩ := ps2linkOpen_cases w
  have hacts := (hwires w).1
  rw [hrun] at hacts
  exact ⟨fd, made, w', as, hrun, outgoing_wires hacts, ht⟩

theorem direct_sends {req : Int → Io Int} {bytes : List Byte}
    (h : ∀ fd w, outgoing ((req fd).run w).acts = [(fd, bytes)]) (ht : ∀ fd v, trail ((req fd).run v).acts = [.sent fd])
    (sock : Int) (w : World) : ∃ fd, outgoing ((direct sock req).run w).acts = [(fd, bytes)] ∧
      (cmdSocks (trail ((direct sock req).run w).acts)).head? = some fd := by
  obtain ⟨r, hclose⟩ := sysClose_acts w sock
  obtain ⟨fd, hfd, hc⟩ := command_sends_on h ht (w.tick.setDesc sock none)
  refine ⟨fd, ?_, ?_⟩
  · rw [direct, Prog.run_bind, hclose, Result.andThen_mk_some, Result.after_acts, outgoing_append, hfd]
    rfl
  · rw [direct, Prog.run_bind, hclose, Result.andThen_mk_some, Result.after_acts, trail_append]
    exact hc

/-- Where the tool's request goes, by the connections it has tried. With a pksh
running it is number 0, what `ps2link_open` returns, and not the connection. -/
def toolSocket : List Step → Option Int
  | .joined _ true :: _ => some 0
  | .joined _ false :: .joined _ true :: rest => (cmdSocks rest).head?
  | _ => none

/-- One request is sent there, and none when the tool can connect to neither. -/
def ToolSends (packet : List Byte) (r : Result World Act Int) : Prop :=
  outgoing r.acts = (toolSocket (trail r.acts)).toList.map (fun fd => (fd, packet)) ∧
    (toolSocket (trail r.acts) = none → r.value = some (-1))

theorem dumpmemMain_sends (cwd path : List Byte) (offset size : Figure) (w : World) :
    ToolSends ((Dump.mem (cWord offset.amount) (cWord size.amount)).packet (execFile cwd path []))
      ((dumpmemMain cwd path offset.text size.text).run w) := by
  have hnum {f : Figure} : strtol 0 f.text = f.amount := f.strtol_alone 0
  have hreq (fd : Int) (v : World) : outgoing ((pkoDumpmemoryReq fd (execFile cwd path []) (cWord offset.amount)
      (cWord size.amount)).run v).acts =
        [(fd, (Dump.mem (cWord offset.amount) (cWord size.amount)).packet (execFile cwd path []))] :=
    (Dump.mem _ _).request_sends _ fd v
  have htrail := trail_dumpmem (execFile cwd path []) (cWord offset.amount) (cWord size.amount)
  have hvalid : ¬((!isNumber offset.text || !isNumber size.text) = true) := by simp [Figure.isNumber_text]
  obtain ⟨fd, made, w₁, as, hopen, hquiet, hjoined⟩ := ps2linkOpen_quiet w
  rw [ToolSends, dumpmemMain, Prog.run_bind, hopen, Result.andThen_mk_some]
  cases made with
  | true =>
    simp only [hnum, if_neg hvalid, if_true, lt_irrefl, if_false, Result.after_acts, outgoing_append, trail_append, hquiet,
      hjoined, hreq, htrail]
    exact ⟨rfl, fun hn => absurd hn (Option.some_ne_none _)⟩
  | false =>
    obtain ⟨fd', made', w₂, bs, hopen', hquiet', hjoined'⟩ := ps2linkOpen_quiet w₁
    have hneg : ((-1 : Int) < 0) := by decide
    simp only [hnum, if_neg hvalid, Bool.false_eq_true, if_false, if_pos hneg, Prog.run_bind, hopen', Result.andThen_mk_some,
      Result.after_acts, Result.after_value, outgoing_append, trail_append, hquiet, hquiet', hjoined, hjoined', List.nil_append]
    cases made' with
    | true =>
      obtain ⟨s, hs, hc⟩ := direct_sends hreq htrail 0 { w₂ with cmdFd := fd' }
      have hsock : toolSocket ([.joined fd false] ++ ([.joined fd' true] ++
          trail ((direct 0 fun fd => pkoDumpmemoryReq fd (execFile cwd path []) (cWord offset.amount)
            (cWord size.amount)).run { w₂ with cmdFd := fd' }).acts)) = some s := hc
      exact ⟨hs.trans (congrArg (fun o : Option Int => o.toList.map fun fd => (fd, _)) hsock).symm,
        fun hn => absurd (hsock.symm.trans hn) (Option.some_ne_none _)⟩
    | false => exact ⟨rfl, fun _ => rfl⟩

structure Dump.Requests (d : Dump) (file packet : List Byte) : Prop where
  args : ∀ a ∈ d.args file, a.Decodes packet
  len : (ofBe16 (packet.drop 4)).toNat = packet.length

theorem Dump.requests_packet (d : Dump) {file : List Byte} (h0 : 0 ∉ file) (hl : file.length < maxPath) :
    d.Requests file (d.packet file) := ⟨d.args_decode h0 hl, d.packet_len file⟩

theorem argPrependHost_fits {file : List Byte} (hl : file.length ≤ 250) : (argPrependHost file).length < maxPath := by
  refine Nat.lt_of_le_of_lt (argPrependHost_length_le file) ?_
  rw [maxPath]
  omega

/-- However the two numbers are typed, the request that a line sends asks for
them, and so does the one that the tool sends when the words that are left of
its options are the file and the numbers. A pksh that is given this request
makes one more of it. -/
theorem dumpmem_typed (d : TypedDump) {cwd : List Byte} (h0 : 0 ∉ d.file) (hl : d.file.length ≤ 250)
    (hc0 : 0 ∉ execFile cwd d.file []) (hcl : (execFile cwd d.file []).length ≤ 250) :
    (∀ s w, ∃ fd packet, outgoing ((executeLine d.line s).run w).acts = [(fd, packet)] ∧
      (cmdSocks (trail ((executeLine d.line s).run w).acts)).head? = some fd ∧
      d.dump.Requests (argPrependHost d.file) packet) ∧
    ∀ words, operands words = [d.file, d.offset.text, d.size.text] → ∃ m, dumpmemTool cwd words = some m ∧
      ∃ packet, (∀ w, ToolSends packet (m.run w)) ∧ d.dump.Requests (execFile cwd d.file []) packet ∧
        ∀ link (hop : World) rest, hop.pending link = packet ++ rest → ∃ s packet',
          outgoing ((pkoSrvRead link).run hop).acts = [(s, packet')] ∧
            d.dump.Requests (argPrependHost (execFile cwd d.file [])) packet' := by
  have hmax : 250 < maxPath := by decide
  refine ⟨fun s w => ?_, fun words hwords => ?_⟩
  · obtain ⟨fd, hfd, hc⟩ := d.line_sends s w
    exact ⟨fd, _, hfd, hc, d.dump.requests_packet (zero_not_mem_argPrependHost h0) (argPrependHost_fits hl)⟩
  · have hne : words ≠ [] := fun he => by rw [he, operands] at hwords; cases hwords
    refine ⟨dumpmemMain cwd d.file d.offset.text d.size.text, ?_, _, dumpmemMain_sends cwd d.file d.offset d.size,
      d.dump.requests_packet hc0 (Nat.lt_of_le_of_lt hcl hmax), fun link hop rest hp => ?_⟩
    · rw [dumpmemTool, if_neg hne, hwords]
    · obtain ⟨s, hs⟩ := Dump.forwarded hp hc0 (Nat.lt_of_le_of_lt hcl hmax)
      exact ⟨s, _, hs, d.dump.requests_packet (zero_not_mem_argPrependHost hc0) (argPrependHost_fits hcl)⟩

/-- ` dumpmem mem.bin  0x100000 64 ` -/
def typedMemory : TypedDump where
  lead := [space]
  sep := [space]
  file := str "mem.bin"
  gap := 1
  offset := ⟨false, .hex, 0x100000, by decide⟩
  gap' := 0
  size := ⟨false, .decimal, 64, by decide⟩
  behind := 1
  leading := by decide
  parted := by decide
  blank := by decide
  named := by decide
  word := by decide
  first := by decide

theorem typedMemory_sent :
    (∀ s w, ∃ fd packet, outgoing ((executeLine typedMemory.line s).run w).acts = [(fd, packet)] ∧
      (cmdSocks (trail ((executeLine typedMemory.line s).run w).acts)).head? = some fd ∧
      typedMemory.dump.Requests (argPrependHost (str "mem.bin")) packet) ∧
    ∃ m, dumpmemTool (str "/tmp") [str "-h", str "10.0.0.10", str "mem.bin", str "0x100000", str "64"] = some m ∧
      ∃ packet, (∀ w, ToolSends packet (m.run w)) ∧
        typedMemory.dump.Requests (execFile (str "/tmp") (str "mem.bin") []) packet ∧
        ∀ link (hop : World) rest, hop.pending link = packet ++ rest → ∃ s packet',
          outgoing ((pkoSrvRead link).run hop).acts = [(s, packet')] ∧
            typedMemory.dump.Requests (argPrependHost (execFile (str "/tmp") (str "mem.bin") [])) packet' :=
  have h := @dumpmem_typed typedMemory (str "/tmp") (by decide) (by decide) (by decide) (by decide)
  ⟨h.1, h.2 _ (by decide +kernel)⟩

example : typedMemory.line = str " dumpmem mem.bin  0x100000 64 " := by decide +kernel

end Pksh
