import Pksh.Dumps
import Pksh.Trim

/-! The register group of a dump, from the command line of pksh and from the
tool dumpreg. Both look the name up with a comparison of bounded length, and
each has its own idea of the bound. -/

namespace Pksh

open Wire Traced

/-- All of `DUMP_REG_SYM`. -/
def dumpRegAll : List (List Byte) := dumpRegSym ++ [str "vu1"]

/-- The file of the tool, made absolute when it names no device. -/
def dumpregFile (cwd path : List Byte) : List Byte := if argDeviceCheck path then path else cwd ++ slash :: path

/-- What `main` of dumpreg sends: to a pksh when it found one, and else, with
that socket closed, to the PS2. -/
def dumpregTool (running : Bool) (sock : Int) (cwd path name : List Byte) : Io Int := do
  let regs := BitVec.ofNat 32 (getRegisterIndex name name.length)
  if running then pkoDumpregsReq sock (dumpregFile cwd path) regs
  else do
    let _ ← sysClose sock
    command fun fd => pkoDumpregsReq fd (dumpregFile cwd path) regs

/-- The selectors of the DUMPREGS requests that are sent. -/
def selectors (as : List Act) : List Word :=
  (outgoing as).filterMap fun p => if ofBe32 p.2 = dumpregsCmd then some (ofBe32 (p.2.drop 6)) else none

/-- What is sent is right for `name`. -/
structure Selects (name : List Byte) (sels : List Word) : Prop where
  known : name ∈ dumpRegAll → sels = [BitVec.ofNat 32 (dumpRegAll.idxOf name)]
  unknown : name ∉ dumpRegAll → ∀ s ∈ sels, dumpRegAll.length ≤ s.toNat

/-- An entry before `name` agrees with it in the first `n` characters. -/
def Hidden (name : List Byte) (n : Nat) : Prop := ∃ sym ∈ dumpRegAll.takeWhile (· ≠ name), strncmpEq name sym n = true

theorem findIdx_eq_idxOf_iff {l : List (List Byte)} {x : List Byte} {p : List Byte → Bool} (hx : x ∈ l)
    (hp : p x = true) :
    l.findIdx p = l.idxOf x ↔ ∀ y ∈ l.takeWhile (· ≠ x), p y = false := by
  induction l with
  | nil => cases hx
  | cons y l ih =>
    by_cases hy : y = x
    · subst hy
      simp [List.findIdx_cons, hp]
    · have hx' : x ∈ l := (List.mem_cons.mp hx).resolve_left (Ne.symm hy)
      rw [List.takeWhile_cons_of_pos (by simpa using hy), List.findIdx_cons, List.idxOf_cons_ne _ hy]
      cases hpy : p y with
      | true => simp [hpy]
      | false => simpa [hpy] using ih hx'

theorem strncmpEq_self (s : List Byte) (n : Nat) : strncmpEq s s n = true := by
  simp [strncmpEq]

/-- The loop stops one entry short, and the count it stops with is the index of that entry. -/
theorem getRegisterIndex_eq_findIdx {name : List Byte} (h : name ∈ dumpRegAll) (n : Nat) :
    getRegisterIndex name n = dumpRegAll.findIdx fun sym => strncmpEq name sym n := by
  rw [dumpRegAll, List.findIdx_append, getRegisterIndex]
  split
  · rfl
  · rename_i hlt
    have hvu1 : name = str "vu1" := by
      rcases List.mem_append.mp h with h | h
      · exact absurd (List.findIdx_lt_length_of_exists ⟨name, h, strncmpEq_self name n⟩) hlt
      · exact List.mem_singleton.mp h
    have hend := Nat.le_antisymm List.findIdx_le_length (Nat.not_lt.mp hlt)
    rw [hend, hvu1]
    simp [List.findIdx_cons, strncmpEq_self]

theorem getRegisterIndex_eq_idxOf_iff {name : List Byte} (h : name ∈ dumpRegAll) (n : Nat) :
    getRegisterIndex name n = dumpRegAll.idxOf name ↔ ¬Hidden name n := by
  rw [getRegisterIndex_eq_findIdx h, findIdx_eq_idxOf_iff h (strncmpEq_self name n), Hidden]
  simp

theorem getRegisterIndex_lt (name : List Byte) (n : Nat) : getRegisterIndex name n < dumpRegAll.length :=
  Nat.lt_succ_of_le List.findIdx_le_length

theorem not_hidden_length : ∀ name ∈ dumpRegAll, ¬Hidden name name.length := by
  unfold Hidden
  decide

theorem selectors_packet (as : List Act) (s : Int) (file : List Byte) (sel : Word)
    (h : outgoing as = [(s, (Dump.regs sel).packet file)]) : selectors as = [sel] := by
  have hp : (Dump.regs sel).packet file = be32 dumpregsCmd ++ (be16 (BitVec.ofNat 16 pktDumpregsReqSize) ++
      (be32 sel ++ strncpy file maxPath)) := by
    simp [Dump.packet, Dump.fields, reqHdr]
  have hsel : ((Dump.regs sel).packet file).drop 6 = be32 sel ++ strncpy file maxPath := by
    rw [hp, ← List.append_assoc]
    exact List.drop_left' rfl
  rw [selectors, h, List.filterMap_cons, List.filterMap_nil, hsel, ofBe32_be32_append, hp, ofBe32_be32_append, if_pos rfl]

theorem selectors_request (sock : Int) (file : List Byte) (sel : Word) (w : World) :
    selectors ((pkoDumpregsReq sock file sel).run w).acts = [sel] :=
  selectors_packet _ sock file sel ((Dump.regs sel).request_sends file sock w)

theorem selectors_command (file : List Byte) (sel : Word) (w : World) :
    selectors ((command fun fd => pkoDumpregsReq fd file sel).run w).acts = [sel] := by
  obtain ⟨fd, hs⟩ := command_sends (fun fd w => (Dump.regs sel).request_sends file fd w) w
  exact selectors_packet _ fd file sel hs

theorem selectors_tool (running : Bool) (sock : Int) (cwd path name : List Byte) (w : World) :
    selectors ((dumpregTool running sock cwd path name).run w).acts =
      [BitVec.ofNat 32 (getRegisterIndex name name.length)] := by
  cases running with
  | true => exact selectors_request _ _ _ w
  | false => exact selectors_command _ _ _

theorem isCore_word {word : List Byte} (hne : word ≠ []) (hs : space ∉ word) : IsCore word where
  ne := hne
  first h := hs (List.mem_of_head? h)
  last h := hs (List.mem_of_getLast? h)

theorem fromSpace_word {word : List Byte} (hs : space ∉ word) : fromSpace word = none := by
  rw [fromSpace]
  induction word with
  | nil => rfl
  | cons b word ih =>
    rw [List.mem_cons, not_or] at hs
    rw [strstr, if_neg (by simp [hs.1]), ih hs.2]

theorem fromSpace_append {word : List Byte} (hs : space ∉ word) (rest : List Byte) :
    fromSpace (word ++ space :: rest) = some (space :: rest) := by
  rw [fromSpace]
  induction word with
  | nil => rw [List.nil_append, strstr, if_pos (by simp)]
  | cons b word ih =>
    rw [List.mem_cons, not_or] at hs
    rw [List.cons_append, strstr, if_neg (by simp [hs.1]), ih hs.2]

theorem IsCore.trimInPlace {core : List Byte} (h : IsCore core) (behind : Nat) :
    trimInPlace (core ++ List.replicate behind space) = core := by
  have hp := h.trimInPlace_padded 0 behind
  rw [padded, padded, Nat.zero_min] at hp
  simpa using hp

section Line

variable {file name : List Byte}

theorem isCore_line (hf : file ≠ []) (hs : space ∉ file) (hn : name ≠ []) (hl : name.getLast? ≠ some space) :
    IsCore (file ++ space :: name) where
  ne := List.append_ne_nil_of_left_ne_nil hf _
  first := by
    rw [List.head?_append_of_ne_nil _ hf]
    exact (isCore_word hf hs).first
  last := by
    obtain ⟨b, name, rfl⟩ := List.exists_cons_of_ne_nil hn
    rwa [List.getLast?_append_cons, List.getLast?_cons_cons]

theorem selectors_cliDumpregs (hf : file ≠ []) (hs : space ∉ file) (hl : name.getLast? ≠ some space) (w : World) :
    selectors ((cliDumpregs (file ++ space :: name)).run w).acts =
      if name = [] then [] else [BitVec.ofNat 32 (getRegisterIndex name file.length)] := by
  by_cases hn : name = []
  · have ht : Pksh.trimInPlace (file ++ [space]) = file := (isCore_word hf hs).trimInPlace 1
    rw [if_pos hn, hn, cliDumpregs, ht, fromSpace_word hs]
    rfl
  · have ht := (isCore_line hf hs hn hl).trimInPlace 0
    rw [List.replicate_zero, List.append_nil] at ht
    have hlen : (file ++ space :: name).length - (space :: name).length = file.length := by
      rw [List.length_append, Nat.add_sub_cancel]
    rw [if_neg hn, cliDumpregs, ht, fromSpace_append hs]
    simp only [hlen, List.take_left', List.drop_succ_cons, List.drop_zero]
    refine Eq.trans ?_ (selectors_command (argPrependHost file) _ w)
    exact congrArg selectors (Result.acts_andThen_pure _ _)

end Line

theorem ofNat_register_inj {i j : Nat} (hi : i < dumpRegAll.length) (hj : j < dumpRegAll.length) :
    BitVec.ofNat 32 i = BitVec.ofNat 32 j ↔ i = j := by
  have hlen : dumpRegAll.length < 2 ^ 32 := by decide
  constructor
  · intro h
    have hn := congrArg BitVec.toNat h
    rwa [BitVec.toNat_ofNat, BitVec.toNat_ofNat, Nat.mod_eq_of_lt (by omega), Nat.mod_eq_of_lt (by omega)] at hn
  · exact congrArg _

theorem selects_index_iff (name : List Byte) (n : Nat) :
    Selects name [BitVec.ofNat 32 (getRegisterIndex name n)] ↔ name ∈ dumpRegAll ∧ ¬Hidden name n := by
  have hlt := getRegisterIndex_lt name n
  by_cases hm : name ∈ dumpRegAll
  · rw [and_iff_right hm, ← getRegisterIndex_eq_idxOf_iff hm, ← ofNat_register_inj hlt (List.idxOf_lt_length_of_mem hm)]
    constructor
    · intro h
      exact List.singleton_inj.mp (h.known hm)
    · intro h
      exact ⟨fun _ => congrArg (fun i => [i]) h, fun hn => absurd hm hn⟩
  · refine iff_of_false (fun h => ?_) fun h => hm h.1
    have hge := h.unknown hm _ List.mem_cons_self
    rw [BitVec.toNat_ofNat] at hge
    exact absurd (hge.trans (Nat.mod_le _ _)) (Nat.not_le.mpr hlt)

theorem strncmpEq_mono {s t : List Byte} {m n : Nat} (h : strncmpEq s t n = true) (hm : m ≤ n) : strncmpEq s t m = true := by
  have hn : (s ++ [0]).take n = (t ++ [0]).take n := of_decide_eq_true h
  refine decide_eq_true ?_
  rw [← Nat.min_eq_left hm, ← List.take_take, ← List.take_take, hn]

theorem strncmpEq_long {s t : List Byte} {n : Nat} (hs : s.length < n) (ht : t.length < n) (h : strncmpEq s t n = true) :
    s = t := by
  have hn : (s ++ [0]).take n = (t ++ [0]).take n := of_decide_eq_true h
  rw [List.take_of_length_le (by rw [List.length_append]; exact hs),
    List.take_of_length_le (by rw [List.length_append]; exact ht)] at hn
  exact List.append_cancel_right hn

theorem strncmpEq_one {name sym : List Byte} (hn : name ≠ []) (hs : sym ∈ dumpRegAll) :
    strncmpEq name sym 1 = true ↔ sym.head? = name.head? := by
  have hne : ∀ s ∈ dumpRegAll, s ≠ [] := by decide
  obtain ⟨b, name, rfl⟩ := List.exists_cons_of_ne_nil hn
  obtain ⟨c, sym, rfl⟩ := List.exists_cons_of_ne_nil (hne sym hs)
  simp [strncmpEq, eq_comm]

/-- No entry begins like `name`, or the first that does is `name`. -/
def FirstLetterDecides (name : List Byte) : Prop :=
  (∀ sym ∈ dumpRegAll, sym.head? ≠ name.head?) ∨
    name ∈ dumpRegAll ∧ ∀ sym ∈ dumpRegAll.takeWhile (· ≠ name), sym.head? ≠ name.head?

theorem length_lt_of_mem_dumpRegAll : ∀ sym ∈ dumpRegAll, sym.length < 6 := by
  decide

theorem getRegisterIndex_eq_last_iff (name : List Byte) (n : Nat) :
    getRegisterIndex name n = dumpRegSym.length ↔ ∀ sym ∈ dumpRegSym, strncmpEq name sym n = false :=
  List.findIdx_eq_length

/-- With a bound of one or more, the lookup does not depend on the bound. -/
theorem getRegisterIndex_const_iff {name : List Byte} (hn : name ≠ []) :
    (∀ m n, 0 < m → 0 < n → getRegisterIndex name m = getRegisterIndex name n) ↔ FirstLetterDecides name := by
  have hsub : ∀ sym ∈ dumpRegAll.takeWhile (· ≠ name), sym ∈ dumpRegAll ∧ sym ≠ name := fun sym hs =>
    ⟨(List.takeWhile_prefix _).subset hs, of_decide_eq_true (List.mem_takeWhile_imp (p := (· ≠ name)) hs)⟩
  have hlong : ∀ sym ∈ dumpRegAll, sym ≠ name → strncmpEq name sym (name.length + 6) = false := by
    intro sym hs hne
    have hlt := length_lt_of_mem_dumpRegAll sym hs
    exact Bool.eq_false_iff.mpr fun h => hne (strncmpEq_long (by omega) (by omega) h).symm
  constructor
  · intro h
    have h1 := h 1 (name.length + 6) Nat.one_pos (Nat.succ_pos _)
    by_cases hm : name ∈ dumpRegAll
    · right
      have hnot : ¬Hidden name (name.length + 6) := by
        rintro ⟨sym, hs, he⟩
        rw [hlong sym (hsub sym hs).1 (hsub sym hs).2] at he
        cases he
      rw [← getRegisterIndex_eq_idxOf_iff hm, ← h1, getRegisterIndex_eq_idxOf_iff hm] at hnot
      exact ⟨hm, fun sym hs he => hnot ⟨sym, hs, (strncmpEq_one hn (hsub sym hs).1).mpr he⟩⟩
    · left
      have hsym : ∀ sym ∈ dumpRegSym, sym.head? ≠ name.head? := by
        have hend : getRegisterIndex name 1 = dumpRegSym.length := by
          rw [h1, getRegisterIndex_eq_last_iff]
          intro sym hs
          exact hlong sym (List.mem_append_left _ hs) fun he => hm (he ▸ List.mem_append_left _ hs)
        intro sym hs he
        have hfalse := (getRegisterIndex_eq_last_iff name 1).mp hend sym hs
        rw [(strncmpEq_one hn (List.mem_append_left _ hs)).mpr he] at hfalse
        cases hfalse
      intro sym hs
      rcases List.mem_append.mp hs with hs | hs
      · exact hsym sym hs
      · rw [List.mem_singleton.mp hs]
        exact hsym (str "vu0") (by decide)
  · rintro (hnone | ⟨hm, hfirst⟩)
    · have hend (n : Nat) (hpos : 0 < n) : getRegisterIndex name n = dumpRegSym.length := by
        rw [getRegisterIndex_eq_last_iff]
        intro sym hs
        have hmem : sym ∈ dumpRegAll := List.mem_append_left _ hs
        exact Bool.eq_false_iff.mpr fun h => hnone sym hmem ((strncmpEq_one hn hmem).mp (strncmpEq_mono h hpos))
      intro m n hm hn
      rw [hend m hm, hend n hn]
    · have hidx (n : Nat) (hpos : 0 < n) : getRegisterIndex name n = dumpRegAll.idxOf name := by
        rw [getRegisterIndex_eq_idxOf_iff hm]
        rintro ⟨sym, hs, he⟩
        exact hfirst sym hs ((strncmpEq_one hn (hsub sym hs).1).mp (strncmpEq_mono he hpos))
      intro m n hm hn
      rw [hidx m hm, hidx n hn]

section Both

variable {file name : List Byte}

theorem shell_selects_iff (hf : file ≠ []) (hs : space ∉ file) (hl : name.getLast? ≠ some space) (w : World) :
    Selects name (selectors ((cliDumpregs (file ++ space :: name)).run w).acts) ↔
      name = [] ∨ name ∈ dumpRegAll ∧ ¬Hidden name file.length := by
  rw [selectors_cliDumpregs hf hs hl]
  by_cases hn : name = []
  · have hm : name ∉ dumpRegAll := by
      rw [hn]
      decide
    rw [if_pos hn]
    exact iff_of_true ⟨fun h => absurd h hm, fun _ s h => by cases h⟩ (.inl hn)
  · rw [if_neg hn, or_iff_right hn]
    exact selects_index_iff name file.length

theorem tool_selects_iff (running : Bool) (sock : Int) (cwd path : List Byte) (w : World) :
    Selects name (selectors ((dumpregTool running sock cwd path name).run w).acts) ↔ name ∈ dumpRegAll := by
  rw [selectors_tool, selects_index_iff]
  exact and_iff_left_of_imp (not_hidden_length name)

theorem shell_ignores_file_iff (hf : file ≠ []) (hs : space ∉ file) (hl : name.getLast? ≠ some space) (w : World) :
    (∀ file' : List Byte, file' ≠ [] → space ∉ file' →
      selectors ((cliDumpregs (file' ++ space :: name)).run w).acts =
        selectors ((cliDumpregs (file ++ space :: name)).run w).acts) ↔ FirstLetterDecides name := by
  by_cases hn : name = []
  · have hnone : ∀ sym ∈ dumpRegAll, sym.head? ≠ name.head? := by
      rw [hn]
      decide
    refine iff_of_true (fun file' hf' hs' => ?_) (.inl hnone)
    rw [selectors_cliDumpregs hf' hs' hl, selectors_cliDumpregs hf hs hl, if_pos hn, if_pos hn]
  · have hindex : ∀ file' : List Byte, file' ≠ [] → space ∉ file' →
        (selectors ((cliDumpregs (file' ++ space :: name)).run w).acts =
          selectors ((cliDumpregs (file ++ space :: name)).run w).acts ↔
            getRegisterIndex name file'.length = getRegisterIndex name file.length) := by
      intro file' hf' hs'
      rw [selectors_cliDumpregs hf' hs' hl, selectors_cliDumpregs hf hs hl, if_neg hn, if_neg hn, List.singleton_inj,
        ofNat_register_inj (getRegisterIndex_lt _ _) (getRegisterIndex_lt _ _)]
    rw [← getRegisterIndex_const_iff hn]
    constructor
    · intro h
      have hall (n : Nat) (hpos : 0 < n) : getRegisterIndex name n = getRegisterIndex name file.length := by
        have hne : List.replicate n (0x61 : Byte) ≠ [] := List.ne_nil_of_length_pos (by rwa [List.length_replicate])
        have hsp : space ∉ List.replicate n (0x61 : Byte) := fun hm =>
          absurd (List.eq_of_mem_replicate hm) (by decide)
        have hi := (hindex _ hne hsp).mp (h _ hne hsp)
        rwa [List.length_replicate] at hi
      intro m n hm hn
      rw [hall m hm, hall n hn]
    · intro h file' hf' hs'
      exact (hindex file' hf' hs').mpr (h _ _ (List.length_pos_of_ne_nil hf') (List.length_pos_of_ne_nil hf))

/-- The selectors are right when the name is in the table and no earlier entry
agrees with as much of it as the file name is long; and the file name matters
unless the first letter of the name decides. -/
theorem dumpreg_selects_iff (file name cwd : List Byte) (running : Bool) (sock : Int) (w w' : World) (hf : file ≠ [])
    (hs : space ∉ file) (hl : name.getLast? ≠ some space) :
    (Selects name (selectors ((cliDumpregs (file ++ space :: name)).run w).acts) ∧
        Selects name (selectors ((dumpregTool running sock cwd file name).run w').acts) ↔
      name ∈ dumpRegAll ∧ ¬Hidden name file.length) ∧
    ((∀ file' : List Byte, file' ≠ [] → space ∉ file' →
        selectors ((cliDumpregs (file' ++ space :: name)).run w).acts =
          selectors ((cliDumpregs (file ++ space :: name)).run w).acts ∧
        selectors ((dumpregTool running sock cwd file' name).run w').acts =
          selectors ((dumpregTool running sock cwd file name).run w').acts) ↔
      FirstLetterDecides name) := by
  constructor
  · rw [shell_selects_iff hf hs hl, tool_selects_iff]
    constructor
    · rintro ⟨rfl | h, hm⟩
      · exact absurd hm (by decide)
      · exact h
    · intro h
      exact ⟨.inr h, h.1⟩
  · rw [← shell_ignores_file_iff hf hs hl w]
    constructor
    · intro h file' hf' hs'
      exact (h file' hf' hs').1
    · intro h file' hf' hs'
      exact ⟨h file' hf' hs', by rw [selectors_tool, selectors_tool]⟩

end Both

/-- `dumpreg regs.bin gif`. -/
theorem dumpreg_selects_iff_gif :
    (Selects (str "gif") (selectors ((cliDumpregs (str "regs.bin" ++ space :: str "gif")).run (.linked .refusing 3 [])).acts) ∧
        Selects (str "gif") (selectors
          ((dumpregTool true 3 (str "/d") (str "regs.bin") (str "gif")).run (.linked .refusing 3 [])).acts) ↔
      str "gif" ∈ dumpRegAll ∧ ¬Hidden (str "gif") (str "regs.bin").length) ∧
    ((∀ file' : List Byte, file' ≠ [] → space ∉ file' →
        selectors ((cliDumpregs (file' ++ space :: str "gif")).run (.linked .refusing 3 [])).acts =
          selectors ((cliDumpregs (str "regs.bin" ++ space :: str "gif")).run (.linked .refusing 3 [])).acts ∧
        selectors ((dumpregTool true 3 (str "/d") file' (str "gif")).run (.linked .refusing 3 [])).acts =
          selectors ((dumpregTool true 3 (str "/d") (str "regs.bin") (str "gif")).run (.linked .refusing 3 [])).acts) ↔
      FirstLetterDecides (str "gif")) :=
  dumpreg_selects_iff (str "regs.bin") (str "gif") (str "/d") true 3 _ _ (by decide) (by decide) (by decide)

/-- `dumpreg x gif` asks for gs. -/
theorem dumpreg_wrong_group : ¬∀ (file name : List Byte) (w : World), file ≠ [] → space ∉ file → 0 ∉ file →
    name.getLast? ≠ some space → 0 ∉ name →
      Selects name (selectors ((cliDumpregs (file ++ space :: name)).run w).acts) := by
  intro h
  have hs := (h (str "x") (str "gif") (.linked .refusing 3 []) (by decide) (by decide) (by decide) (by decide)
    (by decide)).known (by decide)
  rw [selectors_cliDumpregs (by decide) (by decide) (by decide)] at hs
  exact absurd hs (by decide)

end Pksh
