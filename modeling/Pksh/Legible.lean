import Pksh.Screen
import Pksh.Replies
import Mathlib.Data.List.GetD

/-! Which replies to a DREAD request can be printed: those that hold the whole
of the entry themselves, with a month there is a name for. -/

namespace Pksh

open Wire Traced

/-- A reply, from its header to the end of the body it announces. -/
def WholeReply (pktType : Word) (bs : List Byte) : Prop :=
  pktHdrSize ≤ bs.length ∧ ofBe32 bs = pktType ∧ bs.length = pktHdrSize + (announced bs - pktHdrSize)

/-- The entry is copied out of this reply, whatever stands behind it in the buffer. -/
def Yields (r : List Byte) (d : Dirent) : Prop := ∀ m : Mem, m.slice 0 r.length = r → Dirent.ofReply m = d

/-- It is copied out of a buffer with this reply at the front. -/
def Copied (r : List Byte) (d : Dirent) : Prop := ∃ m : Mem, m.slice 0 r.length = r ∧ Dirent.ofReply m = d

/-- A name with its terminator, and one of the twelve months. -/
def Legible (r : List Byte) : Prop :=
  0 ∈ (r.drop 50).take maxPath ∧ 1 ≤ (r.getD 43 0).toNat ∧ (r.getD 43 0).toNat ≤ 12

instance (r : List Byte) : Decidable (Legible r) := inferInstanceAs (Decidable (_ ∧ _ ∧ _))

def Printed.entry? : Printed → Option Dirent
  | .entry d => some d
  | _ => none

/-- The entries that are printed have come one after another, each in a reply
of its own. -/
def EachOnce (stream : List Byte) (shown : List Printed) : Prop :=
  ∃ rs, rs.flatten <+: stream ∧
    List.Forall₂ (fun r d => WholeReply ps2netfsDreadRly r ∧ Yields r d) rs (shown.filterMap Printed.entry?)

section Framing

variable {pktType : Word} {r s : List Byte} {rs rs' : List (List Byte)}

theorem WholeReply.eq_take (h : WholeReply pktType r) (hp : r <+: s) :
    r = s.take (pktHdrSize + (announced s - pktHdrSize)) := by
  have htake : r = s.take r.length := List.prefix_iff_eq_take.mp hp
  have hann : announced (s.take r.length) = announced s := announced_take h.1
  rw [← htake] at hann
  rw [← hann, ← h.2.2]
  exact htake

theorem replies_unique (h : rs.flatten <+: s) (h' : rs'.flatten <+: s) (hw : ∀ r ∈ rs, WholeReply pktType r)
    (hw' : ∀ r ∈ rs', WholeReply pktType r) (hl : rs.length = rs'.length) : rs = rs' := by
  induction rs generalizing rs' s with
  | nil => exact (List.length_eq_zero_iff.mp hl.symm).symm
  | cons r rs ih =>
    cases rs' with
    | nil => cases hl
    | cons r' rs' =>
      rw [List.flatten_cons] at h h'
      have hr := (hw r List.mem_cons_self).eq_take ((List.prefix_append _ _).trans h)
      have hr' := (hw' r' List.mem_cons_self).eq_take ((List.prefix_append _ _).trans h')
      obtain rfl : r = r' := hr.trans hr'.symm
      obtain ⟨t, rfl⟩ := (List.prefix_append _ _).trans h
      rw [List.prefix_append_right_inj] at h h'
      rw [ih h h' (fun q hq => hw q (List.mem_cons_of_mem _ hq)) (fun q hq => hw' q (List.mem_cons_of_mem _ hq))
        (Nat.succ.inj hl)]

end Framing

section Text

variable {d : Dirent}

theorem text_entry_iff :
    (Printed.entry d).text ≠ none ↔ 0 ∈ d.name ∧ 1 ≤ (d.mtime 5).toNat ∧ (d.mtime 5).toNat ≤ 12 := by
  have hmonths : strMonth.length = 12 := rfl
  rw [Printed.text, ps2netfsShowStat, arrayStr]
  by_cases hm : d.mtime 5 = 0
  · rw [if_pos hm, hm]
    exact iff_of_false (fun h => h rfl) fun h => absurd h.2.1 (by decide)
  · have hpos : 1 ≤ (d.mtime 5).toNat := Nat.one_le_iff_ne_zero.mpr fun h => hm (BitVec.eq_of_toNat_eq h)
    rw [if_neg hm]
    by_cases hle : (d.mtime 5).toNat ≤ 12
    · rw [List.getElem?_eq_getElem (by omega)]
      by_cases hname : 0 ∈ d.name
      · rw [if_pos hname]
        exact iff_of_true (Option.some_ne_none _) ⟨hname, hpos, hle⟩
      · rw [if_neg hname]
        exact iff_of_false (fun h => h rfl) fun h => hname h.1
    · rw [List.getElem?_eq_none (by omega)]
      exact iff_of_false (fun h => h rfl) fun h => hle h.2.2

theorem texts_iff {shown : List Printed} : Printed.texts shown ≠ none ↔ ∀ s ∈ shown, s.text ≠ none := by
  induction shown with
  | nil => exact iff_of_true nofun nofun
  | cons s ss ih =>
    rw [List.forall_mem_cons, ← ih, Printed.texts]
    cases s.text with
    | none => exact iff_of_false (fun h => h rfl) fun h => h.1 rfl
    | some t =>
      cases Printed.texts ss with
      | none => exact iff_of_false (fun h => h rfl) fun h => h.2 rfl
      | some ts => exact iff_of_true nofun ⟨nofun, nofun⟩

theorem zero_mem_strncpy_cstr {m : Mem} {off : Nat} :
    0 ∈ strncpy (m.cstr off maxPath) maxPath ↔ 0 ∈ m.slice off maxPath := by
  constructor
  · intro h
    by_contra h0
    have hall : m.cstr off maxPath = m.slice off maxPath := List.takeWhile_eq_self_iff.mpr (ne_of_not_mem h0)
    have hself : strncpy (m.slice off maxPath) maxPath = m.slice off maxPath := by
      rw [strncpy, Mem.slice_length, Nat.sub_self, List.replicate_zero, List.append_nil,
        List.take_of_length_le (Nat.le_of_eq (Mem.slice_length _ _ _))]
    rw [hall, hself] at h
    exact h0 h
  · intro h
    have hlt : (m.cstr off maxPath).length < maxPath := by
      have hle : (m.cstr off maxPath).length ≤ (m.slice off maxPath).length := (List.takeWhile_prefix _).length_le
      rw [Mem.slice_length] at hle
      refine Nat.lt_of_le_of_ne hle fun he => ?_
      have hall : m.cstr off maxPath = m.slice off maxPath :=
        (List.takeWhile_prefix _).eq_of_length (he.trans (Mem.slice_length _ _ _).symm)
      exact Mem.ne_zero_of_mem_cstr (hall ▸ h) rfl
    rw [strncpy_of_lt hlt]
    exact List.mem_append_right _ List.mem_cons_self

end Text

section Reply

variable {r : List Byte} {m : Mem} {d : Dirent}

theorem Legible.length (h : Legible r) : 50 < r.length := by
  have hlen := List.length_pos_of_mem h.1
  rw [List.length_take, List.length_drop] at hlen
  omega

theorem byte_of_front (hm : m.slice 0 r.length = r) {i : Nat} (hi : i < r.length) (b : Byte) : m i = r.getD i b := by
  have hget : (m.slice 0 _)[i]? = some (m (0 + i)) := Mem.slice_getElem? m hi
  rw [hm, Nat.zero_add] at hget
  rw [List.getD_eq_getElem?_getD, hget, Option.getD_some]

theorem name_split (hm : m.slice 0 r.length = r) (hl : 50 < r.length) :
    m.slice 50 maxPath = (r.drop 50).take maxPath ++ m.slice (50 + min maxPath (r.length - 50)) (maxPath - min maxPath (r.length - 50)) := by
  have hfront : m.slice 50 (min maxPath (r.length - 50)) = (r.drop 50).take maxPath := by
    have hdrop := Mem.slice_drop m 0 (Nat.le_of_lt hl)
    rw [hm, Nat.zero_add] at hdrop
    rw [hdrop]
    rcases Nat.le_total maxPath (r.length - 50) with h | h
    · rw [Nat.min_eq_left h, Mem.slice_take m 50 h]
    · rw [Nat.min_eq_right h, List.take_of_length_le (by rw [Mem.slice_length]; exact h)]
  rw [← hfront, ← Mem.slice_add, Nat.add_sub_cancel' (Nat.min_le_left _ _)]

theorem Legible.yields (h : Legible r) (hm : m.slice 0 r.length = r) : Yields r (Dirent.ofReply m) := by
  intro m' hm'
  have hl := h.length
  have hagree : m'.slice 0 r.length = m.slice 0 r.length := hm'.trans hm.symm
  have hword (off : Nat) (ho : off + 4 ≤ 50) : ntohl (m'.word off) = ntohl (m.word off) := by
    rw [Mem.ntohl_word, Mem.ntohl_word, Mem.slice_inside hagree (by omega)]
  have hname : m'.cstr 50 maxPath = m.cstr 50 maxPath := by
    have hstop : (fun b : Byte => decide (b ≠ 0)) 0 = false := rfl
    rw [Mem.cstr, Mem.cstr, name_split hm' hl, name_split hm hl, Mem.takeWhile_append_of_mem h.1 hstop,
      Mem.takeWhile_append_of_mem h.1 hstop]
  rw [Dirent.ofReply, Dirent.ofReply, hword 10 (by decide), hword 14 (by decide), hword 18 (by decide), hword 46 (by decide),
    Mem.slice_inside hagree (show 22 + 24 ≤ r.length by omega), hname]

theorem mtime_ofReply (m : Mem) : (Dirent.ofReply m).mtime 5 = m 43 := rfl

theorem Legible.text (h : Legible r) (hm : m.slice 0 r.length = r) : (Printed.entry (.ofReply m)).text ≠ none := by
  have hl := h.length
  rw [text_entry_iff, mtime_ofReply, byte_of_front hm (by omega) 0]
  refine ⟨zero_mem_strncpy_cstr.mpr ?_, h.2⟩
  rw [name_split hm hl]
  exact List.mem_append_left _ h.1

/-- A buffer that holds no zero behind the reply shows what is missing in it. -/
theorem Legible.of_text (hy : Yields r d) (ht : (Printed.entry d).text ≠ none) : Legible r := by
  let m : Mem := fun i => r.getD i 1
  have hm : m.slice 0 r.length = r := by
    refine List.ext_getElem (Mem.slice_length _ _ _) fun i _ hi => ?_
    have hget : (m.slice 0 _)[i]? = some (m (0 + i)) := Mem.slice_getElem? m hi
    rw [List.getElem_eq_iff, hget, Nat.zero_add]
    exact congrArg some (List.getD_eq_getElem _ _ hi)
  rw [← hy m hm, text_entry_iff, mtime_ofReply] at ht
  obtain ⟨hname, hmonth⟩ := ht
  obtain ⟨i, hi, hget⟩ := List.mem_iff_getElem.mp (zero_mem_strncpy_cstr.mp hname)
  rw [Mem.slice_length] at hi
  have hzero : m (50 + i) = 0 := Option.some.inj ((Mem.slice_getElem? m hi).symm.trans (List.getElem_eq_iff _ |>.mp hget))
  have hin : 50 + i < r.length := by
    by_contra hout
    rw [show m (50 + i) = 1 from List.getD_eq_default _ _ (Nat.le_of_not_lt hout)] at hzero
    cases hzero
  rw [byte_of_front hm (by omega) 0] at hmonth
  refine ⟨List.mem_iff_getElem?.mpr ⟨i, ?_⟩, hmonth⟩
  rw [List.getElem?_take_of_lt hi, List.getElem?_drop, List.getElem?_eq_getElem hin, Option.some_inj, ← hzero]
  exact (List.getD_eq_getElem _ _ hin).symm

end Reply

section Once

variable {rs : List (List Byte)} {ds : List Dirent}

theorem legible_of_once (h : List.Forall₂ (fun r d => WholeReply ps2netfsDreadRly r ∧ Yields r d) rs ds)
    (ht : ∀ d ∈ ds, (Printed.entry d).text ≠ none) : ∀ r ∈ rs, Legible r := by
  induction h with
  | nil => exact nofun
  | cons hrd _ ih =>
    obtain ⟨hd, hds⟩ := List.forall_mem_cons.mp ht
    exact List.forall_mem_cons.mpr ⟨.of_text hrd.2 hd, ih hds⟩

theorem once_of_legible (hc : List.Forall₂ Copied rs ds) (hw : ∀ r ∈ rs, WholeReply ps2netfsDreadRly r)
    (hl : ∀ r ∈ rs, Legible r) : List.Forall₂ (fun r d => WholeReply ps2netfsDreadRly r ∧ Yields r d) rs ds ∧
      ∀ d ∈ ds, (Printed.entry d).text ≠ none := by
  induction hc with
  | nil => exact ⟨.nil, nofun⟩
  | cons hrd _ ih =>
    obtain ⟨m, hm, rfl⟩ := hrd
    obtain ⟨hr, hrs⟩ := List.forall_mem_cons.mp hw
    obtain ⟨hleg, hlegs⟩ := List.forall_mem_cons.mp hl
    obtain ⟨hall, htext⟩ := ih hrs hlegs
    exact ⟨.cons ⟨hr, hleg.yields hm⟩ hall, List.forall_mem_cons.mpr ⟨hleg.text hm, htext⟩⟩

/-- What is printed of whole replies can be printed, and is what came in them,
exactly when each of them is legible. -/
theorem once_iff_legible {stream : List Byte} {pre : List Printed} (hp : rs.flatten <+: stream)
    (hw : ∀ r ∈ rs, WholeReply ps2netfsDreadRly r) (hc : List.Forall₂ Copied rs ds)
    (hpre : ∀ s ∈ pre, s.entry? = none ∧ s.text ≠ none) :
    Printed.texts (pre ++ ds.map .entry) ≠ none ∧ EachOnce stream (pre ++ ds.map .entry) ↔ ∀ r ∈ rs, Legible r := by
  have hentries : (pre ++ ds.map Printed.entry).filterMap Printed.entry? = ds := by
    rw [List.filterMap_append, List.filterMap_eq_nil_iff.mpr fun s hs => (hpre s hs).1, List.nil_append, List.filterMap_map]
    exact List.filterMap_some
  rw [texts_iff, EachOnce, hentries, List.forall_mem_append, List.forall_mem_map]
  constructor
  · rintro ⟨htext, rs', hp', hall⟩
    obtain ⟨hw', hy⟩ := (List.forall₂_and_left rs' ds).mp hall
    obtain rfl := replies_unique hp hp' hw hw' (hc.length_eq.trans hy.length_eq.symm)
    exact legible_of_once hall htext.2
  · intro h
    obtain ⟨hall, htext⟩ := once_of_legible hc hw h
    exact ⟨⟨fun s hs => (hpre s hs).2, htext⟩, rs, hp, hall⟩

end Once

end Pksh
