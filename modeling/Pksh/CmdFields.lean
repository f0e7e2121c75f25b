import Pksh.Heedless

/-! The fields that the cases of the switch read from `recv_packet`, and where
they lie. -/

namespace Pksh

open Wire Traced

/-- A field of a packet: a word, the `vpu` of which only the low half is read,
or a string. -/
inductive Field
  | word (off : Nat)
  | vpu
  | str (off : Nat)

inductive FieldValue
  | num (v : Word)
  | text (s : List Byte)
deriving DecidableEq

namespace Field

def read (m : Mem) : Field → FieldValue
  | word off => .num (ntohl (m.word off))
  | vpu => .num (packetVpu m)
  | str off => .text (packetStr m off)

/-- The field lies within these first bytes of the packet; a string does when
it ends there, or where the buffer ends. -/
def Within (bs : List Byte) : Field → Prop
  | word off => off + 4 ≤ bs.length
  | vpu => 8 ≤ bs.length
  | str off => 0 ∈ bs.drop off ∨ packetMaxsize ≤ bs.length

end Field

/-- What each case of the switch reads of the packet, to hand it to its handler. -/
def Cmd.fields : Cmd → List Field
  | .open => [.word 6, .str 10]
  | .close | .dread | .dclose => [.word 6]
  | .read | .write => [.word 6, .word 10]
  | .lseek => [.word 6, .word 10, .word 14]
  | .dopen => [.str 10]
  | .dumpmem => [.str 14, .word 6, .word 10]
  | .dumpregs => [.str 10, .word 6]
  | .gsexec => [.str 8, .vpu]
  | .stopvu | .startvu => [.vpu]
  | .execee | .execiop => [.str 10]
  | .reset => []

section Read

variable {bs : List Byte} {m m' : Mem}

theorem slice_within {off n : Nat} (h : off + n ≤ bs.length) :
    (m.store 0 bs).slice off n = (m'.store 0 bs).slice off n :=
  Mem.slice_congr fun _ _ hi => Mem.store_congr m m' (by omega)

theorem packetVpu_eq (m : Mem) : packetVpu m = (ofBe16 (m.slice 6 2)).setWidth 32 := by
  rw [packetVpu, Mem.word, joinWord_setWidth, ← Mem.half, Mem.ntohs_half]

theorem packetStr_within {off : Nat} (h : 0 ∈ bs.drop off ∨ packetMaxsize ≤ bs.length) :
    packetStr (m.store 0 bs) off = packetStr (m'.store 0 bs) off := by
  by_cases hl : packetMaxsize - off ≤ bs.length - off
  · have hs : (m.store 0 bs).slice off (packetMaxsize - off) = (m'.store 0 bs).slice off (packetMaxsize - off) :=
      Mem.slice_congr fun i _ hi => Mem.store_congr m m' (by omega)
    rw [packetStr, packetStr, Mem.cstr, Mem.cstr, hs]
  · obtain ⟨k, hk⟩ : ∃ k, packetMaxsize - off = bs.length - off + k := Nat.exists_eq_add_of_le (by omega)
    have hz : 0 ∈ bs.drop off := h.resolve_right (by omega)
    have ho : off ≤ bs.length := by
      by_contra hn
      rw [List.drop_of_length_le (by omega)] at hz
      cases hz
    rw [packetStr, packetStr, Mem.cstr, Mem.cstr, hk, Mem.slice_add, Mem.slice_add, Mem.slice_store_drop _ _ ho,
      Mem.slice_store_drop _ _ ho, Mem.takeWhile_append_of_mem hz (by simp), Mem.takeWhile_append_of_mem hz (by simp)]

theorem Field.read_within {f : Field} (h : f.Within bs) : f.read (m.store 0 bs) = f.read (m'.store 0 bs) := by
  cases f with
  | word off => rw [read, read, Mem.ntohl_word, Mem.ntohl_word, slice_within h]
  | vpu => rw [read, read, packetVpu_eq, packetVpu_eq, slice_within h]
  | str off => rw [read, read, packetStr_within h]

end Read

section Outside

variable {bs : List Byte}

def zeros : Mem := fun _ => 0
def ones : Mem := fun _ => 1

theorem stored_ne {i : Nat} (h : bs.length ≤ i) : zeros.store 0 bs i ≠ ones.store 0 bs i := by
  rw [Mem.store_of_ge (by omega), Mem.store_of_ge (by omega)]
  exact (by decide : (0 : Byte) ≠ 1)

theorem slice_ne {off n i : Nat} (hi : i < n) (h : bs.length ≤ off + i) :
    (zeros.store 0 bs).slice off n ≠ (ones.store 0 bs).slice off n := by
  intro he
  have hg := congrArg (·[i]?) he
  simp only [Mem.slice_getElem? _ hi, Option.some.injEq] at hg
  exact stored_ne h hg

/-- Behind the bytes received a string breaks off at once, or goes on to the
end of the buffer. -/
theorem packetStr_outside {off : Nat} (ho : off < packetMaxsize) (h : ¬(0 ∈ bs.drop off ∨ packetMaxsize ≤ bs.length)) :
    packetStr (zeros.store 0 bs) off ≠ packetStr (ones.store 0 bs) off := by
  obtain ⟨hz, hl⟩ := not_or.mp h
  have hfull : packetStr (ones.store 0 bs) off = (ones.store 0 bs).slice off (packetMaxsize - off) := by
    rw [packetStr, Mem.cstr, List.takeWhile_eq_self_iff]
    intro b hb
    obtain ⟨i, _, rfl⟩ := List.mem_map.mp hb
    by_cases hi : off + i < bs.length
    · have hm : bs[off + i] ∈ bs.drop off :=
        List.mem_iff_getElem?.mpr ⟨i, by rw [List.getElem?_drop, List.getElem?_eq_getElem hi]⟩
      rw [Mem.store_zero_of_lt ones hi]
      simpa using fun h0 : bs[off + i] = 0 => hz (h0 ▸ hm)
    · rw [Mem.store_of_ge (by omega)]
      rfl
  intro he
  rw [hfull, packetStr, Mem.cstr] at he
  have hall : (zeros.store 0 bs).slice off (packetMaxsize - off) =
      ((zeros.store 0 bs).slice off (packetMaxsize - off)).takeWhile (· ≠ 0) :=
    (List.IsPrefix.eq_of_length (List.takeWhile_prefix _) (by rw [he, Mem.slice_length, Mem.slice_length])).symm
  exact slice_ne (i := packetMaxsize - off - 1) (by omega) (by omega) (hall.trans he)

end Outside

theorem Field.read_outside {f : Field} {bs : List Byte} {c : Cmd} (hf : f ∈ c.fields) (h : ¬f.Within bs) :
    f.read (zeros.store 0 bs) ≠ f.read (ones.store 0 bs) := by
  cases f with
  | word off =>
    intro he
    have hw := FieldValue.num.inj he
    exact slice_ne (i := 3) (by decide) (by simp only [Field.Within] at h; omega)
      ((Mem.ntohl_word_eq_iff.mp hw).trans (Mem.ntohl_word_eq_iff.mp rfl).symm)
  | vpu =>
    intro he
    have hw := FieldValue.num.inj he
    rw [packetVpu_eq, packetVpu_eq] at hw
    have hh : ofBe16 ((zeros.store 0 bs).slice 6 2) = ofBe16 ((ones.store 0 bs).slice 6 2) := by
      simpa using congrArg (BitVec.setWidth 16) hw
    exact stored_ne (i := 7) (Nat.le_of_lt_succ (Nat.lt_of_not_le h)) (joinHalf_injective hh).2
  | str off =>
    have ho : off < packetMaxsize := by
      cases c <;> simp [Cmd.fields, packetMaxsize] at hf ⊢ <;> omega
    exact fun he => packetStr_outside ho h (FieldValue.text.inj he)

end Pksh
