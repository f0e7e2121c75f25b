import Mathlib.Algebra.Group.Int.Defs
import Mathlib.Algebra.GroupWithZero.Nat
import Mathlib.Data.List.Basic
import Mathlib.Tactic.Common

/-! Bytes, the words a little-endian host keeps in memory, and the network
order of the same words. -/

namespace Wire

abbrev Byte := BitVec 8
abbrev Half := BitVec 16
abbrev Word := BitVec 32

instance : LawfulBEq Byte := inferInstance

def joinHalf (b1 b0 : Byte) : Half := b1 ++ b0

def joinWord (b3 b2 b1 b0 : Byte) : Word := b3 ++ b2 ++ b1 ++ b0

def le16 (h : Half) : List Byte := [h.extractLsb' 0 8, h.extractLsb' 8 8]

def le32 (w : Word) : List Byte :=
  [w.extractLsb' 0 8, w.extractLsb' 8 8, w.extractLsb' 16 8, w.extractLsb' 24 8]

def be16 (h : Half) : List Byte := [h.extractLsb' 8 8, h.extractLsb' 0 8]

def be32 (w : Word) : List Byte :=
  [w.extractLsb' 24 8, w.extractLsb' 16 8, w.extractLsb' 8 8, w.extractLsb' 0 8]

/-- The byte swap of a little-endian host; `ntohs` is the same function. -/
def htons (h : Half) : Half := joinHalf (h.extractLsb' 0 8) (h.extractLsb' 8 8)

def htonl (w : Word) : Word :=
  joinWord (w.extractLsb' 0 8) (w.extractLsb' 8 8) (w.extractLsb' 16 8) (w.extractLsb' 24 8)

def ntohs (h : Half) : Half := htons h

def ntohl (w : Word) : Word := htonl w

@[simp] theorem le16_length (h : Half) : (le16 h).length = 2 := rfl

@[simp] theorem le32_length (w : Word) : (le32 w).length = 4 := rfl

@[simp] theorem be16_length (h : Half) : (be16 h).length = 2 := rfl

@[simp] theorem be32_length (w : Word) : (be32 w).length = 4 := rfl

theorem le16_joinHalf (b1 b0 : Byte) : le16 (joinHalf b1 b0) = [b0, b1] := by
  simp only [le16, joinHalf, List.cons.injEq, and_true]
  constructor
  · ext i hi
    simp only [BitVec.getElem_extractLsb', BitVec.getLsbD_append]
    grind
  · ext i hi
    simp only [BitVec.getElem_extractLsb', BitVec.getLsbD_append]
    grind

theorem le32_joinWord (b3 b2 b1 b0 : Byte) : le32 (joinWord b3 b2 b1 b0) = [b0, b1, b2, b3] := by
  simp only [le32, joinWord, List.cons.injEq, and_true]
  refine ⟨?_, ?_, ?_, ?_⟩ <;> ext i hi <;>
    simp only [BitVec.getElem_extractLsb', BitVec.getLsbD_append] <;> grind

theorem joinHalf_extract (h : Half) : joinHalf (h.extractLsb' 8 8) (h.extractLsb' 0 8) = h := by
  unfold joinHalf
  ext i hi
  simp only [BitVec.getElem_append, BitVec.getElem_extractLsb']
  grind

theorem joinWord_extract (w : Word) :
    joinWord (w.extractLsb' 24 8) (w.extractLsb' 16 8) (w.extractLsb' 8 8) (w.extractLsb' 0 8) = w := by
  unfold joinWord
  ext i hi
  simp only [BitVec.getElem_append, BitVec.getElem_extractLsb']
  grind

@[simp] theorem le16_htons (h : Half) : le16 (htons h) = be16 h := le16_joinHalf _ _

@[simp] theorem le32_htonl (w : Word) : le32 (htonl w) = be32 w := le32_joinWord _ _ _ _

theorem joinHalf_injective {a b c d : Byte} (h : joinHalf a b = joinHalf c d) : a = c ∧ b = d := by
  have hh := congrArg le16 h
  simp only [le16_joinHalf, List.cons.injEq, and_true] at hh
  exact ⟨hh.2, hh.1⟩

theorem joinHalf_toNat (b1 b0 : Byte) : (joinHalf b1 b0).toNat = 256 * b1.toNat + b0.toNat := by
  have h0 : b0.toNat < 2 ^ 8 := b0.isLt
  rw [joinHalf, BitVec.toNat_append, ← Nat.shiftLeft_add_eq_or_of_lt h0, Nat.shiftLeft_eq]
  omega

theorem htonl_joinWord (b3 b2 b1 b0 : Byte) :
    htonl (joinWord b3 b2 b1 b0) = joinWord b0 b1 b2 b3 := by
  have h := le32_joinWord b3 b2 b1 b0
  simp only [le32, List.cons.injEq, and_true] at h
  obtain ⟨h0, h1, h2, h3⟩ := h
  rw [htonl, h0, h1, h2, h3]

theorem htons_joinHalf (b1 b0 : Byte) : htons (joinHalf b1 b0) = joinHalf b0 b1 := by
  have h := le16_joinHalf b1 b0
  simp only [le16, List.cons.injEq, and_true] at h
  rw [htons, h.1, h.2]

@[simp] theorem ntohl_htonl (w : Word) : ntohl (htonl w) = w := by
  rw [ntohl, show htonl w = joinWord _ _ _ _ from rfl, htonl_joinWord, joinWord_extract]

@[simp] theorem ntohs_htons (h : Half) : ntohs (htons h) = h := by
  rw [ntohs, show htons h = joinHalf _ _ from rfl, htons_joinHalf, joinHalf_extract]

/-- The word and the half-word that big-endian bytes spell. -/
def ofBe32 (bs : List Byte) : Word :=
  joinWord (bs.getD 0 0) (bs.getD 1 0) (bs.getD 2 0) (bs.getD 3 0)

def ofBe16 (bs : List Byte) : Half := joinHalf (bs.getD 0 0) (bs.getD 1 0)

@[simp] theorem ofBe32_be32_append (w : Word) (bs : List Byte) : ofBe32 (be32 w ++ bs) = w := by
  simpa [ofBe32, be32] using joinWord_extract w

@[simp] theorem ofBe32_be32 (w : Word) : ofBe32 (be32 w) = w := by
  simpa using ofBe32_be32_append w []

@[simp] theorem ofBe16_be16_append (h : Half) (bs : List Byte) : ofBe16 (be16 h ++ bs) = h := by
  simpa [ofBe16, be16] using joinHalf_extract h

@[simp] theorem ofBe16_be16 (h : Half) : ofBe16 (be16 h) = h := by
  simpa using ofBe16_be16_append h []

theorem be32_joinWord (b3 b2 b1 b0 : Byte) : be32 (joinWord b3 b2 b1 b0) = [b3, b2, b1, b0] := by
  have h := le32_joinWord b3 b2 b1 b0
  simp only [le32, List.cons.injEq, and_true] at h
  simp only [be32, h.1, h.2.1, h.2.2.1, h.2.2.2]

theorem joinWord_setWidth (b3 b2 b1 b0 : Byte) : (joinWord b3 b2 b1 b0).setWidth 16 = joinHalf b1 b0 := by
  unfold joinWord joinHalf
  ext i hi
  simp only [BitVec.getElem_setWidth, BitVec.getLsbD_append]
  grind

theorem ofBe32_eq_iff {w : Word} {bs : List Byte} (h : bs.length = 4) : ofBe32 bs = w ↔ bs = be32 w := by
  refine ⟨fun he => ?_, fun he => he ▸ ofBe32_be32 w⟩
  match bs, h with
  | [b3, b2, b1, b0], _ => rw [← he, ofBe32, be32_joinWord]; rfl

theorem ofBe32_take (bs : List Byte) {n : Nat} (hn : 4 ≤ n) : ofBe32 (bs.take n) = ofBe32 bs := by
  simp only [ofBe32, List.getD_eq_getElem?_getD, List.getElem?_take]
  simp [show 0 < n by omega, show 1 < n by omega, show 2 < n by omega, show 3 < n by omega]

theorem ofBe16_take (bs : List Byte) {n : Nat} (hn : 2 ≤ n) : ofBe16 (bs.take n) = ofBe16 bs := by
  simp only [ofBe16, List.getD_eq_getElem?_getD, List.getElem?_take]
  simp [show 0 < n by omega, show 1 < n by omega]

end Wire
