import Pksh.FileIo
import Pksh.Naplink

/-! The flags of an open request. The PS2 has one bit for each way of access,
the host a number. -/

namespace Pksh

open Wire

def ps2OAppend : Word := 0x100
def ps2OCreat : Word := 0x200
def ps2OTrunc : Word := 0x400

def oCreat : Word := 0x40
def oTrunc : Word := 0x200
def oAppend : Word := 0x400

/-- `host` asks the host for what `flags` asks of the PS2: `O_RDONLY`,
`O_WRONLY` and `O_RDWR` are one less than `PS2_O_RDONLY`, `PS2_O_WRONLY` and
`PS2_O_RDWR`. -/
structure Translates (flags host : Word) : Prop where
  access : host &&& 3 = (flags &&& 3) - 1
  append : host &&& oAppend ≠ 0 ↔ flags &&& ps2OAppend ≠ 0
  creat : host &&& oCreat ≠ 0 ↔ flags &&& ps2OCreat ≠ 0
  trunc : host &&& oTrunc ≠ 0 ↔ flags &&& ps2OTrunc ≠ 0

theorem and_twoPow_ne_zero (x : Word) {i : Nat} (h : i < 32) : x &&& BitVec.twoPow 32 i ≠ 0 ↔ x.getLsbD i = true := by
  rw [BitVec.and_twoPow]
  cases hx : x.getLsbD i with
  | true =>
    have hp : BitVec.twoPow 32 i ≠ 0 := by
      intro he
      have hb := congrArg (BitVec.getLsbD · i) he
      simp [h] at hb
    simpa using hp
  | false => simp

theorem and_three (x : Word) :
    x &&& 3 = (if x.getLsbD 0 = true then 1 else 0) ||| (if x.getLsbD 1 = true then 2 else 0) := by
  have h3 : (3 : Word) = BitVec.twoPow 32 0 ||| BitVec.twoPow 32 1 := by decide
  rw [h3, BitVec.and_or_distrib_left, BitVec.and_twoPow, BitVec.and_twoPow]
  rfl

/-- A flag that is set to `host` where bit `i` is. -/
def onBit (flags : Word) (i : Nat) (host : Word) : Word := if flags.getLsbD i = true then host else 0

theorem ite_and_twoPow (flags host : Word) {i : Nat} (h : i < 32) :
    (if flags &&& BitVec.twoPow 32 i = 0 then 0 else host) = onBit flags i host := by
  rw [onBit]
  by_cases hz : flags &&& BitVec.twoPow 32 i = 0
  · rw [if_pos hz, if_neg fun hb => (and_twoPow_ne_zero flags h).mpr hb hz]
  · rw [if_neg hz, if_pos ((and_twoPow_ne_zero flags h).mp hz)]

theorem getLsbD_onBit (flags host : Word) (i k : Nat) :
    (onBit flags i host).getLsbD k = (flags.getLsbD i && host.getLsbD k) := by
  rw [onBit]
  cases flags.getLsbD i <;> simp

theorem pcFlags_eq (flags : Word) : Naplink.pcFlags flags =
    onBit flags 0 0 ||| onBit flags 1 1 ||| onBit flags 8 oAppend ||| onBit flags 9 oCreat ||| onBit flags 10 oTrunc := by
  simp only [← ite_and_twoPow flags _ (show 0 < 32 by decide), ← ite_and_twoPow flags _ (show 1 < 32 by decide),
    ← ite_and_twoPow flags _ (show 8 < 32 by decide), ← ite_and_twoPow flags _ (show 9 < 32 by decide),
    ← ite_and_twoPow flags _ (show 10 < 32 by decide)]
  rfl

theorem pkoFixFlags_eq (flags : Word) :
    pkoFixFlags flags = Naplink.pcFlags flags ||| onBit flags 4 0x800 ||| (flags &&& ~~~0x713) := by
  have hn : onBit flags 4 0x800 = if flags &&& 0x0010 = 0 then 0 else 0x800 :=
    (ite_and_twoPow flags 0x800 (show 4 < 32 by decide)).symm
  have hm : (0x0003 ||| 0x0010 ||| 0x0100 ||| 0x0200 ||| 0x0400 : Word) = 0x713 := by decide
  rw [hn, pkoFixFlags, Naplink.pcFlags, hm]
  dsimp only
  ac_rfl

structure TranslatesBits (flags host : Word) : Prop where
  low : host.getLsbD 0 = (flags.getLsbD 1 && !flags.getLsbD 0)
  high : host.getLsbD 1 = (flags.getLsbD 1 && flags.getLsbD 0)
  append : host.getLsbD 10 = flags.getLsbD 8
  creat : host.getLsbD 6 = flags.getLsbD 9
  trunc : host.getLsbD 9 = flags.getLsbD 10

theorem and_three_ne_zero (flags : Word) : flags &&& 3 ≠ 0 ↔ flags.getLsbD 0 = true ∨ flags.getLsbD 1 = true := by
  rw [and_three]
  cases flags.getLsbD 0 <;> cases flags.getLsbD 1 <;> decide

theorem and_three_eq_three (flags : Word) : flags &&& 3 = 3 ↔ flags.getLsbD 0 = true ∧ flags.getLsbD 1 = true := by
  rw [and_three]
  cases flags.getLsbD 0 <;> cases flags.getLsbD 1 <;> decide

theorem access_iff {flags host : Word} (h : flags &&& 3 ≠ 0) : host &&& 3 = (flags &&& 3) - 1 ↔
    host.getLsbD 0 = (flags.getLsbD 1 && !flags.getLsbD 0) ∧ host.getLsbD 1 = (flags.getLsbD 1 && flags.getLsbD 0) := by
  rw [and_three_ne_zero] at h
  rw [and_three, and_three]
  revert h
  cases flags.getLsbD 0 <;> cases flags.getLsbD 1 <;> cases host.getLsbD 0 <;> cases host.getLsbD 1 <;> decide

theorem flag_iff {flags host : Word} {i j : Nat} (hi : i < 32) (hj : j < 32) :
    (host &&& BitVec.twoPow 32 j ≠ 0 ↔ flags &&& BitVec.twoPow 32 i ≠ 0) ↔ host.getLsbD j = flags.getLsbD i := by
  rw [and_twoPow_ne_zero host hj, and_twoPow_ne_zero flags hi]
  exact Bool.eq_iff_iff.symm

theorem translates_iff_bits {flags host : Word} (h : flags &&& 3 ≠ 0) : Translates flags host ↔ TranslatesBits flags host := by
  have happend := @flag_iff flags host 8 10 (by decide) (by decide)
  have hcreat := @flag_iff flags host 9 6 (by decide) (by decide)
  have htrunc := @flag_iff flags host 10 9 (by decide) (by decide)
  constructor
  · intro ht
    obtain ⟨hlow, hhigh⟩ := (access_iff h).mp ht.access
    exact ⟨hlow, hhigh, happend.mp ht.append, hcreat.mp ht.creat, htrunc.mp ht.trunc⟩
  · intro hb
    exact ⟨(access_iff h).mpr ⟨hb.low, hb.high⟩, happend.mpr hb.append, hcreat.mpr hb.creat, htrunc.mpr hb.trunc⟩

/-- What both translators do with the bits that count; they differ in when
`O_CREAT` is set. -/
structure CopiesBits (flags host : Word) (creat : Bool) : Prop where
  low : host.getLsbD 0 = flags.getLsbD 1
  high : host.getLsbD 1 = false
  append : host.getLsbD 10 = flags.getLsbD 8
  creat : host.getLsbD 6 = creat
  trunc : host.getLsbD 9 = flags.getLsbD 10

theorem CopiesBits.translates_iff {flags host : Word} {creat : Bool} (hc : CopiesBits flags host creat)
    (h : flags &&& 3 ≠ 0) : Translates flags host ↔ flags &&& 3 ≠ 3 ∧ creat = flags.getLsbD 9 := by
  rw [translates_iff_bits h, Ne, and_three_eq_three]
  rw [and_three_ne_zero] at h
  constructor
  · intro hb
    refine ⟨?_, hc.creat.symm.trans hb.creat⟩
    rintro ⟨h0, h1⟩
    have hhigh := hc.high.symm.trans hb.high
    rw [h0, h1] at hhigh
    cases hhigh
  · rintro ⟨hn, hcreat⟩
    refine ⟨hc.low.trans ?_, hc.high.trans ?_, hc.append, hc.creat.trans hcreat, hc.trunc⟩
    · cases h0 : flags.getLsbD 0 with
      | false => simp
      | true => simpa using fun h1 => hn ⟨h0, h1⟩
    · cases h0 : flags.getLsbD 0 with
      | false => simp
      | true => simpa using fun h1 => hn ⟨h0, h1⟩

theorem pcFlags_copiesBits (flags : Word) : CopiesBits flags (Naplink.pcFlags flags) (flags.getLsbD 9) := by
  have hbit (k : Nat) := congrArg (BitVec.getLsbD · k) (pcFlags_eq flags)
  simp only [BitVec.getLsbD_or, getLsbD_onBit] at hbit
  refine ⟨(hbit 0).trans ?_, (hbit 1).trans ?_, (hbit 10).trans ?_, (hbit 6).trans ?_, (hbit 9).trans ?_⟩ <;>
    · clear hbit
      generalize flags.getLsbD 0 = b0
      generalize flags.getLsbD 1 = b1
      generalize flags.getLsbD 8 = b8
      generalize flags.getLsbD 9 = b9
      generalize flags.getLsbD 10 = b10
      revert b0 b1 b8 b9 b10
      decide

theorem pkoFixFlags_copiesBits (flags : Word) :
    CopiesBits flags (pkoFixFlags flags) (flags.getLsbD 9 || flags.getLsbD 6) := by
  have hpc := pcFlags_copiesBits flags
  have hbit (k : Nat) : (pkoFixFlags flags).getLsbD k = ((Naplink.pcFlags flags).getLsbD k ||
      (flags.getLsbD 4 && (0x800 : Word).getLsbD k) || (flags.getLsbD k && (~~~0x713 : Word).getLsbD k)) := by
    rw [pkoFixFlags_eq, BitVec.getLsbD_or, BitVec.getLsbD_or, getLsbD_onBit, BitVec.getLsbD_and]
  have hhost : ∀ k, k ≠ 11 → (0x800 : Word).getLsbD k = false := by
    intro k hk
    have hp : (0x800 : Word) = BitVec.twoPow 32 11 := by decide
    rw [hp, BitVec.getLsbD_twoPow]
    simpa using fun h => hk h.symm
  have hkept (k : Nat) (hk : k ≠ 11) (hm : (~~~0x713 : Word).getLsbD k = false) :
      (pkoFixFlags flags).getLsbD k = (Naplink.pcFlags flags).getLsbD k := by
    rw [hbit, hhost k hk, hm]
    simp
  refine ⟨(hkept 0 (by decide) (by decide)).trans hpc.low, (hkept 1 (by decide) (by decide)).trans hpc.high,
    (hkept 10 (by decide) (by decide)).trans hpc.append, ?_, (hkept 9 (by decide) (by decide)).trans hpc.trunc⟩
  have hm : (~~~0x713 : Word).getLsbD 6 = true := by decide
  rw [hbit, hhost 6 (by decide), hm, hpc.creat]
  simp

theorem pcFlags_translates_iff {flags : Word} (h : flags &&& 3 ≠ 0) :
    Translates flags (Naplink.pcFlags flags) ↔ flags &&& 3 ≠ 3 := by
  rw [(pcFlags_copiesBits flags).translates_iff h]
  exact and_iff_left rfl

/-- The bit that the host reads as `O_CREAT` is none of the PS2. -/
theorem pkoFixFlags_translates_iff {flags : Word} (h : flags &&& 3 ≠ 0) :
    Translates flags (pkoFixFlags flags) ↔ flags &&& 3 ≠ 3 ∧ (flags &&& oCreat ≠ 0 → flags &&& ps2OCreat ≠ 0) := by
  have hcreat : flags &&& oCreat ≠ 0 ↔ flags.getLsbD 6 = true := @and_twoPow_ne_zero flags 6 (by decide)
  have hps2 : flags &&& ps2OCreat ≠ 0 ↔ flags.getLsbD 9 = true := @and_twoPow_ne_zero flags 9 (by decide)
  rw [(pkoFixFlags_copiesBits flags).translates_iff h, hcreat, hps2, Bool.or_eq_left_iff_imp]

theorem flags_translate_iff (flags : Word) (h : flags &&& 3 ≠ 0) :
    Translates flags (pkoFixFlags flags) ∧ Translates flags (Naplink.pcFlags flags) ↔
      flags &&& 3 ≠ 3 ∧ (flags &&& oCreat ≠ 0 → flags &&& ps2OCreat ≠ 0) := by
  rw [pkoFixFlags_translates_iff h, pcFlags_translates_iff h]
  exact and_iff_left_of_imp And.left

/-- `PS2_O_WRONLY | PS2_O_CREAT` is translated. -/
theorem flags_translate_iff_creat : (0x202 : Word) &&& 3 ≠ 0 ∧
    (Translates 0x202 (pkoFixFlags 0x202) ∧ Translates 0x202 (Naplink.pcFlags 0x202) ↔
      (0x202 : Word) &&& 3 ≠ 3 ∧ ((0x202 : Word) &&& oCreat ≠ 0 → (0x202 : Word) &&& ps2OCreat ≠ 0)) :=
  ⟨by decide, flags_translate_iff 0x202 (by decide)⟩

/-- `PS2_O_RDWR` becomes `O_WRONLY`. -/
theorem rdwr_not_translated : ¬∀ flags : Word, flags &&& 3 ≠ 0 →
    Translates flags (pkoFixFlags flags) ∧ Translates flags (Naplink.pcFlags flags) := by
  intro h
  exact absurd (h 3 (by decide)).1.access (by decide)

end Pksh
