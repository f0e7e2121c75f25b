import Pksh.Lib.Frames
import Pksh.Requests
import Pksh.Reading

/-! The packets of a stream, each with the data that it announces, and the
system calls that put them there. -/

namespace Pksh

open Wire Traced

/-- The codes of the packets that data may follow: a write to the file server,
and the reply to a read. -/
def Carrier (bs : List Byte) : Prop := ofBe32 bs = ps2netfsWriteCmd ∨ ofBe32 bs = readRly

def trailing (bs : List Byte) : Nat :=
  if ofBe32 bs = ps2netfsWriteCmd then sizeT (ofBe32 (bs.drop 10)).toInt
  else if ofBe32 bs = readRly then (ofBe32 (bs.drop 10)).toInt.toNat
  else 0

theorem trailing_eq_zero {bs : List Byte} (h : ¬Carrier bs) : trailing bs = 0 := by
  obtain ⟨h1, h2⟩ := not_or.mp h
  rw [trailing, if_neg h1, if_neg h2]

def told (bs : List Byte) : Nat := (ofBe16 (bs.drop 4)).toNat

theorem told_take {bs : List Byte} {n : Nat} (hn : pktHdrSize ≤ n) : told (bs.take n) = told bs := by
  rw [pktHdrSize] at hn
  rw [told, List.drop_take, ofBe16_take _ (by omega), told]

/-- A packet together with the data that belongs behind it. -/
structure Parcel where
  bytes : List Byte
  data : List Byte
  header : pktHdrSize ≤ bytes.length
  len : told bytes = bytes.length
  announces : trailing bytes = data.length

namespace Parcel

def wire (p : Parcel) : List Byte := p.bytes ++ p.data

def Begins (bs : List Byte) : Prop :=
  pktHdrSize ≤ told bs ∧ told bs + trailing (bs.take (told bs)) ≤ bs.length

instance (bs : List Byte) : Decidable (Begins bs) := inferInstanceAs (Decidable (_ ∧ _))

namespace Begins

variable {bs : List Byte}

theorem length (h : Begins bs) : (bs.take (told bs)).length = told bs := by
  rw [List.length_take]
  exact Nat.min_eq_left ((Nat.le_add_right _ _).trans h.2)

theorem header (h : Begins bs) : pktHdrSize ≤ (bs.take (told bs)).length := by
  rw [h.length]
  exact h.1

theorem len (h : Begins bs) : told (bs.take (told bs)) = (bs.take (told bs)).length := by
  rw [h.length, told_take h.1]

theorem announces (h : Begins bs) :
    trailing (bs.take (told bs)) = ((bs.drop (told bs)).take (trailing (bs.take (told bs)))).length := by
  have := h.2
  rw [List.length_take, List.length_drop]
  omega

end Begins

/-- The peer takes the first parcel off the stream. -/
def next (bs : List Byte) : Option (Parcel × List Byte) :=
  if h : Begins bs then
    some (⟨bs.take (told bs), (bs.drop (told bs)).take (trailing (bs.take (told bs))), h.header, h.len, h.announces⟩,
      bs.drop (told bs + trailing (bs.take (told bs))))
  else none

theorem told_append (p : Parcel) (rest : List Byte) : told (p.bytes ++ rest) = p.bytes.length := by
  have h := @told_take (p.bytes ++ rest) _ p.header
  rwa [List.take_left, p.len, eq_comm] at h

theorem next_wire (p : Parcel) (rest : List Byte) : next (p.wire ++ rest) = some (p, rest) := by
  obtain ⟨bytes, data, header, len, announces⟩ := p
  have ht : told (bytes ++ (data ++ rest)) = bytes.length :=
    told_append ⟨bytes, data, header, len, announces⟩ (data ++ rest)
  have hb : Begins (bytes ++ (data ++ rest)) := by
    rw [Begins, ht, List.take_left, announces, List.length_append, List.length_append]
    exact ⟨header, by omega⟩
  rw [wire, List.append_assoc, next, dif_pos hb]
  simp only [ht, List.take_left, List.drop_left, announces, Option.some.injEq, Prod.mk.injEq, true_and]
  rw [← List.drop_drop, List.drop_left, List.drop_left]

theorem wire_ne_nil (p : Parcel) : p.wire ≠ [] := by
  intro h
  have hl := p.header
  rw [List.append_eq_nil_iff.mp h |>.1] at hl
  cases hl

end Parcel

/-- An act that sends nothing. A `write` is none either, whatever its number
stands for: what it puts on a socket is not a parcel. -/
def Act.mum : Act → Bool
  | .send _ _ _ | .sendAll _ _ => false
  | _ => true

/-- The run hands these parcels to these sockets, in this order and one at a
time. Behind a packet that was not taken there need not be its data, and of
what was read for a file request only a front part may have gone out. -/
inductive Posts : List Act → List (Int × Parcel) → Prop
  | nil : Posts [] []
  | mum {a : Act} {as : List Act} {ps : List (Int × Parcel)} (h : a.mum = true) (rest : Posts as ps) :
      Posts (a :: as) ps
  | lone {s : Int} {ret : Option Nat} {as : List Act} {ps : List (Int × Parcel)} (p : Parcel)
      (alone : ¬Carrier p.bytes) (rest : Posts as ps) : Posts (.send s p.bytes ret :: as) ((s, p) :: ps)
  | refused {s : Int} {as : List Act} {ps : List (Int × Parcel)} (p : Parcel) (rest : Posts as ps) :
      Posts (.send s p.bytes none :: as) ((s, p) :: ps)
  | request {s : Int} {k : Nat} {ret : Option Nat} {as : List Act} {ps : List (Int × Parcel)} (p : Parcel)
      (rest : Posts as ps) : Posts (.send s p.bytes (some k) :: .send s p.data ret :: as) ((s, p) :: ps)
  | reply {s : Int} {k : Nat} {ret : Option Nat} {as : List Act} {ps : List (Int × Parcel)} (p : Parcel)
      (rest : Posts as ps) :
      Posts (.send s p.bytes ret :: .sendAll s (p.data.take k) :: as) ((s, p) :: ps)

namespace Posts

variable {as bs : List Act} {ps qs : List (Int × Parcel)}

theorem append (h : Posts as ps) (h' : Posts bs qs) : Posts (as ++ bs) (ps ++ qs) := by
  induction h with
  | nil => exact h'
  | mum hm _ ih => exact .mum hm ih
  | lone p alone _ ih => exact .lone p alone ih
  | refused p _ ih => exact .refused p ih
  | request p _ ih => exact .request p ih
  | reply p _ ih => exact .reply p ih

theorem of_mum (h : ∀ a ∈ as, a.mum = true) : Posts as [] := by
  induction as with
  | nil => exact .nil
  | cons a as ih => exact .mum (h a List.mem_cons_self) (ih fun b hb => h b (List.mem_cons_of_mem _ hb))

end Posts

/-- All that was sent to the socket was taken, and neither a file request nor
the log wrote to it. -/
structure Whole (s : Int) (as : List Act) : Prop where
  send : ∀ bs ret, .send s bs ret ∈ as → ret = some bs.length
  data : ∀ bs ret data, [.send s bs ret, .sendAll s data] <:+: as → trailing bs ≤ data.length
  write : ∀ bs ret, .write s bs ret ∉ as

namespace Whole

variable {s : Int} {as bs : List Act}

theorem of_suffix (h : Whole s as) (hs : bs <:+ as) : Whole s bs where
  send b ret hm := h.send b ret (hs.subset hm)
  data b ret d hi := h.data b ret d (hi.trans hs.isInfix)
  write b ret hm := h.write b ret (hs.subset hm)

end Whole

def parcelsTo (s : Int) (ps : List (Int × Parcel)) : List Parcel := (ps.filter fun q => q.1 = s).map Prod.snd

theorem parcelsTo_self (s : Int) (p : Parcel) (ps : List (Int × Parcel)) :
    parcelsTo s ((s, p) :: ps) = p :: parcelsTo s ps := by
  simp [parcelsTo]

theorem parcelsTo_other {s t : Int} (h : t ≠ s) (p : Parcel) (ps : List (Int × Parcel)) :
    parcelsTo s ((t, p) :: ps) = parcelsTo s ps := by
  simp [parcelsTo, h]

theorem appended_cons (s : Int) (a : Act) (as : List Act) : appended s (a :: as) = a.puts s ++ appended s as := rfl

theorem Parcel.wire_of_not_carrier (p : Parcel) (h : ¬Carrier p.bytes) : p.wire = p.bytes := by
  have hn := p.announces
  rw [trailing_eq_zero h, eq_comm, List.length_eq_zero_iff] at hn
  rw [wire, hn, List.append_nil]

theorem Posts.appended_eq {s : Int} {as : List Act} {ps : List (Int × Parcel)} (h : Posts as ps) (hw : Whole s as) :
    appended s as = (parcelsTo s ps).flatMap Parcel.wire := by
  induction h with
  | nil => rfl
  | @mum a as ps hm _ ih =>
    have ha : a.puts s = [] := by
      cases a with
      | write t bs ret =>
        have ht : t ≠ s := by
          rintro rfl
          exact hw.write bs ret List.mem_cons_self
        cases ret with
        | none => rfl
        | some k => exact if_neg ht
      | send t bs ret => cases hm
      | sendAll t bs => cases hm
      | _ => rfl
    rw [appended_cons, ha, List.nil_append]
    exact ih (hw.of_suffix (List.suffix_cons _ _))
  | @lone t ret as ps p alone _ ih =>
    rw [appended_cons, ih (hw.of_suffix (List.suffix_cons _ _))]
    by_cases ht : t = s
    · subst ht
      rw [parcelsTo_self, List.flatMap_cons, p.wire_of_not_carrier alone, hw.send _ _ List.mem_cons_self]
      simp [Act.puts]
    · rw [parcelsTo_other ht]
      cases ret <;> simp [Act.puts, ht]
  | @refused t as ps p _ ih =>
    have ht : t ≠ s := by
      rintro rfl
      cases hw.send _ _ List.mem_cons_self
    rw [appended_cons, ih (hw.of_suffix (List.suffix_cons _ _)), parcelsTo_other ht]
    rfl
  | @request t k ret as ps p _ ih =>
    rw [appended_cons, appended_cons, ih (hw.of_suffix ⟨[_, _], rfl⟩)]
    by_cases ht : t = s
    · subst ht
      have h1 := hw.send _ _ List.mem_cons_self
      have h2 := hw.send _ _ (List.mem_cons_of_mem _ List.mem_cons_self)
      rw [parcelsTo_self, List.flatMap_cons, Parcel.wire, h1, h2]
      simp [Act.puts]
    · rw [parcelsTo_other ht]
      cases ret <;> simp [Act.puts, ht]
  | @reply t k ret as ps p _ ih =>
    rw [appended_cons, appended_cons, ih (hw.of_suffix ⟨[_, _], rfl⟩)]
    by_cases ht : t = s
    · subst ht
      have h1 := hw.send _ _ List.mem_cons_self
      have h2 := hw.data _ _ _ ⟨[], as, rfl⟩
      have hk : p.data.take k = p.data := by
        rw [p.announces, List.length_take] at h2
        exact List.take_of_length_le (by omega)
      rw [parcelsTo_self, List.flatMap_cons, Parcel.wire, hk, h1]
      simp [Act.puts]
    · rw [parcelsTo_other ht]
      cases ret <;> simp [Act.puts, ht]

theorem Posts.frames_eq {s : Int} {as : List Act} {ps : List (Int × Parcel)} (h : Posts as ps) (hw : Whole s as) :
    frames Parcel.next (appended s as) = some (parcelsTo s ps) := by
  rw [h.appended_eq hw]
  exact frames_flatMap Parcel.next_wire Parcel.wire_ne_nil _

end Pksh
