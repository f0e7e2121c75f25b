import Pksh.Quicklink.Net

/-! Every call that moves something brings two hosts nearer to their end. -/

namespace Naplink

open Wire Traced Pksh

/-- What a call still takes. A byte counts twice before it is written, and
once before it is read. -/
def Pc.work : Pc → Nat
  | .idle => 0
  | .awaitRdy p => 2 * p.wire.length + 6
  | .setReq p => 2 * p.wire.length + 5
  | .awaitClear p => 2 * p.wire.length + 4
  | .writeHeader p left => 2 * (left.length + p.body.length) + 3
  | .writeBody _ left => 2 * left.length + 2
  | .setDone _ => 1
  | .awaitReq => 6
  | .clearReq => 5
  | .readHeader _ => 4
  | .readBody _ _ => 3
  | .awaitDone _ _ => 2
  | .clearDone _ _ => 1

def Job.work : Job → Nat
  | .recv => 7
  | .send p => 2 * p.wire.length + 7

namespace Net

def share (x : Side) (n : Net) : Nat := (n.party x).pc.work + ((n.party x).todo.map Job.work).sum + (n.pipe x).length

def work (n : Net) : Nat := n.share .pc + n.share .ps2

theorem work_eq (x : Side) (n : Net) : n.work = n.share x + n.share x.other := by
  cases x
  · rfl
  · exact Nat.add_comm _ _

theorem goto_self {x : Side} {n : Net} {pc : Pc} (h : (n.party x).pc = pc) : n.goto x pc = n := by
  subst h
  exact congrArg (fun f => { n with party := f }) (Function.update_eq_self x n.party)

theorem put_nil (x : Side) (n : Net) : n.put x [] = n := by
  unfold put
  rw [List.append_nil, Function.update_eq_self]

theorem drop_of_take {x : Side} {n : Net} {k : Nat} (h : (n.pipe x).take k = []) : n.drop x k = n := by
  have hd : (n.pipe x).drop k = n.pipe x := by
    have := List.take_append_drop k (n.pipe x)
    rwa [h, List.nil_append] at this
  unfold drop
  rw [hd, Function.update_eq_self]

theorem work_afterWrite (p : Raw) (left : List Byte) : (afterWrite p left).work ≤ 2 * left.length + 2 := by
  unfold afterWrite
  split
  · simp [Pc.work]
  · simp [Pc.work]

theorem work_afterHeader (p : Raw) (left : List Byte) :
    (afterHeader p left).work ≤ 2 * (left.length + p.body.length) + 3 := by
  unfold afterHeader
  split
  · have := work_afterWrite p p.body
    omega
  · simp [Pc.work]

theorem work_afterBody (ph pb : List Byte) : (afterBody ph pb).work ≤ 3 := by
  unfold afterBody
  split <;> simp [Pc.work]

theorem work_afterRead (ph : List Byte) : (afterRead ph).work ≤ 4 := by
  unfold afterRead
  split
  · exact (work_afterBody ph []).trans (by decide)
  · simp [Pc.work]

theorem drop_of_take_nil {β : Type} {k : Nat} {l : List β} (h : l.take k = []) : l.drop k = l := by
  have := List.take_append_drop k l
  rwa [h, List.nil_append] at this

theorem length_take_drop {β : Type} (k : Nat) (l : List β) : (l.take k).length + (l.drop k).length = l.length := by
  rw [← List.length_append, List.take_append_drop]

theorem write_work {x : Side} {n : Net} {k : Nat} {left : List Byte} {pc : Pc} {c : Nat}
    (hpc : (n.party x).pc.work = 2 * left.length + c) (hw : pc.work ≤ 2 * (left.drop k).length + c)
    (hk : left.take k ≠ []) : ((n.put x (left.take k)).goto x pc).work < n.work := by
  have h1 := length_take_drop k left
  have h2 := List.length_pos_of_ne_nil hk
  rw [work_eq x, work_eq x]
  simp only [share, goto_party, goto_pipe, put_party, put_pipe, put_pipe_other, goto_party_ne x.other_ne,
    List.length_append, hpc]
  omega

theorem read_work {x : Side} {n : Net} {k : Nat} {pc : Pc} (hw : pc.work ≤ (n.party x).pc.work)
    (hk : (n.pipe x.other).take k ≠ []) : ((n.drop x.other k).goto x pc).work < n.work := by
  have h1 := length_take_drop k (n.pipe x.other)
  have h2 := List.length_pos_of_ne_nil hk
  rw [work_eq x, work_eq x]
  simp only [share, goto_party, goto_pipe, drop_party, drop_pipe, drop_pipe_other, goto_party_ne x.other_ne]
  omega

theorem goto_work {x : Side} {n : Net} {pc : Pc} (hw : pc.work < (n.party x).pc.work) :
    (n.goto x pc).work < n.work := by
  rw [work_eq x, work_eq x]
  simp only [share, goto_party, goto_pipe, goto_party_ne x.other_ne]
  omega

theorem advance_work (x : Side) (u : Usb) (n : Net) : n.advance x u = n ∨ (n.advance x u).work < n.work := by
  unfold advance
  cases hpc : (n.party x).pc with
  | idle =>
    simp only
    rw [work_eq x, work_eq x]
    simp only [share, call_pipe, call_party_ne x.other_ne, hpc]
    unfold call
    cases ht : (n.party x).todo with
    | nil => exact .inl rfl
    | cons j todo => cases j <;> simp [Pc.work, Job.work]
  | writeHeader p left =>
    simp only
    by_cases ht : left.take u.moved = []
    · rw [ht, put_nil, drop_of_take_nil ht]
      by_cases hl : left = []
      · refine .inr (goto_work ?_)
        rw [hpc, afterHeader, if_pos hl]
        exact Nat.lt_of_le_of_lt (work_afterWrite p p.body) (by simp only [Pc.work]; omega)
      · exact .inl (goto_self (by rw [hpc, afterHeader, if_neg hl]))
    · refine .inr (write_work (c := 2 * p.body.length + 3) ?_ ?_ ht)
      · rw [hpc]
        simp only [Pc.work]
        omega
      · exact (work_afterHeader p _).trans (by omega)
  | writeBody p left =>
    simp only
    by_cases ht : left.take u.moved = []
    · rw [ht, put_nil, drop_of_take_nil ht]
      by_cases hl : left = []
      · refine .inr (goto_work ?_)
        rw [hpc, afterWrite, if_pos hl]
        simp [Pc.work]
      · exact .inl (goto_self (by rw [hpc, afterWrite, if_neg hl]))
    · exact .inr (write_work (c := 2) (by rw [hpc]; rfl) (work_afterWrite p _) ht)
  | readHeader ph =>
    simp only
    by_cases ht : (n.pipe x.other).take (min u.moved (8 - ph.length)) = []
    · rw [drop_of_take ht, ht, List.append_nil]
      by_cases h8 : ph.length = 8
      · refine .inr (goto_work ?_)
        rw [hpc, afterRead, if_pos h8]
        exact Nat.lt_of_le_of_lt (work_afterBody ph []) (Nat.lt_succ_self 3)
      · exact .inl (goto_self (by rw [hpc, afterRead, if_neg h8]))
    · exact .inr (read_work (by rw [hpc]; exact work_afterRead _) ht)
  | readBody ph pb =>
    simp only
    by_cases ht : (n.pipe x.other).take (min u.moved (headerSize ph - pb.length)) = []
    · rw [drop_of_take ht, ht, List.append_nil]
      by_cases hs : pb.length = headerSize ph
      · refine .inr (goto_work ?_)
        rw [hpc, afterBody, if_pos hs]
        exact Nat.lt_succ_self 2
      · exact .inl (goto_self (by rw [hpc, afterBody, if_neg hs]))
    · exact .inr (read_work (by rw [hpc]; exact work_afterBody _ _) ht)
  | setDone p | clearDone ph pb =>
    simp only
    split
    · refine .inr ?_
      rw [work_eq x, work_eq x]
      simp [share, hpc, Pc.work]
    · exact .inl rfl
  | awaitRdy p | awaitClear p | awaitReq | awaitDone ph pb =>
    simp only
    split
    · exact .inr (goto_work (by rw [hpc]; simp [Pc.work, Raw.wire]))
    · exact .inl rfl
  | setReq p | clearReq =>
    simp only
    split
    · exact .inr (goto_work (by rw [hpc]; simp [Pc.work]))
    · exact .inl rfl

end Net

end Naplink
