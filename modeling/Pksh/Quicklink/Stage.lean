import Pksh.Quicklink.Order

/-! Two hosts that agree on the order of their packets: how far they are with
the first one, and where a turn leads from there. -/

namespace Naplink

open Wire Traced Pksh

structure Transfer where
  sender : Side
  packet : Raw

def Transfer.job (x : Side) (t : Transfer) : Job := if t.sender = x then .send t.packet else .recv

/-- What `x` calls, packet by packet. -/
def jobs (ts : List Transfer) (x : Side) : List Job := ts.map (Transfer.job x)

/-- The host has not moved a byte of the first of the packets `ts`. The bit
`TX_REQ` is set when it has asked for the transfer. -/
inductive Begins (x : Side) : List Transfer → Pc → List Job → Bool → Prop
  | idle (ts) : Begins x ts .idle (jobs ts x) false
  | awaitRdy (p ts) : Begins x (⟨x, p⟩ :: ts) (.awaitRdy p) (jobs ts x) false
  | setReq (p ts) : Begins x (⟨x, p⟩ :: ts) (.setReq p) (jobs ts x) false
  | awaitClear (p ts) : Begins x (⟨x, p⟩ :: ts) (.awaitClear p) (jobs ts x) true
  | awaitReq (p ts) : Begins x (⟨x.other, p⟩ :: ts) .awaitReq (jobs ts x) false

/-- The host is in the transfer of `p`, or about to start with it. -/
inductive Writes (p : Raw) : Pc → Prop
  | awaitClear : Writes p (.awaitClear p)
  | writeHeader (left : List Byte) (h : left ≠ []) : Writes p (.writeHeader p left)
  | writeBody (left : List Byte) (h : left ≠ []) : Writes p (.writeBody p left)
  | setDone : Writes p (.setDone p)

inductive Listens : Pc → Prop
  | readHeader (ph : List Byte) : Listens (.readHeader ph)
  | readBody (ph pb : List Byte) : Listens (.readBody ph pb)
  | awaitDone (ph pb : List Byte) : Listens (.awaitDone ph pb)

/-- Where two hosts are that have the packets `ts` yet to exchange; `x` is the
sender of the first of them. -/
inductive Stage (x : Side) (n : Net) : List Transfer → Prop
  /-- Neither has anything left to do. -/
  | finished (hx : Begins x [] (n.party x).pc (n.party x).todo false)
      (hy : Begins x.other [] (n.party x.other).pc (n.party x.other).todo false) (hr : n.req = false)
      (hd : n.done = false) (hp : ∀ z, n.pipe z = []) : Stage x n []
  | asking (p : Raw) (ts : List Transfer) (hx : Begins x (⟨x, p⟩ :: ts) (n.party x).pc (n.party x).todo n.req)
      (hy : Begins x.other (⟨x, p⟩ :: ts) (n.party x.other).pc (n.party x.other).todo false) (hd : n.done = false)
      (hp : ∀ z, n.pipe z = []) : Stage x n (⟨x, p⟩ :: ts)
  | asked (p : Raw) (ts : List Transfer) (hx : (n.party x).pc = .awaitClear p) (hxt : (n.party x).todo = jobs ts x)
      (hy : (n.party x.other).pc = .clearReq) (hyt : (n.party x.other).todo = jobs ts x.other) (hr : n.req = true)
      (hd : n.done = false) (hp : ∀ z, n.pipe z = []) : Stage x n (⟨x, p⟩ :: ts)
  | moving (p : Raw) (ts : List Transfer) (hx : Writes p (n.party x).pc) (hxt : (n.party x).todo = jobs ts x)
      (hy : Listens (n.party x.other).pc) (hyt : (n.party x.other).todo = jobs ts x.other) (hr : n.req = false)
      (hd : n.done = false) (hp : n.pipe x.other = [])
      (hs : (n.party x.other).pc.held ++ (n.pipe x ++ (n.party x).pc.left) = p.wire) : Stage x n (⟨x, p⟩ :: ts)
  /-- The sender is done, and may have asked for the next transfer. -/
  | moved (p : Raw) (ts : List Transfer) (hx : Begins x ts (n.party x).pc (n.party x).todo n.req)
      (hy : Listens (n.party x.other).pc ∨ ∃ ph pb, (n.party x.other).pc = .clearDone ph pb)
      (hyt : (n.party x.other).todo = jobs ts x.other)
      (hd : n.done = true) (hp : n.pipe x.other = [])
      (hs : (n.party x.other).pc.held ++ n.pipe x = p.wire) : Stage x n (⟨x, p⟩ :: ts)

/-- The byte of a poll shows the two bits as the last messages left them. -/
def Usb.Honest (u : Usb) (n : Net) : Prop :=
  ∀ b, u.status = some b → (b &&& txReqBit ≠ 0 ↔ n.req = true) ∧ (b &&& txCBit ≠ 0 ↔ n.done = true)

namespace Usb.Honest

variable {u : Usb} {n : Net}

theorem sees_req (h : u.Honest n) (hs : u.sees txReqBit = true) : n.req = true := by
  unfold sees checkQlf at hs
  cases hu : u.status with
  | none => simp [hu] at hs
  | some b => exact (h b hu).1.mp (by simpa [hu] using hs)

theorem sees_done (h : u.Honest n) (hs : u.sees txCBit = true) : n.done = true := by
  unfold sees checkQlf at hs
  cases hu : u.status with
  | none => simp [hu] at hs
  | some b => exact (h b hu).2.mp (by simpa [hu] using hs)

theorem misses_req (h : u.Honest n) (hs : u.misses txReqBit = true) : n.req = false := by
  unfold misses checkQlf at hs
  cases hu : u.status with
  | none => simp [hu] at hs
  | some b =>
    have hb : b &&& txReqBit = 0 := by simpa [hu] using hs
    exact Bool.eq_false_iff.mpr fun hr => (h b hu).1.mpr hr hb

end Usb.Honest

section Steps

variable {x : Side} {u : Usb} {n : Net} {ts : List Transfer}

theorem jobs_cons_self (x : Side) (p : Raw) (ts : List Transfer) : jobs (⟨x, p⟩ :: ts) x = .send p :: jobs ts x := by
  simp [jobs, Transfer.job]

theorem jobs_cons_other (x : Side) (p : Raw) (ts : List Transfer) :
    jobs (⟨x.other, p⟩ :: ts) x = .recv :: jobs ts x := by
  simp [jobs, Transfer.job]

/-- A host that has not begun its next transfer does not begin it by itself. -/
theorem Begins.advance (h : Begins x ts (n.party x).pc (n.party x).todo n.req) (hu : u.Honest n) :
    Begins x ts ((n.advance x u).party x).pc ((n.advance x u).party x).todo (n.advance x u).req ∧
      (n.advance x u).done = n.done ∧ (n.advance x u).pipe = n.pipe := by
  generalize hpc : (n.party x).pc = pc at h
  generalize ht : (n.party x).todo = todo at h
  generalize hr : n.req = r at h
  cases h with
  | idle =>
    simp only [Net.advance, hpc, Net.call, ht]
    cases ts with
    | nil =>
      refine ⟨?_, rfl, rfl⟩
      simp only [jobs, List.map_nil, hpc, ht, hr]
      exact .idle []
    | cons t ts =>
      obtain ⟨z, p⟩ := t
      rcases x.eq_or_other z with rfl | rfl
      · simp only [jobs_cons_self, Function.update_self, hr, and_self, and_true]
        exact .awaitRdy p ts
      · simp only [jobs_cons_other, Function.update_self, hr, and_self, and_true]
        exact .awaitReq p ts
  | awaitRdy p ts =>
    simp only [Net.advance, hpc]
    split
    · simp only [Net.goto_party, Net.goto_pipe, ht]
      exact ⟨hr ▸ .setReq p ts, rfl, trivial⟩
    · rw [hpc, ht, hr]
      exact ⟨.awaitRdy p ts, rfl, rfl⟩
  | setReq p ts =>
    simp only [Net.advance, hpc]
    split
    · simp only [Net.goto_party, Net.goto_pipe, ht]
      exact ⟨.awaitClear p ts, rfl, trivial⟩
    · rw [hpc, ht, hr]
      exact ⟨.setReq p ts, rfl, rfl⟩
  | awaitClear p ts =>
    simp only [Net.advance, hpc]
    split
    · next hm => exact absurd (hu.misses_req hm) (by simp [hr])
    · rw [hpc, ht, hr]
      exact ⟨.awaitClear p ts, rfl, rfl⟩
  | awaitReq p ts =>
    simp only [Net.advance, hpc]
    split
    · next hs => exact absurd (hu.sees_req hs) (by simp [hr])
    · rw [hpc, ht, hr]
      exact ⟨.awaitReq p ts, rfl, rfl⟩

theorem Begins.hears {p : Raw} (h : Begins x (⟨x.other, p⟩ :: ts) (n.party x).pc (n.party x).todo false)
    (hu : u.Honest n) :
    (n.advance x u).req = n.req ∧ (n.advance x u).done = n.done ∧ (n.advance x u).pipe = n.pipe ∧
      (Begins x (⟨x.other, p⟩ :: ts) ((n.advance x u).party x).pc ((n.advance x u).party x).todo false ∨
        n.req = true ∧ ((n.advance x u).party x).pc = .clearReq ∧ ((n.advance x u).party x).todo = jobs ts x) := by
  generalize hpc : (n.party x).pc = pc at h
  generalize ht : (n.party x).todo = todo at h
  generalize hts : (⟨x.other, p⟩ :: ts : List Transfer) = all at h
  cases h with
  | idle =>
    subst hts
    simp only [Net.advance, hpc, Net.call, ht, jobs_cons_other, Function.update_self]
    exact ⟨trivial, trivial, trivial, .inl (.awaitReq p ts)⟩
  | awaitReq q qs =>
    cases hts
    simp only [Net.advance, hpc]
    split
    · next hs =>
      simp only [Net.goto_party, Net.goto_pipe, ht]
      exact ⟨rfl, rfl, trivial, .inr ⟨hu.sees_req hs, trivial, trivial⟩⟩
    · rw [hpc, ht]
      exact ⟨rfl, rfl, rfl, .inl (.awaitReq p ts)⟩
  | awaitRdy q qs | setReq q qs => exact absurd (congrArg Transfer.sender (List.cons.inj hts).1) x.other_ne

theorem Begins.req_of_receiver {p : Raw} {pc : Pc} {todo : List Job} {r : Bool}
    (h : Begins x (⟨x.other, p⟩ :: ts) pc todo r) : r = false := by
  generalize hts : (⟨x.other, p⟩ :: ts : List Transfer) = all at h
  cases h with
  | awaitClear q qs => exact absurd (congrArg Transfer.sender (List.cons.inj hts).1) x.other_ne
  | _ => rfl

theorem Begins.of_req {p : Raw} {pc : Pc} {todo : List Job} (h : Begins x (⟨x, p⟩ :: ts) pc todo true) :
    pc = .awaitClear p ∧ todo = jobs ts x := by
  generalize hr : true = r at h
  generalize hts : (⟨x, p⟩ :: ts : List Transfer) = all at h
  cases h with
  | awaitClear q qs =>
    cases hts
    exact ⟨rfl, rfl⟩
  | _ => cases hr

theorem Begins.of_nil {pc : Pc} {todo : List Job} {r : Bool} (h : Begins x [] pc todo r) :
    pc = .idle ∧ todo = [] ∧ r = false := by
  cases h
  exact ⟨rfl, rfl, rfl⟩

/-- The state in which nothing is left to be done. -/
def Net.Finished (n : Net) : Prop := ∀ z, (n.party z).pc = .idle ∧ (n.party z).todo = []

theorem Net.Finished.advance (h : n.Finished) (y : Side) : n.advance y u = n := by
  simp only [Net.advance, (h y).1, Net.call, (h y).2]

theorem Stage.finished_all (h : Stage x n []) : n.Finished := by
  cases h with
  | finished hx hy _ _ _ =>
    intro z
    rcases x.eq_or_other z with rfl | rfl
    · exact ⟨hx.of_nil.1, hx.of_nil.2.1⟩
    · exact ⟨hy.of_nil.1, hy.of_nil.2.1⟩

theorem Stage.begin_next (hx : Begins x ts (n.party x).pc (n.party x).todo n.req)
    (hy : Begins x.other ts (n.party x.other).pc (n.party x.other).todo false) (hd : n.done = false)
    (hp : ∀ z, n.pipe z = []) : ∃ z, Stage z n ts := by
  cases ts with
  | nil => exact ⟨x, .finished (hx.of_nil.2.2 ▸ hx) hy hx.of_nil.2.2 hd hp⟩
  | cons t ts =>
    obtain ⟨z, p⟩ := t
    rcases x.eq_or_other z with rfl | rfl
    · exact ⟨z, .asking p ts hx hy hd hp⟩
    · have hr := hx.req_of_receiver
      rw [hr] at hx
      exact ⟨x.other, .asking p ts (hr.symm ▸ hy) (by rwa [Side.other_other]) hd hp⟩

theorem Stage.advance_asking {p : Raw} (hx : Begins x (⟨x, p⟩ :: ts) (n.party x).pc (n.party x).todo n.req)
    (hy : Begins x.other (⟨x, p⟩ :: ts) (n.party x.other).pc (n.party x.other).todo false) (hd : n.done = false)
    (hp : ∀ z, n.pipe z = []) (hu : u.Honest n) (y : Side) : Stage x (n.advance y u) (⟨x, p⟩ :: ts) := by
  rcases x.eq_or_other y with rfl | rfl
  · obtain ⟨h1, h2, h3⟩ := hx.advance hu
    exact .asking p ts h1 (by rwa [Net.advance_party_ne y.other_ne]) (h2.trans hd) (by rwa [h3])
  · have hox := Net.advance_party_ne x.ne_other u n
    have hy' := hy
    rw [← Side.other_other x] at hy'
    simp only [Side.other_other x.other] at hy'
    obtain ⟨h1, h2, h3, h | ⟨h4, h5, h6⟩⟩ := Begins.hears hy' hu
    · refine .asking p ts (by rwa [hox, h1]) ?_ (h2.trans hd) (by rwa [h3])
      rwa [Side.other_other] at h
    · rw [h4] at hx
      exact .asked p ts (by rw [hox]; exact hx.of_req.1) (by rw [hox]; exact hx.of_req.2) h5 h6 (h1.trans h4)
        (h2.trans hd) (by rwa [h3])

theorem Stage.advance_asked {p : Raw} (hx : (n.party x).pc = .awaitClear p) (hxt : (n.party x).todo = jobs ts x)
    (hy : (n.party x.other).pc = .clearReq) (hyt : (n.party x.other).todo = jobs ts x.other) (hr : n.req = true)
    (hd : n.done = false) (hp : ∀ z, n.pipe z = []) (hu : u.Honest n) (y : Side) :
    Stage x (n.advance y u) (⟨x, p⟩ :: ts) := by
  have hs : Stage x n (⟨x, p⟩ :: ts) := .asked p ts hx hxt hy hyt hr hd hp
  rcases x.eq_or_other y with rfl | rfl
  · have hm : u.misses txReqBit ≠ true := fun hm => absurd (hu.misses_req hm) (by simp [hr])
    simp only [Net.advance, hx, if_neg hm]
    exact hs
  · simp only [Net.advance, hy]
    split
    · refine .moving p ts ?_ ?_ ?_ ?_ rfl hd (hp _) ?_
      · simp only [Net.goto_party_ne x.ne_other, hx]
        exact .awaitClear
      · simp only [Net.goto_party_ne x.ne_other, hxt]
      · simp only [Net.goto_party]
        exact .readHeader []
      · simp only [Net.goto_party, hyt]
      · simp [hx, hp, Pc.held, Pc.left]
    · exact hs

theorem writes_afterWrite (p : Raw) (left : List Byte) : Writes p (Net.afterWrite p left) := by
  unfold Net.afterWrite
  split
  · exact .setDone
  · next h => exact .writeBody left h

theorem writes_afterHeader (p : Raw) (left : List Byte) : Writes p (Net.afterHeader p left) := by
  unfold Net.afterHeader
  split
  · exact writes_afterWrite p p.body
  · next h => exact .writeHeader left h

theorem listens_afterBody (ph pb : List Byte) : Listens (Net.afterBody ph pb) := by
  unfold Net.afterBody
  split
  · exact .awaitDone ph pb
  · exact .readBody ph pb

theorem listens_afterRead (ph : List Byte) : Listens (Net.afterRead ph) := by
  unfold Net.afterRead
  split
  · exact listens_afterBody ph []
  · exact .readHeader ph

theorem Writes.advance {p : Raw} (h : Writes p (n.party x).pc) :
    ((n.advance x u).party x).todo = (n.party x).todo ∧ (n.advance x u).req = n.req ∧
      (n.advance x u).pipe x.other = n.pipe x.other ∧
      (Writes p ((n.advance x u).party x).pc ∧ (n.advance x u).done = n.done ∧
          (n.advance x u).pipe x ++ ((n.advance x u).party x).pc.left = n.pipe x ++ (n.party x).pc.left ∨
        ((n.advance x u).party x).pc = .idle ∧ (n.advance x u).done = true ∧ (n.party x).pc.left = [] ∧
          (n.advance x u).pipe = n.pipe) := by
  generalize hpc : (n.party x).pc = pc at h
  cases h with
  | awaitClear =>
    simp only [Net.advance, hpc]
    split
    · simp only [Net.goto_party, Net.goto_pipe]
      exact ⟨trivial, rfl, trivial, .inl ⟨.writeHeader _ (by simp [Raw.header, le32]), rfl, rfl⟩⟩
    · rw [hpc]
      exact ⟨rfl, rfl, rfl, .inl ⟨.awaitClear, rfl, rfl⟩⟩
  | writeHeader left hl =>
    simp only [Net.advance, hpc, Net.goto_party, Net.goto_pipe, Net.put_party, Net.put_pipe, Net.put_pipe_other]
    refine ⟨trivial, rfl, trivial, .inl ⟨writes_afterHeader p _, rfl, ?_⟩⟩
    rw [Net.left_afterHeader]
    simp [Pc.left, Net.take_append_drop_append]
  | writeBody left hl =>
    simp only [Net.advance, hpc, Net.goto_party, Net.goto_pipe, Net.put_party, Net.put_pipe, Net.put_pipe_other]
    refine ⟨trivial, rfl, trivial, .inl ⟨writes_afterWrite p _, rfl, ?_⟩⟩
    rw [Net.left_afterWrite]
    simp [Pc.left]
  | setDone =>
    simp only [Net.advance, hpc]
    split
    · simp only [Net.finish_party, Net.finish_pipe]
      exact ⟨trivial, rfl, trivial, .inr ⟨trivial, trivial, rfl, trivial⟩⟩
    · rw [hpc]
      exact ⟨rfl, rfl, rfl, .inl ⟨.setDone, rfl, rfl⟩⟩

/-- A receiver in its transfer reads, and goes on when it is told that the sender is done. -/
theorem Listens.advance (h : Listens (n.party x).pc) (hu : u.Honest n) :
    ((n.advance x u).party x).todo = (n.party x).todo ∧ (n.advance x u).req = n.req ∧ (n.advance x u).done = n.done ∧
      (n.advance x u).pipe x = n.pipe x ∧
      ((n.advance x u).party x).pc.held ++ (n.advance x u).pipe x.other = (n.party x).pc.held ++ n.pipe x.other ∧
      (Listens ((n.advance x u).party x).pc ∨ n.done = true ∧ ∃ ph pb, ((n.advance x u).party x).pc = .clearDone ph pb) := by
  generalize hpc : (n.party x).pc = pc at h
  cases h with
  | readHeader ph =>
    simp only [Net.advance, hpc, Net.goto_party, Net.goto_pipe, Net.drop_party, Net.drop_pipe, Net.drop_pipe_other]
    refine ⟨trivial, rfl, rfl, trivial, ?_, .inl (listens_afterRead _)⟩
    rw [Net.held_afterRead]
    simp [Pc.held]
  | readBody ph pb =>
    simp only [Net.advance, hpc, Net.goto_party, Net.goto_pipe, Net.drop_party, Net.drop_pipe, Net.drop_pipe_other]
    refine ⟨trivial, rfl, rfl, trivial, ?_, .inl (listens_afterBody _ _)⟩
    rw [Net.held_afterBody]
    simp [Pc.held]
  | awaitDone ph pb =>
    simp only [Net.advance, hpc]
    split
    · next hs =>
      simp only [Net.goto_party, Net.goto_pipe]
      exact ⟨trivial, rfl, rfl, trivial, rfl, .inr ⟨hu.sees_done hs, ph, pb, rfl⟩⟩
    · rw [hpc]
      exact ⟨rfl, rfl, rfl, rfl, rfl, .inl (.awaitDone ph pb)⟩

theorem Stage.advance_moving {p : Raw} (hx : Writes p (n.party x).pc) (hxt : (n.party x).todo = jobs ts x)
    (hy : Listens (n.party x.other).pc) (hyt : (n.party x.other).todo = jobs ts x.other) (hr : n.req = false)
    (hd : n.done = false) (hp : n.pipe x.other = [])
    (hs : (n.party x.other).pc.held ++ (n.pipe x ++ (n.party x).pc.left) = p.wire) (hu : u.Honest n) (y : Side) :
    Stage x (n.advance y u) (⟨x, p⟩ :: ts) := by
  rcases x.eq_or_other y with rfl | rfl
  · have hoy := Net.advance_party_ne y.other_ne u n
    obtain ⟨h1, h2, h3, ⟨h4, h5, h6⟩ | ⟨h4, h5, h6, h7⟩⟩ := hx.advance (u := u)
    · exact .moving p ts h4 (h1.trans hxt) (by rwa [hoy]) (by rwa [hoy]) (h2.trans hr) (h5.trans hd) (h3.trans hp)
        (by rw [hoy, h6, hs])
    · refine .moved p ts ?_ (.inl (by rwa [hoy])) (by rwa [hoy]) h5 (h3.trans hp) ?_
      · rw [h4, h1, hxt, h2, hr]
        exact .idle ts
      · rw [h6, List.append_nil] at hs
        rw [hoy, h7, hs]
  · have hox := Net.advance_party_ne x.ne_other u n
    obtain ⟨h1, h2, h3, h4, h5, h6 | ⟨h6, _⟩⟩ := hy.advance hu
    · refine .moving p ts (by rwa [hox]) (by rwa [hox]) h6 (h1.trans hyt) (h2.trans hr) (h3.trans hd) (h4.trans hp) ?_
      rw [Side.other_other] at h5
      rw [hox, ← List.append_assoc, h5, List.append_assoc, hs]
    · exact absurd h6 (by simp [hd])

theorem Stage.advance_moved {p : Raw} (hx : Begins x ts (n.party x).pc (n.party x).todo n.req)
    (hy : Listens (n.party x.other).pc ∨ ∃ ph pb, (n.party x.other).pc = .clearDone ph pb)
    (hyt : (n.party x.other).todo = jobs ts x.other) (hd : n.done = true) (hp : n.pipe x.other = [])
    (hs : (n.party x.other).pc.held ++ n.pipe x = p.wire) (hsound : (n.party x.other).pc.sound) (hu : u.Honest n)
    (y : Side) : Stage x (n.advance y u) (⟨x, p⟩ :: ts) ∨ ∃ z, Stage z (n.advance y u) ts := by
  rcases x.eq_or_other y with rfl | rfl
  · have hoy := Net.advance_party_ne y.other_ne u n
    obtain ⟨h1, h2, h3⟩ := hx.advance hu
    exact .inl (.moved p ts h1 (by rwa [hoy]) (by rwa [hoy]) (h2.trans hd) (by rwa [h3]) (by rwa [hoy, h3]))
  · have hox := Net.advance_party_ne x.ne_other u n
    rcases hy with hy | ⟨ph, pb, hy⟩
    · obtain ⟨h1, h2, h3, h4, h5, h6⟩ := hy.advance hu
      rw [Side.other_other] at h5
      refine .inl (.moved p ts (by rwa [hox, h2]) ?_ (h1.trans hyt) (h3.trans hd) (h4.trans hp) (h5.trans hs))
      exact h6.imp id fun h => h.2
    · have hempty : n.pipe x = [] := by
        rw [hy] at hs hsound
        simp only [Pc.held, Raw.wire, List.append_assoc] at hs
        obtain ⟨h1, hs⟩ := List.append_inj hs (hsound.1.trans p.header_length.symm)
        have hl := congrArg List.length hs
        rw [List.length_append, hsound.2, h1, headerSize_header] at hl
        exact List.length_eq_zero_iff.mp (by omega)
      simp only [Net.advance, hy]
      split
      · refine .inr (Stage.begin_next (x := x) ?_ ?_ rfl ?_)
        · rw [Net.finish_party_ne x.ne_other]
          exact hx
        · simp only [Net.finish_party, hyt]
          exact .idle ts
        · intro z
          rcases x.eq_or_other z with rfl | rfl
          · exact hempty
          · exact hp
      · exact .inl (.moved p ts hx (.inr ⟨ph, pb, hy⟩) hyt hd hp hs)

end Steps

end Naplink
