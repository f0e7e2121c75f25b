import Pksh.Quicklink.Net

/-! What is sent is received, packet by packet, whatever the bits say. -/

namespace Naplink

open Wire Traced Pksh

def sends (jobs : List Job) : List Raw := jobs.filterMap Job.packet?

/-- What a call of `send_packet` has yet to write. -/
def Pc.left : Pc → List Byte
  | .awaitRdy p | .setReq p | .awaitClear p => p.wire
  | .writeHeader p left => left ++ p.body
  | .writeBody _ left => left
  | _ => []

/-- What a call of `recv_packet` has read. -/
def Pc.held : Pc → List Byte
  | .readHeader ph => ph
  | .readBody ph pb | .awaitDone ph pb | .clearDone ph pb => ph ++ pb
  | _ => []

def Pc.sound : Pc → Prop
  | .readHeader ph => ph.length < 8
  | .readBody ph pb => ph.length = 8 ∧ pb.length < headerSize ph
  | .awaitDone ph pb | .clearDone ph pb => ph.length = 8 ∧ pb.length = headerSize ph
  | _ => True

namespace Net

/-- The bytes of `x` that are not read yet, those it has not written among them. -/
def outgoing (x : Side) (n : Net) : List Byte :=
  n.pipe x ++ ((n.party x).pc.left ++ (sends (n.party x).todo).flatMap Raw.wire)

/-- The bytes from the other host that `x` has read, and those it can. -/
def incoming (x : Side) (n : Net) : List Byte :=
  (n.party x).got.flatMap (fun q => q.1 ++ q.2) ++ ((n.party x).pc.held ++ n.pipe x.other)

theorem take_append_drop_append {β : Type} (k : Nat) (l r : List β) : l.take k ++ (l.drop k ++ r) = l ++ r := by
  rw [← List.append_assoc, List.take_append_drop]

theorem left_afterWrite (p : Raw) (left : List Byte) : (afterWrite p left).left = left := by
  unfold afterWrite
  split
  · next h => exact h.symm
  · rfl

theorem left_afterHeader (p : Raw) (left : List Byte) : (afterHeader p left).left = left ++ p.body := by
  unfold afterHeader
  split
  · next h => rw [h, left_afterWrite, List.nil_append]
  · rfl

theorem left_afterBody (ph pb : List Byte) : (afterBody ph pb).left = [] := by
  unfold afterBody
  split <;> rfl

theorem left_afterRead (ph : List Byte) : (afterRead ph).left = [] := by
  unfold afterRead
  split
  · exact left_afterBody ph []
  · rfl

theorem held_afterBody (ph pb : List Byte) : (afterBody ph pb).held = ph ++ pb := by
  unfold afterBody
  split <;> rfl

theorem held_afterRead (ph : List Byte) : (afterRead ph).held = ph := by
  unfold afterRead
  split
  · rw [held_afterBody, List.append_nil]
  · rfl

theorem held_afterWrite (p : Raw) (left : List Byte) : (afterWrite p left).held = [] := by
  unfold afterWrite
  split <;> rfl

theorem held_afterHeader (p : Raw) (left : List Byte) : (afterHeader p left).held = [] := by
  unfold afterHeader
  split
  · exact held_afterWrite p p.body
  · rfl

theorem advance_outgoing (x : Side) (u : Usb) (n : Net) : (n.advance x u).outgoing x = n.outgoing x := by
  unfold advance
  cases hpc : (n.party x).pc with
  | idle =>
    simp only [outgoing, call_pipe, hpc]
    unfold call
    cases ht : (n.party x).todo with
    | nil => simp [hpc, ht]
    | cons j todo =>
      cases j with
      | recv => simp [sends, Pc.left, Job.packet?, List.filterMap_cons]
      | send p => simp [sends, Pc.left, Job.packet?]
  | writeHeader p left =>
    simp only [outgoing, goto_party, goto_pipe, put_pipe, put_party, left_afterHeader, hpc]
    simp [Pc.left, take_append_drop_append]
  | writeBody p left =>
    simp only [outgoing, goto_party, goto_pipe, put_pipe, put_party, left_afterWrite, hpc]
    simp [Pc.left, take_append_drop_append]
  | readHeader ph =>
    simp only [outgoing, goto_party, goto_pipe, drop_pipe_other, drop_party, left_afterRead, hpc]
    rfl
  | readBody ph pb =>
    simp only [outgoing, goto_party, goto_pipe, drop_pipe_other, drop_party, left_afterBody, hpc]
    rfl
  | setDone p | clearDone ph pb =>
    simp only
    split
    · simp only [outgoing, finish_party, finish_pipe, hpc, Pc.left]
    · rfl
  | awaitRdy p | setReq p | awaitClear p | awaitReq | clearReq | awaitDone ph pb =>
    simp only
    split
    · simp [outgoing, hpc, Pc.left, Raw.wire]
    · rfl

theorem advance_incoming (x : Side) (u : Usb) (n : Net) : (n.advance x u).incoming x = n.incoming x := by
  unfold advance
  cases hpc : (n.party x).pc with
  | idle =>
    simp only [incoming, call_pipe, hpc]
    unfold call
    cases ht : (n.party x).todo with
    | nil => simp [hpc]
    | cons j todo => cases j <;> simp [Pc.held]
  | writeHeader p left =>
    simp only [incoming, goto_party, goto_pipe, put_pipe_other, put_party, held_afterHeader, hpc]
    rfl
  | writeBody p left =>
    simp only [incoming, goto_party, goto_pipe, put_pipe_other, put_party, held_afterWrite, hpc]
    rfl
  | readHeader ph =>
    simp only [incoming, goto_party, goto_pipe, drop_pipe, drop_party, held_afterRead, hpc]
    simp [Pc.held]
  | readBody ph pb =>
    simp only [incoming, goto_party, goto_pipe, drop_pipe, drop_party, held_afterBody, hpc]
    simp [Pc.held]
  | setDone p | clearDone ph pb =>
    simp only
    split
    · simp [incoming, hpc, Pc.held]
    · rfl
  | awaitRdy p | setReq p | awaitClear p | awaitReq | clearReq | awaitDone ph pb =>
    simp only
    split
    · simp [incoming, hpc, Pc.held]
    · rfl

theorem sound_afterWrite (p : Raw) (left : List Byte) : (afterWrite p left).sound := by
  unfold afterWrite
  split <;> trivial

theorem sound_afterHeader (p : Raw) (left : List Byte) : (afterHeader p left).sound := by
  unfold afterHeader
  split
  · exact sound_afterWrite p p.body
  · trivial

theorem sound_afterBody {ph pb : List Byte} (hp : ph.length = 8) (hb : pb.length ≤ headerSize ph) :
    (afterBody ph pb).sound := by
  unfold afterBody
  split
  · next h => exact ⟨hp, h⟩
  · next h => exact ⟨hp, Nat.lt_of_le_of_ne hb h⟩

theorem sound_afterRead {ph : List Byte} (hp : ph.length ≤ 8) : (afterRead ph).sound := by
  unfold afterRead
  split
  · next h => exact sound_afterBody h (Nat.zero_le _)
  · next h => exact Nat.lt_of_le_of_ne hp h

theorem advance_sound {x : Side} {u : Usb} {n : Net} (h : (n.party x).pc.sound) : ((n.advance x u).party x).pc.sound := by
  unfold advance
  cases hpc : (n.party x).pc with
  | idle =>
    simp only
    unfold call
    split
    · exact h
    · simp [Pc.sound]
    · simp [Pc.sound]
  | writeHeader p left => simp [sound_afterHeader]
  | writeBody p left => simp [sound_afterWrite]
  | readHeader ph =>
    rw [hpc] at h
    simp only [goto_party]
    refine sound_afterRead ?_
    simp only [Pc.sound] at h
    simp only [List.length_append, List.length_take]
    omega
  | readBody ph pb =>
    rw [hpc] at h
    simp only [goto_party]
    refine sound_afterBody h.1 ?_
    have := h.2
    simp only [List.length_append, List.length_take]
    omega
  | clearReq =>
    simp only
    split
    · simp [Pc.sound]
    · exact h
  | awaitDone ph pb =>
    simp only
    split
    · simp only [goto_party]
      rw [hpc] at h
      exact h
    · exact h
  | setDone p | clearDone ph pb =>
    simp only
    split
    · simp [Pc.sound]
    · exact h
  | awaitRdy p | setReq p | awaitClear p | awaitReq =>
    simp only
    split
    · simp [Pc.sound]
    · exact h

/-- A packet is received with the header and the body it was sent with. -/
def Whole (got : List (List Byte × List Byte)) : Prop := ∀ q ∈ got, q.1.length = 8 ∧ q.2.length = headerSize q.1

theorem advance_whole {x : Side} {u : Usb} {n : Net} (hs : (n.party x).pc.sound) (h : Whole (n.party x).got) :
    Whole ((n.advance x u).party x).got := by
  unfold advance
  cases hpc : (n.party x).pc with
  | idle =>
    simp only
    unfold call
    split
    · exact h
    · simpa using h
    · simpa using h
  | clearDone ph pb =>
    rw [hpc] at hs
    simp only
    split
    · simp only [finish_party]
      intro q hq
      rcases List.mem_append.mp hq with hq | hq
      · exact h q hq
      · rw [List.mem_singleton.mp hq]
        exact hs
    · exact h
  | setDone p =>
    simp only
    split
    · simpa using h
    · exact h
  | writeHeader p left | writeBody p left | readHeader ph | readBody ph pb => simpa using h
  | awaitRdy p | setReq p | awaitClear p | awaitReq | clearReq | awaitDone ph pb =>
    simp only
    split
    · simpa using h
    · exact h

/-- The stream from `x` to the other host: what is read, under way, and still
to be written is at any time what `x` was to send. -/
structure Carries (x : Side) (sent : List Raw) (n : Net) : Prop where
  sound : (n.party x.other).pc.sound
  whole : Whole (n.party x.other).got
  stream : (n.party x.other).got.flatMap (fun q => q.1 ++ q.2) ++ ((n.party x.other).pc.held ++ n.outgoing x) =
    sent.flatMap Raw.wire

theorem Carries.start (jobs : Side → List Job) (x : Side) : Carries x (sends (jobs x)) (start jobs) :=
  ⟨trivial, by simp [Net.start, Whole], by simp [Net.start, outgoing, Pc.held, Pc.left]⟩

theorem Carries.advance {x : Side} {sent : List Raw} {n : Net} (h : Carries x sent n) (y : Side) (u : Usb) :
    Carries x sent (n.advance y u) := by
  rcases x.eq_or_other y with rfl | rfl
  · have hp := advance_party_ne y.other_ne u n
    exact ⟨hp ▸ h.sound, hp ▸ h.whole, by rw [hp, advance_outgoing, h.stream]⟩
  · refine ⟨advance_sound h.sound, advance_whole h.sound h.whole, ?_⟩
    have hp := advance_party_ne x.ne_other u n
    have hi := advance_incoming x.other u n
    simp only [incoming, Side.other_other] at hi
    rw [← h.stream]
    simp only [outgoing, hp, ← List.append_assoc] at hi ⊢
    rw [hi]

theorem Carries.run {x : Side} {sent : List Raw} {n : Net} (h : Carries x sent n) {moves : List (Side × Usb)}
    (hw : ∀ m ∈ moves, m.2.cut = false) : Carries x sent (n.run moves) := by
  induction moves generalizing n with
  | nil => exact h
  | cons m moves ih =>
    obtain ⟨hm, hw⟩ := List.forall_mem_cons.mp hw
    have hs : Carries x sent (n.step m.1 m.2) := by
      rw [step_of_whole hm]
      exact h.advance m.1 m.2
    exact ih hs hw

end Net

/-- Packets on a stream, as far as they are there, are the first of those that
were put on it. -/
theorem whole_prefix {got : List (List Byte × List Byte)} {sent : List Raw} {rest : List Byte} (h : Net.Whole got)
    (hs : got.flatMap (fun q => q.1 ++ q.2) ++ rest = sent.flatMap Raw.wire) :
    ∃ back : List Raw, sent.map (fun p => (p.header, p.body)) = got ++ back.map (fun p => (p.header, p.body)) ∧
      rest = back.flatMap Raw.wire := by
  induction got generalizing sent with
  | nil => exact ⟨sent, rfl, hs⟩
  | cons q got ih =>
    obtain ⟨h8, hb⟩ := h q List.mem_cons_self
    cases sent with
    | nil =>
      have := congrArg List.length hs
      simp [h8] at this
    | cons p sent =>
      simp only [List.flatMap_cons, Raw.wire, List.append_assoc] at hs
      obtain ⟨h1, hs⟩ := List.append_inj hs (h8.trans p.header_length.symm)
      obtain ⟨h2, hs⟩ := List.append_inj hs (by rw [hb, h1, headerSize_header])
      obtain ⟨back, hm, hr⟩ := ih (fun q hq => h q (List.mem_cons_of_mem _ hq)) hs
      exact ⟨back, by rw [List.map_cons, hm, ← h1, ← h2]; rfl, hr⟩

theorem held_prefix {pc : Pc} {back : List Raw} {rest : List Byte} (h : pc.sound)
    (hs : pc.held ++ rest = back.flatMap Raw.wire) : pc.held <+: back.head?.elim [] Raw.wire := by
  cases back with
  | nil => exact (List.append_eq_nil_iff.mp hs).1 ▸ List.prefix_refl _
  | cons p back =>
    have hw : pc.held <+: p.wire ++ back.flatMap Raw.wire := ⟨rest, hs⟩
    refine List.prefix_of_prefix_length_le hw (List.prefix_append _ _) ?_
    have hbody : ∀ {ph pb : List Byte}, pc.held = ph ++ pb → ph.length = 8 → pb.length ≤ headerSize ph →
        pc.held.length ≤ p.wire.length := by
      intro ph pb he h8 hb
      rw [he, List.flatMap_cons, Raw.wire, List.append_assoc, List.append_assoc] at hs
      have h1 := (List.append_inj hs (h8.trans p.header_length.symm)).1
      rw [h1, headerSize_header] at hb
      simp only [he, Raw.wire, List.length_append, h8, p.header_length]
      omega
    cases pc with
    | readHeader ph =>
      simp only [Pc.sound] at h
      simp only [List.head?_cons, Option.elim, Pc.held, Raw.wire, List.length_append, p.header_length]
      omega
    | readBody ph pb => exact hbody rfl h.1 h.2.le
    | awaitDone ph pb | clearDone ph pb => exact hbody rfl h.1 h.2.le
    | _ => exact Nat.zero_le _

/-- In every run of two hosts in which no bulk call is cut short, whatever they
send and receive and whatever the bits look like, the packets that one has
received are the first of those the other sends, each with its own header and
body, and what it is reading is of the next one. -/
theorem received_in_order (jobs : Side → List Job) (moves : List (Side × Usb)) (hw : ∀ m ∈ moves, m.2.cut = false)
    (x : Side) :
    ∃ back : List Raw, (sends (jobs x)).map (fun p => (p.header, p.body)) =
        (((Net.start jobs).run moves).party x.other).got ++ back.map (fun p => (p.header, p.body)) ∧
      (((Net.start jobs).run moves).party x.other).pc.held <+: back.head?.elim [] Raw.wire := by
  have h := (Net.Carries.start jobs x).run hw
  obtain ⟨back, hm, hr⟩ := whole_prefix h.whole h.stream
  exact ⟨back, hm, held_prefix h.sound hr⟩

def wazzup : Raw := ⟨0, packetWazzup, [], rfl⟩

def noCommand : Raw := ⟨4, packetReturn, le32 0, rfl⟩

/-- The PS2 asks whether there is a command, and the PC answers that there is none. -/
def wazzupJobs : Side → List Job
  | .ps2 => [.send wazzup, .recv]
  | .pc => [.recv, .send noCommand]

/-- What a poll shows in each turn; a bulk call moves all it has to. -/
def wazzupMoves : List (Side × Usb) :=
  ([(.ps2, 0x20), (.ps2, 0x20), (.ps2, 0x20), (.pc, 0x22), (.pc, 0x22), (.pc, 0x22), (.ps2, 0x20), (.ps2, 0x20),
    (.ps2, 0x20), (.pc, 0x24), (.pc, 0x24), (.pc, 0x24), (.pc, 0x20), (.pc, 0x20), (.pc, 0x20), (.ps2, 0x22),
    (.ps2, 0x22), (.ps2, 0x22), (.pc, 0x20), (.pc, 0x20), (.pc, 0x20), (.ps2, 0x20), (.ps2, 0x20)] :
      List (Side × Byte)).map fun m => (m.1, ⟨some m.2, true, 64, false, fun _ => 0⟩)

/-- Of a header that is cut short the rest is what the memory held. -/
example : (((Net.start wazzupJobs).run (wazzupMoves.take 9 ++ [(.pc, ⟨none, true, 4, false, fun _ => 0⟩),
    (.pc, ⟨none, true, 0, true, fun _ => 0⟩), (.pc, ⟨some 0x24, true, 0, false, fun _ => 0⟩),
    (.pc, ⟨none, true, 0, false, fun _ => 0⟩)])).party .pc).got = [(List.replicate 8 0, [])] := by decide

/-- The question is received, and the header and the body of the answer are read. -/
theorem wazzup_in_order : (((Net.start wazzupJobs).run wazzupMoves).party .pc).got = [(wazzup.header, [])] ∧
    ∃ back : List Raw, (sends (wazzupJobs .pc)).map (fun p => (p.header, p.body)) =
        (((Net.start wazzupJobs).run wazzupMoves).party .ps2).got ++ back.map (fun p => (p.header, p.body)) ∧
      (((Net.start wazzupJobs).run wazzupMoves).party .ps2).pc.held <+: back.head?.elim [] Raw.wire :=
  ⟨by decide, received_in_order wazzupJobs wazzupMoves (by decide) .pc⟩

end Naplink
