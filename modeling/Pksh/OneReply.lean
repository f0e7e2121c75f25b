import Pksh.Relaying

/-! Every file request of a run is answered by one reply of its own kind, but
for the two refusals its handler does not report. -/

namespace Pksh

open Wire Traced

theorem Served.answered_iff {code : Word} {r : Result World Act Int} (h : Served code r) :
    (sentCodes r.acts = [code] ∨ Stuck r ∧ sentCodes r.acts = []) ↔
      ∀ a ∈ r.acts, a.refusal = false := by
  rcases h.sent with ⟨⟨a, ha, ha'⟩, hv, hs⟩ | ⟨hn, hs⟩
  · refine ⟨fun h => ?_, fun h => ?_⟩
    · rcases h with h | h
      · rw [hs] at h
        cases h
      · exact absurd h.1.1 hv
    · rw [h a ha] at ha'
      cases ha'
  · exact ⟨fun _ => hn, fun _ => hs⟩

theorem wires_srvEof (fd : Int) : Wires (srvEof fd) :=
  Wires.get.bind fun _ => .ite
    (((Wires.sysClose fd).bind fun _ => Wires.get.bind fun _ =>
      (Wires.awaitLink _).bind fun _ => Wires.closeNetfs).bind fun _ => .pure 0) (.pure (-1))

section Dispatch

variable {w : World} {fd : Int} {eof : Io Int} {keep : Cmd → Bool}

theorem mute_intake (w : World) (fd : Int) : ∀ a ∈ w.intake fd, a.mute = true := by
  simp [World.intake, Act.mute, Act.refusal]

theorem served_packetRead {code : Word} (hk : ∀ c : Cmd, c.isFileIo = true → keep c = true)
    (h : (w.request fd).bind Cmd.rly = some code) : Served code ((packetRead fd eof keep).run w) := by
  obtain ⟨c, hc, hr⟩ := Option.bind_eq_some_iff.mp h
  have hf : c.isFileIo = true := c.isFileIo_iff.mpr (by simp [hr])
  have hl : ¬(w.pending fd).length < pktHdrSize := by
    intro hn
    rw [World.request, if_neg (Nat.not_le.mpr hn)] at hc
    cases hc
  refine packetRead_elim (fun _ _ => ?_) (fun _ _ => ?_) (fun h => absurd h hl) (fun h => absurd h hl) fun h => absurd h hl
  · rw [hc, Option.filter_some_pos (hk c hf), switch, if_pos hf]
    exact (Served.bind_pure (serves_fileIo hr _) 0).after (mute_intake w fd)
  · have hm : ∀ a ∈ w.intake fd ++ [.starves fd], a.mute = true := by
      simp [World.intake, Act.mute, Act.refusal]
    have hs : Stuck (⟨none, w.withPacket fd, w.intake fd ++ [.starves fd]⟩ : Result World Act Int) :=
      ⟨rfl, .starves fd, by simp, rfl⟩
    exact ⟨fun _ => hs, .inr ⟨fun a ha => Act.refusal_of_mute (hm a ha), .inr ⟨hs, sentCodes_mute hm⟩⟩⟩

/-- No reply code is among the packets sent, and no refused call. -/
def NoReply (r : Result World Act Int) : Prop :=
  (∀ a ∈ r.acts, a.refusal = false) ∧ ∀ code ∈ sentCodes r.acts, code ∉ rlyCodes

theorem noReply_of_mute {r : Result World Act Int} (h : ∀ a ∈ r.acts, a.mute = true) : NoReply r :=
  ⟨fun a ha => Act.refusal_of_mute (h a ha), by simp [sentCodes_mute h]⟩

theorem Emits.noReply {codes : List Word} {r : Result World Act Int} (h : Emits codes r)
    (hc : ∀ code ∈ codes, code ∉ rlyCodes) {as : List Act} (ha : ∀ a ∈ as, a.mute = true) :
    NoReply (r.after as) := by
  refine ⟨fun a hm => ?_, fun code hm => ?_⟩
  · rcases List.mem_append.mp hm with hm | hm
    · exact Act.refusal_of_mute (ha a hm)
    · exact Act.refusal_of_relays (h.relays a hm)
  · rw [Result.after_acts, sentCodes_append, sentCodes_mute ha, List.nil_append] at hm
    exact hc code (h.sent.subset hm)

theorem noReply_packetRead (he : Wires eof) (h : (w.request fd).bind Cmd.rly = none) :
    NoReply ((packetRead fd eof keep).run w) := by
  have hm : ∀ a ∈ [Act.recv fd (w.pending fd), .store 0 (w.pending fd)], a.mute = true := by
    simp [Act.mute, Act.refusal]
  refine packetRead_elim (fun _ _ => ?_) (fun _ _ => ?_) (fun _ _ => ?_) (fun _ _ => ?_) fun _ => ?_
  · cases hc : (w.request fd).filter keep with
    | none => exact ((Wires.emits (.pure 0) _).noReply (by simp) (mute_intake w fd))
    | some c =>
      have hr : c.rly = none := by rw [(Option.filter_eq_some_iff.mp hc).1] at h; exact h
      have hf : ¬c.isFileIo = true := fun hf => c.isFileIo_iff.mp hf hr
      rw [switch, if_neg hf]
      exact ((emits_relay c _).bind_wires fun _ => .pure 0).noReply (forwarded_not_rly _ c) (mute_intake w fd)
  · exact noReply_of_mute (by simp [World.intake, Act.mute, Act.refusal])
  · exact (he.emits _).noReply (by simp) hm
  · exact noReply_of_mute hm
  · exact noReply_of_mute (by simp [Act.mute, Act.refusal])

end Dispatch

/-- The reply the next packet asks for, if it is a file request. -/
def Server.rly (c : Server) (w : World) : Option Word := (w.request c.fd).bind Cmd.rly

/-- A call answers the packet it takes: a file request by one reply with the
code that belongs to it, unless it is stuck in a call that never returns;
anything else by no reply at all. -/
def Answers (c : Server) (w : World) : Prop :=
  match c.rly w with
  | some code => sentCodes (c.read.run w).acts = [code] ∨
      Stuck (c.read.run w) ∧ sentCodes (c.read.run w).acts = []
  | none => ∀ code ∈ sentCodes (c.read.run w).acts, code ∉ rlyCodes

/-- The call opens no directory and gets no buffer. -/
def Refused (c : Server) (w : World) : Prop := ∃ a ∈ (c.read.run w).acts, a.refusal = true

theorem server_cases (c : Server) : ∃ eof keep, c.read = packetRead c.fd eof keep ∧ Wires eof ∧
    ∀ d : Cmd, d.isFileIo = true → keep d = true := by
  cases c with
  | pksh fd => exact ⟨srvEof fd, fun _ => true, rfl, wires_srvEof fd, fun _ _ => rfl⟩
  | batch fd => exact ⟨pure 0, Cmd.isFileIo, rfl, .pure 0, fun _ h => h⟩

theorem answers_iff (c : Server) (w : World) : Answers c w ↔ ¬Refused c w := by
  obtain ⟨eof, keep, hr, he, hk⟩ := server_cases c
  have href : ¬Refused c w ↔ ∀ a ∈ (c.read.run w).acts, a.refusal = false := by simp [Refused]
  rw [href, Answers, hr]
  cases h : c.rly w with
  | some code => exact (served_packetRead hk h).answered_iff
  | none =>
    obtain ⟨h1, h2⟩ : NoReply ((packetRead c.fd eof keep).run w) := noReply_packetRead he h
    exact ⟨fun _ => h1, fun _ => h2⟩

/-- In every run of the dispatchers every request is answered once, in order,
exactly when no opening of a directory and no allocation of a read buffer fails. -/
theorem every_request_answered_iff (cs : List Server) (w : World) :
    (∀ e ∈ journal cs w, Answers e.1 e.2) ↔ ∀ e ∈ journal cs w, ¬Refused e.1 e.2 :=
  forall₂_congr fun e _ => answers_iff e.1 e.2

/-- The link asks for a directory that cannot be opened. -/
def dopenOnly : World :=
  .linked .refusing 3 [(3, .sock (.delivering
    (be32 dopenCmd ++ be16 266 ++ be32 0 ++ 0x78 :: List.replicate 255 0)))]

set_option maxRecDepth 4000 in
theorem dopen_unanswered : ¬∀ cs w, ∀ e ∈ journal cs w, Answers e.1 e.2 := by
  intro h
  have ha : Answers (.pksh 3) dopenOnly := h [.pksh 3] dopenOnly _ (head_mem_journal _ _ _)
  have hr : ((Server.pksh 3).read.run dopenOnly).acts.any Act.refusal = true := by decide +kernel
  exact (answers_iff _ _).mp ha (List.any_eq_true.mp hr)

end Pksh
