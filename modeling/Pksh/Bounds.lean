import Pksh.OneReply
import Pksh.Serving

/-! Where received bytes are stored. The length in a header is not compared
with the size of the packet buffer before the body is received. -/

namespace Pksh

open Wire Traced

/-- No received byte is stored outside `recv_packet`. -/
def Inside (as : List Act) : Prop := ∀ off bytes, .store off bytes ∈ as → off + bytes.length ≤ packetMaxsize

theorem inside_append {as bs : List Act} : Inside (as ++ bs) ↔ Inside as ∧ Inside bs := by
  refine ⟨fun h => ⟨fun off bytes hm => ?_, fun off bytes hm => ?_⟩, fun h off bytes hm => ?_⟩
  · exact h off bytes (List.mem_append_left _ hm)
  · exact h off bytes (List.mem_append_right _ hm)
  · rcases List.mem_append.mp hm with hm | hm
    · exact h.1 off bytes hm
    · exact h.2 off bytes hm

theorem Handles.inside {α : Type} {call : Call} {w : World} {r : Result World Act α}
    (h : Handles call w r) : Inside r.acts := by
  obtain ⟨rest, hr, hs⟩ := h.acts
  intro off bytes hm
  rw [hr] at hm
  rcases List.mem_cons.mp hm with hm | hm
  · cases hm
  · obtain ⟨rfl, hl⟩ : off = 0 ∧ bytes.length ≤ packetMaxsize := hs _ hm
    omega

theorem inside_of_relays {as : List Act} (h : ∀ a ∈ as, a.relays = true) : Inside as :=
  fun _ _ hm => by cases h _ hm

theorem inside_switch (cmd : Option Cmd) (w : World) :
    Inside ((switch cmd >>= fun _ => (pure 0 : Io Int)).run w).acts := by
  cases cmd with
  | none => intro off bytes hm; cases hm
  | some c =>
    by_cases hf : c.isFileIo = true
    · obtain ⟨call, hc⟩ := Option.isSome_iff_exists.mp ((c.isFileIo_iff_call w.recvPacket).mp hf)
      rw [switch, if_pos hf]
      exact ((handles_fileIo hc).bind_pure 0).inside
    · rw [switch, if_neg hf]
      exact inside_of_relays ((emits_relay c w).bind_wires fun _ => .pure 0).1

theorem inside_header {w : World} {fd : Int} (hl : (w.pending fd).length < pktHdrSize) :
    Inside [.recv fd (w.pending fd), .store 0 (w.pending fd)] := by
  intro off bytes hm
  simp only [List.mem_cons, reduceCtorEq, Act.store.injEq, List.not_mem_nil, or_false, false_or] at hm
  obtain ⟨rfl, rfl⟩ := hm
  have : pktHdrSize ≤ packetMaxsize := by decide
  omega

/-- What has arrived of the packet a header announces fits into the buffer. -/
def Fits (w : World) (fd : Int) : Prop :=
  pktHdrSize ≤ (w.pending fd).length → min (w.hlen fd) (w.pending fd).length ≤ packetMaxsize

theorem inside_intake_iff {w : World} {fd : Int} (hl : pktHdrSize ≤ (w.pending fd).length) :
    Inside (w.intake fd) ↔ Fits w fd := by
  have hh : pktHdrSize = 6 := rfl
  have hb : (((w.pending fd).drop pktHdrSize).take (w.hlen fd - pktHdrSize)).length =
      min (w.hlen fd - 6) ((w.pending fd).length - 6) := by
    rw [List.length_take, List.length_drop, hh]
  have hm : packetMaxsize = 4096 := rfl
  refine ⟨fun h _ => ?_, fun h off bytes hmem => ?_⟩
  · have hs := h pktHdrSize _ (by simp [World.intake] : Act.store pktHdrSize
      (((w.pending fd).drop pktHdrSize).take (w.hlen fd - pktHdrSize)) ∈ w.intake fd)
    rw [hb] at hs
    omega
  · have hf := h hl
    simp only [World.intake, List.mem_cons, reduceCtorEq, Act.store.injEq, List.not_mem_nil, or_false,
      false_or] at hmem
    rcases hmem with ⟨rfl, rfl⟩ | ⟨rfl, rfl⟩
    · rw [List.length_take]
      omega
    · rw [hb]
      omega

theorem packetRead_inside_iff {eof : Io Int} {keep : Cmd → Bool} (he : Wires eof) (w : World) (fd : Int) :
    Inside ((packetRead fd eof keep).run w).acts ↔ Fits w fd := by
  have hshort : (w.pending fd).length < pktHdrSize → Fits w fd :=
    fun h h' => absurd h (Nat.not_lt.mpr h')
  have hstarve : Inside [.starves fd] := fun off bytes hm => by simp at hm
  refine packetRead_elim (P := fun r => Inside r.acts ↔ Fits w fd)
    (fun hl _ => ?_) (fun hl _ => ?_) (fun hl _ => ?_) (fun hl _ => ?_) fun hl => ?_
  · rw [Result.after_acts, inside_append, and_iff_left (inside_switch _ _)]
    exact inside_intake_iff hl
  · rw [inside_append, and_iff_left hstarve]
    exact inside_intake_iff hl
  · rw [Result.after_acts, inside_append]
    exact iff_of_true ⟨inside_header hl, inside_of_relays (he.emits _).1⟩ (hshort hl)
  · exact iff_of_true (inside_header hl) (hshort hl)
  · exact iff_of_true (inside_append.mpr ⟨inside_header hl, hstarve⟩) (hshort hl)

/-- In every run of the dispatchers received bytes stay inside the packet
buffer exactly when no more of a packet arrives than the buffer holds. -/
theorem stores_inside_iff (cs : List Server) (w : World) :
    (∀ e ∈ journal cs w, Inside (e.1.read.run e.2).acts) ↔ ∀ e ∈ journal cs w, Fits e.2 e.1.fd := by
  refine forall₂_congr fun e _ => ?_
  obtain ⟨eof, keep, hr, he, _⟩ := server_cases e.1
  rw [hr]
  exact packetRead_inside_iff he e.2 e.1.fd

/-- The link announces 5000 bytes and sends them. -/
def longPacket : World :=
  .linked .refusing 3 [(3, .sock (.delivering (be32 openCmd ++ be16 5000 ++ List.replicate 4994 0)))]

theorem stores_outside : ¬∀ cs w, ∀ e ∈ journal cs w, Inside (e.1.read.run e.2).acts := by
  intro h
  have hf : ∀ w, Fits w 3 := fun w =>
    (packetRead_inside_iff (wires_srvEof 3) w 3).mp (h [.pksh 3] w _ (head_mem_journal _ _ _))
  have hp : longPacket.pending 3 = be32 openCmd ++ be16 5000 ++ List.replicate 4994 0 :=
    pending_linked _ _ _ _ _
  have hl : longPacket.hlen 3 = 5000 := by
    rw [World.hlen, hp, List.append_assoc, List.drop_left' (be32_length openCmd), ofBe16_be16_append]
    rfl
  have hlen : (longPacket.pending 3).length = 5000 := by
    rw [hp, List.length_append, List.length_append, List.length_replicate]
    rfl
  have hmin := hf longPacket (by rw [hlen]; decide)
  rw [hl, hlen] at hmin
  exact absurd hmin (by decide)

end Pksh
