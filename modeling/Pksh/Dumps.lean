import Pksh.Connecting
import Pksh.HostPaths
import Pksh.Requests

/-! A dump of memory or of registers that is asked for by a client, passed on
by a pksh, and passed on again by the next one. -/

namespace Pksh

open Wire Traced

variable {α : Type}

inductive Dump
  | mem (offset size : Word)
  | regs (selector : Word)

namespace Dump

def cmd : Dump → Cmd
  | mem _ _ => .dumpmem
  | regs _ => .dumpregs

def request (sock : Int) (file : List Byte) : Dump → Io Int
  | mem offset size => pkoDumpmemoryReq sock file offset size
  | regs selector => pkoDumpregsReq sock file selector

def fields (file : List Byte) : Dump → List (Nat × List Byte)
  | mem offset size => reqHdr dumpmemCmd pktMemioReqSize ++
      [(6, le32 (htonl offset)), (10, le32 (htonl size)), (14, strncpy file maxPath)]
  | regs selector => reqHdr dumpregsCmd pktDumpregsReqSize ++ [(6, le32 (htonl selector)), (10, strncpy file maxPath)]

def size : Dump → Nat
  | mem _ _ => pktMemioReqSize
  | regs _ => pktDumpregsReqSize

def packet (file : List Byte) (d : Dump) : List Byte := (d.fields file).flatMap Prod.snd

def args (file : List Byte) : Dump → List Arg
  | mem offset size => [.word 0 dumpmemCmd, .word 6 offset, .word 10 size, .path 14 file]
  | regs selector => [.word 0 dumpregsCmd, .word 6 selector, .path 10 file]

variable (d : Dump) (file : List Byte)

theorem tiles : Mem.Tiles d.size 0 (d.fields file) := by
  cases d <;> simp [Mem.Tiles, fields, reqHdr, size, pktMemioReqSize, pktDumpregsReqSize, maxPath]

theorem slice_fields (m : Mem) : (m.stores (d.fields file)).slice 0 d.size = d.packet file := (d.tiles file).slice m

theorem packet_length : (d.packet file).length = d.size := by
  rw [← d.slice_fields file fun _ => 0, Mem.slice_length]

theorem request_sends (sock : Int) (w : World) :
    outgoing ((d.request sock file).run w).acts = [(sock, d.packet file)] := by
  rw [← d.slice_fields file (w.os.stack w.now)]
  cases d with
  | mem offset size => exact (outgoing_sysSend w sock _).1
  | regs selector => exact (outgoing_sysSend w sock _).1

theorem args_decode {file : List Byte} (h0 : 0 ∉ file) (hl : file.length < maxPath) :
    ∀ a ∈ d.args file, a.Decodes (d.packet file) := by
  have hpath : (∀ b ∈ file, b ≠ 0) ∧ file.length < maxPath := ⟨fun b hb he => h0 (he ▸ hb), hl⟩
  have hord := (d.tiles file).ordered
  have hword : ∀ off v, (off, le32 (htonl v)) ∈ d.fields file → off + 4 ≤ d.size →
      (Arg.word off v).Decodes (d.packet file) := by
    intro off v hf hs
    rw [← d.slice_fields file fun _ => 0]
    exact word_decodes hord hf hs
  have hfile : ∀ off, (off, strncpy file maxPath) ∈ d.fields file → off + maxPath ≤ d.size →
      (Arg.path off file).Decodes (d.packet file) := by
    intro off hf hs
    rw [← d.slice_fields file fun _ => 0]
    exact path_decodes hord hf hs hpath
  cases d with
  | mem offset size =>
    intro a ha
    simp only [args, List.mem_cons, List.not_mem_nil, or_false] at ha
    rcases ha with rfl | rfl | rfl | rfl
    · exact hword 0 _ (by simp [fields, reqHdr]) (Nat.le_of_ble_eq_true rfl)
    · exact hword 6 _ (by simp [fields]) (Nat.le_of_ble_eq_true rfl)
    · exact hword 10 _ (by simp [fields]) (Nat.le_of_ble_eq_true rfl)
    · exact hfile 14 (by simp [fields]) (Nat.le_of_ble_eq_true rfl)
  | regs selector =>
    intro a ha
    simp only [args, List.mem_cons, List.not_mem_nil, or_false] at ha
    rcases ha with rfl | rfl | rfl
    · exact hword 0 _ (by simp [fields, reqHdr]) (Nat.le_of_ble_eq_true rfl)
    · exact hword 6 _ (by simp [fields]) (Nat.le_of_ble_eq_true rfl)
    · exact hfile 10 (by simp [fields]) (Nat.le_of_ble_eq_true rfl)

end Dump

theorem outgoing_wires {as : List Act} (h : ∀ a ∈ as, a.wires = true) : outgoing as = [] := by
  rw [outgoing, List.filterMap_eq_nil_iff]
  intro a ha
  have hw := h a ha
  cases a <;> first | rfl | cases hw

theorem command_sends {req : Int → Io Int} {bytes : List Byte}
    (h : ∀ fd w, outgoing ((req fd).run w).acts = [(fd, bytes)]) (w : World) :
    ∃ fd, outgoing ((command req).run w).acts = [(fd, bytes)] := by
  have hw := (Wires.pkoCmdCon w).1
  obtain ⟨v, w', as, hrun, _⟩ := pkoCmdCon_contacted w
  rw [hrun] at hw
  refine ⟨w'.cmdFd, ?_⟩
  rw [command, Prog.run_bind, hrun, Result.andThen_mk_some, Result.after_acts, outgoing_append, outgoing_wires hw]
  exact h _ _

theorem word_of_decodes {m : Mem} {n off : Nat} {v : Word} (h : (Arg.word off v).Decodes (m.slice 0 n))
    (hn : off + 4 ≤ n) : ntohl (m.word off) = v := by
  rw [Mem.ntohl_word, ← h, Mem.slice_drop _ _ (by omega), Nat.zero_add,
    ← ofBe32_take (m.slice off (n - off)) (Nat.le_refl 4), Mem.slice_take _ _ (by omega)]

theorem packetStr_of_decodes {m : Mem} {n off : Nat} {file : List Byte} (h : (Arg.path off file).Decodes (m.slice 0 n))
    (hn : off + maxPath ≤ n) (hs : n ≤ packetMaxsize) (hl : file.length < maxPath) : packetStr m off = file := by
  rw [Arg.Decodes, Mem.slice_drop _ _ (by omega), Nat.zero_add, Mem.slice_take _ _ (by omega)] at h
  have h0 : 0 ∈ m.slice off maxPath := by
    by_contra h0
    have hall : ∀ b ∈ m.slice off maxPath, decide (b ≠ 0) = true := by
      intro b hb
      have hne : b ≠ 0 := fun he => h0 (he ▸ hb)
      simpa using hne
    rw [List.takeWhile_eq_self_iff.mpr hall] at h
    rw [← h, Mem.slice_length] at hl
    exact Nat.lt_irrefl _ hl
  have hsplit : packetMaxsize - off = maxPath + (packetMaxsize - off - maxPath) := by omega
  rw [packetStr, Mem.cstr, hsplit, Mem.slice_add, Mem.takeWhile_append_of_mem h0 (by simp), h]

namespace Dump

variable {d : Dump} {file : List Byte}

theorem packet_header (d : Dump) (file : List Byte) :
    ∃ body, d.packet file = be32 d.cmd.code ++ (be16 (BitVec.ofNat 16 d.size) ++ body) := by
  cases d with
  | mem offset size => exact ⟨_, by simp [packet, fields, reqHdr, cmd, Cmd.code, Dump.size]; rfl⟩
  | regs selector => exact ⟨_, by simp [packet, fields, reqHdr, cmd, Cmd.code, Dump.size]; rfl⟩

theorem packet_len (d : Dump) (file : List Byte) :
    (ofBe16 ((d.packet file).drop 4)).toNat = (d.packet file).length := by
  obtain ⟨body, hbody⟩ := d.packet_header file
  rw [d.packet_length, hbody, List.drop_left' (be32_length _), ofBe16_be16_append, BitVec.toNat_ofNat]
  cases d <;> rfl

theorem relay_sends {v : World} (hm : v.recvPacket.slice 0 d.size = d.packet file) (h0 : 0 ∉ file)
    (hl : file.length < maxPath) :
    ∃ s, outgoing ((relay d.cmd).run v).acts = [(s, d.packet (argPrependHost file))] := by
  have hargs := d.args_decode h0 hl
  rw [← hm] at hargs
  cases d with
  | mem offset size =>
    have hoff : ntohl (v.recvPacket.word 6) = offset :=
      word_of_decodes (hargs _ (by simp [args])) (Nat.le_of_ble_eq_true rfl)
    have hsize : ntohl (v.recvPacket.word 10) = size :=
      word_of_decodes (hargs _ (by simp [args])) (Nat.le_of_ble_eq_true rfl)
    have hpath : packetStr v.recvPacket 14 = file := packetStr_of_decodes (hargs _ (by simp [args]))
      (Nat.le_of_ble_eq_true rfl) (Nat.le_of_ble_eq_true rfl) hl
    obtain ⟨s, hs⟩ := command_sends (fun fd w => (mem offset size).request_sends (argPrependHost file) fd w) v
    have hacts : ((relay .dumpmem).run v).acts = ((dumpmem (packetStr v.recvPacket 14) (ntohl (v.recvPacket.word 6))
        (ntohl (v.recvPacket.word 10))).run v).acts := Result.acts_andThen_pure _ _
    rw [hoff, hsize, hpath] at hacts
    exact ⟨s, hacts ▸ hs⟩
  | regs selector =>
    have hsel : ntohl (v.recvPacket.word 6) = selector :=
      word_of_decodes (hargs _ (by simp [args])) (Nat.le_of_ble_eq_true rfl)
    have hpath : packetStr v.recvPacket 10 = file := packetStr_of_decodes (hargs _ (by simp [args]))
      (Nat.le_of_ble_eq_true rfl) (Nat.le_of_ble_eq_true rfl) hl
    obtain ⟨s, hs⟩ := command_sends (fun fd w => (regs selector).request_sends (argPrependHost file) fd w) v
    have hacts : ((relay .dumpregs).run v).acts = ((dumpregs (packetStr v.recvPacket 10)
        (ntohl (v.recvPacket.word 6))).run v).acts := Result.acts_andThen_pure _ _
    rw [hsel, hpath] at hacts
    exact ⟨s, hacts ▸ hs⟩

theorem forwarded {rest : List Byte} {fd : Int} {w : World} (hp : w.pending fd = d.packet file ++ rest) (h0 : 0 ∉ file)
    (hl : file.length < maxPath) :
    ∃ s, outgoing ((pkoSrvRead fd).run w).acts = [(s, d.packet (argPrependHost file))] := by
  obtain ⟨body, hbody⟩ := d.packet_header file
  have hsz : pktHdrSize ≤ d.size ∧ d.size ≤ 270 := by
    cases d <;> exact ⟨Nat.le_of_ble_eq_true rfl, Nat.le_of_ble_eq_true rfl⟩
  have hp' : w.pending fd = be32 d.cmd.code ++ (be16 (BitVec.ofNat 16 d.size) ++ (body ++ rest)) := by
    rw [hp, hbody]
    simp only [List.append_assoc]
  obtain ⟨hlen, hreq, hhlen⟩ := header_read (by omega) hp'
  have hle : d.size ≤ (w.pending fd).length := by
    rw [hp, List.length_append, d.packet_length]
    omega
  have hm : (w.withPacket fd).recvPacket.slice 0 d.size = d.packet file := by
    rw [← hhlen, withPacket_slice (hhlen ▸ hsz.1) (hhlen ▸ hle), hhlen, hp, List.take_left' (d.packet_length file)]
  obtain ⟨s, hs⟩ := relay_sends hm h0 hl
  refine ⟨s, ?_⟩
  have hf : ¬d.cmd.isFileIo = true := by cases d <;> simp [cmd, Cmd.isFileIo]
  rw [pkoSrvRead_dispatch hlen (hhlen ▸ hle) hreq, switch, if_neg hf, Result.after_acts, outgoing_append]
  have hpure : (((relay d.cmd) >>= fun _ => pure 0 : Io Int).run (w.withPacket fd)).acts =
      ((relay d.cmd).run (w.withPacket fd)).acts := Result.acts_andThen_pure _ _
  rw [hpure, hs]
  rfl

end Dump

/-- A dump that is asked for is passed on with its arguments and the path put
on the host, and from then on byte by byte as it is. -/
theorem dump_relayed (d : Dump) {file : List Byte} (h0 : 0 ∉ file) (hl : file.length ≤ 250) (sock : Int) (client : World) :
    ∃ packet, outgoing ((d.request sock file).run client).acts = [(sock, packet)] ∧
      ∀ fd (hop : World) rest, hop.pending fd = packet ++ rest →
        ∃ s packet', outgoing ((pkoSrvRead fd).run hop).acts = [(s, packet')] ∧
          (∀ a ∈ d.args (argPrependHost file), a.Decodes packet') ∧
          (ofBe16 (packet'.drop 4)).toNat = packet'.length ∧
          ∀ fd' (hop' : World) rest', hop'.pending fd' = packet' ++ rest' →
            ∃ s', outgoing ((pkoSrvRead fd').run hop').acts = [(s', packet')] := by
  have hnul := zero_not_mem_argPrependHost h0
  have hfits : file.length < maxPath := Nat.lt_of_le_of_lt hl (by decide)
  have hfits' : (argPrependHost file).length < maxPath := by
    refine Nat.lt_of_le_of_lt (argPrependHost_length_le file) ?_
    rw [maxPath]
    omega
  refine ⟨d.packet file, d.request_sends file sock client, fun fd hop rest hp => ?_⟩
  obtain ⟨s, hs⟩ := Dump.forwarded hp h0 hfits
  refine ⟨s, _, hs, d.args_decode hnul hfits', d.packet_len _, fun fd' hop' rest' hp' => ?_⟩
  have hagain := Dump.forwarded hp' hnul hfits'
  rwa [argPrependHost_idem] at hagain

theorem dump_relayed_memory : ∃ packet,
    outgoing (((Dump.mem 0x100000 64).request 3 (str "mem.bin")).run (.linked .refusing 3 [])).acts = [(3, packet)] ∧
      ∀ fd (hop : World) rest, hop.pending fd = packet ++ rest →
        ∃ s packet', outgoing ((pkoSrvRead fd).run hop).acts = [(s, packet')] ∧
          (∀ a ∈ (Dump.mem 0x100000 64).args (argPrependHost (str "mem.bin")), a.Decodes packet') ∧
          (ofBe16 (packet'.drop 4)).toNat = packet'.length ∧
          ∀ fd' (hop' : World) rest', hop'.pending fd' = packet' ++ rest' →
            ∃ s', outgoing ((pkoSrvRead fd').run hop').acts = [(s', packet')] :=
  dump_relayed (.mem 0x100000 64) (by decide) (by decide) 3 _

end Pksh
