import Pksh.Parcels
import Pksh.Custody
import Pksh.Isolation
import Pksh.Seams

/-! Programs that send nothing but whole packets: the system calls, and the
requests to the file server. -/

namespace Pksh

open Wire Traced

variable {α β : Type}

/-- `malloc` refuses sizes above `PTRDIFF_MAX`. -/
def Host.Thrifty (os : Host) : Prop := ∀ k n, 2 ^ 63 ≤ n → os.malloc k n = false

def Posting (w : World) (as : List Act) (w' : World) : Prop := w'.os = w.os ∧ (w.os.Thrifty → ∃ ps, Posts as ps)

instance : Chains Posting where
  nil _ := ⟨rfl, fun _ => ⟨[], .nil⟩⟩
  append h h' := by
    refine ⟨h'.1.trans h.1, fun ht => ?_⟩
    obtain ⟨ps, hps⟩ := h.2 ht
    obtain ⟨qs, hqs⟩ := h'.2 (h.1 ▸ ht)
    exact ⟨ps ++ qs, hps.append hqs⟩

/-- Nothing is handed to a socket, and the header of the reply under
construction stays. -/
def Hush (w : World) (as : List Act) (w' : World) : Prop :=
  w'.sendPacket.slice 0 pktHdrSize = w.sendPacket.slice 0 pktHdrSize ∧ ∀ a ∈ as, a.mum = true

instance : Chains Hush where
  nil _ := ⟨rfl, by simp⟩
  append h h' := ⟨h'.1.trans h.1, fun a ha => (List.mem_append.mp ha).elim (h.2 a) (h'.2 a)⟩

namespace Hush

theorem asks {answer : World → α} {act : α → Act} {h : ∀ a, (act a).quiet = true} (ha : ∀ a, (act a).mum = true) :
    Sat Hush (asks answer act h) :=
  fun _ => ⟨rfl, by simpa [Pksh.asks] using ha _⟩

theorem emit {a : Act} {h : a.quiet = true} (ha : a.mum = true) : Sat Hush (emit a h) :=
  fun _ => ⟨rfl, by simpa [Pksh.emit] using ha⟩

theorem loadPacket : Sat Hush loadPacket := Sat.get.bind fun _ => .pure _

theorem pkoFixPath (off : Nat) : Sat Hush (pkoFixPath off) := fun _ => ⟨rfl, by simp [Pksh.pkoFixPath, setVars]⟩

theorem putSend {off : Nat} (h : pktHdrSize ≤ off) (bs : List Byte) : Sat Hush (putSend off bs) :=
  fun _ => ⟨Mem.slice_store_disjoint (.inl h), by simp [Pksh.putSend, setVars]⟩

theorem putTime {off : Nat} (h : pktHdrSize ≤ off) (time : Int) : Sat Hush (putTime off time) := by
  have hl : Sat Hush (sysLocaltime time) := fun _ => ⟨rfl, by simp [sysLocaltime]⟩
  refine hl.bind fun tm => ?_
  cases tm with
  | none => exact .pure ()
  | some tm => exact putSend (Nat.le_succ_of_le h) _

theorem sysRead (fd : Int) (n : Nat) : Sat Hush (sysRead fd n) :=
  fun w => ⟨congrArg (fun v => v.sendPacket.slice 0 pktHdrSize) (sysRead_vars w fd n),
    sysRead_acts w fd n (fun _ => rfl) (fun _ => rfl) rfl⟩

end Hush

theorem mum_of_wires {a : Act} (h : a.wires = true) : a.mum = true := by
  cases a <;> simp_all [Act.wires, Act.mum]

theorem mum_pkoRecvBytes (s : Int) (buf : Buf) (bytes : Int) (w : World) :
    ∀ a ∈ ((pkoRecvBytes s buf bytes).run w).acts, a.mum = true := by
  refine pkoRecvBytes_acts w s buf bytes (fun _ => rfl) (fun bs _ a ha => ?_) rfl
  cases buf with
  | recvPacket off =>
    obtain rfl : a = .store off bs := by simpa [Buf.stored] using ha
    rfl
  | caller => cases ha

namespace Posting

theorem of_acts {m : Io α} (h : ∀ w, w.os.Thrifty → ∃ ps, Posts (m.run w).acts ps) : Sat Posting m :=
  fun w => ⟨(m.keeps w).os, h w⟩

theorem mum {m : Io α} (h : ∀ w, ∀ a ∈ (m.run w).acts, a.mum = true) : Sat Posting m :=
  of_acts fun w _ => ⟨[], .of_mum (h w)⟩

theorem hush {m : Io α} (h : Sat Hush m) : Sat Posting m := mum fun w => (h w).2

theorem wires {m : Io α} (h : Wires m) : Sat Posting m := mum fun w a ha => mum_of_wires ((h w).1 a ha)

theorem setVars (f : Vars → Vars) : Sat Posting (setVars f) := wires (.setVars f)

theorem sysOpen (path : List Byte) (flags : Word) (mode : Nat) : Sat Posting (sysOpen path flags mode) := by
  refine mum fun w => ?_
  simp only [Pksh.sysOpen]
  split <;> simp [Act.mum]

theorem sysClose (fd : Int) : Sat Posting (sysClose fd) := wires (.sysClose fd)

theorem sysLseek (fd offset whence : Int) : Sat Posting (sysLseek fd offset whence) := hush (.asks fun _ => rfl)

theorem sysAccept : Sat Posting sysAccept := by
  refine mum fun w => ?_
  simp only [Pksh.sysAccept]
  split <;> simp [Act.mum]

theorem sysWrite (fd : Int) (bs : List Byte) : Sat Posting (sysWrite fd bs) :=
  mum fun w => sysWrite_acts w fd bs (fun _ => rfl) rfl

theorem pkoRecvBytes (s : Int) (buf : Buf) (bytes : Int) : Sat Posting (pkoRecvBytes s buf bytes) :=
  mum (mum_pkoRecvBytes s buf bytes)

end Posting

theorem told_header {bs : List Byte} {cmd : Word} {len : Half} (h : bs.take pktHdrSize = be32 cmd ++ be16 len) :
    told bs = len.toNat ∧ ofBe32 bs = cmd := by
  have h4 : pktHdrSize = 4 + 2 := rfl
  constructor
  · rw [← told_take (Nat.le_refl pktHdrSize), h, told, List.drop_left' (be32_length cmd), ofBe16_be16]
  · rw [← ofBe32_take bs (show 4 ≤ pktHdrSize by omega), h, ofBe32_be32_append]

theorem exists_parcel {bs data : List Byte} {cmd : Word}
    (h : bs.take pktHdrSize = be32 cmd ++ be16 (BitVec.ofNat 16 bs.length)) (h6 : pktHdrSize ≤ bs.length)
    (hn : bs.length < 2 ^ 16) (ha : trailing bs = data.length) : ∃ p : Parcel, p.bytes = bs ∧ p.data = data := by
  refine ⟨⟨bs, data, h6, ?_, ha⟩, rfl, rfl⟩
  rw [(told_header h).1, BitVec.toNat_ofNat, Nat.mod_eq_of_lt hn]

def Lone (cmd : Word) : Prop := cmd ≠ ps2netfsWriteCmd ∧ cmd ≠ readRly

instance (cmd : Word) : Decidable (Lone cmd) := inferInstanceAs (Decidable (_ ∧ _))

theorem not_carrier {bs : List Byte} {cmd : Word} {len : Half} (h : bs.take pktHdrSize = be32 cmd ++ be16 len)
    (hc : Lone cmd) : ¬Carrier bs := by
  rw [Carrier, (told_header h).2]
  exact not_or.mpr hc

theorem posts_sysSend {bs : List Byte} {cmd : Word} (s : Int) (w : World)
    (h : bs.take pktHdrSize = be32 cmd ++ be16 (BitVec.ofNat 16 bs.length)) (h6 : pktHdrSize ≤ bs.length)
    (hn : bs.length < 2 ^ 16) (hc : Lone cmd) : ∃ ps, Posts ((sysSend s bs).run w).acts ps := by
  have hnc := not_carrier h hc
  obtain ⟨p, rfl, -⟩ := @exists_parcel bs [] cmd h h6 hn (trailing_eq_zero hnc)
  obtain ⟨ret, ⟨ha, -⟩ | ⟨ha, -⟩⟩ := sysSend_acts w s p.bytes
  · rw [ha]
    exact ⟨_, .lone p hnc .nil⟩
  · rw [ha]
    exact ⟨_, .lone p hnc (.mum rfl .nil)⟩

theorem sysSend_cases (s : Int) (bs : List Byte) (w : World) :
    (∃ v, (sysSend s bs).run w = ⟨none, v, [.send s bs none, .blocks s]⟩) ∨
      (∃ v, (sysSend s bs).run w = ⟨some (-1), v, [.send s bs none]⟩) ∨
      ∃ (k : Nat) (v : World), (sysSend s bs).run w = ⟨some k, v, [.send s bs (some k)]⟩ := by
  simp only [sysSend]
  split
  · exact .inl ⟨_, rfl⟩
  · rename_i r f _
    cases r with
    | error e => exact .inr (.inl ⟨_, rfl⟩)
    | ok k => exact .inr (.inr ⟨k, _, rfl⟩)

theorem posts_sendWrite (p : Parcel) {ptr : Mem} {size : Word} {w : World}
    (hb : w.sendPacket.slice 0 pktWriteReqSize = p.bytes) (hd : ptr.slice 0 (sizeT size.toInt) = p.data) :
    ∃ ps, Posts ((sendWrite ptr size).run w).acts ps := by
  simp only [sendWrite, Prog.run_bind, Prog.run_get, Result.andThen_mk_some, Result.after_acts, List.nil_append, hb, hd]
  obtain ⟨v, hv⟩ | ⟨v, hv⟩ | ⟨k, v, hv⟩ := sysSend_cases w.ps2NetfsFd p.bytes w
  · rw [hv, Result.andThen_mk_none]
    exact ⟨_, .refused p (.mum rfl .nil)⟩
  · rw [hv, Result.andThen_mk_some, if_pos (by decide), Prog.run_pure, Result.after_mk]
    exact ⟨_, .refused p .nil⟩
  · have hk : ¬(k : Int) < 0 := Int.not_lt.mpr (Int.natCast_nonneg k)
    rw [hv, Result.andThen_mk_some, if_neg hk, Prog.run_bind, Result.after_acts]
    obtain ⟨ret, ⟨ha, hv'⟩ | ⟨ha, hv'⟩⟩ := sysSend_acts v w.ps2NetfsFd p.data
    · obtain ⟨x, hx⟩ := Option.ne_none_iff_exists'.mp hv'
      rw [Result.andThen_some _ hx, Result.after_acts, ha, Prog.run_pure, List.append_nil]
      exact ⟨_, .request p .nil⟩
    · rw [Result.andThen_none _ hv', ha]
      exact ⟨_, .request p (.mum rfl .nil)⟩

theorem header_stores {m : Mem} {cmd : Word} {len : Nat} {fields : List (Nat × List Byte)}
    (hf : ∀ f ∈ fields, pktHdrSize ≤ f.1) :
    (m.stores (reqHdr cmd len ++ fields)).slice 0 pktHdrSize = be32 cmd ++ be16 (BitVec.ofNat 16 len) := by
  have hs : m.stores (reqHdr cmd len ++ fields) =
      ((m.store 0 (be32 cmd)).store 4 (be16 (BitVec.ofNat 16 len))).stores fields := by
    simp only [Mem.stores, reqHdr, List.foldl_append, List.foldl_cons, List.foldl_nil, le32_htonl, le16_htons]
  rw [hs, Mem.slice_stores_disjoint (by simpa using hf), show pktHdrSize = 4 + 2 from rfl, Mem.slice_add,
    Mem.slice_store_disjoint (.inl (by decide)), Mem.slice_store_eq _ _ (be32_length cmd), Nat.zero_add,
    Mem.slice_store_eq _ _ (be16_length _)]

namespace Posting

theorem sendReq {sock : Int} {cmd : Word} {size : Nat} {fields : List (Nat × List Byte)} (hc : Lone cmd)
    (h6 : pktHdrSize ≤ size) (hn : size < 2 ^ 16) (hf : ∀ f ∈ fields, pktHdrSize ≤ f.1) :
    Sat Posting (sendReq sock size (reqHdr cmd size ++ fields)) := by
  refine of_acts fun w _ => ?_
  refine posts_sysSend sock w ?_ (by rwa [Mem.slice_length]) (by rwa [Mem.slice_length]) hc
  rw [Mem.slice_take _ _ h6, Mem.slice_length]
  exact header_stores hf

theorem sendHdr {sock : Int} {cmd : Word} (hc : Lone cmd) : Sat Posting (Pksh.sendReq sock pktHdrSize (reqHdr cmd pktHdrSize)) := by
  have h : Sat Posting (Pksh.sendReq sock pktHdrSize (reqHdr cmd pktHdrSize ++ [])) :=
    sendReq hc (Nat.le_refl _) (by decide) (by simp)
  rwa [List.append_nil] at h

theorem command {req : Int → Io Int} (h : ∀ fd, Sat Posting (req fd)) : Sat Posting (command req) :=
  (wires .pkoCmdCon).bind fun _ => Sat.get.bind fun _ => h _

end Posting

section Requests

variable {r : NetfsReq} (h : r.misbuilt = false)

include h

theorem NetfsReq.header (m : Mem) : ∃ cmd, r.awaits = cmd + 1 ∧
    (m.stores r.fields).slice 0 pktHdrSize = be32 cmd ++ be16 (BitVec.ofNat 16 r.size) ∧
    ∀ u : World, r.wire u = u.sendPacket.slice 0 r.size := by
  obtain ⟨cmd, fs, hf, hc, hw⟩ := r.header_of_not_misbuilt h
  have ho := r.fields_ordered
  rw [hf, List.pairwise_append] at ho
  have h6 : ∀ f ∈ fs, pktHdrSize ≤ f.1 := fun f hm => ho.2.2 (4, le16 (htons (BitVec.ofNat 16 r.size))) (by simp [reqHdr]) f hm
  exact ⟨cmd, hc, by rw [hf]; exact header_stores h6, hw⟩

theorem NetfsReq.posts_sends (w : World) : ∃ ps, Posts (r.sends.run (r.filled w)).acts ps := by
  obtain ⟨cmd, hc, hh, hw⟩ := r.header h w.sendPacket
  have h6 : pktHdrSize ≤ r.size := r.size_bounds.1
  have ht : ((r.filled w).sendPacket.slice 0 r.size).take pktHdrSize =
      be32 cmd ++ be16 (BitVec.ofNat 16 ((r.filled w).sendPacket.slice 0 r.size).length) := by
    rw [Mem.slice_take _ _ h6, Mem.slice_length]
    exact hh
  have hn : ((r.filled w).sendPacket.slice 0 r.size).length < 2 ^ 16 := by
    rw [Mem.slice_length]
    exact r.size_bounds.2
  rw [← Mem.slice_length (r.filled w).sendPacket 0 r.size] at h6
  have hcode : ∀ c, r.awaits ≠ c + 1 → cmd ≠ c := fun c hne he => hne (by rw [hc, he])
  have hlone : r.awaits ≠ ps2netfsWriteCmd + 1 → r.awaits ≠ readRly + 1 → ∃ ps, Posts ((sendRequest r.size).run (r.filled w)).acts ps := by
    intro h1 h2
    obtain ⟨ps, hps⟩ := posts_sysSend w.ps2NetfsFd (r.filled w) ht h6 hn ⟨hcode _ h1, hcode _ h2⟩
    refine ⟨ps, ?_⟩
    rw [← Result.acts_andThen_pure _ true] at hps
    exact hps
  cases r with
  | write fd ptr size =>
    obtain rfl : cmd = ps2netfsWriteCmd := (BitVec.add_left_inj (x := cmd) 1).mp hc.symm
    have hsize : ofBe32 (((NetfsReq.write fd ptr size).filled w).sendPacket.slice 0 pktWriteReqSize |>.drop 10) = size :=
      word_decodes (NetfsReq.write fd ptr size).fields_ordered (by simp [NetfsReq.fields, reqHdr]) (by decide)
    obtain ⟨p, hb, hd⟩ := @exists_parcel _ (ptr.slice 0 (sizeT size.toInt)) _ ht h6 hn
      (by rw [trailing, (told_header ht).2, if_pos rfl, Mem.slice_length]; exact congrArg (fun n => sizeT n.toInt) hsize)
    exact posts_sendWrite p hb.symm hd.symm
  | umount path flags => cases h
  | sync path flag => cases h
  | delete path flags => cases h
  | format path flags => cases h
  | _ => exact hlone (by simp only [NetfsReq.awaits]; decide) (by simp only [NetfsReq.awaits]; decide)

theorem NetfsReq.posting : Sat Posting r.run := by
  refine .of_acts fun w _ => ?_
  have hmum : ∀ sent, Sat (AllActs fun a : Act => a.mum = true) (r.response sent >>= r.finish) := by
    have hrecv (s : Int) (buf : Buf) (bytes : Int) : Sat (AllActs fun a : Act => a.mum = true) (pkoRecvBytes s buf bytes) :=
      fun v => mum_pkoRecvBytes s buf bytes v
    have haccept : Sat (AllActs fun a : Act => a.mum = true) (emit (.await r.awaits) rfl) :=
      fun _ a ha => by rw [List.mem_singleton.mp ha]; rfl
    have hclose : Sat (AllActs fun a : Act => a.mum = true) closeNetfs := fun v a ha => mum_of_wires ((Wires.closeNetfs v).1 a ha)
    refine fun sent => Sat.bind (.ite (Sat.get.bind fun u => ?_) (.pure none)) fun m => r.sat_finish m fun s bytes => hrecv _ _ _
    exact (sat_accept haccept hclose (hrecv _ _ _) fun _ _ => hrecv _ _ _).bind fun _ => .ite (.pure none)
      ((Sat.get.bind fun _ => .pure _).bind fun _ => .pure _)
  obtain ⟨ps, hps⟩ := r.posts_sends h w
  rw [r.run_split]
  cases hv : (r.sends.run (r.filled w)).value with
  | none =>
    rw [Result.andThen_none _ hv]
    exact ⟨ps, hps⟩
  | some sent =>
    rw [Result.andThen_some _ hv]
    exact ⟨ps ++ [], hps.append (.of_mum (hmum sent _))⟩

end Requests

end Pksh
