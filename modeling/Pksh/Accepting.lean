import Pksh.Requests

/-! Where the bytes of a reply are stored. The length in the header is compared
with the size of the struct before the rest is received, and a length below the
size of the header asks for less than nothing. -/

namespace Pksh

open Wire Traced

/-- What is received is stored in the first bytes of `recv_packet`, and nothing behind them changes. -/
def StoresWithin (len : Nat) (w : World) (as : List Act) (w' : World) : Prop :=
  (∀ off bytes, .store off bytes ∈ as → off + bytes.length ≤ len) ∧
    ∀ i, len ≤ i → w'.recvPacket i = w.recvPacket i

instance (len : Nat) : Chains (StoresWithin len) where
  nil _ := ⟨by simp, fun _ _ => rfl⟩
  append h h' := by
    refine ⟨fun off bytes hm => ?_, fun i hi => (h'.2 i hi).trans (h.2 i hi)⟩
    exact (List.mem_append.mp hm).elim (h.1 off bytes) (h'.1 off bytes)

namespace StoresWithin

variable {len : Nat}

theorem of_recvPacket_eq {w w' : World} {as : List Act} (ha : ∀ off bytes, .store off bytes ∉ as)
    (hm : w'.recvPacket = w.recvPacket) : StoresWithin len w as w' :=
  ⟨fun off bytes h => absurd h (ha off bytes), fun i _ => congrFun hm i⟩

theorem pkoRecvBytes {off : Nat} {bytes : Int} (s : Int) (h : off + bytes.toNat ≤ len) :
    Sat (StoresWithin len) (pkoRecvBytes s (.recvPacket off) bytes) := by
  refine fun w => ⟨fun off' bs hm => ?_, fun i hi => ?_⟩
  · have hall : ∀ a ∈ ((Pksh.pkoRecvBytes s (.recvPacket off) bytes).run w).acts,
        ∀ off' bs, a = .store off' bs → off' + bs.length ≤ len := by
      refine pkoRecvBytes_acts w s _ bytes (by simp) (fun got hg a ha off' bs he => ?_) (by simp)
      obtain rfl := List.mem_singleton.mp ha
      obtain ⟨rfl, rfl⟩ := Act.store.inj he
      omega
    exact hall _ hm off' bs rfl
  · have hv := congrArg Vars.recvPacket (received_vars w s (.recvPacket off) bytes)
    have hl : ((w.pending s).take bytes.toNat).length ≤ bytes.toNat := List.length_take_le _ _
    exact (congrFun hv i).trans (Mem.store_of_ge (by omega))

theorem pkoRecvBytes_caller (s bytes : Int) : Sat (StoresWithin len) (Pksh.pkoRecvBytes s .caller bytes) := by
  refine fun w => of_recvPacket_eq (fun off bs hm => ?_) ?_
  · have hall : ∀ a ∈ ((Pksh.pkoRecvBytes s .caller bytes).run w).acts, a ≠ .store off bs :=
      pkoRecvBytes_acts w s .caller bytes (by simp) (by simp [Buf.stored]) (by simp)
    exact hall _ hm rfl
  · exact congrArg Vars.recvPacket (received_vars w s .caller bytes)

theorem closeNetfs : Sat (StoresWithin len) closeNetfs := fun _ =>
  of_recvPacket_eq (by simp [Pksh.closeNetfs, sysClose, setVars]) rfl

theorem ps2netfsAcceptPkt (sock : Int) (pktType : Word) (h : pktHdrSize ≤ len) :
    Sat (StoresWithin len) (ps2netfsAcceptPkt sock len pktType) := by
  have hawait : Sat (StoresWithin len) (emit (.await pktType) rfl) := fun _ => of_recvPacket_eq (by simp [emit]) rfl
  refine sat_accept hawait closeNetfs (pkoRecvBytes sock ?_) fun hlen hl => pkoRecvBytes sock ?_
  · simpa using h
  · omega

theorem sysSend (s : Int) (bs : List Byte) : Sat (StoresWithin len) (sysSend s bs) := by
  refine fun w => of_recvPacket_eq (fun off bytes hm => ?_) (congrArg Vars.recvPacket (sysSend_vars w s bs))
  obtain ⟨ret, ⟨ha, -⟩ | ⟨ha, -⟩⟩ := sysSend_acts w s bs
  · simp [ha] at hm
  · simp [ha] at hm

end StoresWithin

namespace NetfsReq

theorem room_bounds (r : NetfsReq) : pktHdrSize ≤ r.room ∧ r.room ≤ packetMaxsize := by
  cases r <;> exact ⟨Nat.le_of_ble_eq_true rfl, Nat.le_of_ble_eq_true rfl⟩

theorem stores_within (r : NetfsReq) (w : World) : StoresWithin r.room w (r.run.run w).acts (r.run.run w).state := by
  have hfill : Sat (StoresWithin r.room) (setVars fun v => { v with sendPacket := v.sendPacket.stores r.fields }) :=
    fun _ => StoresWithin.of_recvPacket_eq (by simp [setVars]) rfl
  have hcall : Sat (StoresWithin r.room) (netfsCall r.fields r.sends r.room r.awaits) :=
    sat_netfsCall hfill (r.sat_sends StoresWithin.sysSend) fun sock =>
      StoresWithin.ps2netfsAcceptPkt sock r.awaits r.room_bounds.1
  rw [r.run_eq]
  exact (hcall.bind fun response => r.sat_finish response StoresWithin.pkoRecvBytes_caller) w

end NetfsReq

/-- Each request waits for its reply with the size of a struct that is no larger
than the buffer, and whatever arrives is stored within that size. -/
theorem accept_stores_within (r : NetfsReq) (w : World) :
    r.run.run w = ((netfsCall r.fields r.sends r.room r.awaits).run w).andThen (fun m => (r.finish m).run) ∧
      r.room ≤ packetMaxsize ∧
      StoresWithin r.room w (r.run.run w).acts (r.run.run w).state ∧
      ∀ sock pktType, StoresWithin r.room w ((ps2netfsAcceptPkt sock r.room pktType).run w).acts
        ((ps2netfsAcceptPkt sock r.room pktType).run w).state :=
  ⟨r.run_eq w, r.room_bounds.2, r.stores_within w,
    fun sock pktType => StoresWithin.ps2netfsAcceptPkt sock pktType r.room_bounds.1 w⟩

end Pksh
