import Pksh.Lib.Twin
import Pksh.Requests

/-! What is left in `send_packet` by earlier replies and requests, and which
requests to the file server send it. -/

namespace Pksh

open Wire Traced

variable {α : Type}

/-- The same state, but for what `send_packet` holds. -/
def World.setSend (w : World) (m : Mem) : World := { w with sendPacket := m }

theorem World.putSock_setSend (w : World) (m : Mem) (s : Int) (k : Sock) :
    (w.setSend m).putSock s k = (w.putSock s k).setSend m := by
  have hd : (w.setSend m).desc = w.desc := rfl
  simp only [World.putSock, hd]
  rcases w.desc s with _ | _ | _ | _ <;> rfl

def ExceptSend (w w' : World) : Prop := ∃ m, w' = w.setSend m

/-- What `send_packet` holds does not matter to the program. -/
abbrev Unmoved (p : Io α) : Prop := Blind ExceptSend p

namespace Unmoved

theorem of_commutes {p : Io α}
    (h : ∀ w m, p.run (w.setSend m) = ⟨(p.run w).value, (p.run w).state.setSend m, (p.run w).acts⟩) : Unmoved p := by
  rintro w _ ⟨m, rfl⟩
  rw [h]
  exact ⟨rfl, rfl, m, rfl⟩

theorem sysSend (s : Int) (bs : List Byte) : Unmoved (sysSend s bs) :=
  of_commutes fun w m => by
    have ho : (w.setSend m).outflow s = w.outflow s := rfl
    simp only [Pksh.sysSend, ho]
    rcases (w.outflow s).send bs.length with _ | ⟨r, f⟩
    · rfl
    · exact congrArg (Result.mk _ · _) (World.putSock_setSend w.tick m s _)

theorem pkoRecvBytes (s : Int) (buf : Buf) (bytes : Int) : Unmoved (pkoRecvBytes s buf bytes) :=
  of_commutes fun w m => by
    have hi : (w.setSend m).inflow s = w.inflow s := rfl
    have hp : (w.setSend m).putInflow s ((w.inflow s).read bytes.toNat).2.2 =
        (w.putInflow s ((w.inflow s).read bytes.toNat).2.2).setSend m := World.putSock_setSend w m s _
    simp only [Pksh.pkoRecvBytes, hi, hp]
    cases buf <;> rfl

theorem closeNetfs : Unmoved closeNetfs := by
  rintro w _ ⟨m, rfl⟩
  exact ⟨rfl, rfl, m, rfl⟩

theorem get_bind {g : World → Io α} (hg : ∀ w m, g (w.setSend m) = g w) (h : ∀ w, Unmoved (g w)) :
    Unmoved (Prog.get >>= g) := by
  rintro w _ ⟨m, rfl⟩
  change Alike ExceptSend ((g w).run w) ((g (w.setSend m)).run (w.setSend m))
  rw [hg]
  exact h w w _ ⟨m, rfl⟩

theorem loadPacket : Unmoved loadPacket := get_bind (fun _ _ => rfl) fun _ => .pure _

theorem ps2netfsAcceptPkt (sock : Int) (len : Nat) (pktType : Word) :
    Unmoved (ps2netfsAcceptPkt sock len pktType) := by
  have hbody : Unmoved (acceptBody sock len pktType) :=
    loadPacket.bind fun _ => .ite (closeNetfs.bind fun _ => .pure _)
      (.ite (.pure _) ((pkoRecvBytes _ _ _).bind fun _ => .pure _))
  have hemit : Unmoved (emit (.await pktType) rfl) := of_commutes fun _ _ => rfl
  exact hemit.bind fun _ => (pkoRecvBytes _ _ _).bind fun _ => .ite (.pure _) hbody

theorem response_finish (r : NetfsReq) (sent : Bool) : Unmoved (r.response sent >>= r.finish) := by
  refine .bind (.ite ?_ (.pure _)) fun response => ?_
  · exact get_bind (fun _ _ => rfl) fun _ => (ps2netfsAcceptPkt _ _ _).bind fun _ =>
      .ite (.pure _) (loadPacket.bind fun _ => .pure _)
  · cases r with
    | read fd size =>
      cases response with
      | none => exact .pure _
      | some m => exact .ite (get_bind (fun _ _ => rfl) fun _ => (pkoRecvBytes _ _ _).bind fun _ => .pure _) (.pure _)
    | _ => exact .pure _

theorem sends {r : NetfsReq} {w w' : World} (h : ExceptSend w w') (hw : r.wire w' = r.wire w) :
    Alike ExceptSend (r.sends.run w) (r.sends.run w') := by
  obtain ⟨m, rfl⟩ := h
  have hrequest : ∀ n, m.slice 0 n = w.sendPacket.slice 0 n →
      Alike ExceptSend ((sendRequest n).run w) ((sendRequest n).run (w.setSend m)) := by
    intro n hn
    have hsame : (sendRequest n).run (w.setSend m) = (do
        let _ ← Pksh.sysSend w.ps2NetfsFd (w.sendPacket.slice 0 n)
        pure true : Io Bool).run (w.setSend m) := by
      rw [← hn]
      rfl
    rw [hsame]
    exact (sysSend _ _).bind (fun _ => .pure true) w _ ⟨m, rfl⟩
  cases r with
  | write fd ptr size =>
    have hsame : (sendWrite ptr size).run (w.setSend m) = (do
        let ret ← Pksh.sysSend w.ps2NetfsFd (w.sendPacket.slice 0 pktWriteReqSize)
        if ret < 0 then pure false
        else
          let ret ← Pksh.sysSend w.ps2NetfsFd (ptr.slice 0 (sizeT size.toInt))
          pure (if ret < 0 then false else true) : Io Bool).run (w.setSend m) := by
      rw [← show m.slice 0 pktWriteReqSize = w.sendPacket.slice 0 pktWriteReqSize from hw]
      rfl
    change Alike ExceptSend ((sendWrite ptr size).run w) ((sendWrite ptr size).run (w.setSend m))
    rw [hsame]
    exact (sysSend _ _).bind (fun _ => .ite (.pure false) ((sysSend _ _).bind fun _ => .pure _)) w _ ⟨m, rfl⟩
  | umount path flags =>
    have hpointer : Unmoved sendPointer :=
      get_bind (fun _ _ => rfl) fun _ => (sysSend _ _).bind fun _ => .pure true
    exact hpointer w _ ⟨m, rfl⟩
  | _ =>
    simp only [NetfsReq.wire] at hw
    exact hrequest _ hw

end Unmoved

namespace NetfsReq

theorem run_alike {r : NetfsReq} {w : World} {m m' : Mem}
    (hw : r.wire (r.filled (w.setSend m')) = r.wire (r.filled (w.setSend m))) :
    (r.run.run (w.setSend m')).acts = (r.run.run (w.setSend m)).acts := by
  rw [r.run_split, r.run_split]
  have hs : ExceptSend (r.filled (w.setSend m)) (r.filled (w.setSend m')) := ⟨m'.stores r.fields, rfl⟩
  have ha := Unmoved.sends hs hw
  exact (ha.andThen fun sent _ => Unmoved.response_finish r sent _ _ ha.state).acts

/-- The requests that assign every byte of what they send. -/
def fills : NetfsReq → Bool
  | dopen _ | mkdir _ | devlist => false
  | delete path _ | format path _ => path.isSome
  | _ => true

/-- A byte of the struct that is sent as it was found. -/
def gap : NetfsReq → Nat
  | delete _ _ | format _ _ => 10
  | _ => 6

theorem wire_eq_of_fills {r : NetfsReq} (h : r.fills = true) (w : World) (m m' : Mem) :
    r.wire (r.filled (w.setSend m')) = r.wire (r.filled (w.setSend m)) := by
  have key : ∀ n, (∃ k, n ≤ k ∧ Mem.Tiles k 0 r.fields) →
      (m'.stores r.fields).slice 0 n = (m.stores r.fields).slice 0 n :=
    fun n ⟨k, hk, ht⟩ => Mem.slice_stores_congr fun i hi => ht.covered (Nat.zero_le i) (Nat.lt_of_lt_of_le hi hk)
  cases r with
  | dopen path => cases h
  | mkdir path => cases h
  | devlist => cases h
  | umount path flags => rfl
  | sync path flag =>
    exact key _ ⟨pktFileReqSize, by decide, by simp [Mem.Tiles, fields, reqHdr, maxPath, pktFileReqSize]⟩
  | delete path flags =>
    cases path with
    | none => cases h
    | some path => exact key _ ⟨_, Nat.le_refl _, by simp [Mem.Tiles, fields, reqHdrLong, optionalPath, pktFileReqSize, maxPath, size]⟩
  | format path flags =>
    cases path with
    | none => cases h
    | some path => exact key _ ⟨_, Nat.le_refl _, by simp [Mem.Tiles, fields, reqHdrLong, optionalPath, pktFileReqSize, maxPath, size]⟩
  | _ => exact key _ ⟨_, Nat.le_refl _, by simp [Mem.Tiles, fields, reqHdr, maxPath, size, pktFileReqSize, pktCloseReqSize,
      pktReadReqSize, pktWriteReqSize, pktLseekReqSize, pktDreadReqSize, pktMountReqSize]⟩

theorem gap_of_not_fills {r : NetfsReq} (h : r.fills = false) :
    r.gap < pktFileReqSize ∧ ¬Mem.Covered r.fields r.gap ∧ ∀ u : World, r.wire u = u.sendPacket.slice 0 pktFileReqSize := by
  cases r with
  | dopen path => exact ⟨Nat.le_of_ble_eq_true rfl, by simp [Mem.Covered, fields, reqHdr, gap], fun _ => rfl⟩
  | mkdir path => exact ⟨Nat.le_of_ble_eq_true rfl, by simp [Mem.Covered, fields, reqHdr, gap], fun _ => rfl⟩
  | devlist => exact ⟨Nat.le_of_ble_eq_true rfl, by simp [Mem.Covered, fields, reqHdr, gap], fun _ => rfl⟩
  | delete path flags =>
    cases path with
    | none => exact ⟨Nat.le_of_ble_eq_true rfl, by simp [Mem.Covered, fields, reqHdrLong, optionalPath, gap], fun _ => rfl⟩
    | some path => cases h
  | format path flags =>
    cases path with
    | none => exact ⟨Nat.le_of_ble_eq_true rfl, by simp [Mem.Covered, fields, reqHdrLong, optionalPath, gap], fun _ => rfl⟩
    | some path => cases h
  | _ => cases h

end NetfsReq

/-- Whatever is left in the buffer, the same request sends the same bytes
exactly when it assigns all of them. -/
theorem request_unmoved_iff (r : NetfsReq) (w : World) :
    (∀ m m', outgoing (r.run.run (w.setSend m')).acts = outgoing (r.run.run (w.setSend m)).acts) ↔ r.fills = true := by
  constructor
  · intro h
    by_contra hf
    obtain ⟨hlt, hgap, hwire⟩ := NetfsReq.gap_of_not_fills (Bool.eq_false_iff.mpr hf)
    have hhead : ∀ m, (outgoing (r.run.run (w.setSend m)).acts).head? =
        some (w.ps2NetfsFd, (m.stores r.fields).slice 0 pktFileReqSize) := by
      intro m
      obtain ⟨_, _, hout⟩ := r.run_sends (w.setSend m)
      rw [outgoing_head hout, hwire]
      rfl
    have heq := congrArg List.head? (h (fun _ => 0) fun _ => 1)
    rw [hhead, hhead, Option.some.injEq, Prod.mk.injEq] at heq
    have hbyte := congrArg (·[r.gap]?) heq.2
    simp only [Mem.slice_getElem? _ hlt, Nat.zero_add, Mem.stores_of_not_covered hgap] at hbyte
    exact absurd hbyte (by decide)
  · intro hf m m'
    rw [NetfsReq.run_alike (NetfsReq.wire_eq_of_fills hf w m m')]

/-- Behind a close of descriptor 5 a `dopen` has the descriptor in its flags. -/
theorem dopen_moved : ¬∀ (r : NetfsReq) (w : World) (m m' : Mem),
    outgoing (r.run.run (w.setSend m')).acts = outgoing (r.run.run (w.setSend m)).acts := by
  intro h
  have hd := h (.dopen (str "mc0:/")) (.linked .refusing 3 []) (fun _ => 0)
    ((NetfsReq.close 5).run.run (.linked .refusing 3 [])).state.sendPacket
  revert hd
  decide +kernel

end Pksh
