import Pksh.Lib.Memory
import Pksh.Lib.Retry

/-! The loops that move a buffer into a byte stream and out of one, with the
bytes they move: each call goes on in the buffer where the bytes moved so far end. -/

namespace Wire

variable {ε : Type} {drops : ε → Bool}

/-- A loop of sends that has returned: its value, the bytes that were taken, in
order, and what is left of the stream. -/
structure Sent (drops : ε → Bool) where
  value : Int
  taken : List Byte
  rest : Outflow drops

/-- At most `calls` turns with `left` of `bytes` still to be sent. -/
def sendFrom (buf : Mem) (bytes : Int) : Nat → Int → Outflow drops → Option (Sent drops)
  | 0, _, _ => none
  | calls + 1, left, f =>
    if left > 0 then
      match f.send left.toNat with
      | none => none
      | some (.error e, g) => if drops e then some ⟨-1, [], g⟩ else sendFrom buf bytes calls left g
      | some (.ok 0, g) => some ⟨0, [], g⟩
      | some (.ok (k + 1), g) =>
        (sendFrom buf bytes calls (left - (k + 1 : Nat)) g).map fun s =>
          ⟨s.value, buf.slice (bytes - left).toNat (k + 1) ++ s.taken, s.rest⟩
    else some ⟨bytes, [], f⟩

/-- A loop of receives that has returned: its value, the buffer, the bytes that
came, in order, and what is left of the stream. -/
structure Received (drops : ε → Bool) where
  value : Int
  buf : Mem
  taken : List Byte
  rest : Inflow Byte drops

/-- At most `calls` turns with `left` of `bytes` still to come. -/
def recvInto (bytes : Int) : Nat → Int → Mem → Inflow Byte drops → Option (Received drops)
  | 0, _, _, _ => none
  | calls + 1, left, buf, f =>
    if left > 0 then
      match f.recv left.toNat with
      | none => none
      | some (.error e, g) => if drops e then some ⟨-1, buf, [], g⟩ else recvInto bytes calls left buf g
      | some (.closed, g) => some ⟨0, buf, [], g⟩
      | some (.got [], g) => some ⟨0, buf, [], g⟩
      | some (.got (b :: bs), g) =>
        (recvInto bytes calls (left - (bs.length + 1 : Nat)) (buf.store (bytes - left).toNat (b :: bs)) g).map fun r =>
          ⟨r.value, r.buf, b :: bs ++ r.taken, r.rest⟩
    else some ⟨bytes, buf, [], f⟩

section Value

variable {bytes left : Int} {calls : Nat}

theorem sendFrom_value (buf : Mem) (f : Outflow drops) : (sendFrom buf bytes calls left f).map Sent.value =
    (retry Outflow.send drops bytes calls left f).1 := by
  induction calls generalizing left f with
  | zero => rfl
  | succ calls ih =>
    rw [sendFrom, retry]
    by_cases hl : left > 0
    · rw [if_pos hl, if_pos hl]
      rcases f.send left.toNat with _ | ⟨e | k, g⟩
      · rfl
      · cases he : drops e with
        | true => simp [he]
        | false => simp only [he]; exact ih g
      · cases k with
        | zero => rfl
        | succ k =>
          rw [← ih, Option.map_map]
          rfl
    · rw [if_neg hl, if_neg hl]
      rfl

theorem recvInto_value (buf : Mem) (f : Inflow Byte drops) : (recvInto bytes calls left buf f).map Received.value =
    (retry Inflow.call drops bytes calls left f).1 := by
  induction calls generalizing left buf f with
  | zero => rfl
  | succ calls ih =>
    rw [recvInto, retry, Inflow.call]
    by_cases hl : left > 0
    · rw [if_pos hl, if_pos hl]
      rcases f.recv left.toNat with _ | ⟨bs | _ | e, g⟩
      · rfl
      · cases bs with
        | nil => rfl
        | cons b bs =>
          rw [Option.map_map]
          exact ih _ g
      · rfl
      · cases he : drops e with
        | true => simp [he]
        | false => simp only [he, Option.map_some]; exact ih buf g
    · rw [if_neg hl, if_neg hl]
      rfl

end Value

section Moved

variable {bytes left : Int} {calls : Nat} {buf : Mem}

/-- What a returning loop has moved is what the loop over the whole count moves:
the bytes from where it started, one after another. -/
theorem sendFrom_moved {f : Outflow drops} {s : Sent drops} (hle : left ≤ bytes)
    (h : sendFrom buf bytes calls left f = some s) :
    s.taken = buf.slice (bytes - left).toNat (f.write left.toNat).2.1 ∧ s.rest = (f.write left.toNat).2.2 := by
  induction calls generalizing left f s with
  | zero => cases h
  | succ calls ih =>
    rw [sendFrom] at h
    by_cases hl : left > 0
    · have hn : left.toNat ≠ 0 := by omega
      rw [if_pos hl] at h
      rw [Outflow.write_eq_send, if_neg hn]
      rcases hs : f.send left.toNat with _ | ⟨e | k, g⟩
      · rw [hs] at h
        cases h
      · rw [hs] at h
        simp only at h ⊢
        split at h
        · rename_i he
          cases h
          rw [if_pos he]
          exact ⟨rfl, rfl⟩
        · rename_i he
          rw [if_neg he]
          exact ih hle h
      · rw [hs] at h
        cases k with
        | zero =>
          cases h
          exact ⟨rfl, rfl⟩
        | succ k =>
          obtain ⟨t, ht, rfl⟩ := Option.map_eq_some_iff.mp h
          obtain ⟨htaken, hrest⟩ := ih (by omega) ht
          have hleft : (left - (k + 1 : Nat)).toNat = left.toNat - (k + 1) := by omega
          have hk := Outflow.send_le hs
          have hoff : (bytes - (left - (k + 1 : Nat))).toNat = (bytes - left).toNat + (k + 1) := by omega
          rw [hleft] at htaken hrest
          rw [hoff] at htaken
          refine ⟨?_, hrest⟩
          rw [htaken]
          exact (Mem.slice_add buf _ (k + 1) _).symm
    · have hn : left.toNat = 0 := by omega
      rw [if_neg hl] at h
      cases h
      rw [hn, Outflow.write_zero]
      exact ⟨rfl, rfl⟩

theorem recvInto_moved {f : Inflow Byte drops} {r : Received drops} (hle : left ≤ bytes)
    (h : recvInto bytes calls left buf f = some r) :
    r.taken = (f.read left.toNat).2.1 ∧ r.rest = (f.read left.toNat).2.2 ∧
      r.buf = buf.store (bytes - left).toNat r.taken := by
  induction calls generalizing left buf f r with
  | zero => cases h
  | succ calls ih =>
    rw [recvInto] at h
    by_cases hl : left > 0
    · have hn : left.toNat ≠ 0 := by omega
      rw [if_pos hl] at h
      rw [Inflow.read_eq_recv, if_neg hn]
      rcases hs : f.recv left.toNat with _ | ⟨bs | _ | e, g⟩
      · rw [hs] at h
        cases h
      · rw [hs] at h
        cases bs with
        | nil => exact absurd rfl (Inflow.recv_got_ne_nil (Nat.pos_of_ne_zero hn) hs)
        | cons b bs =>
          obtain ⟨t, ht, rfl⟩ := Option.map_eq_some_iff.mp h
          have hlen : bs.length + 1 ≤ left.toNat := Inflow.recv_length hs rfl
          obtain ⟨htaken, hrest, hbuf⟩ := ih (by omega) ht
          have hleft : (left - (bs.length + 1 : Nat)).toNat = left.toNat - (b :: bs).length := by
            rw [List.length_cons]
            omega
          have hoff : (bytes - (left - (bs.length + 1 : Nat))).toNat = (bytes - left).toNat + (b :: bs).length := by
            rw [List.length_cons]
            omega
          rw [hleft] at htaken hrest
          rw [hoff, ← Mem.store_append] at hbuf
          exact ⟨by rw [htaken], hrest, hbuf⟩
      · rw [hs] at h
        cases h
        exact ⟨rfl, rfl, (Mem.store_nil _ _).symm⟩
      · rw [hs] at h
        simp only at h ⊢
        split at h
        · rename_i he
          cases h
          rw [if_pos he]
          exact ⟨rfl, rfl, (Mem.store_nil _ _).symm⟩
        · rename_i he
          rw [if_neg he]
          exact ih hle h
    · have hn : left.toNat = 0 := by omega
      rw [if_neg hl] at h
      cases h
      rw [hn, Inflow.read_zero]
      exact ⟨rfl, rfl, (Mem.store_nil _ _).symm⟩

end Moved

end Wire
