import Pksh.NapBodies
import Pksh.Npsh

/-! A packet that is long enough is served as the fields of its struct say, and
every other one makes `pksh` read what is not in its body. -/

namespace Naplink

open Wire Traced Pksh

variable {α β : Type}

namespace Raw

variable (p : Raw)

/-- The fields of the struct, and what follows them. -/
def packet : Packet :=
  if h1 : p.type = packetOpen then .open (p.int 0) ((p.body.drop 4).takeWhile (· ≠ 0))
  else if h2 : p.type = packetClose then .close (p.int 0).toInt
  else if h3 : p.type = packetRead then .read (p.int 0).toInt (p.int 4).toInt
  else if h4 : p.type = packetWrite then .write (p.int 0).toInt (p.int 4).toInt (p.body.drop 8)
  else if h5 : p.type = packetLseek then .lseek (p.int 0).toInt (p.int 4).toInt (p.int 8).toInt
  else if h6 : p.type = packetWazzup then .wazzup
  else if h7 : p.type = packetReturn then .ret (p.int 0).toInt (p.body.drop 4)
  else .bad ⟨p.type, by simp [packetTypes, h1, h2, h3, h4, h5, h6, h7]⟩

end Raw

/-- Apart from what it reads of the block, the one program does what the other does. -/
def Does (h : Handler α) (m : Np α) (w : World) : Prop :=
  Result.mk (h.run w).value (h.run w).state (acts (h.run w).acts) = m.run w

def Reads (h : Handler α) (a : α) (w : World) : Prop := ∃ us, acts us = [] ∧ h.run w = ⟨some a, w, us⟩

theorem acts_append (us vs : List Use) : acts (us ++ vs) = acts us ++ acts vs := List.filterMap_append

namespace Reads

variable {b : Block} {off n : Nat} {w : World} {debug : Bool}

theorem bind {h : Handler α} {a : α} {f : α → Handler β} {c : β} (hr : Reads h a w) (hf : Reads (f a) c w) :
    Reads (h >>= f) c w := by
  obtain ⟨us, hu, hrun⟩ := hr
  obtain ⟨vs, hv, hrun'⟩ := hf
  refine ⟨us ++ vs, by rw [acts_append, hu, hv]; rfl, ?_⟩
  rw [Prog.run_bind, hrun, Result.andThen_mk_some, hrun', Result.after_mk]

theorem pure (a : α) : Reads (pure a : Handler α) a w := ⟨[], rfl, rfl⟩

theorem loads (h : off + n ≤ b.mapped) : Reads (b.loads off n) (b.bytes.slice off n) w :=
  ⟨[.load off n], rfl, by rw [Block.loads, if_pos h]⟩

theorem loadInt (h : off + 4 ≤ b.mapped) : Reads (b.loadInt off) (b.bytes.word off) w := (loads h).bind (pure _)

theorem loadStr (h : off + (b.bytes.cstr off (b.mapped - off)).length < b.mapped) :
    Reads (b.loadStr off) (b.bytes.cstr off (b.mapped - off)) w := (loads h).bind (pure _)

theorem whenDebug {h : Handler α} {a : α} (hr : Reads h a w) : Reads (whenDebug debug h) () w := by
  cases debug with
  | true => exact hr.bind (pure ())
  | false => exact pure ()

theorem strcmp {s : List Byte} (hs : 0 ∉ s) (h : off + (b.bytes.cstr off (b.mapped - off)).length < b.mapped) :
    Reads (b.strcmp off s) (decide (b.bytes.cstr off (b.mapped - off) = s)) w := by
  induction s generalizing off with
  | nil =>
    refine (loads (by omega)).bind ?_
    simp only [@Mem.cstr_eq_nil_iff b.bytes off (b.mapped - off) (by omega)]
    exact pure _
  | cons c s ih =>
    refine (loads (by omega)).bind ?_
    obtain ⟨n, hn⟩ := Nat.exists_eq_add_of_le' (show 1 ≤ b.mapped - off by omega)
    have hrest : b.mapped - (off + 1) = n := by omega
    by_cases h0 : b.bytes off = 0
    · have hc : b.bytes off ≠ c := fun hc => hs (by rw [← h0, hc]; exact List.mem_cons_self)
      have hne : b.bytes.cstr off (b.mapped - off) ≠ c :: s := by
        rw [(Mem.cstr_eq_nil_iff (by omega)).mpr h0]
        exact (List.cons_ne_nil c s).symm
      rw [if_neg hc, decide_eq_false hne]
      exact pure false
    · have hstr : b.bytes.cstr off (b.mapped - off) = b.bytes off :: b.bytes.cstr (off + 1) (b.mapped - (off + 1)) := by
        rw [hn, hrest, Mem.cstr_succ h0]
      rw [hstr, List.length_cons] at h
      rw [hstr]
      by_cases hc : b.bytes off = c
      · simp only [hc, if_true, List.cons.injEq, true_and]
        exact ih (fun hm => hs (List.mem_cons_of_mem _ hm)) (by omega)
      · simp only [List.cons.injEq, hc, if_false, false_and, decide_false]
        exact pure false

end Reads

namespace Does

variable {w : World}

theorem perform (m : Np α) : Does (perform m) m w := by
  have h : acts ((m.run w).acts.map .act) = (m.run w).acts := by
    simp [acts, List.filterMap_map]
  simp only [Does, Naplink.perform, h]

theorem bind {h : Handler α} {m : Np α} {f : α → Handler β} {g : α → Np β} (hm : Does h m w)
    (hf : ∀ a, Does (f a) (g a) (m.run w).state) : Does (h >>= f) (m >>= g) w := by
  rw [Does, Prog.run_bind, Prog.run_bind, ← hm]
  rw [Does] at hm
  cases hv : (h.run w).value with
  | none => rw [Result.andThen_none _ hv, Result.andThen_mk_none]
  | some a =>
    have hf' := hf a
    rw [← hm, Does] at hf'
    rw [Result.andThen_some _ hv, Result.andThen_mk_some, ← hf']
    simp only [Result.after_value, Result.after_state, Result.after_acts, acts_append, Result.after_mk]

theorem behind {h : Handler α} {a : α} {f : α → Handler β} {m : Np β} (hr : Reads h a w) (hf : Does (f a) m w) :
    Does (h >>= f) m w := by
  obtain ⟨us, hu, hrun⟩ := hr
  rw [Does] at hf ⊢
  rw [Prog.run_bind, hrun, Result.andThen_mk_some, ← hf]
  simp only [Result.after_value, Result.after_state, Result.after_acts, acts_append, hu, List.nil_append]

theorem ite_at {c : Prop} [Decidable c] {h h' : Handler α} {m m' : Np α} (ht : c → Does h m w)
    (he : ¬c → Does h' m' w) : Does (if c then h else h') (if c then m else m') w := by
  split
  · exact ht ‹_›
  · exact he ‹_›

theorem assoc {γ : Type} {h : Handler γ} {m : Np α} {f : α → Np β} {g : β → Np γ}
    (hd : Does h (m >>= fun a => f a >>= g) w) : Does h ((m >>= f) >>= g) w := by
  rw [Does] at hd ⊢
  rw [hd]
  exact (Result.andThen_assoc _ _ _).symm

theorem get_bind {f : World → Handler β} {g : World → Np β} (hf : Does (f w) (g w) w) :
    Does (Prog.get >>= f) (Prog.get >>= g) w := hf

end Does

section Served

variable {p : Raw} {heap : Mem} {beyond : Nat} {w : World} {debug : Bool}

theorem Raw.reads_int {off : Nat} {v : World} (h : off + 4 ≤ p.body.length) :
    Reads ((p.block heap beyond).loadInt off) (p.int off) v := by
  have hmap := p.covers heap beyond (off + 3) (by omega)
  have hint : (p.block heap beyond).bytes.word off = p.int off := Raw.block_int h
  rw [← hint]
  exact .loadInt (by omega)

theorem processOpen_served (h0 : 0 ∈ p.body.drop 4) : Does (rawOpen debug (p.block heap beyond))
    (processOpen (p.int 0) ((p.body.drop 4).takeWhile (· ≠ 0))) w := by
  have hb := p.covers heap beyond
  obtain ⟨hs, hl⟩ := @Raw.block_cstr p heap beyond h0
  have hmap := hb (p.body.length - 1) (by omega)
  have hend : 4 + ((p.block heap beyond).bytes.cstr 4 ((p.block heap beyond).mapped - 4)).length <
      (p.block heap beyond).mapped := by
    rw [hs]
    omega
  have hstr : ∀ v, Reads ((p.block heap beyond).loadStr 4) ((p.body.drop 4).takeWhile (· ≠ 0)) v := by
    intro v
    rw [← hs]
    exact .loadStr hend
  have hint : ∀ v, Reads ((p.block heap beyond).loadInt 0) (p.int 0) v := fun v => Raw.reads_int (by omega)
  have halong : ∀ flags dirs v, Does (rawOpenAlong (p.block heap beyond) flags dirs)
      (openAlong ((p.body.drop 4).takeWhile (· ≠ 0)) flags dirs) v := by
    intro flags dirs
    induction dirs with
    | nil => exact fun v => rfl
    | cons dir dirs ih =>
      exact fun v => .behind (hstr v) (.bind (.perform _) fun rv => .ite_at (fun _ => rfl) fun _ => ih _)
  refine .bind (.perform _) fun _ => .bind (.perform _) fun _ => .behind (.whenDebug (hstr _)) ?_
  refine .behind (.whenDebug (hint _)) (.behind (.strcmp (by decide) hend) ?_)
  rw [hs]
  by_cases htty : (p.body.drop 4).takeWhile (· ≠ 0) = devTty
  · simp only [htty, decide_true, if_true]
    exact .perform _
  · simp only [htty, decide_false, if_false]
    refine .behind (hint _) (.behind (hstr _) (.assoc (.bind (.perform _) fun rv => ?_)))
    by_cases hrv : rv = -1
    · simp only [if_pos hrv]
      exact .assoc (.get_bind (.bind (halong _ _ _) fun _ => .perform _))
    · simp only [if_neg hrv]
      exact .perform _

theorem processClose_served (h : 4 ≤ p.body.length) : Does (rawClose debug (p.block heap beyond))
    (processClose (p.int 0).toInt) w := by
  refine .bind (.perform _) fun _ => .bind (.perform _) fun _ => .behind (.whenDebug (Raw.reads_int h)) (.behind (Raw.reads_int h) ?_)
  by_cases hfd : (p.int 0).toInt ≤ 2
  · simp only [if_pos hfd]
    exact .perform _
  · simp only [if_neg hfd]
    exact .bind (.perform _) fun _ => .perform _

theorem processRead_served (h : 8 ≤ p.body.length) : Does (rawRead debug (p.block heap beyond))
    (processRead (p.int 0).toInt (p.int 4).toInt) w := by
  refine .bind (.perform _) fun _ => .behind (.whenDebug (Raw.reads_int (by omega))) (.behind (.whenDebug (Raw.reads_int (by omega))) ?_)
  refine .behind (Raw.reads_int (by omega)) (.get_bind (.ite_at (fun _ => ?_) fun _ => ?_))
  · exact .bind (.perform _) fun _ => .perform _
  · refine .behind (Raw.reads_int (by omega)) (.bind (.perform _) fun r => ?_)
    cases r with
    | none => exact .perform _
    | some buffer2 => exact .perform _

theorem processWrite_served (h : 8 ≤ p.body.length)
    (hc : w.benchmarking = true ∨ sizeT (p.int 4) ≤ p.body.length - 8) : Does (rawWrite debug (p.block heap beyond))
    (processWrite (p.int 0).toInt (p.int 4).toInt (p.body.drop 8)) w := by
  refine .bind (.perform _) fun _ => .behind (.whenDebug (Raw.reads_int (by omega))) (.behind (.whenDebug (Raw.reads_int (by omega))) ?_)
  refine .get_bind (.ite_at (fun _ => ?_) fun hbench => ?_)
  · exact .behind (Raw.reads_int (by omega)) (.bind (.perform _) fun _ => .perform _)
  · have hle := hc.resolve_left hbench
    have hlt : sizeT (p.int 4) < 2 ^ 32 := by
      have hs := p.sized
      have hw := p.size.isLt
      omega
    refine .behind (Raw.reads_int (by omega)) (.behind (Raw.reads_int (by omega)) (.behind ⟨_, rfl, rfl⟩ ?_))
    have hdata : (p.block heap beyond).bytes.slice 8 (sizeT (p.int 4)) =
        payload (w.os.heap w.now) (p.int 4).toInt (p.body.drop 8) := by
      rw [payload, Mem.slice_store_of_le (by rw [List.length_drop, ← sizeT_eq hlt]; exact hle), ← sizeT_eq hlt,
        Raw.block_slice (by omega)]
    rw [hdata]
    exact .bind (.perform _) fun _ => .perform _

theorem processLseek_served (h : 12 ≤ p.body.length) : Does (rawLseek debug (p.block heap beyond))
    (processLseek (p.int 0).toInt (p.int 4).toInt (p.int 8).toInt) w := by
  refine .bind (.perform _) fun _ => .behind (.whenDebug (Raw.reads_int (by omega))) (.behind (.whenDebug (Raw.reads_int (by omega))) ?_)
  refine .behind (.whenDebug (Raw.reads_int h)) (.behind (Raw.reads_int (by omega)) (.behind (Raw.reads_int (by omega)) (.behind (Raw.reads_int h) ?_)))
  exact .bind (.perform _) fun _ => .perform _

theorem processPacket_served (benchmark : Np Unit) (h : p.Fits w.benchmarking) :
    Does (rawProcess debug benchmark p.type (p.block heap beyond)) (processPacket benchmark p.packet) w := by
  rw [Raw.Fits] at h
  rw [rawProcess, Raw.packet]
  by_cases h1 : p.type = packetOpen
  · rw [if_pos h1] at h ⊢
    rw [dif_pos h1]
    exact processOpen_served h
  rw [if_neg h1] at h ⊢
  rw [dif_neg h1]
  by_cases h2 : p.type = packetClose
  · rw [if_pos h2] at h ⊢
    rw [dif_pos h2]
    exact processClose_served h
  rw [if_neg h2] at h ⊢
  rw [dif_neg h2]
  by_cases h3 : p.type = packetRead
  · rw [if_pos h3] at h ⊢
    rw [dif_pos h3]
    exact processRead_served h
  rw [if_neg h3] at h ⊢
  rw [dif_neg h3]
  by_cases h4 : p.type = packetWrite
  · rw [if_pos h4] at h ⊢
    rw [dif_pos h4]
    exact processWrite_served h.1 h.2
  rw [if_neg h4] at h ⊢
  rw [dif_neg h4]
  by_cases h5 : p.type = packetLseek
  · rw [if_pos h5] at h ⊢
    rw [dif_pos h5]
    exact processLseek_served h
  rw [if_neg h5] at h ⊢
  rw [dif_neg h5]
  by_cases h6 : p.type = packetWazzup
  · rw [if_pos h6, dif_pos h6]
    exact .perform _
  rw [if_neg h6, dif_neg h6]
  by_cases h7 : p.type = packetReturn
  · rw [dif_pos h7]
    rfl
  · rw [dif_neg h7]
    rfl

end Served

theorem Raw.packet_write {p : Raw} (h : p.type = packetWrite) :
    p.packet = .write (p.int 0).toInt (p.int 4).toInt (p.body.drop 8) := by
  have h1 : p.type ≠ packetOpen := by rw [h]; decide
  have h2 : p.type ≠ packetClose := by rw [h]; decide
  have h3 : p.type ≠ packetRead := by rw [h]; decide
  rw [packet, dif_neg h1, dif_neg h2, dif_neg h3, dif_pos h]

theorem Raw.fits_write {p : Raw} (h : p.type = packetWrite) {benchmarking : Bool} : p.Fits benchmarking ↔
    8 ≤ p.body.length ∧ (benchmarking = true ∨ sizeT (p.int 4) ≤ p.body.length - 8) := by
  have h1 : p.type ≠ packetOpen := by rw [h]; decide
  have h2 : p.type ≠ packetClose := by rw [h]; decide
  have h3 : p.type ≠ packetRead := by rw [h]; decide
  rw [Fits, if_neg h1, if_neg h2, if_neg h3, if_pos h]

/-- Nothing is read outside the body, and a `write` gets no more than the data
of its packet. -/
def Raw.Inside (p : Raw) (us : List Use) : Prop :=
  (∀ u ∈ us, u.inside p.body.length) ∧
    (p.type = packetWrite → ∀ fd bytes ret, .act (.write fd bytes ret) ∈ us → bytes.length ≤ p.body.length - 8)

theorem mem_acts {us : List Use} {a : Act} : a ∈ acts us ↔ .act a ∈ us := by
  rw [acts, List.mem_filterMap]
  constructor
  · rintro ⟨u, hu, ha⟩
    cases u with
    | act b =>
      obtain rfl := Option.some.inj ha
      exact hu
    | load off n => cases ha
  · exact fun h => ⟨_, h, rfl⟩

theorem processWrite_passes {w : World} {fd count fd' : Int} {data bytes : List Byte} {ret : Option Nat}
    (h : .write fd' bytes ret ∈ ((processWrite fd count data).run w).acts) :
    w.benchmarking = false ∧ bytes.length = count.toNat := by
  rw [processWrite, Prog.run_bind, npSetCounter, setVars, Result.andThen_mk_some, Prog.run_bind, Prog.run_get,
    Result.andThen_mk_some] at h
  cases hb : w.benchmarking with
  | true =>
    simp only [hb, if_true] at h
    simp [emit, doReturn, sendPacket] at h
  | false =>
    refine ⟨rfl, ?_⟩
    simp only [hb, Bool.false_eq_true, if_false] at h
    simp [sysWrite, asks, emit, doReturn, sendPacket] at h
    rw [h.2.1, payload, Mem.slice_length]

/-- For every packet: the bodies that are too short, and the counts that are
too large, are the ones that make `pksh` read what is not theirs. -/
theorem body_inside_iff (debug : Bool) (benchmark : Np Unit) (p : Raw) (heap : Mem) (beyond : Nat) (w : World) :
    (p.Inside ((rawProcess debug benchmark p.type (p.block heap beyond)).run w).acts ↔ p.Fits w.benchmarking) ∧
      ∀ data, p.Inside ((rawGetReturn data p.size p.type (p.block heap beyond)).run w).acts ↔ p.FitsReturn := by
  refine ⟨⟨fun h => rawProcess_inside_iff benchmark |>.mp h.1, fun h => ⟨rawProcess_inside_iff benchmark |>.mpr h, ?_⟩⟩,
    fun data => ⟨fun h => (rawGetReturn_inside_iff data).mp h.1, fun h => ⟨(rawGetReturn_inside_iff data).mpr h, ?_⟩⟩⟩
  · intro ht fd bytes ret hm
    have hserved : Does (rawProcess debug benchmark p.type (p.block heap beyond)) (processPacket benchmark p.packet) w :=
      processPacket_served benchmark h
    rw [Raw.packet_write ht] at hserved
    have hacts := mem_acts.mpr hm
    rw [show acts _ = _ from congrArg Result.acts hserved] at hacts
    obtain ⟨hbench, hl⟩ := processWrite_passes hacts
    rw [Raw.fits_write ht] at h
    have hle := h.2.resolve_left (by rw [hbench]; decide)
    have hlt : sizeT (p.int 4) < 2 ^ 32 := by
      have hw := p.size.isLt
      have hs := p.sized
      omega
    rw [hl, ← sizeT_eq hlt]
    exact hle
  · intro ht
    rw [rawGetReturn, if_pos (by rw [ht]; decide)]
    exact fun _ _ _ hm => absurd hm List.not_mem_nil

/-- A `write` of 100 bytes that come with none. -/
def overlong : Raw := ⟨8, packetWrite, le32 3 ++ le32 100, rfl⟩

theorem body_outside :
    ¬overlong.Inside ((rawProcess false (pure ()) overlong.type (overlong.block (fun _ => 0) 0)).run
      (.booted .plain 0 [] [])).acts := by
  intro h
  have h8 := h.1 (.load 8 100) (by decide)
  revert h8
  unfold Use.inside
  decide

end Naplink
