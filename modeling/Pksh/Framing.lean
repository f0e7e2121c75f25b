import Pksh.Payload

/-! The stream of file requests on the link. A request is cut out of the stream
by the length in its header, the payload of a write by the count in its body. -/

namespace Pksh

open Wire Traced

/-- The contents of a path field: a string, its terminator, and whatever is
behind that. -/
structure PathField where
  path : List Byte
  rest : List Byte
  noNul : ∀ b ∈ path, b ≠ 0
  size : path.length + 1 + rest.length = maxPath

def PathField.bytes (p : PathField) : List Byte := p.path ++ 0 :: p.rest

theorem PathField.bytes_length (p : PathField) : p.bytes.length = 256 := by
  have := p.size
  simp only [PathField.bytes, List.length_append, List.length_cons, maxPath] at this ⊢
  omega

/-- A file request as it is put on the wire; a write comes with its payload. -/
inductive FileReq
  | openFile (flags : Word) (path : PathField)
  | openDir (flags : Word) (path : PathField)
  | readDir (dir : Word)
  | closeDir (dir : Word)
  | closeFile (fd : Word)
  | readFile (fd nbytes : Word)
  | writeFile (fd : Word) (payload : List Byte) (fits : payload.length < 2 ^ 31)
  | lseekFile (fd offset whence : Word)

namespace FileReq

def cmd : FileReq → Cmd
  | openFile _ _ => .open
  | openDir _ _ => .dopen
  | readDir _ => .dread
  | closeDir _ => .dclose
  | closeFile _ => .close
  | readFile _ _ => .read
  | writeFile _ _ _ => .write
  | lseekFile _ _ _ => .lseek

def fields : FileReq → List Byte
  | openFile flags path => be32 flags ++ path.bytes
  | openDir flags path => be32 flags ++ path.bytes
  | readDir dir => be32 dir
  | closeDir dir => be32 dir
  | closeFile fd => be32 fd
  | readFile fd nbytes => be32 fd ++ be32 nbytes
  | writeFile fd payload _ => be32 fd ++ be32 (BitVec.ofNat 32 payload.length)
  | lseekFile fd offset whence => be32 fd ++ (be32 offset ++ be32 whence)

def size : FileReq → Nat
  | openFile _ _ => pktFileReqSize
  | openDir _ _ => pktFileReqSize
  | readDir _ => pktDreadReqSize
  | closeDir _ => pktCloseReqSize
  | closeFile _ => pktCloseReqSize
  | readFile _ _ => pktReadReqSize
  | writeFile _ _ _ => pktWriteReqSize
  | lseekFile _ _ _ => pktLseekReqSize

def payload : FileReq → List Byte
  | writeFile _ payload _ => payload
  | _ => []

def packet (r : FileReq) : List Byte :=
  be32 r.cmd.code ++ (be16 (BitVec.ofNat 16 r.size) ++ r.fields)

def call : FileReq → Call
  | openFile flags path => .openFile flags path.path
  | openDir _ path => .openDir path.path
  | readDir dir => .readDir dir
  | closeDir dir => .closeDir dir
  | closeFile fd => .closeFile fd.toInt
  | readFile fd nbytes => .readFile fd.toInt nbytes.toInt
  | writeFile fd payload _ => .writeFile fd.toInt payload.length
  | lseekFile fd offset whence => .lseekFile fd.toInt offset.toInt whence.toInt

theorem packet_length (r : FileReq) : r.packet.length = r.size := by
  cases r <;> simp [packet, fields, size, PathField.bytes_length, pktFileReqSize, pktDreadReqSize, pktCloseReqSize,
    pktReadReqSize, pktWriteReqSize, pktLseekReqSize]

theorem size_bounds (r : FileReq) : pktHdrSize ≤ r.size ∧ r.size ≤ 266 := by
  cases r <;> exact ⟨Nat.le_of_ble_eq_true rfl, Nat.le_of_ble_eq_true rfl⟩

end FileReq

theorem word_of_slice {m : Mem} {n off : Nat} {bs : List Byte} (h : m.slice 0 n = bs) (hn : off + 4 ≤ n) :
    ntohl (m.word off) = ofBe32 (bs.drop off) := by
  rw [Mem.ntohl_word, ← h, Mem.slice_drop _ _ (by omega), Nat.zero_add,
    ← Mem.slice_take m off (show 4 ≤ n - off by omega), ofBe32_take _ (Nat.le_refl 4)]

theorem packetStr_of_slice {m : Mem} {off : Nat} {p : PathField} (h : m.slice off maxPath = p.bytes)
    (ho : off + maxPath ≤ packetMaxsize) : packetStr m off = p.path := by
  have hs : m.slice off (packetMaxsize - off) =
      p.bytes ++ m.slice (off + maxPath) (packetMaxsize - off - maxPath) := by
    rw [← h, ← Mem.slice_add, Nat.add_sub_cancel' (by omega)]
  rw [packetStr, Mem.cstr, hs, PathField.bytes, List.append_assoc,
    List.takeWhile_append_of_pos (by simpa using p.noNul)]
  simp

theorem FileReq.call_of_slice (r : FileReq) {m : Mem} (h : m.slice 0 r.size = r.packet) :
    r.cmd.call m = some r.call := by
  have hpath : ∀ {flags : Word} {p : PathField} {c : Word} {l : Half},
      m.slice 0 266 = be32 c ++ (be16 l ++ (be32 flags ++ p.bytes)) → packetStr m 10 = p.path := by
    intro flags p c l hs
    refine packetStr_of_slice ?_ (by decide)
    rw [show maxPath = 266 - 10 from rfl, ← Nat.zero_add 10, ← Mem.slice_drop m 0 (by omega), hs]
    rfl
  cases r with
  | openFile flags path =>
    have hs : m.slice 0 266 = _ := h
    have hf : ntohl (m.word 6) = flags := by
      rw [word_of_slice hs (by decide)]
      exact ofBe32_be32_append flags path.bytes
    rw [cmd, Cmd.call, call, hpath h, hf]
  | openDir flags path => rw [cmd, Cmd.call, call, hpath h]
  | readDir dir =>
    have hs : m.slice 0 10 = _ := h
    have hd : ntohl (m.word 6) = dir := by
      rw [word_of_slice hs (by decide)]
      exact ofBe32_be32 dir
    rw [cmd, Cmd.call, call, hd]
  | closeDir dir =>
    have hs : m.slice 0 10 = _ := h
    have hd : ntohl (m.word 6) = dir := by
      rw [word_of_slice hs (by decide)]
      exact ofBe32_be32 dir
    rw [cmd, Cmd.call, call, hd]
  | closeFile fd =>
    have hs : m.slice 0 10 = _ := h
    have hd : ntohl (m.word 6) = fd := by
      rw [word_of_slice hs (by decide)]
      exact ofBe32_be32 fd
    rw [cmd, Cmd.call, call, hd]
  | readFile fd nbytes =>
    have hs : m.slice 0 14 = _ := h
    have hd : ntohl (m.word 6) = fd := by
      rw [word_of_slice hs (by decide)]
      exact ofBe32_be32_append fd (be32 nbytes)
    have hn : ntohl (m.word 10) = nbytes := by
      rw [word_of_slice hs (by decide)]
      exact ofBe32_be32 nbytes
    rw [cmd, Cmd.call, call, hd, hn]
  | writeFile fd payload fits =>
    have hs : m.slice 0 14 = _ := h
    have hd : ntohl (m.word 6) = fd := by
      rw [word_of_slice hs (by decide)]
      exact ofBe32_be32_append fd (be32 (BitVec.ofNat 32 payload.length))
    have hn : (ntohl (m.word 10)).toInt = payload.length := by
      have hw : ntohl (m.word 10) = BitVec.ofNat 32 payload.length := by
        rw [word_of_slice hs (by decide)]
        exact ofBe32_be32 _
      have ht : (BitVec.ofNat 32 payload.length).toNat = payload.length := by
        rw [BitVec.toNat_ofNat]
        omega
      rw [hw, BitVec.toInt_eq_toNat_of_lt (by omega), ht]
    rw [cmd, Cmd.call, call, hd, hn]
  | lseekFile fd offset whence =>
    have hs : m.slice 0 18 = _ := h
    have hd : ntohl (m.word 6) = fd := by
      rw [word_of_slice hs (by decide)]
      exact ofBe32_be32_append fd (be32 offset ++ be32 whence)
    have ho : ntohl (m.word 10) = offset := by
      rw [word_of_slice hs (by decide)]
      exact ofBe32_be32_append offset (be32 whence)
    have hw : ntohl (m.word 14) = whence := by
      rw [word_of_slice hs (by decide)]
      exact ofBe32_be32 whence
    rw [cmd, Cmd.call, call, hd, ho, hw]

def handled (as : List Act) : List Call :=
  as.filterMap fun
    | .handle call => some call
    | _ => none

/-- The bytes handed to `write`, in order. -/
def written (as : List Act) : List Byte :=
  as.flatMap fun
    | .write _ bytes _ => bytes
    | _ => []

def WritesFull (as : List Act) : Prop := ∀ fd bytes ret, .write fd bytes ret ∈ as → ret = some bytes.length

@[simp] theorem handled_append (as bs : List Act) : handled (as ++ bs) = handled as ++ handled bs := by
  simp [handled]

@[simp] theorem written_append (as bs : List Act) : written (as ++ bs) = written as ++ written bs := by
  simp [written]

theorem writeSegments_full {fd : Int} {rounds : Nat} {payload rest : List Byte} {w : World}
    (hp : w.pending w.pkoSrvFd = payload ++ rest) (hr : payload.length < rounds)
    (hw : WritesFull ((writeSegments fd rounds payload.length).run w).acts) :
    ((writeSegments fd rounds payload.length).run w).value = some 0 ∧
      written ((writeSegments fd rounds payload.length).run w).acts = payload ∧
      taken w.pkoSrvFd ((writeSegments fd rounds payload.length).run w).acts = payload ∧
      ∀ a ∈ ((writeSegments fd rounds payload.length).run w).acts, a.stuck = false := by
  induction rounds generalizing payload w with
  | zero => omega
  | succ rounds ih =>
    have hround := writeSegments_round fd rounds payload.length w
    have hle : segmentLength payload.length ≤ payload.length := by
      rw [segmentLength]
      omega
    have hnot : ¬(w.pending w.pkoSrvFd).length < segmentLength payload.length := by
      rw [hp, List.length_append]
      omega
    have hseg : w.segment payload.length = payload.take (segmentLength payload.length) := by
      rw [World.segment, hp, List.take_append_of_le_length hle]
    generalize (writeSegments fd (rounds + 1) payload.length).run w = r at hw hround ⊢
    cases hround with
    | short less =>
      have hz : payload = [] := List.length_eq_zero_iff.mp (by omega)
      subst hz
      rw [List.take_nil] at hseg
      rw [hseg]
      exact ⟨rfl, rfl, by simp [taken], by simp [Act.stuck]⟩
    | starved less => exact absurd less hnot
    | blocked pos full => exact absurd (hw fd (w.segment payload.length) none (by simp)) (by simp)
    | last pos full took stops left_eq =>
      have hret := hw fd _ _ (List.mem_cons_of_mem _ (List.mem_cons_of_mem _ List.mem_cons_self))
      rw [full] at hret
      have hall : segmentLength payload.length = payload.length :=
        Nat.le_antisymm hle (Int.ofNat_le.mp (stops hret))
      rw [hall, List.take_length] at hseg
      refine ⟨?_, ?_, ?_, by simp [Act.stuck]⟩
      · rw [left_eq, hret, Option.getD_some, hall, Int.sub_self]
      · simp [written, hseg]
      · simp [taken, hseg]
    | again pos full more link rest' =>
      have hl : (payload.length : Int) - segmentLength payload.length =
          (payload.drop (segmentLength payload.length)).length := by
        rw [List.length_drop]
        omega
      rw [hl] at hw ⊢
      rw [hp, List.drop_append_of_le_length hle, ← link] at rest'
      obtain ⟨h1, h2, h3, h4⟩ := ih rest' (by rw [List.length_drop]; omega)
        fun f bytes ret hm => hw f bytes ret (List.mem_append_right _ hm)
      refine ⟨h1, ?_, ?_, ?_⟩
      · rw [Result.after_acts, written_append, h2]
        simp [written, hseg]
      · rw [Result.after_acts, taken_append, ← link, h3, link]
        simp [taken, hseg]
      · intro a ha
        rcases List.mem_append.mp ha with ha | ha
        · simp only [List.mem_cons, List.not_mem_nil, or_false] at ha
          rcases ha with rfl | rfl | rfl <;> rfl
        · exact h4 a ha

theorem handled_serves {as : List Act} {link : Int} {call : Call} (h : ∀ a ∈ as, a.serves link call) :
    handled as = [] := by
  rw [handled, List.filterMap_eq_nil_iff]
  intro a ha
  have hs := h a ha
  cases a <;> first | rfl | exact absurd hs (by simp [Act.serves])

theorem written_serves {as : List Act} {link : Int} {call : Call} (h : ∀ a ∈ as, a.serves link call)
    (hw : ∀ s, ¬call.writes s) : written as = [] := by
  rw [written, List.flatMap_eq_nil_iff]
  intro a ha
  have hs := h a ha
  cases a with
  | write s bytes ret => exact absurd hs (hw s)
  | _ => rfl

theorem taken_serves {as : List Act} {link : Int} {call : Call} (h : ∀ a ∈ as, a.serves link call)
    (hw : ∀ s, ¬call.writes s) (hs : call.spares link) : taken link as = [] := by
  refine taken_eq_nil fun bs hm => ?_
  have ht : call.takes link link := h _ hm
  cases call with
  | readFile fd n => exact hs.2 ⟨n, by rw [show link = fd from ht]⟩
  | writeFile fd n => exact hw fd ⟨n, rfl⟩
  | _ => exact ht

/-- What is on record of a handler that was given all it asked for. -/
structure Done (r : FileReq) (link : Int) (res : Result World Act Unit) : Prop where
  value : res.value = some ()
  handled : handled res.acts = [r.call]
  written : written res.acts = r.payload
  taken : taken link res.acts = r.payload

theorem done_of_not_write {r : FileReq} {v : World} (hm : v.recvPacket.slice 0 r.size = r.packet)
    (hr : ∀ s, ¬r.call.writes s) (hs : r.call.spares v.pkoSrvFd)
    (hb : ∀ s, .blocks s ∉ ((fileIo r.cmd).run v).acts) :
    Done r v.pkoSrvFd ((fileIo r.cmd).run v) := by
  obtain ⟨rest, ha, hrest⟩ := (handles_fileIo (r.call_of_slice hm)).acts
  have hp : r.payload = [] := by
    cases r with
    | writeFile fd payload fits => exact absurd ⟨_, rfl⟩ (hr fd.toInt)
    | _ => rfl
  have hv : ((fileIo r.cmd).run v).value ≠ none := by
    intro hn
    obtain ⟨code, hc⟩ : ∃ code, r.cmd.rly = some code := by cases r <;> exact ⟨_, rfl⟩
    obtain ⟨_, a, hm, hst⟩ := (serves_fileIo hc v).stuck hn
    cases a with
    | blocks s => exact hb s hm
    | starves s =>
      rw [ha] at hm
      rcases List.mem_cons.mp hm with hm | hm
      · cases hm
      · obtain ⟨_, fd, hfd⟩ : s = v.pkoSrvFd ∧ ∃ fd, r.call.writes fd := hrest _ hm
        exact hr fd hfd
    | unlinked =>
      rw [ha] at hm
      rcases List.mem_cons.mp hm with hm | hm
      · cases hm
      · exact (hrest _ hm).elim
    | _ => cases hst
  refine ⟨?_, ?_, ?_, ?_⟩
  · obtain ⟨_, hu⟩ := Option.ne_none_iff_exists'.mp hv
    exact hu
  · rw [ha, handled, List.filterMap_cons, ← handled, handled_serves hrest]
  · rw [ha, written, List.flatMap_cons, ← written, written_serves hrest hr, hp]
    rfl
  · rw [ha, taken, List.flatMap_cons, ← taken, taken_serves hrest hr hs, hp]
    rfl

theorem answer_returns {code retval : Word} {v : World}
    (hb : ∀ s, .blocks s ∉ ((answer code retval).run v).acts) : ((answer code retval).run v).value ≠ none := by
  intro hn
  obtain ⟨_, a, hm, hst⟩ := (serves_answer code retval v).stuck hn
  have hs : a.serves v.pkoSrvFd (.closeDir 0) := (Serving.answer code retval v).2 a hm
  cases a with
  | blocks s => exact hb s hm
  | starves s => exact absurd hs (by simp [Act.serves, Call.writes])
  | unlinked => exact hs.elim
  | _ => cases hst

theorem pkoWriteFile_run {v : World} {fd nbytes : Int}
    (h : Cmd.call v.recvPacket .write = some (.writeFile fd nbytes)) :
    pkoWriteFile.run v =
      (((writeSegments fd (nbytes.toNat + 1) nbytes).run v).andThen fun bytesLeft =>
        (answer writeRly (cWord (nbytes - bytesLeft))).run).after [.handle (.writeFile fd nbytes)] := by
  simp only [Cmd.call, Option.some.injEq, Call.writeFile.injEq] at h
  obtain ⟨rfl, rfl⟩ := h
  rfl

theorem done_of_write {fd : Word} {payload rest : List Byte} (fits : payload.length < 2 ^ 31) {v : World}
    (hm : v.recvPacket.slice 0 pktWriteReqSize = (FileReq.writeFile fd payload fits).packet)
    (hp : v.pending v.pkoSrvFd = payload ++ rest)
    (hw : WritesFull ((fileIo .write).run v).acts) (hb : ∀ s, .blocks s ∉ ((fileIo .write).run v).acts) :
    Done (.writeFile fd payload fits) v.pkoSrvFd ((fileIo .write).run v) := by
  have hc : Cmd.call v.recvPacket .write = some (.writeFile fd.toInt payload.length) :=
    (FileReq.writeFile fd payload fits).call_of_slice hm
  have hrun : (fileIo .write).run v = (pkoWriteFile.run v).andThen fun _ => (pure () : Io Unit).run := rfl
  have hsub : ∀ a ∈ (pkoWriteFile.run v).acts, a ∈ ((fileIo .write).run v).acts :=
    fun a ha => (Result.acts_prefix_andThen _ _).subset ha
  rw [pkoWriteFile_run hc, Int.toNat_natCast] at hrun hsub
  have hwf : WritesFull ((writeSegments fd.toInt (payload.length + 1) payload.length).run v).acts :=
    fun f bytes ret h => hw f bytes ret (hsub _ (List.mem_append_right _
      ((Result.acts_prefix_andThen _ _).subset h)))
  obtain ⟨hv, hwr, htk, _⟩ := writeSegments_full hp (Nat.lt_succ_self _) hwf
  rw [Result.andThen_some _ hv] at hrun hsub
  set u := ((writeSegments fd.toInt (payload.length + 1) payload.length).run v).state
  have hret : ((answer writeRly (cWord (payload.length - 0))).run u).value ≠ none :=
    answer_returns fun s h => hb s (hsub _ (List.mem_append_right _ (List.mem_append_right _ h)))
  have hser : ∀ a ∈ ((answer writeRly (cWord (payload.length - 0))).run u).acts,
      a.serves u.pkoSrvFd (.closeDir 0) := (Serving.answer writeRly (cWord (payload.length - 0)) u).2
  have hseg := (Serving.writeSegments fd.toInt payload.length (payload.length + 1) payload.length v).2
  have hspare : (Call.closeDir 0).spares u.pkoSrvFd := ⟨by simp, by simp [Call.reads]⟩
  have hlink : u.pkoSrvFd = v.pkoSrvFd :=
    Vars.link_eq (Serving.writeSegments fd.toInt payload.length (payload.length + 1) payload.length v).1
  have hno : ∀ s, ¬(Call.closeDir 0).writes s := by simp [Call.writes]
  have h1 := handled_serves hser
  have h2 := written_serves hser hno
  have h3 := taken_serves hser hno hspare
  generalize (answer writeRly (cWord (payload.length - 0))).run u = last at hrun hret h1 h2 h3
  obtain ⟨x, hx⟩ := Option.ne_none_iff_exists'.mp hret
  replace hrun := hrun.trans (Result.andThen_some (a := x) _ hx)
  have hacts : ((fileIo .write).run v).acts = .handle (.writeFile fd.toInt payload.length) ::
      (((writeSegments fd.toInt (payload.length + 1) payload.length).run v).acts ++ last.acts) := by
    rw [hrun]
    simp
  refine ⟨by rw [hrun]; rfl, ?_, ?_, ?_⟩
  · rw [hacts, handled, List.filterMap_cons, ← handled, handled_append, handled_serves hseg, h1]
    rfl
  · rw [hacts, written, List.flatMap_cons, ← written, written_append, hwr, h2, List.append_nil]
    rfl
  · rw [hacts, taken, List.flatMap_cons, ← taken, taken_append, htk, ← hlink, h3, List.append_nil]
    rfl

theorem done_of_request {r : FileReq} {v : World} {rest : List Byte}
    (hm : v.recvPacket.slice 0 r.size = r.packet)
    (hp : v.pending v.pkoSrvFd = r.payload ++ rest) (hs : r.call.spares v.pkoSrvFd)
    (hw : WritesFull ((fileIo r.cmd).run v).acts) (hb : ∀ s, .blocks s ∉ ((fileIo r.cmd).run v).acts) :
    Done r v.pkoSrvFd ((fileIo r.cmd).run v) := by
  cases r with
  | writeFile fd payload fits => exact done_of_write fits hm hp hw hb
  | _ => exact done_of_not_write hm (by simp [FileReq.call, Call.writes]) hs hb

/-- A request with its payload, as it comes over the link. -/
def FileReq.wire (r : FileReq) : List Byte := r.packet ++ r.payload

section Request

variable {r : FileReq} {w : World} {rest : List Byte}

/-- One call serves one request and leaves the stream where the next begins. -/
theorem serve_request (hk : ∃ k, w.desc w.pkoSrvFd = some (.sock k))
    (hp : w.pending w.pkoSrvFd = r.wire ++ rest) (hs : r.call.spares w.pkoSrvFd)
    (hw : WritesFull ((pkoSrvRead w.pkoSrvFd).run w).acts)
    (hb : ∀ s, .blocks s ∉ ((pkoSrvRead w.pkoSrvFd).run w).acts) :
    ∃ v as, (pkoSrvRead w.pkoSrvFd).run w = ⟨some 0, v, as⟩ ∧ handled as = [r.call] ∧
      written as = r.payload ∧ taken w.pkoSrvFd as = r.wire ∧ v.pkoSrvFd = w.pkoSrvFd ∧
      (∃ k, v.desc w.pkoSrvFd = some (.sock k)) ∧ v.pending w.pkoSrvFd = rest := by
  have hsz := r.size_bounds
  have hp' : w.pending w.pkoSrvFd =
      be32 r.cmd.code ++ (be16 (BitVec.ofNat 16 r.size) ++ (r.fields ++ (r.payload ++ rest))) := by
    rw [hp, FileReq.wire, FileReq.packet]
    simp only [List.append_assoc]
  obtain ⟨hl, hreq, hlen⟩ := header_read (by omega) hp'
  have hle : r.size ≤ (w.pending w.pkoSrvFd).length := by
    rw [hp, FileReq.wire, List.append_assoc, List.length_append, r.packet_length]
    omega
  have hf : r.cmd.isFileIo = true := by cases r <;> rfl
  have hrun := pkoSrvRead_dispatch hl (hlen ▸ hle) hreq
  rw [switch, if_pos hf] at hrun
  have hm : (w.withPacket w.pkoSrvFd).recvPacket.slice 0 r.size = r.packet := by
    rw [← hlen, withPacket_slice (hlen ▸ hsz.1) (hlen ▸ hle), hlen, hp, FileReq.wire, List.append_assoc,
      List.take_left' r.packet_length]
  have hvp : (w.withPacket w.pkoSrvFd).pending w.pkoSrvFd = r.payload ++ rest := by
    rw [withPacket_pending, hlen, List.drop_drop, Nat.add_sub_cancel' hsz.1, hp, FileReq.wire,
      List.append_assoc, List.drop_left' r.packet_length]
  have hvl : (w.withPacket w.pkoSrvFd).pkoSrvFd = w.pkoSrvFd :=
    Vars.link_eq (withPacket_wiring w w.pkoSrvFd)
  have hvk := ((withPacket_accounted w w.pkoSrvFd).pending hk (by simp [World.intake])).1
  generalize w.withPacket w.pkoSrvFd = v at hrun hm hvp hvl hvk
  have hsub : ∀ a ∈ ((fileIo r.cmd).run v).acts, a ∈ ((pkoSrvRead w.pkoSrvFd).run w).acts := by
    intro a ha
    rw [hrun]
    exact List.mem_append_right _ ((Result.acts_prefix_andThen _ _).subset ha)
  have hd : Done r w.pkoSrvFd ((fileIo r.cmd).run v) :=
    hvl ▸ done_of_request hm (hvl ▸ hvp) (hvl ▸ hs)
      (fun f bytes ret h => hw f bytes ret (hsub _ h)) fun s h => hb s (hsub _ h)
  have hh := handles_fileIo (r.call_of_slice hm)
  have hclose : .close w.pkoSrvFd ∉ ((fileIo r.cmd).run v).acts := by
    obtain ⟨rest', ha, hserves⟩ := hh.acts
    intro hc
    rw [ha] at hc
    rcases List.mem_cons.mp hc with hc | hc
    · cases hc
    · exact hs.1 (hserves _ hc)
  obtain ⟨hk', hp'⟩ := ((fileIo r.cmd).keeps v).pending hvk hclose
  rw [hd.taken, hvp] at hp'
  rw [Prog.run_bind, Result.andThen_some _ hd.value] at hrun
  have hintake : taken w.pkoSrvFd (w.intake w.pkoSrvFd) = r.packet := by
    simp only [World.intake, taken, List.flatMap_cons, List.flatMap_nil, if_true,
      List.nil_append, List.append_nil]
    rw [hlen, ← List.take_add, Nat.add_sub_cancel' hsz.1, hp, FileReq.wire, List.append_assoc,
      List.take_left' r.packet_length]
  refine ⟨_, _, hrun, ?_, ?_, ?_, ?_, hk', List.append_cancel_left hp'⟩
  · simp only [Result.after_acts, Prog.run_pure, List.append_nil, handled_append, hd.handled]
    rfl
  · simp only [Result.after_acts, Prog.run_pure, List.append_nil, written_append, hd.written]
    rfl
  · simp only [Result.after_acts, Prog.run_pure, List.append_nil, taken_append, hd.taken, hintake]
    rfl
  · exact (Vars.link_eq hh.wiring).trans hvl

end Request

/-- Every finite list of requests is served in order, each with the fields and
the payload that were encoded, and exactly its bytes are taken off the stream. -/
theorem requests_framed {reqs : List FileReq} {w : World} {rest : List Byte}
    (hk : ∃ k, w.desc w.pkoSrvFd = some (.sock k))
    (hp : w.pending w.pkoSrvFd = reqs.flatMap FileReq.wire ++ rest)
    (hs : ∀ r ∈ reqs, r.call.spares w.pkoSrvFd)
    (hw : ∀ e ∈ journal (reqs.map fun _ => .pksh w.pkoSrvFd) w, WritesFull (e.1.read.run e.2).acts)
    (hb : ∀ e ∈ journal (reqs.map fun _ => .pksh w.pkoSrvFd) w, ∀ s, .blocks s ∉ (e.1.read.run e.2).acts) :
    ((journal (reqs.map fun _ => .pksh w.pkoSrvFd) w).map fun e =>
        (handled (e.1.read.run e.2).acts, written (e.1.read.run e.2).acts)) =
      reqs.map (fun r => ([r.call], r.payload)) ∧
    ∃ v as, (serveAll (reqs.map fun _ => .pksh w.pkoSrvFd)).run w = ⟨some (), v, as⟩ ∧
      taken w.pkoSrvFd as = reqs.flatMap FileReq.wire ∧ v.pending w.pkoSrvFd = rest := by
  induction reqs generalizing w with
  | nil => exact ⟨rfl, w, [], rfl, rfl, hp⟩
  | cons r reqs ih =>
    rw [List.flatMap_cons, List.append_assoc] at hp
    obtain ⟨v, as, hrun, h1, h2, h3, h4, h5, h6⟩ := serve_request hk hp (hs r List.mem_cons_self)
      (hw _ (head_mem_journal _ _ _)) (hb _ (head_mem_journal _ _ _))
    have hj : journal ((r :: reqs).map fun _ => .pksh w.pkoSrvFd) w =
        (.pksh w.pkoSrvFd, w) :: journal (reqs.map fun _ => .pksh v.pkoSrvFd) v := by
      rw [List.map_cons, journal, Server.read, hrun, h4]
    rw [hj] at hw hb ⊢
    obtain ⟨i1, u, bs, i2, i3, i4⟩ := ih (h4 ▸ h5) (h4.symm ▸ h6) (fun q hq => h4 ▸ hs q (List.mem_cons_of_mem _ hq))
      (fun e he => hw e (List.mem_cons_of_mem _ he)) (fun e he => hb e (List.mem_cons_of_mem _ he))
    refine ⟨?_, u, as ++ bs, ?_, ?_, h4 ▸ i4⟩
    · rw [List.map_cons, i1, List.map_cons, Server.read, hrun, h1, h2]
    · rw [List.map_cons, serveAll, Prog.run_bind, Server.read, hrun, Result.andThen_mk_some, ← h4, i2]
      rfl
    · rw [taken_append, h3, ← h4, i3, List.flatMap_cons]

/-- The two conditions on the local calls of a run, as a check of its trace. -/
def Act.smooth : Act → Bool
  | .write _ bytes ret => ret = some bytes.length
  | .blocks _ => false
  | _ => true

theorem smooth_spec {as : List Act} (h : as.all Act.smooth = true) :
    WritesFull as ∧ ∀ s, .blocks s ∉ as := by
  rw [List.all_eq_true] at h
  exact ⟨fun fd bytes ret hm => by simpa [Act.smooth] using h _ hm, fun s hm => by cases h _ hm⟩

def writeAndClose : List FileReq := [.writeFile 7 [0x61, 0x62] (by decide), .closeFile 7]

/-- A local file that takes what it is given. -/
def writeAndCloseLink : World :=
  .linked { Host.refusing with write := fun _ _ bytes => some bytes.length } 3
    [(3, .sock (.delivering (writeAndClose.flatMap FileReq.wire))), (7, .plain)]

theorem writeAndClose_framed :
    ((journal [.pksh 3, .pksh 3] writeAndCloseLink).map fun e =>
        (handled (e.1.read.run e.2).acts, written (e.1.read.run e.2).acts)) =
      [([.writeFile 7 2], [0x61, 0x62]), ([.closeFile 7], [])] ∧
    ∃ v as, (serveAll [.pksh 3, .pksh 3]).run writeAndCloseLink = ⟨some (), v, as⟩ ∧
      taken 3 as = writeAndClose.flatMap FileReq.wire ∧ v.pending 3 = [] := by
  have hp : writeAndCloseLink.pending 3 = writeAndClose.flatMap FileReq.wire ++ [] := by
    rw [List.append_nil]
    exact pending_linked _ _ _ _ _
  have hs : ∀ r ∈ writeAndClose, r.call.spares 3 := by
    intro r hr
    simp only [writeAndClose, List.mem_cons, List.not_mem_nil, or_false] at hr
    rcases hr with rfl | rfl
    · exact ⟨by simp [FileReq.call], by simp [FileReq.call, Call.reads]⟩
    · exact ⟨by decide, by simp [FileReq.call, Call.reads]⟩
  have hj : ∀ e ∈ journal [.pksh 3, .pksh 3] writeAndCloseLink,
      (e.1.read.run e.2).acts.all Act.smooth = true := by decide +kernel
  exact requests_framed ⟨_, rfl⟩ hp hs (fun e he => (smooth_spec (hj e he)).1)
    fun e he => (smooth_spec (hj e he)).2

def closeLinkFirst : List FileReq := [.closeFile 3, .closeFile 7]

def closeLinkFirstLink : World :=
  .linked .refusing 3 [(3, .sock (.delivering (closeLinkFirst.flatMap FileReq.wire)))]

/-- A request may close the link itself; the requests behind it are never read. -/
theorem close_of_link_unframes :
    ¬∀ (reqs : List FileReq) (w : World) (rest : List Byte),
      (∃ k, w.desc w.pkoSrvFd = some (.sock k)) →
      w.pending w.pkoSrvFd = reqs.flatMap FileReq.wire ++ rest →
      (∀ e ∈ journal (reqs.map fun _ => .pksh w.pkoSrvFd) w, WritesFull (e.1.read.run e.2).acts) →
      (∀ e ∈ journal (reqs.map fun _ => .pksh w.pkoSrvFd) w, ∀ s, .blocks s ∉ (e.1.read.run e.2).acts) →
      ((journal (reqs.map fun _ => .pksh w.pkoSrvFd) w).map fun e =>
          (handled (e.1.read.run e.2).acts, written (e.1.read.run e.2).acts)) =
        reqs.map (fun r => ([r.call], r.payload)) ∧
      ∃ v as, (serveAll (reqs.map fun _ => .pksh w.pkoSrvFd)).run w = ⟨some (), v, as⟩ ∧
        taken w.pkoSrvFd as = reqs.flatMap FileReq.wire ∧ v.pending w.pkoSrvFd = rest := by
  intro h
  have hj : ∀ e ∈ journal [.pksh 3, .pksh 3] closeLinkFirstLink,
      (e.1.read.run e.2).acts.all Act.smooth = true := by decide +kernel
  have hp : closeLinkFirstLink.pending 3 = closeLinkFirst.flatMap FileReq.wire ++ [] := by
    rw [List.append_nil]
    exact pending_linked _ _ _ _ _
  have hmap := (h closeLinkFirst closeLinkFirstLink [] ⟨_, rfl⟩ hp (fun e he => (smooth_spec (hj e he)).1)
    fun e he => (smooth_spec (hj e he)).2).1
  exact absurd hmap (by decide +kernel)

end Pksh
