import Pksh.OneReply
import Pksh.Serving

/-! Several connections. Every handler answers on the link, and a write takes
its payload from there, whichever connection the request came from. -/

namespace Pksh

open Wire Traced

variable {α β : Type}

/-- The payload of a write is read from `fd`, all that is sent goes there, and
no bytes are taken off any other stream. -/
structure Isolated (fd : Int) (as : List Act) : Prop where
  payload : ∀ s n, .handle (.writeFile s n) ∈ as → ∀ s' bs, .recv s' bs ∈ as → s' = fd
  taken : ∀ s, s ≠ fd → taken s as = []
  send : ∀ s bs ret, .send s bs ret ∈ as → s = fd
  sendAll : ∀ s bs, .sendAll s bs ∈ as → s = fd

/-- What a read takes off a stream; `none` when it never returns. -/
def World.readTakes (w : World) (fd : Int) (n : Nat) : Option (List Byte) :=
  match w.desc fd with
  | some (.sock k) => if n = 0 then some [] else (k.inflow.recv n).map fun r => r.1.ret.getD []
  | _ => some []

/-- The call gets a buffer and takes bytes off the stream of another connection. -/
def Call.robs (fd : Int) (w : World) : Call → Prop
  | .readFile s n =>
    s ≠ fd ∧ w.os.malloc w.now (sizeT n) = true ∧ (w.readTakes s (sizeT n)).getD [] ≠ []
  | _ => False

/-- The call ends or is stuck before a reply is sent. -/
def Call.unanswered (w : World) : Call → Prop
  | .openDir _ => w.os.opendir w.now (packetStr ((pkoFixPath 10).run w).state.recvPacket 10) = none
  | .readFile s n => w.os.malloc w.now (sizeT n) = false ∨ w.readTakes s (sizeT n) = none
  | _ => False

/-- The call that the next packet from `fd` brings about. -/
def World.Brings (w : World) (fd : Int) (call : Call) : Prop :=
  (w.hlen fd ≤ (w.pending fd).length ∨ (w.inflow fd).stop ≠ .never) ∧
    ∃ c, w.request fd = some c ∧ c.call (w.withPacket fd).recvPacket = some call

/-- A request of the link takes nothing from others, and one of a client is
never answered. -/
def Apart (w : World) (fd : Int) : Prop :=
  ∀ call, w.Brings fd call →
    if fd = w.pkoSrvFd then ¬call.robs fd (w.withPacket fd) else call.unanswered (w.withPacket fd)

def Sure (m : Io α) : Prop := ∀ w, (m.run w).value ≠ none ∧ (m.run w).state.pkoSrvFd = w.pkoSrvFd

def SpeaksAt (m : Io α) (w : World) : Prop := ∃ bs ret, .send w.pkoSrvFd bs ret ∈ (m.run w).acts

def Speaks (m : Io α) : Prop := ∀ w, SpeaksAt m w

theorem Speaks.bind {m : Io α} {f : α → Io β} (h : Speaks m) : Speaks (m >>= f) := by
  intro w
  obtain ⟨bs, ret, hm⟩ := h w
  exact ⟨bs, ret, (Result.acts_prefix_andThen (m.run w) fun a => (f a).run).subset hm⟩

theorem Speaks.ite {c : Prop} [Decidable c] {p q : Io α} (hp : Speaks p) (hq : Speaks q) :
    Speaks (if c then p else q) := by
  split
  · exact hp
  · exact hq

namespace Sure

theorem pure (a : α) : Sure (pure a : Io α) := fun _ => ⟨by simp, rfl⟩

theorem get : Sure (Prog.get : Io World) := fun _ => ⟨by simp, rfl⟩

theorem loadPacket : Sure loadPacket := fun _ => ⟨by simp [Pksh.loadPacket], rfl⟩

theorem setVars {f : Vars → Vars} (h : ∀ v, (f v).pkoSrvFd = v.pkoSrvFd) : Sure (setVars f) :=
  fun w => ⟨by simp [Pksh.setVars], h w.toVars⟩

theorem putSend (off : Nat) (bs : List Byte) : Sure (putSend off bs) := setVars fun _ => rfl

theorem pkoFixPath (off : Nat) : Sure (pkoFixPath off) := setVars fun _ => rfl

theorem emit {a : Act} {h : a.quiet = true} : Sure (emit a h) := fun _ => ⟨by simp [Pksh.emit], rfl⟩

theorem asks {answer : World → α} {act : α → Act} {h : ∀ a, (act a).quiet = true} : Sure (asks answer act h) :=
  fun _ => ⟨by simp [Pksh.asks], rfl⟩

theorem sysOpen (path : List Byte) (flags : Word) (mode : Nat) : Sure (sysOpen path flags mode) := by
  intro w
  simp only [Pksh.sysOpen]
  split
  · exact ⟨by simp, rfl⟩
  · exact ⟨by simp, rfl⟩

theorem bind {m : Io α} {f : α → Io β} (hm : Sure m) (hf : ∀ a, Sure (f a)) : Sure (m >>= f) := by
  intro w
  obtain ⟨hv, hl⟩ := hm w
  obtain ⟨a, ha⟩ := Option.ne_none_iff_exists'.mp hv
  rw [Prog.run_bind, Result.andThen_some _ ha]
  exact ⟨(hf a _).1, ((hf a _).2).trans hl⟩

theorem speaks_at {m : Io α} {f : α → Io β} {w : World} (hm : Sure m)
    (hf : ∀ a, (m.run w).value = some a → SpeaksAt (f a) (m.run w).state) : SpeaksAt (m >>= f) w := by
  obtain ⟨hv, hl⟩ := hm w
  obtain ⟨a, ha⟩ := Option.ne_none_iff_exists'.mp hv
  obtain ⟨bs, ret, hmem⟩ := hf a ha
  rw [SpeaksAt, Prog.run_bind, Result.andThen_some _ ha]
  exact ⟨bs, ret, List.mem_append_right _ (hl ▸ hmem)⟩

theorem speaks_bind {m : Io α} {f : α → Io β} (hm : Sure m) (hf : ∀ a, Speaks (f a)) : Speaks (m >>= f) :=
  fun _ => hm.speaks_at fun a _ => hf a _

theorem openAlong (name : List Byte) (flags : Word) (dirs : List (List Byte)) : Sure (openAlong name flags dirs) := by
  induction dirs with
  | nil => exact .pure _
  | cons dir dirs ih =>
    refine (sysOpen _ _ _).bind fun retval => ?_
    split
    · exact .pure _
    · exact ih

theorem putTime (off : Nat) (time : Int) : Sure (putTime off time) := by
  refine bind (fun _ => ⟨by simp [sysLocaltime], rfl⟩) fun tm => ?_
  cases tm with
  | none => exact .pure _
  | some tm => exact putSend _ _

end Sure

theorem speaks_sendReply (size : Nat) : Speaks (sendReply size) := by
  intro w
  have hs : ∃ bs ret, .send w.pkoSrvFd bs ret ∈ ((sysSend w.pkoSrvFd (w.sendPacket.slice 0 size)).run w).acts := by
    obtain ⟨ret, ⟨ha, _⟩ | ⟨ha, _⟩⟩ := sysSend_acts w w.pkoSrvFd (w.sendPacket.slice 0 size)
    · exact ⟨_, ret, by rw [ha]; exact List.mem_cons_self⟩
    · exact ⟨_, ret, by rw [ha]; exact List.mem_cons_self⟩
  obtain ⟨bs, ret, hm⟩ := hs
  exact ⟨bs, ret, (Result.acts_prefix_andThen _ fun _ => (pure () : Io Unit).run).subset hm⟩

theorem speaks_answer (cmd retval : Word) : Speaks (answer cmd retval) :=
  ((Sure.putSend _ _).bind fun _ => (Sure.putSend _ _).bind fun _ => Sure.putSend _ _).speaks_bind fun _ =>
    (speaks_sendReply _).bind

theorem speaks_pkoOpenFile : Speaks pkoOpenFile := by
  refine Sure.loadPacket.speaks_bind fun m => Sure.emit.speaks_bind fun _ =>
    (Sure.pkoFixPath 10).speaks_bind fun _ => Sure.loadPacket.speaks_bind fun m' =>
    (Sure.sysOpen _ _ _).speaks_bind fun first => Sure.get.speaks_bind fun w => .ite ?_ ?_
  · exact (Sure.openAlong _ _ _).speaks_bind fun _ => speaks_answer _ _
  · exact (Sure.pure first).speaks_bind fun _ => speaks_answer _ _

theorem speaks_pkoCloseFile : Speaks pkoCloseFile :=
  Sure.loadPacket.speaks_bind fun _ => Sure.emit.speaks_bind fun _ =>
    Sure.speaks_bind (fun _ => ⟨by simp [sysClose], rfl⟩) fun _ => speaks_answer _ _

theorem speaks_pkoLseekFile : Speaks pkoLseekFile :=
  Sure.loadPacket.speaks_bind fun _ => Sure.emit.speaks_bind fun _ => Sure.asks.speaks_bind fun _ => speaks_answer _ _

theorem speaks_pkoCloseDir : Speaks pkoCloseDir :=
  Sure.loadPacket.speaks_bind fun _ => Sure.emit.speaks_bind fun _ => Sure.asks.speaks_bind fun _ => speaks_answer _ _

theorem speaks_pkoReadDir : Speaks pkoReadDir := by
  have hs : Speaks (sendReply pktDreadRlySize >>= fun _ => (pure 0 : Io Int)) := (speaks_sendReply _).bind
  refine Sure.loadPacket.speaks_bind fun _ => Sure.emit.speaks_bind fun _ => (Sure.putSend _ _).speaks_bind fun _ =>
    (Sure.putSend _ _).speaks_bind fun _ => Sure.asks.speaks_bind fun entry => (Sure.putSend _ _).speaks_bind fun _ => ?_
  refine .ite hs ?_
  exact Sure.asks.speaks_bind fun _ => (Sure.putSend _ _).speaks_bind fun _ => (Sure.putSend _ _).speaks_bind fun _ =>
      (Sure.putSend _ _).speaks_bind fun _ => (Sure.putTime _ _).speaks_bind fun _ => (Sure.putTime _ _).speaks_bind fun _ =>
      (Sure.putTime _ _).speaks_bind fun _ => (Sure.putSend _ _).speaks_bind fun _ => (Sure.putSend _ _).speaks_bind fun _ => hs

theorem speaks_pkoOpenDir {v : World}
    (h : v.os.opendir v.now (packetStr ((pkoFixPath 10).run v).state.recvPacket 10) ≠ none) :
    SpeaksAt pkoOpenDir v := by
  refine Sure.loadPacket.speaks_at fun m _ => Sure.emit.speaks_at fun _ _ => (Sure.putSend _ _).speaks_at fun _ _ =>
    (Sure.putSend _ _).speaks_at fun _ _ => (Sure.pkoFixPath 10).speaks_at fun _ _ =>
    Sure.loadPacket.speaks_at fun m' hm' => Sure.asks.speaks_at fun dirp hd => ?_
  obtain rfl := Option.some.inj hm'
  cases dirp with
  | none => exact absurd (Option.some.inj hd) h
  | some dirp => exact ((Sure.putSend _ _).speaks_bind fun _ => (speaks_sendReply _).bind) _

theorem pkoOpenDir_none {v : World}
    (h : v.os.opendir v.now (packetStr ((pkoFixPath 10).run v).state.recvPacket 10) = none) :
    (pkoOpenDir.run v).acts = [.handle (.openDir (packetStr v.recvPacket 10)),
      .opendir (packetStr ((pkoFixPath 10).run v).state.recvPacket 10) none] := by
  simp only [pkoFixPath, setVars] at h ⊢
  simp only [pkoOpenDir, loadPacket, Prog.run_bind, Prog.run_get, Prog.run_pure, Result.andThen_mk_some, emit,
    putWord, putHalf, putSend, setVars, pkoFixPath, sysOpendir, asks, Result.after_mk, List.nil_append, h]
  rfl

theorem sysRead_takes (w : World) (fd : Int) (n : Nat) :
    taken fd ((sysRead fd n).run w).acts = (w.readTakes fd n).getD [] ∧
      (w.readTakes fd n = none → ((sysRead fd n).run w).value = none ∧
        ((sysRead fd n).run w).acts = [.read fd none, .blocks fd]) := by
  simp only [sysRead, World.readTakes]
  cases hd : w.desc fd with
  | none => exact ⟨rfl, by simp⟩
  | some d =>
    cases d with
    | plain => exact ⟨rfl, by simp⟩
    | fresh => exact ⟨rfl, by simp⟩
    | sock k =>
      by_cases hn : n = 0
      · simp only [if_pos hn]
        exact ⟨rfl, by simp⟩
      · simp only [if_neg hn]
        cases hr : k.inflow.recv n with
        | none => exact ⟨rfl, by simp⟩
        | some r => exact ⟨by simp [taken], by simp⟩

theorem readTakes_of_stuck {w : World} {fd : Int} {n : Nat} (h : ((sysRead fd n).run w).value = none) :
    w.readTakes fd n = none := by
  simp only [sysRead] at h
  simp only [World.readTakes]
  cases hd : w.desc fd with
  | none => simp [hd] at h
  | some d =>
    cases d with
    | plain => simp [hd] at h
    | fresh => simp [hd] at h
    | sock k =>
      by_cases hn : n = 0
      · simp [hd, hn] at h
      · cases hr : k.inflow.recv n with
        | none => simp [hn, hr]
        | some r => simp [hd, hn, hr] at h

theorem pkoReadFile_refused {v : World} (hm : v.os.malloc v.now (sizeT (ntohl (v.recvPacket.word 10)).toInt) = false) :
    (pkoReadFile.run v).acts = [.handle (.readFile (ntohl (v.recvPacket.word 6)).toInt (ntohl (v.recvPacket.word 10)).toInt),
      .malloc (sizeT (ntohl (v.recvPacket.word 10)).toInt) false] := by
  simp only [pkoReadFile, loadPacket, Prog.run_bind, Prog.run_get, Prog.run_pure, Result.andThen_mk_some, emit,
    putWord, putHalf, putSend, setVars, sysMalloc, asks, Result.after_mk, List.nil_append, hm]
  rfl

/-- What a read request that gets its buffer does behind the read. -/
def readReply (filebuf : Option (List Byte)) : Io Int := do
  let readbytes : Int := match filebuf with
    | none => -1
    | some bs => bs.length
  putWord 10 (htonl (cWord readbytes))
  sendReply pktReadRlySize
  let w ← Prog.get
  let _ ← pkoSendBytes w.pkoSrvFd (filebuf.getD []) readbytes
  pure 0

/-- A read request has its buffer, and its reply lacks only the count. -/
def World.readStarted (v : World) : World :=
  { v.tick with
    sendPacket := v.sendPacket.stores [(0, le32 (htonl readRly)), (4, le16 (htons (BitVec.ofNat 16 pktReadRlySize))),
      (6, le32 (htonl (cWord (ntohl (v.recvPacket.word 6)).toInt)))] }

theorem pkoReadFile_granted {v : World} (hm : v.os.malloc v.now (sizeT (ntohl (v.recvPacket.word 10)).toInt) = true) :
    pkoReadFile.run v = ((sysRead (ntohl (v.recvPacket.word 6)).toInt (sizeT (ntohl (v.recvPacket.word 10)).toInt) >>=
        readReply).run v.readStarted).after
      [.handle (.readFile (ntohl (v.recvPacket.word 6)).toInt (ntohl (v.recvPacket.word 10)).toInt),
      .malloc (sizeT (ntohl (v.recvPacket.word 10)).toInt) true] := by
  simp only [pkoReadFile, loadPacket, Prog.run_bind, Prog.run_get, Prog.run_pure, Result.andThen_mk_some, emit,
    putWord, putHalf, putSend, setVars, sysMalloc, asks, Result.after_mk, List.nil_append, hm, Result.after_after,
    List.singleton_append, if_true]
  rfl

theorem speaks_readReply (filebuf : Option (List Byte)) : Speaks (readReply filebuf) :=
  (Sure.putSend _ _).speaks_bind fun _ => (speaks_sendReply _).bind

abbrev Untaken : World → List Act → World → Prop := AllActs fun a => ∀ s bs, a ≠ .recv s bs

theorem untaken_readReply (filebuf : Option (List Byte)) : Sat Untaken (readReply filebuf) := by
  have hreply : Sat Untaken (sendReply pktReadRlySize) := by
    refine Sat.get.bind fun w => Sat.bind (fun v => ?_) fun _ => .pure ()
    obtain ⟨ret, ⟨ha, _⟩ | ⟨ha, _⟩⟩ := sysSend_acts v w.pkoSrvFd (w.sendPacket.slice 0 pktReadRlySize)
    · simp [AllActs, ha]
    · simp [AllActs, ha]
  refine Sat.bind (fun v => by simp [AllActs, putWord, putSend, setVars]) fun _ => hreply.bind fun _ =>
    Sat.get.bind fun w => Sat.bind (fun v => ?_) fun _ => .pure 0
  exact pkoSendBytes_acts v _ _ _ (fun _ => by simp) (by simp)

theorem taken_of_untaken {m : Io α} (h : Sat Untaken m) (s : Int) (w : World) : taken s (m.run w).acts = [] :=
  taken_eq_nil fun bs hm => h w _ hm s bs rfl

theorem pkoReadFile_taken {v : World} (hm : v.os.malloc v.now (sizeT (ntohl (v.recvPacket.word 10)).toInt) = true) :
    taken (ntohl (v.recvPacket.word 6)).toInt (pkoReadFile.run v).acts =
      (v.readTakes (ntohl (v.recvPacket.word 6)).toInt (sizeT (ntohl (v.recvPacket.word 10)).toInt)).getD [] := by
  have hrun := pkoReadFile_granted hm
  have hd : v.readStarted.desc = v.desc := rfl
  generalize v.readStarted = S at hrun hd
  have ht := (sysRead_takes S (ntohl (v.recvPacket.word 6)).toInt (sizeT (ntohl (v.recvPacket.word 10)).toInt)).1
  rw [World.readTakes, hd, ← World.readTakes] at ht
  rw [hrun, Result.after_acts, taken_append, Prog.run_bind, ← ht]
  cases hv : ((sysRead (ntohl (v.recvPacket.word 6)).toInt (sizeT (ntohl (v.recvPacket.word 10)).toInt)).run S).value with
  | none =>
    rw [Result.andThen_none _ hv]
    rfl
  | some a =>
    rw [Result.andThen_some _ hv, Result.after_acts, taken_append, taken_of_untaken (untaken_readReply a),
      List.append_nil]
    rfl

theorem pkoReadFile_speaks {v : World} (hm : v.os.malloc v.now (sizeT (ntohl (v.recvPacket.word 10)).toInt) = true) :
    (v.readTakes (ntohl (v.recvPacket.word 6)).toInt (sizeT (ntohl (v.recvPacket.word 10)).toInt) ≠ none →
      SpeaksAt pkoReadFile v) ∧
    (v.readTakes (ntohl (v.recvPacket.word 6)).toInt (sizeT (ntohl (v.recvPacket.word 10)).toInt) = none →
      ∃ a b, (pkoReadFile.run v).acts = [.handle (.readFile (ntohl (v.recvPacket.word 6)).toInt
        (ntohl (v.recvPacket.word 10)).toInt), .malloc a true, .read b none, .blocks b]) := by
  have hrun := pkoReadFile_granted hm
  have hd : v.readStarted.desc = v.desc := rfl
  have hl : v.readStarted.pkoSrvFd = v.pkoSrvFd := rfl
  generalize v.readStarted = S at hrun hd hl
  have hT : ∀ fd n, S.readTakes fd n = v.readTakes fd n := fun fd n => by rw [World.readTakes, World.readTakes, hd]
  rw [← hT, SpeaksAt, hrun, Prog.run_bind]
  refine ⟨fun hn => ?_, fun hn => ?_⟩
  · obtain ⟨a, hv⟩ := Option.ne_none_iff_exists'.mp fun h => hn (readTakes_of_stuck h)
    obtain ⟨bs, ret, hs⟩ := speaks_readReply a ((sysRead (ntohl (v.recvPacket.word 6)).toInt
      (sizeT (ntohl (v.recvPacket.word 10)).toInt)).run S).state
    have hlink := (congrArg Vars.pkoSrvFd (sysRead_vars S (ntohl (v.recvPacket.word 6)).toInt
      (sizeT (ntohl (v.recvPacket.word 10)).toInt))).trans hl
    rw [Result.andThen_some _ hv]
    exact ⟨bs, ret, List.mem_append_right _ (List.mem_append_right _ (hlink ▸ hs))⟩
  · obtain ⟨hv, ha⟩ := (sysRead_takes S _ _).2 hn
    rw [Result.andThen_none _ hv, Result.after_acts, ha]
    exact ⟨_, _, rfl⟩

theorem pkoWriteFile_recv (v : World) : ∃ bs, .recv v.pkoSrvFd bs ∈ (pkoWriteFile.run v).acts := by
  have hseg : ∀ fd rounds left, ∃ bs, .recv v.pkoSrvFd bs ∈ ((writeSegments fd (rounds + 1) left).run v).acts := by
    intro fd rounds left
    have hr : ∃ bs, .recv v.pkoSrvFd bs ∈ ((pkoRecvBytes v.pkoSrvFd (.recvPacket 0)
        (if left > packetMaxsize then (packetMaxsize : Int) else left)).run v).acts := ⟨_, List.mem_cons_self⟩
    obtain ⟨bs, hm⟩ := hr
    exact ⟨bs, (Result.acts_prefix_andThen _ _).subset hm⟩
  obtain ⟨bs, hm⟩ := hseg (ntohl (v.recvPacket.word 6)).toInt (ntohl (v.recvPacket.word 10)).toInt.toNat
    (ntohl (v.recvPacket.word 10)).toInt
  refine ⟨bs, List.mem_cons_of_mem _ ?_⟩
  exact (Result.acts_prefix_andThen _ _).subset hm

theorem isolated_intake (w : World) (fd : Int) (as : List Act) : Isolated fd (w.intake fd ++ as) ↔ Isolated fd as := by
  have hrecv : ∀ s bs, .recv s bs ∈ w.intake fd → s = fd := by
    rintro s bs hm
    simp only [World.intake, List.mem_cons, Act.recv.injEq, reduceCtorEq, List.not_mem_nil, or_false, false_or] at hm
    exact hm.elim And.left And.left
  have hmem : ∀ {a : Act}, a ∈ as → a ∈ w.intake fd ++ as := fun h => List.mem_append_right _ h
  constructor
  · refine fun h => ⟨fun s n hw s' bs hr => h.payload s n (hmem hw) s' bs (hmem hr), fun s hs => ?_,
      fun s bs ret hm => h.send s bs ret (hmem hm), fun s bs hm => h.sendAll s bs (hmem hm)⟩
    have := h.taken s hs
    rw [taken_append] at this
    exact (List.append_eq_nil_iff.mp this).2
  · refine fun h => ⟨fun s n hw s' bs hr => ?_, fun s hs => ?_, fun s bs ret hm => ?_, fun s bs hm => ?_⟩
    · have hw' : .handle (.writeFile s n) ∈ as := (List.mem_append.mp hw).resolve_left (by simp [World.intake])
      rcases List.mem_append.mp hr with hr | hr
      · exact hrecv s' bs hr
      · exact h.payload s n hw' s' bs hr
    · rw [taken_append, h.taken s hs, List.append_nil]
      exact taken_eq_nil fun bs hm => hs (hrecv s bs hm)
    · exact h.send s bs ret ((List.mem_append.mp hm).resolve_left (by simp [World.intake]))
    · exact h.sendAll s bs ((List.mem_append.mp hm).resolve_left (by simp [World.intake]))

section Served

variable {v : World} {call : Call} {c : Cmd}

/-- A request that comes over the link is isolated unless it robs another
connection. -/
theorem isolated_link (h : c.call v.recvPacket = some call) :
    Isolated v.pkoSrvFd ((fileIo c).run v).acts ↔ ¬call.robs v.pkoSrvFd v := by
  obtain ⟨rest, hacts, hserves⟩ := (handles_fileIo h).acts
  have hiso : (∀ s, s ≠ v.pkoSrvFd → taken s ((fileIo c).run v).acts = []) →
      Isolated v.pkoSrvFd ((fileIo c).run v).acts := by
    refine fun ht => ⟨fun s n hw s' bs hr => ?_, ht, fun s bs ret hm => ?_, fun s bs hm => ?_⟩
    · rw [hacts] at hw hr
      have hcall : call = .writeFile s n := by
        rcases List.mem_cons.mp hw with hw | hw
        · exact (Act.handle.inj hw).symm
        · exact (hserves _ hw).elim
      have := hserves _ ((List.mem_cons.mp hr).resolve_left (by simp))
      rw [hcall] at this
      exact this
    · rw [hacts] at hm
      exact hserves _ ((List.mem_cons.mp hm).resolve_left (by simp))
    · rw [hacts] at hm
      exact hserves _ ((List.mem_cons.mp hm).resolve_left (by simp))
  have hrecv : ∀ s bs, .recv s bs ∈ ((fileIo c).run v).acts → call.takes v.pkoSrvFd s := by
    intro s bs hm
    rw [hacts] at hm
    exact hserves _ ((List.mem_cons.mp hm).resolve_left (by simp))
  cases call with
  | readFile s n =>
    obtain rfl : c = .read := by cases c <;> first | rfl | cases h
    obtain ⟨rfl, rfl⟩ : (ntohl (v.recvPacket.word 6)).toInt = s ∧ (ntohl (v.recvPacket.word 10)).toInt = n := by
      simpa [Cmd.call] using h
    have hread : ((fileIo .read).run v).acts = (pkoReadFile.run v).acts := Result.acts_andThen_pure _ _
    rw [Call.robs]
    by_cases hm : v.os.malloc v.now (sizeT (ntohl (v.recvPacket.word 10)).toInt) = true
    · have ht := pkoReadFile_taken hm
      refine ⟨fun hi hr => hr.2.2 (ht ▸ hread ▸ hi.taken _ hr.1), fun hr => hiso fun s hs => ?_⟩
      by_cases he : s = (ntohl (v.recvPacket.word 6)).toInt
      · rw [hread, he, ht]
        by_contra hne
        exact hr ⟨he ▸ hs, hm, hne⟩
      · exact taken_eq_nil fun bs hb => he (hrecv s bs hb)
    · refine iff_of_true (hiso fun s _ => ?_) fun hr => hm hr.2.1
      rw [hread, pkoReadFile_refused (Bool.eq_false_iff.mpr hm)]
      rfl
  | writeFile s n =>
    exact iff_of_true (hiso fun s' hs => taken_eq_nil fun bs hm => hs (hrecv s' bs hm)) id
  | _ => exact iff_of_true (hiso fun s' hs => taken_eq_nil fun bs hm => hrecv s' bs hm) id

/-- A request that comes from elsewhere is isolated only when it is never
answered. -/
theorem isolated_client (h : c.call v.recvPacket = some call) {fd : Int} (hfd : fd ≠ v.pkoSrvFd) :
    Isolated fd ((fileIo c).run v).acts ↔ call.unanswered v := by
  have hspeaks : SpeaksAt (fileIo c) v → ¬Isolated fd ((fileIo c).run v).acts := by
    rintro ⟨bs, ret, hm⟩ hi
    exact hfd (hi.send _ bs ret hm).symm
  have hall : ∀ {m : Io Int}, Speaks m → SpeaksAt (m >>= fun _ => (pure () : Io Unit)) v := fun hm => hm.bind v
  cases c <;> cases h
  case «open» => exact iff_of_false (hspeaks (hall speaks_pkoOpenFile)) id
  case close => exact iff_of_false (hspeaks (hall speaks_pkoCloseFile)) id
  case lseek => exact iff_of_false (hspeaks (hall speaks_pkoLseekFile)) id
  case dread => exact iff_of_false (hspeaks (hall speaks_pkoReadDir)) id
  case dclose => exact iff_of_false (hspeaks (hall speaks_pkoCloseDir)) id
  case write =>
    refine iff_of_false (fun hi => ?_) id
    have hwrite : ((fileIo .write).run v).acts = (pkoWriteFile.run v).acts := Result.acts_andThen_pure _ _
    obtain ⟨bs, hm⟩ := pkoWriteFile_recv v
    obtain ⟨rest, hacts, _⟩ := (handles_pkoWriteFile v).acts
    rw [hwrite] at hi
    exact hfd (hi.payload _ _ (hacts ▸ List.mem_cons_self) _ bs hm).symm
  case dopen =>
    have hopen : ((fileIo .dopen).run v).acts = (pkoOpenDir.run v).acts := Result.acts_andThen_pure _ _
    rw [Call.unanswered]
    by_cases hn : v.os.opendir v.now (packetStr ((pkoFixPath 10).run v).state.recvPacket 10) = none
    · refine iff_of_true ?_ hn
      rw [hopen, pkoOpenDir_none hn]
      exact ⟨by simp, fun _ _ => rfl, by simp, by simp⟩
    · refine iff_of_false (hspeaks ?_) hn
      rw [SpeaksAt, hopen]
      exact speaks_pkoOpenDir hn
  case read =>
    have hread : ((fileIo .read).run v).acts = (pkoReadFile.run v).acts := Result.acts_andThen_pure _ _
    rw [Call.unanswered]
    by_cases hm : v.os.malloc v.now (sizeT (ntohl (v.recvPacket.word 10)).toInt) = true
    · obtain ⟨hsome, hnone⟩ := pkoReadFile_speaks hm
      by_cases hn : v.readTakes (ntohl (v.recvPacket.word 6)).toInt (sizeT (ntohl (v.recvPacket.word 10)).toInt) = none
      · obtain ⟨a, b, hacts⟩ := hnone hn
        refine iff_of_true ?_ (.inr hn)
        rw [hread, hacts]
        exact ⟨by simp, fun _ _ => rfl, by simp, by simp⟩
      · refine iff_of_false (hspeaks ?_) fun hu => hu.elim (by rw [hm]; exact Bool.noConfusion) hn
        rw [SpeaksAt, hread]
        exact hsome hn
    · refine iff_of_true ?_ (.inl (Bool.eq_false_iff.mpr hm))
      rw [hread, pkoReadFile_refused (Bool.eq_false_iff.mpr hm)]
      exact ⟨by simp, fun _ _ => rfl, by simp, by simp⟩

end Served

def Server.Asked (c : Server) (w : World) : Prop := ∃ d, w.request c.fd = some d ∧ d.isFileIo = true

theorem isolated_waits (fd : Int) (as : List Act) (h : ∀ a ∈ as, ∃ bs, a = .recv fd bs ∨ a = .starves fd ∨ ∃ n, a = .store n bs) :
    Isolated fd as := by
  refine ⟨fun s n hm => ?_, fun s hs => taken_eq_nil fun bs hm => hs ?_, fun s bs ret hm => ?_, fun s bs hm => ?_⟩
  · obtain ⟨bs, h⟩ := h _ hm
    simp at h
  · obtain ⟨bs, h⟩ := h _ hm
    simp at h
    exact h.1
  · obtain ⟨bs, h⟩ := h _ hm
    simp at h
  · obtain ⟨bs, h⟩ := h _ hm
    simp at h

theorem brings_of_request {w : World} {fd : Int} {c : Cmd} {call : Call} (hc : w.request fd = some c)
    (h : c.call (w.withPacket fd).recvPacket = some call) {call' : Call} (hb : w.Brings fd call') : call' = call := by
  obtain ⟨_, c', hc', h'⟩ := hb
  rw [hc, Option.some.injEq] at hc'
  subst hc'
  exact Option.some.inj (h'.symm.trans h)

theorem packetRead_isolated_iff {eof : Io Int} {keep : Cmd → Bool} (hk : ∀ c : Cmd, c.isFileIo = true → keep c = true)
    {w : World} {fd : Int} {c : Cmd} (hc : w.request fd = some c) (hf : c.isFileIo = true) :
    Isolated fd ((packetRead fd eof keep).run w).acts ↔ Apart w fd := by
  have hl : ¬(w.pending fd).length < pktHdrSize := by
    intro hn
    rw [World.request, if_neg (Nat.not_le.mpr hn)] at hc
    cases hc
  obtain ⟨call, hcall⟩ := Option.isSome_iff_exists.mp ((c.isFileIo_iff_call (w.withPacket fd).recvPacket).mp hf)
  have hlink : (w.withPacket fd).pkoSrvFd = w.pkoSrvFd := Vars.link_eq (withPacket_wiring w fd)
  refine packetRead_elim (P := fun r => Isolated fd r.acts ↔ Apart w fd) (fun _ hb => ?_) (fun _ hb => ?_)
    (fun h => absurd h hl) (fun h => absurd h hl) fun h => absurd h hl
  · have hbrings : w.Brings fd call := ⟨hb, c, hc, hcall⟩
    have hacts : ((switch ((w.request fd).filter keep) >>= fun _ => (pure 0 : Io Int)).run (w.withPacket fd)).acts =
        ((fileIo c).run (w.withPacket fd)).acts := by
      rw [hc, Option.filter_some_pos (hk c hf), switch, if_pos hf]
      exact Result.acts_andThen_pure _ _
    rw [Result.after_acts, isolated_intake, hacts]
    by_cases he : fd = w.pkoSrvFd
    · have hiso := isolated_link hcall
      rw [hlink, ← he] at hiso
      rw [hiso]
      refine ⟨fun hr call' hb' => ?_, fun ha => ?_⟩
      · rw [if_pos he, brings_of_request hc hcall hb']
        exact hr
      · have := ha call hbrings
        rwa [if_pos he] at this
    · rw [isolated_client hcall (hlink ▸ he)]
      refine ⟨fun hr call' hb' => ?_, fun ha => ?_⟩
      · rw [if_neg he, brings_of_request hc hcall hb']
        exact hr
      · have := ha call hbrings
        rwa [if_neg he] at this
  · refine iff_of_true ?_ fun call' hb' => absurd hb'.1 hb
    refine isolated_waits fd _ fun a ha => ?_
    rcases List.mem_append.mp ha with ha | ha
    · simp only [World.intake, List.mem_cons, List.not_mem_nil, or_false] at ha
      rcases ha with rfl | rfl | rfl | rfl
      · exact ⟨_, .inl rfl⟩
      · exact ⟨_, .inr (.inr ⟨_, rfl⟩)⟩
      · exact ⟨_, .inl rfl⟩
      · exact ⟨_, .inr (.inr ⟨_, rfl⟩)⟩
    · rw [List.mem_singleton.mp ha]
      exact ⟨[], .inr (.inl rfl)⟩

/-- In every run of the dispatchers every file request is isolated from the
other connections exactly when it keeps apart from them. -/
theorem requests_isolated_iff (cs : List Server) (w : World) :
    (∀ e ∈ journal cs w, e.1.Asked e.2 → Isolated e.1.fd (e.1.read.run e.2).acts) ↔
      ∀ e ∈ journal cs w, e.1.Asked e.2 → Apart e.2 e.1.fd := by
  refine forall₂_congr fun e _ => forall_congr' fun ⟨c, hc, hf⟩ => ?_
  obtain ⟨eof, keep, hr, _, hk⟩ := server_cases e.1
  rw [hr]
  exact packetRead_isolated_iff hk hc hf

def clientCloses : World :=
  .linked .refusing 3 [(3, .sock (.delivering [])),
    (7, .sock (.delivering (be32 closeCmd ++ be16 10 ++ be32 9)))]

/-- The reply goes to the link. -/
theorem client_answered_on_link : ¬∀ cs w, ∀ e ∈ journal cs w, e.1.Asked e.2 →
    Isolated e.1.fd (e.1.read.run e.2).acts := by
  intro h
  have hp : clientCloses.pending 7 = be32 closeCmd ++ (be16 (BitVec.ofNat 16 10) ++ be32 9) :=
    (Inflow.live_push _ _ _).trans (List.append_nil _)
  have hreq := (header_read (c := .close) (by decide) hp).2.1
  have hi : Isolated 7 ((Server.pksh 7).read.run clientCloses).acts :=
    h [.pksh 7] clientCloses _ (head_mem_journal _ _ _) ⟨.close, hreq, rfl⟩
  have hs : Act.send 3 (be32 closeRly ++ be16 10 ++ be32 (-1)) (some 10) ∈
      ((Server.pksh 7).read.run clientCloses).acts := by decide +kernel
  exact absurd (hi.send _ _ _ hs) (by decide)

end Pksh
