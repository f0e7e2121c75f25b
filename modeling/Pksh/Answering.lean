import Pksh.Receiving

/-! One request, one reply. A handler does silent work until it sends its
reply; it goes without one only where a directory cannot be opened or a read
buffer cannot be had. -/

namespace Pksh

open Wire Traced

variable {α β : Type}

/-- The command codes of the packets a run sends. -/
def sentCodes (as : List Act) : List Word :=
  as.filterMap fun
    | .send _ bytes _ => some (ofBe32 bytes)
    | _ => none

/-- The calls whose failure the handlers do not report. -/
def Act.refusal : Act → Bool
  | .opendir _ none | .malloc _ false => true
  | _ => false

def Act.mute : Act → Bool
  | .send _ _ _ => false
  | a => !a.refusal

@[simp] theorem sentCodes_append (as bs : List Act) :
    sentCodes (as ++ bs) = sentCodes as ++ sentCodes bs := by
  simp [sentCodes]

theorem sentCodes_mute {as : List Act} (h : ∀ a ∈ as, a.mute = true) : sentCodes as = [] := by
  rw [sentCodes, List.filterMap_eq_nil_iff]
  intro a ha
  cases a with
  | send s bs ret => cases h _ ha
  | _ => rfl

/-- The command field of the reply under construction. -/
def World.head (w : World) : List Byte := w.sendPacket.slice 0 4

def Act.stuck : Act → Bool
  | .starves _ | .blocks _ | .unlinked => true
  | _ => false

/-- The run does not return because a call in it does not. -/
def Stuck (r : Result World Act α) : Prop := r.value = none ∧ ∃ a ∈ r.acts, a.stuck = true

def Silent (m : Io α) : Prop :=
  ∀ w, (∀ a ∈ (m.run w).acts, a.mute = true) ∧ (m.run w).state.head = w.head ∧
    ((m.run w).value = none → Stuck (m.run w))

/-- Either a call is refused and nothing is sent, or exactly one reply is sent
unless some call never returns. -/
structure Served (code : Word) (r : Result World Act α) : Prop where
  stuck : r.value = none → Stuck r
  sent : ((∃ a ∈ r.acts, a.refusal = true) ∧ r.value ≠ none ∧ sentCodes r.acts = []) ∨
    (∀ a ∈ r.acts, a.refusal = false) ∧
      (sentCodes r.acts = [code] ∨ Stuck r ∧ sentCodes r.acts = [])

def Serves (code : Word) (m : Io α) : Prop := ∀ w, Served code (m.run w)

/-- Right once the command field of the reply is filled in. -/
def Replies (code : Word) (m : Io α) : Prop := ∀ w, w.head = be32 code → Served code (m.run w)

theorem Stuck.after {r : Result World Act α} (h : Stuck r) (as : List Act) : Stuck (r.after as) :=
  ⟨h.1, h.2.imp fun _ ha => ha.imp_left (List.mem_append_right _)⟩

theorem Act.refusal_of_mute {a : Act} (h : a.mute = true) : a.refusal = false := by
  cases a <;> simp_all [mute, refusal]

section Silent

variable {m : Io α} {f : α → Io β}

theorem Silent.pure (a : α) : Silent (pure a : Io α) := fun w => ⟨by simp, rfl, by simp⟩

theorem Silent.get : Silent (Prog.get : Io World) := fun w => ⟨by simp, rfl, by simp⟩

theorem Silent.bind (hm : Silent m) (hf : ∀ a, Silent (f a)) : Silent (m >>= f) := by
  intro w
  obtain ⟨h1, h2, h3⟩ := hm w
  cases hv : (m.run w).value with
  | none =>
    rw [Prog.run_bind, Result.andThen_none _ hv]
    exact ⟨h1, h2, fun _ => ⟨rfl, (h3 hv).2⟩⟩
  | some a =>
    obtain ⟨h1', h2', h3'⟩ := hf a (m.run w).state
    rw [Prog.run_bind, Result.andThen_some _ hv]
    refine ⟨fun b hb => ?_, h2'.trans h2, fun hn => (h3' hn).after _⟩
    rcases List.mem_append.mp hb with hb | hb
    · exact h1 b hb
    · exact h1' b hb

theorem Served.after {code : Word} {r : Result World Act α} (h : Served code r) {as : List Act}
    (ha : ∀ a ∈ as, a.mute = true) : Served code (r.after as) := by
  have hc : sentCodes (r.after as).acts = sentCodes r.acts := by
    rw [Result.after_acts, sentCodes_append, sentCodes_mute ha, List.nil_append]
  refine ⟨fun hv => (h.stuck hv).after as, ?_⟩
  rcases h.sent with ⟨⟨a, hr, hr'⟩, hv, hs⟩ | ⟨hn, hs⟩
  · exact .inl ⟨⟨a, List.mem_append_right _ hr, hr'⟩, hv, hc ▸ hs⟩
  · refine .inr ⟨fun a hm => ?_, ?_⟩
    · rcases List.mem_append.mp hm with hm | hm
      · exact Act.refusal_of_mute (ha a hm)
      · exact hn a hm
    · rw [hc]
      exact hs.imp_right fun hs => ⟨hs.1.after as, hs.2⟩

theorem Silent.served_of_none (hm : Silent m) (code : Word) {w : World} (hv : (m.run w).value = none) :
    Served code ((m >>= f).run w) := by
  obtain ⟨h1, _, h3⟩ := hm w
  rw [Prog.run_bind, Result.andThen_none _ hv]
  have hs : Stuck (⟨none, (m.run w).state, (m.run w).acts⟩ : Result World Act β) := ⟨rfl, (h3 hv).2⟩
  exact ⟨fun _ => hs, .inr ⟨fun a ha => Act.refusal_of_mute (h1 a ha), .inr ⟨hs, sentCodes_mute h1⟩⟩⟩

theorem Silent.serves_bind {code : Word} (hm : Silent m) (hf : ∀ a, Serves code (f a)) :
    Serves code (m >>= f) := by
  intro w
  cases hv : (m.run w).value with
  | none => exact hm.served_of_none code hv
  | some a =>
    rw [Prog.run_bind, Result.andThen_some _ hv]
    exact (hf a _).after (hm w).1

theorem Silent.replies_bind {code : Word} (hm : Silent m) (hf : ∀ a, Replies code (f a)) :
    Replies code (m >>= f) := by
  intro w hw
  cases hv : (m.run w).value with
  | none => exact hm.served_of_none code hv
  | some a =>
    rw [Prog.run_bind, Result.andThen_some _ hv]
    exact (hf a _ ((hm w).2.1.trans hw)).after (hm w).1

theorem Served.bind_of_none {code : Word} {w : World} (hm : Served code (m.run w)) (hv : (m.run w).value = none) :
    Served code ((m >>= f).run w) := by
  rw [Prog.run_bind, Result.andThen_none _ hv]
  refine ⟨fun _ => ⟨rfl, (hm.stuck hv).2⟩, ?_⟩
  rcases hm.sent with ⟨h, hv', hs⟩ | ⟨hn, hs⟩
  · exact absurd hv hv'
  · exact .inr ⟨hn, hs.imp_right fun hs => ⟨⟨rfl, hs.1.2⟩, hs.2⟩⟩

theorem Served.bind_pure {code : Word} {w : World} (hm : Served code (m.run w)) (b : β) :
    Served code ((m >>= fun _ => pure b).run w) := by
  cases hv : (m.run w).value with
  | none => exact hm.bind_of_none hv
  | some a =>
    rw [Prog.run_bind, Result.andThen_some _ hv]
    refine ⟨fun h => by simp at h, ?_⟩
    rcases hm.sent with ⟨⟨c, hc, hc'⟩, _, hs⟩ | ⟨hn, hs⟩
    · exact .inl ⟨⟨c, List.mem_append_left _ hc, hc'⟩, by simp, by simpa using hs⟩
    · refine .inr ⟨by simpa using hn, ?_⟩
      rcases hs with hs | ⟨hs, _⟩
      · exact .inl (by simpa using hs)
      · rw [hs.1] at hv
        cases hv

theorem Served.bind_silent {code : Word} {w : World} (hm : Served code (m.run w))
    (hr : ∀ a ∈ (m.run w).acts, a.refusal = false) (hf : ∀ a, Silent (f a)) :
    Served code ((m >>= f).run w) := by
  cases hv : (m.run w).value with
  | none => exact hm.bind_of_none hv
  | some a =>
    obtain ⟨h1, _, h3⟩ := hf a (m.run w).state
    rw [Prog.run_bind, Result.andThen_some _ hv]
    refine ⟨fun hn => (h3 hn).after _, ?_⟩
    have hn : ∀ b ∈ (((f a).run (m.run w).state).after (m.run w).acts).acts, b.refusal = false := by
      intro b hb
      rcases List.mem_append.mp hb with hb | hb
      · exact hr b hb
      · exact Act.refusal_of_mute (h1 b hb)
    have hc : sentCodes (((f a).run (m.run w).state).after (m.run w).acts).acts =
        sentCodes (m.run w).acts := by
      rw [Result.after_acts, sentCodes_append, sentCodes_mute h1, List.append_nil]
    rcases hm.sent with ⟨⟨b, hb, hb'⟩, _⟩ | ⟨_, hs | ⟨hs, _⟩⟩
    · rw [hr b hb] at hb'
      cases hb'
    · exact .inr ⟨hn, .inl (hc.trans hs)⟩
    · rw [hs.1] at hv
      cases hv

end Silent

namespace Silent

theorem of_returns {m : Io α} (hm : ∀ w, ∀ a ∈ (m.run w).acts, a.mute = true)
    (hs : ∀ w, (m.run w).state.sendPacket = w.sendPacket) (hv : ∀ w, (m.run w).value ≠ none) :
    Silent m :=
  fun w => ⟨hm w, by rw [World.head, hs]; rfl, fun h => absurd h (hv w)⟩

theorem asks {answer : World → α} {act : α → Act} {h : ∀ a, (act a).quiet = true}
    (ha : ∀ a, (act a).mute = true) : Silent (asks answer act h) :=
  of_returns (fun w => by simp [Pksh.asks, ha]) (fun _ => rfl) (by simp [Pksh.asks])

theorem emit {a : Act} {h : a.quiet = true} (ha : a.mute = true) : Silent (emit a h) :=
  of_returns (fun w => by simp [Pksh.emit, ha]) (fun _ => rfl) (by simp [Pksh.emit])

theorem setVars {f : Vars → Vars} (h : ∀ v, (f v).sendPacket = v.sendPacket) : Silent (setVars f) :=
  of_returns (by simp [Pksh.setVars]) (fun w => h w.toVars) (by simp [Pksh.setVars])

theorem loadPacket : Silent loadPacket := get.bind fun w => pure w.recvPacket

theorem putSend {off : Nat} (h : 4 ≤ off) (bs : List Byte) : Silent (putSend off bs) :=
  fun _ => ⟨by simp [Pksh.putSend, Pksh.setVars], Mem.slice_store_disjoint (.inl h),
    by simp [Pksh.putSend, Pksh.setVars]⟩

theorem pkoFixPath (off : Nat) : Silent (pkoFixPath off) := setVars fun _ => rfl

theorem sysOpen (path : List Byte) (flags : Word) (mode : Nat) : Silent (sysOpen path flags mode) := by
  refine of_returns (fun w => ?_) (fun w => ?_) (fun w => ?_) <;>
    (simp only [Pksh.sysOpen]; split) <;> simp [Act.mute, Act.refusal, World.tick, World.setDesc]

theorem sysClose (fd : Int) : Silent (sysClose fd) :=
  of_returns (by simp [Pksh.sysClose, Act.mute, Act.refusal]) (fun _ => rfl) (by simp [Pksh.sysClose])

theorem sysLocaltime (time : Int) : Silent (sysLocaltime time) :=
  of_returns (by simp [Pksh.sysLocaltime]) (fun _ => rfl) (by simp [Pksh.sysLocaltime])

theorem sysRead (fd : Int) (n : Nat) : Silent (sysRead fd n) :=
  fun w => ⟨sysRead_acts w fd n (fun _ => rfl) (fun _ => rfl) rfl,
    by rw [World.head, sysRead_vars]; rfl, fun h => ⟨h, _, sysRead_stuck w fd n h, rfl⟩⟩

theorem sysWrite (fd : Int) (bs : List Byte) : Silent (sysWrite fd bs) :=
  fun w => ⟨sysWrite_acts w fd bs (fun _ => rfl) rfl, by rw [World.head, sysWrite_vars]; rfl,
    fun h => ⟨h, _, sysWrite_stuck w fd bs h, rfl⟩⟩

theorem pkoRecvBytes (s : Int) (buf : Buf) (bytes : Int) : Silent (pkoRecvBytes s buf bytes) := by
  refine fun w => ⟨pkoRecvBytes_acts w s buf bytes (fun _ => rfl) ?_ rfl, ?_,
    fun h => ⟨h, _, pkoRecvBytes_stuck w s buf bytes h, rfl⟩⟩
  · cases buf <;> simp [Buf.stored, Act.mute, Act.refusal]
  · obtain ⟨bs, hv⟩ := pkoRecvBytes_vars w s buf bytes
    rw [World.head, hv]
    cases buf <;> rfl

theorem pkoSendBytes (s : Int) (buf : List Byte) (bytes : Int) : Silent (pkoSendBytes s buf bytes) :=
  fun w => ⟨pkoSendBytes_acts w s buf bytes (fun _ => rfl) rfl,
    by rw [World.head, pkoSendBytes_vars]; rfl, fun h => ⟨h, _, pkoSendBytes_stuck w s buf bytes h, rfl⟩⟩

end Silent

theorem served_sysSend (s : Int) (bs : List Byte) (w : World) :
    Served (ofBe32 bs) ((sysSend s bs).run w) := by
  obtain ⟨ret, ⟨ha, hv⟩ | ⟨ha, _⟩⟩ := sysSend_acts w s bs
  · exact ⟨fun h => absurd h hv,
      .inr ⟨by simp [ha, Act.refusal], .inl (by simp [ha, sentCodes])⟩⟩
  · exact ⟨fun h => ⟨h, .blocks s, by simp [ha], rfl⟩,
      .inr ⟨by simp [ha, Act.refusal], .inl (by simp [ha, sentCodes])⟩⟩

theorem refusal_sysSend (s : Int) (bs : List Byte) (w : World) :
    ∀ a ∈ ((sysSend s bs).run w).acts, a.refusal = false := by
  obtain ⟨ret, ⟨ha, _⟩ | ⟨ha, _⟩⟩ := sysSend_acts w s bs
  · simp [ha, Act.refusal]
  · simp [ha, Act.refusal]

theorem refusal_sendReply (size : Nat) (w : World) :
    ∀ a ∈ ((sendReply size).run w).acts, a.refusal = false := by
  intro a ha
  refine refusal_sysSend w.pkoSrvFd (w.sendPacket.slice 0 size) w a ?_
  change a ∈ ((sysSend _ _ >>= fun _ => pure ()).run w).acts at ha
  rw [Prog.run_bind] at ha
  cases hv : ((sysSend w.pkoSrvFd (w.sendPacket.slice 0 size)).run w).value with
  | none => rwa [Result.andThen_none _ hv] at ha
  | some v =>
    rw [Result.andThen_some _ hv] at ha
    simpa using ha

theorem replies_sendReply {code : Word} {size : Nat} (h : 4 ≤ size) {f : Unit → Io β}
    (hf : ∀ a, Silent (f a)) : Replies code (sendReply size >>= f) := by
  intro w hw
  have hc : ofBe32 (w.sendPacket.slice 0 size) = code := by
    rw [← ofBe32_take _ (Nat.le_refl 4), Mem.slice_take _ _ h]
    exact (congrArg ofBe32 hw).trans (ofBe32_be32 code)
  have hs : Served code ((sendReply size).run w) :=
    hc ▸ (served_sysSend w.pkoSrvFd _ w).bind_silent (refusal_sysSend _ _ w) fun _ => .pure ()
  exact hs.bind_silent (refusal_sendReply size w) hf

/-- Silent work that fills in the command field of the reply. -/
def Sets (code : Word) (m : Io α) : Prop :=
  ∀ w, (∀ a ∈ (m.run w).acts, a.mute = true) ∧ (m.run w).state.head = be32 code ∧
    (m.run w).value ≠ none

theorem Sets.serves_bind {code : Word} {m : Io α} {f : α → Io β} (hm : Sets code m)
    (hf : ∀ a, Replies code (f a)) : Serves code (m >>= f) := by
  intro w
  obtain ⟨h1, h2, h3⟩ := hm w
  obtain ⟨a, hv⟩ := Option.ne_none_iff_exists'.mp h3
  rw [Prog.run_bind, Result.andThen_some _ hv]
  exact (hf a _ h2).after h1

theorem head_store_code (m : Mem) (code : Word) :
    (m.store 0 (le32 (htonl code))).slice 0 4 = be32 code := by
  rw [le32_htonl]
  exact Mem.slice_store m 0 (be32 code)

theorem sets_putWord (code : Word) : Sets code (putWord 0 (htonl code)) :=
  fun w => ⟨by simp [putWord, putSend, setVars], head_store_code w.sendPacket code,
    by simp [putWord, putSend, setVars]⟩

theorem sets_putFileRly (code retval : Word) : Sets code (putFileRly code retval) := by
  refine fun w => ⟨by simp [putFileRly, putWord, putHalf, putSend, setVars], ?_,
    by simp [putFileRly, putWord, putHalf, putSend, setVars]⟩
  change Mem.slice (Mem.store (Mem.store _ 4 _) 6 _) 0 4 = _
  rw [Mem.slice_store_disjoint (.inl (by omega)), Mem.slice_store_disjoint (.inl (by omega))]
  exact head_store_code w.sendPacket code

theorem serves_answer (code retval : Word) : Serves code (answer code retval) :=
  (sets_putFileRly code retval).serves_bind fun _ =>
    replies_sendReply (by decide) fun _ => .pure 0

theorem serves_pkoCloseFile : Serves closeRly pkoCloseFile :=
  Silent.loadPacket.serves_bind fun _ =>
  (Silent.emit rfl).serves_bind fun _ =>
  (Silent.sysClose _).serves_bind fun _ => serves_answer _ _

theorem serves_pkoCloseDir : Serves dcloseRly pkoCloseDir :=
  Silent.loadPacket.serves_bind fun _ =>
  (Silent.emit rfl).serves_bind fun _ =>
  (Silent.asks fun _ => rfl).serves_bind fun _ => serves_answer _ _

theorem serves_pkoLseekFile : Serves lseekRly pkoLseekFile :=
  Silent.loadPacket.serves_bind fun _ =>
  (Silent.emit rfl).serves_bind fun _ =>
  (Silent.asks fun _ => rfl).serves_bind fun _ => serves_answer _ _

theorem silent_openAlong (name : List Byte) (flags : Word) (dirs : List (List Byte)) :
    Silent (openAlong name flags dirs) := by
  induction dirs with
  | nil => exact .pure _
  | cons dir dirs ih =>
    refine (Silent.sysOpen _ _ _).bind fun retval => ?_
    by_cases h : retval ≠ -1
    · rw [if_pos h]
      exact .pure _
    · rw [if_neg h]
      exact ih

theorem Silent.ite {c : Prop} [Decidable c] {p q : Io α} (hp : Silent p) (hq : Silent q) :
    Silent (if c then p else q) := by
  split
  · exact hp
  · exact hq

theorem serves_pkoOpenFile : Serves openRly pkoOpenFile := by
  refine Silent.loadPacket.serves_bind fun _ => (Silent.emit rfl).serves_bind fun _ =>
    (Silent.pkoFixPath 10).serves_bind fun _ => Silent.loadPacket.serves_bind fun m =>
    (Silent.sysOpen _ _ _).serves_bind fun first => Silent.get.serves_bind fun w => ?_
  by_cases h : first = -1
  · simp only [if_pos h]
    exact (silent_openAlong _ _ _).serves_bind fun _ => serves_answer _ _
  · simp only [if_neg h]
    exact (Silent.pure first).serves_bind fun _ => serves_answer _ _

theorem silent_writeSegments (fd : Int) (rounds : Nat) (bytesLeft : Int) :
    Silent (writeSegments fd rounds bytesLeft) := by
  induction rounds generalizing bytesLeft with
  | zero => exact .pure _
  | succ rounds ih =>
    refine Silent.get.bind fun w => (Silent.pkoRecvBytes _ _ _).bind fun received => ?_
    refine .ite (.pure _) (Silent.loadPacket.bind fun m => (Silent.sysWrite _ _).bind fun written => ?_)
    cases written with
    | none => exact .pure _
    | some n => exact .ite (.pure _) (.ite (ih _) (.pure _))

theorem serves_pkoWriteFile : Serves writeRly pkoWriteFile :=
  Silent.loadPacket.serves_bind fun _ =>
  (Silent.emit rfl).serves_bind fun _ =>
  (silent_writeSegments _ _ _).serves_bind fun _ => serves_answer _ _

theorem silent_putTime {off : Nat} (h : 4 ≤ off) (time : Int) : Silent (putTime off time) := by
  refine (Silent.sysLocaltime time).bind fun tm => ?_
  cases tm with
  | none => exact .pure _
  | some tm => exact .putSend (by omega) _

theorem serves_pkoReadDir : Serves dreadRly pkoReadDir := by
  refine Silent.loadPacket.serves_bind fun m => (Silent.emit rfl).serves_bind fun _ =>
    (sets_putWord dreadRly).serves_bind fun _ => (Silent.putSend (by decide) _).replies_bind fun _ =>
    (Silent.asks fun _ => rfl).replies_bind fun entry =>
    (Silent.putSend (by decide) _).replies_bind fun _ => ?_
  have hs : Replies dreadRly (sendReply pktDreadRlySize >>= fun _ => (pure 0 : Io Int)) :=
    replies_sendReply (by decide) fun _ => .pure 0
  by_cases h : entry.1 = 0
  · rw [if_pos h]
    exact hs
  · rw [if_neg h]
    exact (Silent.asks fun _ => rfl).replies_bind fun st =>
      (Silent.putSend (by decide) _).replies_bind fun _ =>
      (Silent.putSend (by decide) _).replies_bind fun _ =>
      (Silent.putSend (by decide) _).replies_bind fun _ =>
      (silent_putTime (by decide) _).replies_bind fun _ =>
      (silent_putTime (by decide) _).replies_bind fun _ =>
      (silent_putTime (by decide) _).replies_bind fun _ =>
      (Silent.putSend (by decide) _).replies_bind fun _ =>
      (Silent.putSend (by decide) _).replies_bind fun _ => hs

theorem replies_refusal {code : Word} {γ : Type} {answer : World → γ} {act : γ → Act}
    {hq : ∀ a, (act a).quiet = true} {f : γ → Io Int}
    (hr : ∀ a, (act a).refusal = true → (f a) = pure (-1))
    (hf : ∀ a, (act a).refusal = false → (act a).mute = true ∧ Replies code (f a)) :
    Replies code (asks answer act hq >>= f) := by
  intro w hw
  cases ha : (act (answer w)).refusal with
  | true =>
    have hs : sentCodes [act (answer w)] = [] := by
      cases h : act (answer w) with
      | send s bs ret => rw [h] at ha; cases ha
      | _ => rfl
    refine ⟨fun h => ?_, .inl ⟨⟨act (answer w), by simp [asks], ha⟩, ?_, ?_⟩⟩
    · simp [asks, hr _ ha] at h
    · simp [asks, hr _ ha]
    · simpa [asks, hr _ ha] using hs
  | false =>
    obtain ⟨hm, hs⟩ := hf _ ha
    exact (hs w.tick hw).after (by simpa [asks] using hm)

theorem serves_pkoOpenDir : Serves dopenRly pkoOpenDir := by
  refine Silent.loadPacket.serves_bind fun m => (Silent.emit rfl).serves_bind fun _ =>
    (sets_putWord dopenRly).serves_bind fun _ => (Silent.putSend (by decide) _).replies_bind fun _ =>
    (Silent.pkoFixPath 10).replies_bind fun _ => Silent.loadPacket.replies_bind fun m => ?_
  refine replies_refusal (fun dirp h => ?_) fun dirp h => ?_
  · cases dirp with
    | none => rfl
    | some dirp => cases h
  · cases dirp with
    | none => cases h
    | some dirp =>
      exact ⟨rfl, (Silent.putSend (by decide) _).replies_bind fun _ =>
        replies_sendReply (by decide) fun _ => .pure 0⟩

theorem serves_pkoReadFile : Serves readRly pkoReadFile := by
  refine Silent.loadPacket.serves_bind fun m => (Silent.emit rfl).serves_bind fun _ =>
    (sets_putWord readRly).serves_bind fun _ => (Silent.putSend (by decide) _).replies_bind fun _ =>
    (Silent.putSend (by decide) _).replies_bind fun _ => ?_
  refine replies_refusal (fun ok h => ?_) fun ok h => ?_
  · cases ok with
    | false => rfl
    | true => cases h
  · cases ok with
    | false => cases h
    | true =>
      refine ⟨rfl, (Silent.sysRead _ _).replies_bind fun filebuf =>
        (Silent.putSend (by decide) _).replies_bind fun _ => replies_sendReply (by decide) fun _ => ?_⟩
      exact Silent.get.bind fun w => (Silent.pkoSendBytes _ _ _).bind fun _ => .pure 0

theorem serves_fileIo {c : Cmd} {code : Word} (h : c.rly = some code) : Serves code (fileIo c) := by
  cases c <;> cases h
  · exact fun w => (serves_pkoOpenFile w).bind_pure _
  · exact fun w => (serves_pkoCloseFile w).bind_pure _
  · exact fun w => (serves_pkoReadFile w).bind_pure _
  · exact fun w => (serves_pkoWriteFile w).bind_pure _
  · exact fun w => (serves_pkoLseekFile w).bind_pure _
  · exact fun w => (serves_pkoOpenDir w).bind_pure _
  · exact fun w => (serves_pkoReadDir w).bind_pure _
  · exact fun w => (serves_pkoCloseDir w).bind_pure _

end Pksh
