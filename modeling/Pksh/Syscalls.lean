import Pksh.World

/-! The system calls, and the two loops that move a fixed number of bytes. -/

namespace Pksh

open Wire Traced

/-- An act that neither opens nor closes a descriptor nor takes bytes. -/
def Act.quiet : Act → Bool
  | .recv _ _ | .openFile _ (some _) | .socket _ (some _) | .accept _ | .close _ => false
  | _ => true

theorem Act.opened_of_quiet {a : Act} (h : a.quiet = true) : a.opened = none := by
  cases a with
  | openFile p r => cases r <;> simp_all [quiet, opened]
  | socket type r => cases r <;> simp_all [quiet, opened]
  | accept fd => cases h
  | _ => rfl

theorem Accounted.of_quiet {w w' : World} {as : List Act} (hos : w'.os = w.os)
    (hp : w'.pkshSrvFd = w.pkshSrvFd) (hl : w'.logFd = w.logFd) (hd : w'.desc = w.desc)
    (h : as.all Act.quiet = true) : Accounted w as w' := by
  rw [List.all_eq_true] at h
  exact of_desc hos hp hl hd (fun s bs hm => by cases h _ hm) fun a ha => Act.opened_of_quiet (h a ha)

def emit (a : Act) (h : a.quiet = true) : Io Unit :=
  ⟨fun w => ⟨some (), w, [a]⟩, fun _ => .of_quiet rfl rfl rfl rfl (by simpa using h)⟩

theorem emit_bind {α : Type} (a : Act) (h : a.quiet = true) (f : Unit → Io α) (v : World) :
    (emit a h >>= f).run v = ((f ()).run v).after [a] := rfl

def setVars (f : Vars → Vars) : Io Unit :=
  ⟨fun w => ⟨some (), { w with toVars := f w.toVars }, []⟩, fun _ => .of_quiet rfl rfl rfl rfl rfl⟩

/-- A call whose answer only depends on the state. -/
def asks {α : Type} (answer : World → α) (act : α → Act) (h : ∀ a, (act a).quiet = true) : Io α :=
  ⟨fun w => ⟨some (answer w), w.tick, [act (answer w)]⟩,
    fun _ => .of_quiet rfl rfl rfl rfl (by simpa using h _)⟩

theorem asks_bind {α β : Type} {answer : World → α} {act : α → Act} {h : ∀ a, (act a).quiet = true} (f : α → Io β)
    (v : World) : (asks answer act h >>= f).run v = ((f (answer v)).run v.tick).after [act (answer v)] := rfl

def sysMalloc (n : Nat) : Io Bool :=
  asks (fun w => w.os.malloc w.now n) (.malloc n) fun _ => rfl

def sysLseek (fd offset whence : Int) : Io Int :=
  asks (fun w => if (w.desc fd).isSome then w.os.lseek w.now fd offset whence else -1) (.lseek fd)
    fun _ => rfl

def sysOpendir (path : List Byte) : Io (Option Word) :=
  asks (fun w => w.os.opendir w.now path) (.opendir path) fun _ => rfl

theorem sysOpendir_bind {α : Type} (path : List Byte) (f : Option Word → Io α) (v : World) :
    (sysOpendir path >>= f).run v = ((f (v.os.opendir v.now path)).run v.tick).after [.opendir path (v.os.opendir v.now path)] :=
  asks_bind f v

def sysReaddir (dir : Word) : Io (Word × List Byte) :=
  asks (fun w => w.os.readdir w.now dir) (fun _ => .readdir dir) fun _ => rfl

theorem sysReaddir_bind {α : Type} (dir : Word) (f : Word × List Byte → Io α) (v : World) :
    (sysReaddir dir >>= f).run v = ((f (v.os.readdir v.now dir)).run v.tick).after [.readdir dir] := asks_bind f v

def sysClosedir (dir : Word) : Io Int :=
  asks (fun w => w.os.closedir w.now dir) (fun _ => .closedir dir) fun _ => rfl

def sysStat (path : List Byte) : Io (Bool × Stat) :=
  asks (fun w => w.os.stat w.now path) (fun r => .stat path r.1) fun _ => rfl

theorem sysStat_bind {α : Type} (path : List Byte) (f : Bool × Stat → Io α) (v : World) :
    (sysStat path >>= f).run v = ((f (v.os.stat v.now path)).run v.tick).after [.stat path (v.os.stat v.now path).1] :=
  asks_bind f v

/-- `localtime` asks the time zone, not the kernel. -/
def sysLocaltime (time : Int) : Io (Option Tm) :=
  ⟨fun w => ⟨some (w.os.localtime w.now time), w.tick, []⟩, fun _ => .of_quiet rfl rfl rfl rfl rfl⟩

/-- The `select` that waits for a pending connection: true when it times out. -/
def sysSelectConnect (fd : Int) : Io Bool :=
  ⟨fun w => ⟨some (w.os.timesOut w.now fd), w.tick, []⟩, fun _ => .of_quiet rfl rfl rfl rfl rfl⟩

theorem World.unused_of_filter {w : World} {r : Option Int} {fd : Int}
    (h : r.filter w.unused = some fd) : w.tick.unused fd = true :=
  (Option.filter_eq_some_iff.mp h).2

def sysOpen (path : List Byte) (flags : Word) (mode : Nat) : Io Int where
  run w :=
    match (w.os.openFile w.now path flags mode).filter w.unused with
    | none => ⟨some (-1), w.tick, [.openFile path none]⟩
    | some fd => ⟨some fd, w.tick.setDesc fd (some .plain), [.openFile path (some fd)]⟩
  keeps w := by
    split
    · exact .of_quiet rfl rfl rfl rfl rfl
    · exact .of_tick (.of_open (World.unused_of_filter ‹_›) rfl)

theorem sysOpen_cases (w : World) (path : List Byte) (flags : Word) (mode : Nat) :
    ∃ fd, ((sysOpen path flags mode).run w).value = some fd ∧ (fd = -1 ∨ 0 ≤ fd ∧ w.desc fd = none ∧
      ((sysOpen path flags mode).run w).state.desc fd ≠ none) := by
  simp only [sysOpen]
  split
  · exact ⟨-1, rfl, .inl rfl⟩
  · rename_i fd hf
    have hu := World.unused_iff.mp (Option.filter_eq_some_iff.mp hf).2
    exact ⟨fd, rfl, .inr ⟨hu.1, hu.2, by simp⟩⟩

def sysSocket (type : SockType) : Io (Option Int) where
  run w :=
    match (w.os.socket w.now).filter w.unused with
    | none => ⟨some none, w.tick, [.socket type none]⟩
    | some fd => ⟨some (some fd), w.tick.setDesc fd (some .fresh), [.socket type (some fd)]⟩
  keeps w := by
    split
    · exact .of_quiet rfl rfl rfl rfl rfl
    · exact .of_tick (.of_open (World.unused_of_filter ‹_›) rfl)

def sysClose (fd : Int) : Io Int where
  run w := ⟨some (if (w.desc fd).isSome then w.os.close w.now fd else -1), w.tick.setDesc fd none, [.close fd]⟩
  keeps _ := .of_tick (.of_close (by simp) (by simp [Act.opened]) (by simp))

theorem sysClose_bind {α : Type} (fd : Int) (f : Int → Io α) (v : World) : (sysClose fd >>= f).run v =
    ((f (if (v.desc fd).isSome then v.os.close v.now fd else -1)).run (v.tick.setDesc fd none)).after [.close fd] := rfl

/-- Connecting succeeds at most once for a socket. -/
def sysConnect (fd : Int) : Io (Option Errno) where
  run w :=
    match w.desc fd, w.os.connect w.now fd with
    | some .fresh, none =>
      ⟨some none, w.tick.setDesc fd (some (.sock (w.os.peer w.now fd))), [.connect fd true]⟩
    | some .fresh, some e => ⟨some (some e), w.tick, [.connect fd false]⟩
    | _, _ => ⟨some (some (.other 106)), w.tick, [.connect fd false]⟩
  keeps w := by
    split
    · exact .of_tick (.of_connect ‹_› (by simp [Act.opened]) (by simp))
    · exact .of_quiet rfl rfl rfl rfl rfl
    · exact .of_quiet rfl rfl rfl rfl rfl

/-- `getsockopt(SO_ERROR)`; without a pending error the connection is made. -/
def sysSoError (fd : Int) : Io (Option (Option Errno)) where
  run w :=
    match w.desc fd, w.os.soError w.now fd with
    | some .fresh, some none =>
      ⟨some (some none), w.tick.setDesc fd (some (.sock (w.os.peer w.now fd))), [.connect fd true]⟩
    | _, some none => ⟨some none, w.tick, [.connect fd false]⟩
    | _, r => ⟨some r, w.tick, [.connect fd false]⟩
  keeps w := by
    split
    · exact .of_tick (.of_connect ‹_› (by simp [Act.opened]) (by simp))
    · exact .of_quiet rfl rfl rfl rfl rfl
    · exact .of_quiet rfl rfl rfl rfl rfl

/-- The connection a client of the command server made. -/
def sysAccept : Io Int where
  run w :=
    match (w.os.accept w.now).filter fun r => w.unused r.1 with
    | none => ⟨some (-1), w.tick, []⟩
    | some (fd, k) => ⟨some fd, w.tick.setDesc fd (some (.sock k)), [.accept fd]⟩
  keeps w := by
    split
    · exact .of_quiet rfl rfl rfl rfl rfl
    · rename_i h
      exact .of_tick (.of_open (Option.filter_eq_some_iff.mp h).2 rfl)

namespace Accounted

variable {w : World} {s : Int} {as : List Act}

theorem of_putOutflow {f : Outflow Errno.drops} (hf : f.sink = (w.outflow s).sink)
    (h : as.all Act.quiet = true) : Accounted w as (w.putOutflow s f) := by
  rw [List.all_eq_true] at h
  have hr : ∀ s' bs, .recv s' bs ∉ as := fun s' bs hm => by cases h _ hm
  refine of_putSock (fun a ha => Act.opened_of_quiet (h a ha)) (fun s' _ => hr s') fun k hk => ?_
  rw [World.outflow, World.sockAt_sock hk] at hf
  rw [World.sockAt_sock hk]
  exact ⟨_, rfl, by rw [taken_eq_nil (hr s)]; rfl, hf, fun _ => rfl⟩

theorem of_putInflow {f : Inflow Byte Errno.drops} {bs : List Byte}
    (hf : bs ++ f.live = (w.inflow s).live) (h : as.all Act.quiet = true) :
    Accounted w (.recv s bs :: as) (w.putInflow s f) := by
  rw [List.all_eq_true] at h
  have hr : ∀ s' bs, .recv s' bs ∉ as := fun s' bs hm => by cases h _ hm
  refine of_putSock ?_ ?_ fun k hk => ?_
  · intro a ha
    rcases List.mem_cons.mp ha with rfl | ha
    · rfl
    · exact Act.opened_of_quiet (h a ha)
  · intro s' he bs' hm
    rcases List.mem_cons.mp hm with hm | hm
    · cases hm
      exact he rfl
    · exact hr s' bs' hm
  · rw [World.inflow, World.sockAt_sock hk] at hf
    rw [World.sockAt_sock hk]
    refine ⟨_, rfl, ?_, rfl, fun hn => absurd List.mem_cons_self (hn bs)⟩
    rw [taken_recv, taken_eq_nil (hr s), List.append_nil]
    exact hf

end Accounted

/-- `read` on a socket takes the bytes off its stream, as `recv` does. -/
def sysRead (fd : Int) (n : Nat) : Io (Option (List Byte)) where
  run w :=
    match w.desc fd with
    | some .plain =>
      let ret := (w.os.read w.now fd n).map (·.take n)
      ⟨some ret, w.tick, [.read fd ret]⟩
    | some (.sock k) =>
      if n = 0 then ⟨some (some []), w.tick, [.read fd (some [])]⟩
      else match k.inflow.recv n with
        | none => ⟨none, w.tick, [.read fd none, .blocks fd]⟩
        | some (r, f) => ⟨some r.ret, w.tick.putInflow fd f, [.recv fd (r.ret.getD []), .read fd r.ret]⟩
    | _ => ⟨some none, w.tick, [.read fd none]⟩
  keeps w := by
    split
    · exact .of_quiet rfl rfl rfl rfl rfl
    · rename_i k hk
      split
      · exact .of_quiet rfl rfl rfl rfl rfl
      · split
        · exact .of_quiet rfl rfl rfl rfl rfl
        · rename_i r f hr
          have hk' : w.tick.sockAt fd = k := World.sockAt_sock hk
          exact .of_tick (.of_putInflow (by rw [World.inflow, hk', Inflow.recv_append hr]) rfl)
    · exact .of_quiet rfl rfl rfl rfl rfl

/-- A write that never returns is on record as one that took nothing. -/
def sysWrite (fd : Int) (bs : List Byte) : Io (Option Nat) where
  run w :=
    match w.desc fd with
    | some .plain =>
      let ret := (w.os.write w.now fd bs).map (min · bs.length)
      ⟨some ret, w.tick, [.write fd bs ret]⟩
    | some (.sock k) =>
      match k.outflow.send bs.length with
      | none => ⟨none, w.tick, [.write fd bs none, .blocks fd]⟩
      | some (r, f) => ⟨some r.toOption, w.tick.putOutflow fd f, [.write fd bs r.toOption]⟩
    | _ => ⟨some none, w.tick, [.write fd bs none]⟩
  keeps w := by
    split
    · exact .of_quiet rfl rfl rfl rfl rfl
    · rename_i k hk
      split
      · exact .of_quiet rfl rfl rfl rfl rfl
      · rename_i r f hr
        have hk' : w.tick.sockAt fd = k := World.sockAt_sock hk
        exact .of_tick (.of_putOutflow (by rw [World.outflow, hk', Outflow.send_sink hr]) rfl)
    · exact .of_quiet rfl rfl rfl rfl rfl

/-- One `send`; its result is the number of bytes taken, or -1. -/
def sysSend (s : Int) (bs : List Byte) : Io Int where
  run w :=
    match (w.outflow s).send bs.length with
    | none => ⟨none, w.tick, [.send s bs none, .blocks s]⟩
    | some (r, f) => ⟨some (r.toOption.elim (-1) (↑·)), w.tick.putOutflow s f, [.send s bs r.toOption]⟩
  keeps w := by
    split
    · exact .of_quiet rfl rfl rfl rfl rfl
    · exact .of_tick (.of_putOutflow (Outflow.send_sink (f := w.outflow s) ‹_›) rfl)

section

variable (w : World) (s : Int)

theorem putInflow_outflow (fd : Int) (f : Inflow Byte Errno.drops) :
    (w.putInflow fd f).outflow s = w.outflow s := by
  rw [World.putInflow, World.putSock]
  split
  · rename_i k hk
    by_cases hs : s = fd
    · subst hs
      simp [World.outflow, World.sockAt]
    · simp [World.outflow, World.sockAt, Function.update_of_ne hs]
  · rfl

theorem putOutflow_inflow (f : Outflow Errno.drops) : (w.putOutflow s f).inflow s = w.inflow s := by
  rw [World.putOutflow, World.putSock]
  split
  · simp [World.inflow, World.sockAt]
  · rfl

theorem putOutflow_send {n : Nat} {r : Except Errno Nat} {f : Outflow Errno.drops}
    (h : (w.outflow s).send n = some (r, f)) : (w.putOutflow s f).outflow s = f := by
  have hdead (e : Errno) (hs : w.sockAt s = .dead e) : f = w.outflow s := by
    rw [World.outflow, hs] at h ⊢
    cases h
    rfl
  rw [World.putOutflow, World.putSock]
  cases hd : w.desc s with
  | none => exact (hdead .EBADF (by rw [World.sockAt, hd])).symm
  | some d =>
    cases d with
    | sock k => simp [World.outflow, World.sockAt]
    | fresh => exact (hdead .ENOTCONN (by rw [World.sockAt, hd])).symm
    | plain => exact (hdead (.other 88) (by rw [World.sockAt, hd])).symm

end

section Record

variable {φ : Act → Prop} (w : World) (fd : Int)

theorem sysRead_acts (n : Nat) (hr : ∀ ret, φ (.read fd ret)) (hs : ∀ bs, φ (.recv fd bs))
    (hb : φ (.blocks fd)) : ∀ a ∈ ((sysRead fd n).run w).acts, φ a := by
  simp only [sysRead]
  split
  · simpa using hr _
  · split
    · simpa using hr _
    · split
      · simpa using ⟨hr _, hb⟩
      · simpa using ⟨hs _, hr _⟩
  · simpa using hr _

theorem sysRead_vars (n : Nat) : ((sysRead fd n).run w).state.toVars = w.toVars := by
  simp only [sysRead]
  split
  · rfl
  · split
    · rfl
    · split
      · rfl
      · exact World.putInflow_toVars _ _ _
  · rfl

theorem sysRead_stuck (n : Nat) (h : ((sysRead fd n).run w).value = none) :
    .blocks fd ∈ ((sysRead fd n).run w).acts := by
  revert h
  simp only [sysRead]
  split
  · simp
  · split
    · simp
    · split <;> simp
  · simp

theorem sysWrite_acts (bs : List Byte) (hw : ∀ ret, φ (.write fd bs ret)) (hb : φ (.blocks fd)) :
    ∀ a ∈ ((sysWrite fd bs).run w).acts, φ a := by
  simp only [sysWrite]
  split
  · simpa using hw _
  · split
    · simpa using ⟨hw _, hb⟩
    · simpa using hw _
  · simpa using hw _

theorem sysWrite_vars (bs : List Byte) : ((sysWrite fd bs).run w).state.toVars = w.toVars := by
  simp only [sysWrite]
  split
  · rfl
  · split
    · rfl
    · exact World.putOutflow_toVars _ _ _
  · rfl

theorem sysWrite_stuck (bs : List Byte) (h : ((sysWrite fd bs).run w).value = none) :
    .blocks fd ∈ ((sysWrite fd bs).run w).acts := by
  revert h
  simp only [sysWrite]
  split
  · simp
  · split <;> simp
  · simp

theorem sysSend_acts (bs : List Byte) :
    ∃ ret, ((sysSend fd bs).run w).acts = [.send fd bs ret] ∧ ((sysSend fd bs).run w).value ≠ none ∨
      ((sysSend fd bs).run w).acts = [.send fd bs ret, .blocks fd] ∧
        ((sysSend fd bs).run w).value = none := by
  simp only [sysSend]
  split
  · exact ⟨none, .inr ⟨rfl, rfl⟩⟩
  · exact ⟨_, .inl ⟨rfl, by simp⟩⟩

theorem sysSend_sends (bs : List Byte) :
    ∃ ret, ∃ rest ⊆ [Act.blocks fd], ((sysSend fd bs).run w).acts = .send fd bs ret :: rest := by
  obtain ⟨ret, ⟨ha, -⟩ | ⟨ha, -⟩⟩ := sysSend_acts w fd bs
  · exact ⟨ret, [], List.nil_subset _, ha⟩
  · exact ⟨ret, [.blocks fd], List.Subset.refl _, ha⟩

theorem sysSend_vars (bs : List Byte) : ((sysSend fd bs).run w).state.toVars = w.toVars := by
  simp only [sysSend]
  split
  · rfl
  · exact World.putOutflow_toVars _ _ _

end Record

/-- Where received bytes go: into `recv_packet` from an offset on, or into a
buffer of the caller. -/
inductive Buf
  | recvPacket (off : Nat)
  | caller
deriving DecidableEq, Repr

def Buf.fill (buf : Buf) (bs : List Byte) (v : Vars) : Vars :=
  match buf with
  | .recvPacket off => { v with recvPacket := v.recvPacket.store off bs }
  | .caller => v

def Buf.stored (buf : Buf) (bs : List Byte) : List Act :=
  match buf with
  | .recvPacket off => [.store off bs]
  | .caller => []

/-- What a receiving loop reports: its count, the end of the stream as 0, a
dropped connection as -1, or nothing at all. -/
def readingValue (bytes : Int) (r : Reading Errno) : Option Int :=
  match r with
  | .full => some bytes
  | .eof => some 0
  | .dropped _ => some (-1)
  | .never => none

def writingValue (bytes : Int) (r : Writing Errno) : Option Int :=
  match r with
  | .full => some bytes
  | .closed => some 0
  | .dropped _ => some (-1)
  | .never => none

/-- What is on record of a loop that never returns. -/
def endless {α : Type} (a : Act) (value : Option α) : List Act := if value.isNone then [a] else []

theorem quiet_stored (buf : Buf) (bs : List Byte) : (buf.stored bs).all Act.quiet = true := by
  cases buf <;> rfl

theorem quiet_endless {α : Type} {a : Act} (h : a.quiet = true) (v : Option α) :
    (endless a v).all Act.quiet = true := by
  cases v with
  | none => simpa [endless] using h
  | some v => rfl

/-- The loop of `pko_recv_bytes` is `Inflow.read`; a count that is not positive
is returned at once. The value also holds the bytes received. -/
def pkoRecvBytes (s : Int) (buf : Buf) (bytes : Int) : Io (Int × List Byte) where
  run w :=
    let r := (w.inflow s).read bytes.toNat
    let value := readingValue bytes r.1
    let w' := w.putInflow s r.2.2
    ⟨value.map (·, r.2.1), { w' with toVars := buf.fill r.2.1 w'.toVars },
      .recv s r.2.1 :: (buf.stored r.2.1 ++ endless (.starves s) value)⟩
  keeps _ := .vars (.of_putInflow (Inflow.read_append _ _)
    (by rw [List.all_append, quiet_stored, quiet_endless rfl]; rfl)) _

/-- The loop of `pko_send_bytes` is `Outflow.write`. -/
def pkoSendBytes (s : Int) (buf : List Byte) (bytes : Int) : Io Int where
  run w :=
    let r := (w.outflow s).write bytes.toNat
    let value := writingValue bytes r.1
    ⟨value, w.putOutflow s r.2.2, .sendAll s (buf.take r.2.1) :: endless (.blocks s) value⟩
  keeps _ := .of_putOutflow (Outflow.write_sink _ _) (by rw [List.all_cons, quiet_endless rfl]; rfl)

section Record

variable {φ : Act → Prop} (w : World) (s : Int)

theorem mem_endless {α : Type} (a : Act) {v : Option α} (h : v = none) : a ∈ endless a v := by
  simp [endless, h]

theorem forall_endless {α : Type} {a : Act} (ha : φ a) (v : Option α) : ∀ b ∈ endless a v, φ b := by
  cases v with
  | none => simpa [endless] using ha
  | some v => simp [endless]

theorem pkoRecvBytes_acts (buf : Buf) (bytes : Int) (hr : ∀ bs, φ (.recv s bs))
    (hs : ∀ bs, bs.length ≤ bytes.toNat → ∀ a ∈ buf.stored bs, φ a) (hb : φ (.starves s)) :
    ∀ a ∈ ((pkoRecvBytes s buf bytes).run w).acts, φ a := by
  intro a ha
  rcases List.mem_cons.mp ha with rfl | ha
  · exact hr _
  rcases List.mem_append.mp ha with ha | ha
  · refine hs _ ?_ a ha
    rw [Inflow.read_got_length]
    exact Nat.min_le_left _ _
  · exact forall_endless hb _ a ha

theorem pkoRecvBytes_vars (buf : Buf) (bytes : Int) :
    ∃ bs, ((pkoRecvBytes s buf bytes).run w).state.toVars = buf.fill bs w.toVars :=
  ⟨((w.inflow s).read bytes.toNat).2.1, by simp [pkoRecvBytes]⟩

theorem pkoRecvBytes_stuck (buf : Buf) (bytes : Int)
    (h : ((pkoRecvBytes s buf bytes).run w).value = none) :
    .starves s ∈ ((pkoRecvBytes s buf bytes).run w).acts := by
  simp only [pkoRecvBytes, Option.map_eq_none_iff] at h
  exact List.mem_cons_of_mem _ (List.mem_append_right _ (mem_endless _ h))

theorem pkoSendBytes_acts (buf : List Byte) (bytes : Int) (hs : ∀ bs, φ (.sendAll s bs))
    (hb : φ (.blocks s)) : ∀ a ∈ ((pkoSendBytes s buf bytes).run w).acts, φ a := by
  intro a ha
  rcases List.mem_cons.mp ha with rfl | ha
  · exact hs _
  · exact forall_endless hb _ a ha

theorem pkoSendBytes_vars (buf : List Byte) (bytes : Int) :
    ((pkoSendBytes s buf bytes).run w).state.toVars = w.toVars := World.putOutflow_toVars _ _ _

theorem pkoSendBytes_stuck (buf : List Byte) (bytes : Int)
    (h : ((pkoSendBytes s buf bytes).run w).value = none) :
    .blocks s ∈ ((pkoSendBytes s buf bytes).run w).acts :=
  List.mem_cons_of_mem _ (mem_endless _ h)

end Record

end Pksh
