import Pksh.Lib.Prog
import Pksh.Lib.Inflow
import Pksh.Lib.Outflow
import Pksh.Packets
import Mathlib.Logic.Function.Basic

/-! The state pksh works on: its globals, the descriptor table of the process,
and an operating system that may answer every call as it likes. -/

namespace Pksh

open Wire Traced

inductive Errno
  | EPIPE | ECONNRESET | ECONNABORTED | EINTR | EAGAIN | EBADF | EINPROGRESS | ENOTCONN
  | ETIMEDOUT | ECONNREFUSED
  | other (code : Nat)
deriving DecidableEq, Repr

/-- The errors on which `pko_recv_bytes` and `pko_send_bytes` give up. -/
def Errno.drops : Errno → Bool
  | .EPIPE | .ECONNRESET | .ECONNABORTED => true
  | _ => false

theorem passes_EINTR : Errno.EINTR.drops = false := rfl

structure Sock where
  inflow : Inflow Byte Errno.drops
  outflow : Outflow Errno.drops

/-- How every call on a number that is not a connected socket ends. -/
def Sock.dead (e : Errno) : Sock := ⟨⟨[], .fail e true⟩, ⟨[], .fail e⟩⟩

/-- An open descriptor: a connected socket, one that is not connected yet, or
anything else. -/
inductive Desc
  | sock (s : Sock)
  | fresh
  | plain

structure Tm where
  year : Int
  mon : Int
  mday : Int
  hour : Int
  min : Int
  sec : Int

structure Stat where
  mode : Word
  size : Int
  ctime : Int
  atime : Int
  mtime : Int

/-- What the operating system answers, call by call: the first argument of
each field is the number of calls made before. Answers that name a descriptor
already in use or hold more bytes than were asked for are not taken. -/
structure Host where
  malloc : Nat → Nat → Bool
  openFile : Nat → List Byte → Word → Nat → Option Int
  close : Nat → Int → Int
  read : Nat → Int → Nat → Option (List Byte)
  write : Nat → Int → List Byte → Option Nat
  lseek : Nat → Int → Int → Int → Int
  /-- The low 32 bits of the `DIR *`. -/
  opendir : Nat → List Byte → Option Word
  /-- The low 32 bits of the `struct dirent *`, and its name. -/
  readdir : Nat → Word → Word × List Byte
  closedir : Nat → Word → Int
  /-- Whether the call succeeds, and the struct after it. -/
  stat : Nat → List Byte → Bool × Stat
  localtime : Nat → Int → Option Tm
  socket : Nat → Option Int
  /-- `none` when the connection is made at once. -/
  connect : Nat → Int → Option Errno
  /-- Whether waiting for the connection times out. -/
  timesOut : Nat → Int → Bool
  /-- `none` when `getsockopt` fails, else the pending error. -/
  soError : Nat → Int → Option (Option Errno)
  /-- The connection that was made. -/
  peer : Nat → Int → Sock
  accept : Nat → Option (Int × Sock)
  /-- What is left in memory that no one initialised. -/
  stack : Nat → Mem
  /-- How many connection attempts are made before a loop over them is taken
  never to end. -/
  patience : Nat

/-- The globals that the modelled functions assign. -/
structure Vars where
  recvPacket : Mem
  sendPacket : Mem
  pkoSrvFd : Int
  cmdFd : Int
  ps2NetfsFd : Int
  state : Int
  pathList : List (List Byte)

/-- The globals besides the two packet buffers. -/
def Vars.wiring (v : Vars) : Int × Int × Int × Int × List (List Byte) :=
  (v.pkoSrvFd, v.cmdFd, v.ps2NetfsFd, v.state, v.pathList)

theorem Vars.link_eq {v v' : Vars} (h : v'.wiring = v.wiring) : v'.pkoSrvFd = v.pkoSrvFd :=
  congrArg Prod.fst h

structure World extends Vars where
  os : Host
  now : Nat
  desc : Int → Option Desc
  pkshSrvFd : Int
  logFd : Int

/-- A stream to the PS2, or a socket for one packet. -/
inductive SockType
  | stream
  | dgram
deriving DecidableEq, Repr

inductive Act
  | recv (s : Int) (bytes : List Byte)
  | store (at' : Nat) (bytes : List Byte)
  | handle (call : Call)
  | send (s : Int) (bytes : List Byte) (ret : Option Nat)
  | sendAll (s : Int) (bytes : List Byte)
  | await (pktType : Word)
  | malloc (n : Nat) (ok : Bool)
  | openFile (path : List Byte) (ret : Option Int)
  | close (fd : Int)
  | read (fd : Int) (ret : Option (List Byte))
  | write (fd : Int) (bytes : List Byte) (ret : Option Nat)
  | lseek (fd : Int) (ret : Int)
  | opendir (path : List Byte) (ret : Option Word)
  | readdir (dir : Word)
  | closedir (dir : Word)
  | stat (path : List Byte) (ok : Bool)
  | socket (type : SockType) (ret : Option Int)
  | connect (fd : Int) (made : Bool)
  | accept (fd : Int)
  /-- `ps2_netfs_fd` is given what `ps2netfs_open` returned. -/
  | netfs (fd : Int)
  /-- A wait for bytes that never come. -/
  | starves (s : Int)
  /-- Any other call on this number that never returns. -/
  | blocks (s : Int)
  /-- The wait for a new link that never ends. -/
  | unlinked
deriving DecidableEq, Repr

namespace World

variable (w : World)

def tick : World := { w with now := w.now + 1 }

/-- The socket behind a number, or one on which every call fails. -/
def sockAt (s : Int) : Sock :=
  match w.desc s with
  | some (.sock k) => k
  | some .fresh => .dead .ENOTCONN
  | some .plain => .dead (.other 88)
  | none => .dead .EBADF

def putSock (s : Int) (k : Sock) : World :=
  match w.desc s with
  | some (.sock _) => { w with desc := Function.update w.desc s (some (.sock k)) }
  | _ => w

def inflow (s : Int) : Inflow Byte Errno.drops := (w.sockAt s).inflow

def outflow (s : Int) : Outflow Errno.drops := (w.sockAt s).outflow

def putInflow (s : Int) (f : Inflow Byte Errno.drops) : World :=
  w.putSock s { w.sockAt s with inflow := f }

def putOutflow (s : Int) (f : Outflow Errno.drops) : World :=
  w.putSock s { w.sockAt s with outflow := f }

def setDesc (s : Int) (d : Option Desc) : World := { w with desc := Function.update w.desc s d }

/-- A number the operating system may give to a new descriptor. -/
def unused (fd : Int) : Bool := decide (0 ≤ fd) && (w.desc fd).isNone

theorem unused_iff {w : World} {fd : Int} : w.unused fd = true ↔ 0 ≤ fd ∧ w.desc fd = none := by
  rw [unused, Bool.and_eq_true, decide_eq_true_eq, Option.isNone_iff_eq_none]

@[simp] theorem putSock_toVars (s : Int) (k : Sock) : (w.putSock s k).toVars = w.toVars := by
  unfold putSock
  split <;> rfl

@[simp] theorem putInflow_toVars (s : Int) (f : Inflow Byte Errno.drops) :
    (w.putInflow s f).toVars = w.toVars := putSock_toVars w s _

@[simp] theorem putOutflow_toVars (s : Int) (f : Outflow Errno.drops) :
    (w.putOutflow s f).toVars = w.toVars := putSock_toVars w s _

@[simp] theorem setDesc_self (s : Int) (d : Option Desc) : (w.setDesc s d).desc s = d := by
  simp [setDesc]

theorem sockAt_sock {w : World} {s : Int} {k : Sock} (h : w.desc s = some (.sock k)) :
    w.sockAt s = k := by
  simp [sockAt, h]

end World

/-- The bytes taken off the stream of `s`, in order. -/
def taken (s : Int) (as : List Act) : List Byte :=
  as.flatMap fun
    | .recv s' bytes => if s' = s then bytes else []
    | _ => []

/-- The number a call gives to a new descriptor. -/
def Act.opened : Act → Option Int
  | .openFile _ ret => ret
  | .socket _ ret => ret
  | .accept fd => some fd
  | _ => none

@[simp] theorem taken_nil (s : Int) : taken s [] = [] := rfl

@[simp] theorem taken_append (s : Int) (as bs : List Act) :
    taken s (as ++ bs) = taken s as ++ taken s bs := by
  simp [taken]

theorem taken_recv (s : Int) (bs : List Byte) (as : List Act) :
    taken s (.recv s bs :: as) = bs ++ taken s as := by
  simp [taken]

theorem taken_eq_nil {s : Int} {as : List Act} (h : ∀ bs, .recv s bs ∉ as) : taken s as = [] := by
  simp only [taken, List.flatMap_eq_nil_iff]
  intro a ha
  cases a with
  | recv s' bs =>
    by_cases hs : s' = s
    · exact absurd (hs ▸ ha) (h bs)
    · simp [hs]
  | _ => rfl

/-- What a descriptor that is not closed can become: a socket only loses the
bytes that were taken off its stream. -/
def Desc.Follows (s : Int) (as : List Act) : Desc → Desc → Prop
  | .plain, d => d = .plain
  | .fresh, d => d ≠ .plain
  | .sock k, d => ∃ k', d = .sock k' ∧ taken s as ++ k'.inflow.live = k.inflow.live ∧
      k'.outflow.sink = k.outflow.sink ∧ ((∀ bs, .recv s bs ∉ as) → k'.inflow = k.inflow)

structure Accounted (w : World) (as : List Act) (w' : World) : Prop where
  os : w'.os = w.os
  pkshSrvFd : w'.pkshSrvFd = w.pkshSrvFd
  logFd : w'.logFd = w.logFd
  kept : ∀ s d, w.desc s = some d → .close s ∉ as → ∃ d', w'.desc s = some d' ∧ d.Follows s as d'
  unopened : ∀ s, w.desc s = none → (∀ a ∈ as, a.opened ≠ some s) → w'.desc s = none
  opened : ∀ s a, a ∈ as → a.opened = some s → 0 ≤ s ∧ (w.desc s = none ∨ .close s ∈ as)

namespace Desc

variable {s : Int} {as bs : List Act} {d d' d'' : Desc}

theorem Follows.of_not_recv (h : ∀ bs, .recv s bs ∉ as) : d.Follows s as d := by
  cases d with
  | plain => rfl
  | fresh => simp [Follows]
  | sock k => exact ⟨k, rfl, by rw [taken_eq_nil h]; rfl, rfl, fun _ => rfl⟩

theorem Follows.trans (h : d.Follows s as d') (h' : d'.Follows s bs d'') :
    d.Follows s (as ++ bs) d'' := by
  cases d with
  | plain => rw [Follows] at h; subst h; exact h'
  | fresh =>
    cases d' with
    | plain => exact absurd rfl h
    | fresh => exact h'
    | sock k => obtain ⟨k', rfl, _⟩ := h'; simp [Follows]
  | sock k =>
    obtain ⟨k', rfl, h1, h2, h3⟩ := h
    obtain ⟨k'', rfl, h1', h2', h3'⟩ := h'
    refine ⟨k'', rfl, ?_, h2'.trans h2, fun hr => ?_⟩
    · rw [taken_append, List.append_assoc, h1', h1]
    · rw [h3' fun bs hb => hr bs (List.mem_append_right _ hb),
        h3 fun bs hb => hr bs (List.mem_append_left _ hb)]

end Desc

instance : Chains Accounted where
  nil w :=
    { os := rfl
      pkshSrvFd := rfl
      logFd := rfl
      kept := fun s d h _ => ⟨d, h, .of_not_recv (by simp)⟩
      unopened := fun _ h _ => h
      opened := by simp }
  append {w w' w'' as bs} h h' :=
    { os := h'.os.trans h.os
      pkshSrvFd := h'.pkshSrvFd.trans h.pkshSrvFd
      logFd := h'.logFd.trans h.logFd
      kept := by
        intro s d hd hc
        obtain ⟨d', hd', hf⟩ := h.kept s d hd fun ha => hc (List.mem_append_left _ ha)
        obtain ⟨d'', hd'', hf'⟩ := h'.kept s d' hd' fun ha => hc (List.mem_append_right _ ha)
        exact ⟨d'', hd'', hf.trans hf'⟩
      unopened := fun s hs ha =>
        h'.unopened s (h.unopened s hs fun a hm => ha a (List.mem_append_left _ hm))
          fun a hm => ha a (List.mem_append_right _ hm)
      opened := by
        intro s a ha ho
        rcases List.mem_append.mp ha with ha | ha
        · obtain ⟨h0, hs⟩ := h.opened s a ha ho
          exact ⟨h0, hs.imp_right (List.mem_append_left _)⟩
        · obtain ⟨h0, hs⟩ := h'.opened s a ha ho
          refine ⟨h0, ?_⟩
          rcases hs with hs | hs
          · by_contra hn
            push Not at hn
            obtain ⟨d, hd⟩ := Option.ne_none_iff_exists'.mp hn.1
            obtain ⟨d', hd', _⟩ := h.kept s d hd fun hc => hn.2 (List.mem_append_left _ hc)
            rw [hs] at hd'
            cases hd'
          · exact .inr (List.mem_append_right _ hs) }

abbrev Io := Prog Accounted

namespace Accounted

variable {w w' : World} {as : List Act} {s : Int}

theorem of_tick (h : Accounted w.tick as w') : Accounted w as w' :=
  ⟨h.os, h.pkshSrvFd, h.logFd, h.kept, h.unopened, h.opened⟩

theorem vars (h : Accounted w as w') (v : Vars) : Accounted w as { w' with toVars := v } :=
  ⟨h.os, h.pkshSrvFd, h.logFd, h.kept, h.unopened, h.opened⟩

theorem of_desc (hos : w'.os = w.os) (hp : w'.pkshSrvFd = w.pkshSrvFd) (hl : w'.logFd = w.logFd)
    (hd : w'.desc = w.desc) (hr : ∀ s bs, .recv s bs ∉ as) (ho : ∀ a ∈ as, a.opened = none) :
    Accounted w as w' where
  os := hos
  pkshSrvFd := hp
  logFd := hl
  kept s d h _ := ⟨d, by rw [hd, h], .of_not_recv (hr s)⟩
  unopened s h _ := by rw [hd, h]
  opened s a ha h := by rw [ho a ha] at h; cases h

theorem of_putSock {k : Sock} (ho : ∀ a ∈ as, a.opened = none)
    (ht : ∀ s', s' ≠ s → ∀ bs, .recv s' bs ∉ as)
    (hs : ∀ k₀, w.desc s = some (.sock k₀) → (Desc.sock k₀).Follows s as (.sock k)) :
    Accounted w as (w.putSock s k) := by
  by_cases hw : ∃ k₀, w.desc s = some (.sock k₀)
  · obtain ⟨k₀, hk⟩ := hw
    have hp : w.putSock s k = w.setDesc s (some (.sock k)) := by simp [World.putSock, hk, World.setDesc]
    rw [hp]
    refine ⟨rfl, rfl, rfl, fun s' d hd _ => ?_, fun s' hd _ => ?_, fun s' a ha h => ?_⟩
    · by_cases he : s' = s
      · subst he
        rw [hk, Option.some.injEq] at hd
        subst hd
        exact ⟨.sock k, by simp [World.setDesc], hs k₀ hk⟩
      · exact ⟨d, by simpa [World.setDesc, Function.update_of_ne he] using hd,
          .of_not_recv (ht s' he)⟩
    · have he : s' ≠ s := by rintro rfl; rw [hk] at hd; cases hd
      simpa [World.setDesc, Function.update_of_ne he] using hd
    · rw [ho a ha] at h
      cases h
  · have hp : w.putSock s k = w := by
      unfold World.putSock
      split
      · exact absurd ⟨_, ‹_›⟩ hw
      · rfl
    rw [hp]
    push Not at hw
    refine ⟨rfl, rfl, rfl, fun s' d hd _ => ⟨d, hd, ?_⟩, fun s' hd _ => hd, fun s' a ha h => ?_⟩
    · cases d with
      | plain => rfl
      | fresh => simp [Desc.Follows]
      | sock k₁ =>
        by_cases he : s' = s
        · exact absurd (he ▸ hd) (hw k₁)
        · exact .of_not_recv (ht s' he)
    · rw [ho a ha] at h
      cases h

theorem of_close (h : .close s ∈ as) (ho : ∀ a ∈ as, a.opened = none) (hr : ∀ s bs, .recv s bs ∉ as) :
    Accounted w as (w.setDesc s none) := by
  refine ⟨rfl, rfl, rfl, fun s' d hd hc => ?_, fun s' hd _ => ?_, fun s' a ha he => ?_⟩
  · have he : s' ≠ s := by rintro rfl; exact hc h
    exact ⟨d, by simpa [World.setDesc, Function.update_of_ne he] using hd, .of_not_recv (hr s')⟩
  · by_cases he : s' = s
    · simp [World.setDesc, he]
    · simpa [World.setDesc, Function.update_of_ne he] using hd
  · rw [ho a ha] at he
    cases he

theorem of_open {d : Option Desc} {a : Act} (hu : w.unused s = true) (ha : a.opened = some s) :
    Accounted w [a] (w.setDesc s d) := by
  have h0 := World.unused_iff.mp hu
  have hr : ∀ s' bs, a ≠ .recv s' bs := by
    rintro s' bs rfl
    cases ha
  refine ⟨rfl, rfl, rfl, fun s' d' hd _ => ?_, fun s' hd hn => ?_, fun s' b hb he => ?_⟩
  · have he : s' ≠ s := by rintro rfl; rw [h0.2] at hd; cases hd
    exact ⟨d', by simpa [World.setDesc, Function.update_of_ne he] using hd,
      .of_not_recv fun bs => by simpa using (hr s' bs).symm⟩
  · have he : s' ≠ s := by rintro rfl; exact hn a (by simp) ha
    simpa [World.setDesc, Function.update_of_ne he] using hd
  · have hb : b = a := by simpa using hb
    rw [hb, ha, Option.some.injEq] at he
    exact he ▸ ⟨h0.1, .inl h0.2⟩

theorem of_connect {k : Sock} (hs : w.desc s = some .fresh) (ho : ∀ a ∈ as, a.opened = none)
    (hr : ∀ s bs, .recv s bs ∉ as) : Accounted w as (w.setDesc s (some (.sock k))) := by
  refine ⟨rfl, rfl, rfl, fun s' d hd _ => ?_, fun s' hd _ => ?_, fun s' a ha he => ?_⟩
  · by_cases he : s' = s
    · subst he
      rw [hs, Option.some.injEq] at hd
      subst hd
      exact ⟨.sock k, by simp [World.setDesc], by simp [Desc.Follows]⟩
    · exact ⟨d, by simpa [World.setDesc, Function.update_of_ne he] using hd, .of_not_recv (hr s')⟩
  · have he : s' ≠ s := by rintro rfl; rw [hs] at hd; cases hd
    simpa [World.setDesc, Function.update_of_ne he] using hd
  · rw [ho a ha] at he
    cases he

end Accounted

end Pksh
