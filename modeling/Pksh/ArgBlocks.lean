import Pksh.Relaying
import Pksh.Connecting
import Pksh.Words

/-! The size of the argument block. It is written into an array of `MAX_PATH`
bytes by the command and copied into another one by the request. -/

namespace Pksh

open Wire Traced

/-- The arguments of a line as `fix_cmd_arg` cuts them: the first space of a run
is dropped, and the others belong to what follows. -/
def cutAt : Bool → List Byte → List (List Byte)
  | _, [] => [[]]
  | inGap, b :: s =>
    if b = space ∧ inGap = false then [] :: cutAt true s
    else (cutAt (b = space) s).modifyHead (b :: ·)

def cutArgs (cmd : List Byte) : List (List Byte) := if cmd = [] then [] else cutAt false (cmd.rdropWhile (· = space))

/-- `argvlen`: the line without the spaces at its end, one byte more, and five
for every argument that names a regular file and no device. -/
def blockLength (isFile : List Byte → Bool) (cmd : List Byte) : Nat :=
  if cmd = [] then 0
  else (cmd.rdropWhile (· = space)).length + 1 +
    5 * (cutArgs cmd).countP fun arg => isFile arg && !argDeviceCheck arg

section Cut

theorem cutAt_word {word : List Byte} (hw : space ∉ word) : cutAt false word = [word] := by
  induction word with
  | nil => rfl
  | cons b word ih =>
    rw [List.mem_cons, not_or] at hw
    have hb : b ≠ space := Ne.symm hw.1
    rw [cutAt, if_neg (by simp [hb]), decide_eq_false hb, ih hw.2]
    rfl

theorem cutAt_word_append {word : List Byte} (hw : space ∉ word) (s : List Byte) :
    cutAt false (word ++ space :: s) = word :: cutAt true s := by
  induction word with
  | nil => rw [List.nil_append, cutAt, if_pos ⟨rfl, rfl⟩]
  | cons b word ih =>
    rw [List.mem_cons, not_or] at hw
    have hb : b ≠ space := Ne.symm hw.1
    rw [List.cons_append, cutAt, if_neg (by simp [hb]), decide_eq_false hb, ih hw.2]
    rfl

theorem cutAt_gap (gap : Nat) (s : List Byte) :
    cutAt true (List.replicate gap space ++ s) = (cutAt true s).modifyHead (List.replicate gap space ++ ·) := by
  induction gap with
  | zero => cases h : cutAt true s <;> simp [h]
  | succ gap ih =>
    rw [List.replicate_succ, List.cons_append, cutAt, if_neg (by simp), decide_eq_true rfl, ih]
    cases h : cutAt true s <;> simp

theorem cutAt_of_head {s : List Byte} (h : s.head? ≠ some space) : cutAt true s = cutAt false s := by
  cases s with
  | nil => rfl
  | cons b s =>
    have hb : b ≠ space := fun hb => h (congrArg some hb)
    rw [cutAt, cutAt, if_neg (by simp), if_neg (by simp [hb])]

theorem cutAt_spelled {word : List Byte} {rest : List (Nat × List Byte)} (hw : space ∉ word)
    (hs : ∀ p ∈ rest, IsWord p.2) : cutAt false (spelled word rest) = spelledArgs word rest := by
  induction rest generalizing word with
  | nil => exact cutAt_word hw
  | cons p rest ih =>
    have hp := hs p List.mem_cons_self
    have hhead := @head_spelled_append p.2 rest hp []
    rw [List.append_nil] at hhead
    rw [spelled, cutAt_word_append hw, cutAt_gap, cutAt_of_head hhead,
      ih hp.2.1 fun q hq => hs q (List.mem_cons_of_mem _ hq)]
    simp [spelledArgs]

theorem rdropWhile_spelled {word : List Byte} {rest : List (Nat × List Byte)} (behind : Nat) (hw : space ∉ word)
    (hs : ∀ p ∈ rest, IsWord p.2) :
    (spelled word rest ++ List.replicate behind space).rdropWhile (· = space) = spelled word rest := by
  have hlast : (spelled word rest).getLast? ≠ some space := by
    induction rest generalizing word with
    | nil => exact fun h => hw (List.mem_of_getLast? h)
    | cons p rest ih =>
      have hp := hs p List.mem_cons_self
      obtain ⟨c, tail, hc⟩ := List.exists_cons_of_ne_nil (@spelled_ne_nil p.2 rest hp)
      have hi := ih hp.2.1 fun q hq => hs q (List.mem_cons_of_mem _ hq)
      rw [spelled, List.getLast?_append_cons, ← List.cons_append, hc, List.getLast?_append_cons, ← hc]
      exact hi
  rw [rdropWhile_gap, rdropWhile_of_last hlast]

end Cut

section Length

variable {isFile : List Byte → Bool}

theorem fixWord_length (word : List Byte) :
    (fixWord isFile word).length = word.length + 5 * [word].countP fun arg => isFile arg && !argDeviceCheck arg := by
  rw [fixWord, List.countP_singleton]
  split
  · rw [List.length_append, Nat.add_comm]
    rfl
  · rfl

theorem block_length_eq (args : List (List Byte)) : (args.flatMap (fixWord isFile · ++ [0])).length =
    (args.map fun arg => arg.length + 1).sum + 5 * args.countP fun arg => isFile arg && !argDeviceCheck arg := by
  induction args with
  | nil => rfl
  | cons arg args ih =>
    have hc : (arg :: args).countP (fun arg => isFile arg && !argDeviceCheck arg) =
        [arg].countP (fun arg => isFile arg && !argDeviceCheck arg) +
          args.countP fun arg => isFile arg && !argDeviceCheck arg := by
      rw [← List.singleton_append, List.countP_append]
    rw [List.flatMap_cons, List.length_append, List.length_append, ih, fixWord_length, hc, List.map_cons, List.sum_cons,
      List.length_singleton]
    omega

theorem spelled_length (word : List Byte) (rest : List (Nat × List Byte)) :
    ((spelledArgs word rest).map fun arg => arg.length + 1).sum = (spelled word rest).length + 1 := by
  induction rest generalizing word with
  | nil => simp [spelledArgs, spelled]
  | cons p rest ih =>
    have hi := ih p.2
    simp only [spelledArgs, List.map_cons, List.sum_cons] at hi
    simp only [spelledArgs, spelled, List.map_cons, List.sum_cons, List.length_append, List.length_cons,
      List.length_replicate]
    omega

theorem fixCmdArg_length {cmd : List Byte} (h0 : 0 ∉ cmd) : (fixCmdArg isFile cmd).1.length = blockLength isFile cmd := by
  obtain ⟨word, rest, behind, hw, hw0, hs, rfl⟩ := exists_spelled h0
  by_cases hne : spelled word rest ++ List.replicate behind space = []
  · rw [hne]
    rfl
  · rw [fixCmdArg_spelled hw hw0 hs hne, block_length_eq, spelled_length, blockLength, if_neg hne, cutArgs, if_neg hne,
      rdropWhile_spelled behind hw hs, cutAt_spelled hw hs]

end Length

/-- `cli_execee` with `pko_execee_req`, and `cli_execeiop` with `pko_execiop_req`. -/
inductive ExecCmd
  | execee | execeiop

namespace ExecCmd

def cli : ExecCmd → List Byte → Io Int
  | execee => cliExecee
  | execeiop => cliExeceiop

def req (sock : Int) (argv : List Byte × Nat) : ExecCmd → Io Int
  | execee => pkoExeceeReq sock argv.1 (BitVec.ofNat 32 argv.2)
  | execeiop => pkoExeciopReq sock argv.1 (BitVec.ofNat 32 argv.2)

def code : ExecCmd → Word
  | execee => execeeCmd
  | execeiop => execiopCmd

def size : ExecCmd → Nat
  | execee => pktExeceeReqSize
  | execeiop => pktExeciopReqSize

def stores (argv : List Byte × Nat) (c : ExecCmd) : List (Nat × List Byte) :=
  reqHdr c.code c.size ++ [(6, le32 (htonl (BitVec.ofNat 32 argv.2))), (10, argv.1 ++ [0])]

theorem req_eq (sock : Int) (argv : List Byte × Nat) (c : ExecCmd) : c.req sock argv = sendReq sock c.size (c.stores argv) := by
  cases c <;> rfl

/-- The world in which `fix_cmd_arg` is called, if the PS2 comes back from its reset. -/
def start (w : World) : ExecCmd → Option World
  | execee =>
    if w.state = 1 then (resetAndReconnect.run w).value.map fun _ => { (resetAndReconnect.run w).state with state := 1 }
    else some { w with state := 1 }
  | execeiop => some { w with state := 1 }

def build (c : ExecCmd) (arg : List Byte) : Io Int := do
  let w ← Prog.get
  let argv := fixCmdArg w.isFile arg
  let _ ← command fun fd => c.req fd argv
  pure 0

theorem cli_acts {c : ExecCmd} {w v : World} (h : c.start w = some v) (arg : List Byte) :
    ∃ as, ((c.cli arg).run w).acts = as ++ ((c.build arg).run v).acts := by
  cases c with
  | execeiop =>
    cases h
    exact ⟨[], rfl⟩
  | execee =>
    rw [start] at h
    rw [cli, cliExecee, Prog.run_bind, Prog.run_get, Result.andThen_mk_some]
    by_cases hs : w.state = 1
    · rw [if_pos hs] at h ⊢
      cases hr : (resetAndReconnect.run w).value with
      | none =>
        rw [hr] at h
        cases h
      | some u =>
        rw [hr] at h
        cases h
        refine ⟨(resetAndReconnect.run w).acts, ?_⟩
        rw [Prog.run_bind, Result.andThen_some _ hr]
        rfl
    · rw [if_neg hs] at h ⊢
      cases h
      exact ⟨[], rfl⟩

theorem req_sends (c : ExecCmd) (sock : Int) (argv : List Byte × Nat) (w : World) :
    sentCodes ((c.req sock argv).run w).acts = [c.code] := by
  have hsent : sentCodes ((c.req sock argv).run w).acts <+: [c.code] := by
    cases c with
    | execee => exact (emits_pkoExeceeReq sock w _ _).sent
    | execeiop => exact (emits_pkoExeciopReq sock w _ _).sent
  have hne : sentCodes ((c.req sock argv).run w).acts ≠ [] := by
    rw [req_eq]
    obtain ⟨_, ⟨ha, _⟩ | ⟨ha, _⟩⟩ :=
      sysSend_acts w sock (((w.os.stack w.now).stores (c.stores argv)).slice 0 c.size)
    · exact fun h => List.cons_ne_nil _ _ ((congrArg sentCodes ha).symm.trans h)
    · exact fun h => List.cons_ne_nil _ _ ((congrArg sentCodes ha).symm.trans h)
  exact (List.prefix_cons_iff.mp hsent).resolve_left hne |>.elim fun t ⟨ht, hp⟩ => by rw [ht, List.prefix_nil.mp hp]

theorem build_sends (c : ExecCmd) (arg : List Byte) (w : World) : c.code ∈ sentCodes ((c.build arg).run w).acts := by
  obtain ⟨v, w', as, hrun, -⟩ := pkoCmdCon_contacted w
  have hacts : ((c.build arg).run w).acts =
      as ++ ((c.req w'.cmdFd (fixCmdArg w.isFile arg)).run w').acts := by
    have hc : ((command fun fd => c.req fd (fixCmdArg w.isFile arg)).run w).acts =
        as ++ ((c.req w'.cmdFd (fixCmdArg w.isFile arg)).run w').acts := by
      rw [command, Prog.run_bind, hrun, Result.andThen_mk_some, Result.after_acts]
      rfl
    exact (Result.acts_andThen_pure _ _).trans hc
  rw [hacts, sentCodes_append, c.req_sends]
  exact List.mem_append_right _ (List.mem_singleton_self _)

/-- The stores of one call that are made for the block lie in their arrays. -/
structure Inside (c : ExecCmd) (arg : List Byte) (w : World) : Prop where
  argv : ∀ v, c.start w = some v → (fixCmdArg v.isFile arg).1.length ≤ maxPath
  request : ∀ v, c.start w = some v → c.code ∈ sentCodes ((c.cli arg).run w).acts →
    ∀ f ∈ c.stores (fixCmdArg v.isFile arg), f.1 + f.2.length ≤ c.size

theorem request_inside_iff (c : ExecCmd) (argv : List Byte × Nat) :
    (∀ f ∈ c.stores argv, f.1 + f.2.length ≤ c.size) ↔ argv.1.length < maxPath := by
  have hsize : c.size = 10 + maxPath := by cases c <;> rfl
  rw [hsize, stores, reqHdr]
  simp only [List.cons_append, List.nil_append, List.forall_mem_cons, le32_length, le16_length, List.length_append,
    List.length_singleton, List.not_mem_nil, IsEmpty.forall_iff, implies_true, and_true, Nat.add_le_add_iff_left]
  constructor
  · intro h
    exact h.2.2.2
  · intro h
    exact ⟨by decide, by decide, by decide, h⟩

end ExecCmd

/-- The arrays are large enough when the block is shorter than `MAX_PATH`. -/
theorem exec_inside_iff (c : ExecCmd) (arg : List Byte) (w : World) (h0 : 0 ∉ arg) :
    c.Inside arg w ↔ ∀ v, c.start w = some v → blockLength v.isFile arg < maxPath := by
  constructor
  · intro hi v hv
    obtain ⟨as, hacts⟩ := ExecCmd.cli_acts hv arg
    have hsent : c.code ∈ sentCodes ((c.cli arg).run w).acts := by
      rw [hacts, sentCodes_append]
      exact List.mem_append_right _ (c.build_sends arg v)
    have hs := (c.request_inside_iff _).mp (hi.request v hv hsent)
    rwa [fixCmdArg_length h0] at hs
  · intro h
    constructor
    · intro v hv
      rw [fixCmdArg_length h0]
      exact (h v hv).le
    · intro v hv _
      rw [c.request_inside_iff, fixCmdArg_length h0]
      exact h v hv

theorem exec_inside_iff_host : 0 ∉ str "host:a.elf" ∧
    (ExecCmd.execeiop.Inside (str "host:a.elf") (.linked .refusing 3 []) ↔
      ∀ v, ExecCmd.execeiop.start (.linked .refusing 3 []) = some v → blockLength v.isFile (str "host:a.elf") < maxPath) :=
  ⟨by decide, exec_inside_iff .execeiop (str "host:a.elf") (.linked .refusing 3 []) (by decide)⟩

/-- A line of `MAX_PATH` characters. -/
theorem long_line_overflows : ¬∀ (c : ExecCmd) (arg : List Byte) (w : World), 0 ∉ arg → c.Inside arg w := by
  intro h
  have hnul : 0 ∉ List.replicate maxPath (0x61 : Byte) := fun hm => absurd (List.eq_of_mem_replicate hm) (by decide)
  have hb := (h .execeiop _ (.linked .refusing 3 []) hnul).argv _ rfl
  have hline : (List.replicate maxPath (0x61 : Byte)).rdropWhile (· = space) = List.replicate maxPath 0x61 := by
    rw [List.rdropWhile_eq_self_iff]
    intro hne he
    rw [List.getLast_replicate] at he
    exact absurd he (by decide)
  rw [fixCmdArg_length hnul, blockLength, if_neg (List.ne_nil_of_length_pos (by rw [List.length_replicate]; decide)),
    hline, List.length_replicate] at hb
  omega

end Pksh
