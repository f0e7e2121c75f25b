import Pksh.Forwarding
import Pksh.Words

/-! The tool eeexec, which starts a program on the PS2 itself or through a
running pksh. -/

namespace Pksh

open Wire Traced

/-- The contents of `file`: the path of the program, made absolute when it
names no device, and the arguments, each behind a space. -/
def execFile (cwd path : List Byte) (args : List (List Byte)) : List Byte :=
  (if argDeviceCheck path then path else cwd ++ slash :: path) ++ args.flatMap (space :: ·)

/-- What `main` does when there is no pksh. -/
def execDirect (cwd path : List Byte) (args : List (List Byte)) : Io Int := do
  let w ← Prog.get
  let _ ← sysClose w.cmdFd
  command fun fd => pkoExeceeReq fd (execFile cwd path args) (BitVec.ofNat 32 args.length)

/-- What `main` sends to a pksh. -/
def execLocal (cwd path : List Byte) (args : List (List Byte)) : Io Int := do
  let w ← Prog.get
  pkoExeceeReq w.cmdFd (execFile cwd path args) 1

/-- The program with the device that serves its file. -/
def hostPath (cwd path : List Byte) : List Byte :=
  if argDeviceCheck path then path else str "host:" ++ (cwd ++ slash :: path)

/-- An EXECEE packet with these strings for arguments. -/
structure CarriesArgs (strings : List (List Byte)) (packet : List Byte) : Prop where
  cmd : packet.take 4 = be32 execeeCmd
  argc : (packet.drop 6).take 4 = be32 (BitVec.ofNat 32 strings.length)
  argv : strings.flatMap (· ++ [0]) <+: packet.drop 10

/-- An EXECEE packet with these strings is sent. -/
def Launches (strings : List (List Byte)) (as : List Act) : Prop :=
  ∃ s bytes ret, .send s bytes ret ∈ as ∧ CarriesArgs strings bytes

/-- The fields that `pko_execee_req` fills in. -/
def execeeFields (argv : List Byte) (argc : Word) : List (Nat × List Byte) :=
  reqHdr execeeCmd pktExeceeReqSize ++ [(6, le32 (htonl argc)), (10, argv ++ [0])]

theorem execeeFields_ordered (argv : List Byte) (argc : Word) :
    (execeeFields argv argc).Pairwise fun f g => f.1 + f.2.length ≤ g.1 := by
  simp [execeeFields, reqHdr]

/-- The bytes of the packet, in memory that held something else. -/
def execeeReq (stack : Mem) (argv : List Byte) (argc : Word) : List Byte :=
  (stack.stores (execeeFields argv argc)).slice 0 pktExeceeReqSize

section Packet

variable {stack : Mem} {argv : List Byte} {argc : Word}

theorem execeeReq_cmd : (execeeReq stack argv argc).take 4 = be32 execeeCmd := by
  rw [execeeReq, Mem.slice_take _ _ (by decide), ← le32_htonl]
  exact Mem.slice_stores (f := (0, le32 (htonl execeeCmd))) (execeeFields_ordered _ _)
    (by simp [execeeFields, reqHdr])

theorem execeeReq_argc : ((execeeReq stack argv argc).drop 6).take 4 = be32 argc := by
  rw [execeeReq, Mem.slice_drop _ _ (by decide), Mem.slice_take _ _ (by decide), ← le32_htonl]
  exact Mem.slice_stores (f := (6, le32 (htonl argc))) (execeeFields_ordered _ _) (by simp [execeeFields])

theorem execeeReq_argv (h : argv.length < maxPath) : argv ++ [0] <+: (execeeReq stack argv argc).drop 10 := by
  have hs : (stack.stores (execeeFields argv argc)).slice 10 (argv ++ [0]).length = argv ++ [0] :=
    Mem.slice_stores (f := (10, argv ++ [0])) (execeeFields_ordered _ _) (by simp [execeeFields])
  have hn : (argv ++ [0]).length ≤ pktExeceeReqSize - 10 := by
    rw [List.length_append]
    exact h
  rw [execeeReq, Mem.slice_drop _ _ (by decide), Nat.zero_add, ← hs, ← Mem.slice_take _ 10 hn]
  exact List.take_prefix _ _

end Packet

/-- Whatever is sent is the packet with these fields. -/
def SendsOnly (argv : List Byte) (argc : Word) (a : Act) : Prop :=
  ∀ s bytes ret, a = .send s bytes ret → ∃ stack, bytes = execeeReq stack argv argc

section Sends

variable {argv : List Byte} {argc : Word} {α : Type}

theorem Wires.sendsOnly {m : Io α} (h : Wires m) : Sat (AllActs (SendsOnly argv argc)) m := by
  rintro w a ha s bytes ret rfl
  cases (h w).1 _ ha

theorem pkoExeceeReq_sendsOnly (sock : Int) : Sat (AllActs (SendsOnly argv argc)) (pkoExeceeReq sock argv argc) := by
  refine Sat.get_bind fun w a ha s bytes ret he => ⟨w.os.stack w.now, ?_⟩
  subst he
  have hm : .send s bytes ret ∈ ((sysSend sock (execeeReq (w.os.stack w.now) argv argc)).run w).acts := ha
  obtain ⟨_, ⟨hs, _⟩ | ⟨hs, _⟩⟩ := sysSend_acts w sock (execeeReq (w.os.stack w.now) argv argc)
  · rw [hs, List.mem_singleton] at hm
    exact (Act.send.inj hm).2.1
  · rw [hs] at hm
    rcases List.mem_cons.mp hm with hm | hm
    · exact (Act.send.inj hm).2.1
    · cases List.mem_singleton.mp hm

end Sends

theorem execDirect_sends (cwd path : List Byte) (args : List (List Byte)) :
    Sat (AllActs (SendsOnly (execFile cwd path args) (BitVec.ofNat 32 args.length))) (execDirect cwd path args) :=
  Wires.get.sendsOnly.bind fun _ => (Wires.sysClose _).sendsOnly.bind fun _ => Wires.pkoCmdCon.sendsOnly.bind fun _ =>
    Wires.get.sendsOnly.bind fun _ => pkoExeceeReq_sendsOnly _

/-- The number of arguments does not count the program. -/
theorem direct_never_launches (cwd path first : List Byte) (args : List (List Byte)) (w : World) :
    ¬Launches (first :: args) ((execDirect cwd path args).run w).acts := by
  rintro ⟨s, bytes, ret, hs, hc⟩
  obtain ⟨stack, rfl⟩ := execDirect_sends cwd path args w _ hs s bytes ret rfl
  have hargc := hc.argc
  rw [execeeReq_argc] at hargc
  have hk : BitVec.ofNat 32 args.length = BitVec.ofNat 32 (args.length + 1) := by
    rw [← ofBe32_be32 (BitVec.ofNat 32 args.length), hargc, ofBe32_be32]
    rfl
  rw [BitVec.ofNat_add] at hk
  have h1 := congrArg BitVec.toNat hk
  simp at h1
  omega

section Relayed

variable {w : World}

theorem execee_sends (arg : List Byte) (w : World) : ∀ a ∈ ((execee arg).run w).acts,
    SendsOnly (fixCmdArg w.isFile arg).1 (BitVec.ofNat 32 (fixCmdArg w.isFile arg).2) a := by
  have hv : Sat (AllActs (SendsOnly (fixCmdArg w.isFile arg).1 (BitVec.ofNat 32 (fixCmdArg w.isFile arg).2))) (do
      let _ ← command fun fd =>
        pkoExeceeReq fd (fixCmdArg w.isFile arg).1 (BitVec.ofNat 32 (fixCmdArg w.isFile arg).2)
      pure 0 : Io Int) :=
    (Wires.pkoCmdCon.sendsOnly.bind fun _ => Wires.get.sendsOnly.bind fun _ =>
      pkoExeceeReq_sendsOnly _).bind fun _ => .pure 0
  exact hv { w with state := 1 }

/-- The block that `fix_cmd_arg` makes is what the packet carries. -/
theorem execee_launches {arg : List Byte} {strings : List (List Byte)}
    (hf : fixCmdArg w.isFile arg = (strings.flatMap (· ++ [0]), strings.length))
    (hl : (strings.flatMap (· ++ [0])).length < maxPath) (hv : ((execee arg).run w).value ≠ none) :
    Launches strings ((execee arg).run w).acts := by
  have hc := (emits_execee arg w).all hv
  have hm : execeeCmd ∈ sentCodes ((execee arg).run w).acts := by
    rw [hc]
    exact List.mem_singleton_self _
  rw [sentCodes, List.mem_filterMap] at hm
  obtain ⟨a, ha, hcode⟩ := hm
  cases a with
  | send s bytes ret =>
    obtain ⟨stack, rfl⟩ := execee_sends arg w _ ha s bytes ret rfl
    rw [hf] at ha
    exact ⟨s, _, ret, ha, execeeReq_cmd, execeeReq_argc, (List.prefix_append _ _).trans (execeeReq_argv hl)⟩
  | _ => cases hcode

theorem cliExecee_launches {arg : List Byte} {strings : List (List Byte)}
    (hf : ∀ v : World, v.os = w.os → fixCmdArg v.isFile arg = (strings.flatMap (· ++ [0]), strings.length))
    (hl : (strings.flatMap (· ++ [0])).length < maxPath) (hv : ((cliExecee arg).run w).value ≠ none) :
    Launches strings ((cliExecee arg).run w).acts := by
  rw [cliExecee, Prog.run_bind, Prog.run_get, Result.andThen_mk_some] at hv ⊢
  by_cases hs : w.state = 1
  · rw [if_pos hs] at hv ⊢
    have hos := (resetAndReconnect.keeps w).os
    rw [Prog.run_bind] at hv ⊢
    generalize resetAndReconnect.run w = r at hv hos ⊢
    cases hr : r.value with
    | none =>
      rw [Result.andThen_none _ hr] at hv
      exact absurd rfl hv
    | some u =>
      rw [Result.andThen_some _ hr] at hv ⊢
      obtain ⟨s, bytes, ret, ha, hc⟩ := execee_launches (hf _ hos) hl hv
      exact ⟨s, bytes, ret, List.mem_append_right _ (List.mem_append_right _ ha), hc⟩
  · rw [if_neg hs, Result.after_value] at hv
    rw [if_neg hs, Result.after_acts, List.nil_append]
    exact execee_launches (hf w rfl) hl hv

theorem packetStr_execeeReq {m stack : Mem} {argv : List Byte} {argc : Word}
    (hm : m.slice 0 pktExeceeReqSize = execeeReq stack argv argc) (h0 : 0 ∉ argv) (hl : argv.length < maxPath) :
    packetStr m 10 = argv := by
  obtain ⟨rest, hrest⟩ := @execeeReq_argv stack argv argc hl
  have hs : m.slice 10 maxPath = argv ++ 0 :: rest := by
    rw [show maxPath = pktExeceeReqSize - 10 from rfl, ← Nat.zero_add 10, ← Mem.slice_drop _ 0 (by decide), hm,
      ← hrest, List.append_assoc]
    rfl
  have hlen := congrArg List.length hs
  rw [Mem.slice_length, List.length_append, List.length_cons] at hlen
  exact packetStr_of_slice (p := ⟨argv, rest, fun b hb => by rintro rfl; exact h0 hb, by omega⟩) hs (by decide)

theorem relayed_launches {cwd path : List Byte} {args : List (List Byte)} {stack : Mem}
    (hm : w.recvPacket.slice 0 pktExeceeReqSize = execeeReq stack (execFile cwd path args) 1)
    (hp : IsWord (if argDeviceCheck path then path else cwd ++ slash :: path))
    (hd : argDeviceCheck path = false → argDeviceCheck (cwd ++ slash :: path) = false)
    (ha : ∀ a ∈ args, IsWord a)
    (hr : ∀ v : World, v.os = w.os →
      v.isFile (cwd ++ slash :: path) = true ∧ ∀ a ∈ args, v.isFile a = true → argDeviceCheck a = true)
    (hl : ((hostPath cwd path :: args).flatMap (· ++ [0])).length < maxPath)
    (hv : ((relay .execee).run w).value ≠ none) :
    Launches (hostPath cwd path :: args) ((relay .execee).run w).acts := by
  have hf (v : World) (hos : v.os = w.os) : fixCmdArg v.isFile (execFile cwd path args) =
      ((hostPath cwd path :: args).flatMap (· ++ [0]), args.length + 1) := by
    obtain ⟨hreg, hargs⟩ := hr v hos
    have hbase : fixWord v.isFile (if argDeviceCheck path then path else cwd ++ slash :: path) = hostPath cwd path := by
      cases hdev : argDeviceCheck path with
      | true => simp [fixWord, hostPath, hdev]
      | false => simp [fixWord, hostPath, hdev, hd hdev, hreg]
    have hwords : ∀ a ∈ args, fixWord v.isFile a = a := by
      intro a hm
      cases hf : v.isFile a with
      | true => simp [fixWord, hf, hargs a hm hf]
      | false => simp [fixWord, hf]
    rw [execFile, fixCmdArg_words hp ha, List.flatMap_cons, List.flatMap_cons, hbase,
      List.flatMap_congr fun a hm => by rw [hwords a hm]]
  have h0 : 0 ∉ execFile cwd path args := by
    rw [execFile, List.mem_append, List.mem_flatMap]
    rintro (h | ⟨a, hm, h⟩)
    · exact hp.2.2 h
    · rcases List.mem_cons.mp h with h | h
      · exact absurd h (by decide)
      · exact (ha a hm).2.2 h
  have hlen : (execFile cwd path args).length < maxPath := by
    have hsum : (args.flatMap (space :: ·)).length = (args.flatMap (· ++ [0])).length := by simp [List.length_flatMap]
    have hpath : (if argDeviceCheck path then path else cwd ++ slash :: path).length ≤ (hostPath cwd path).length := by
      rw [hostPath]
      split
      · exact Nat.le_refl _
      · simp only [List.length_append]
        omega
    rw [List.flatMap_cons, List.length_append, List.length_append] at hl
    rw [execFile, List.length_append, hsum]
    omega
  have hrun : (relay .execee).run w = ((cliExecee (execFile cwd path args)).run w).andThen fun _ s => ⟨some (), s, []⟩ := by
    rw [← packetStr_execeeReq hm h0 hlen]
    rfl
  rw [hrun] at hv ⊢
  cases hc : ((cliExecee (execFile cwd path args)).run w).value with
  | none =>
    rw [Result.andThen_none _ hc] at hv
    exact absurd rfl hv
  | some n =>
    rw [Result.andThen_some _ hc, Result.after_acts, List.append_nil]
    exact cliExecee_launches hf hl (by rw [hc]; exact Option.some_ne_none n)

end Relayed

/-- Every path is a regular file, and sockets connect at once. -/
def Host.ready : Host :=
  { Host.refusing with
    stat := fun _ _ => (true, ⟨0x8000, 1, 0, 0, 0⟩)
    socket := fun _ => some 3
    connect := fun _ _ => none
    peer := fun _ _ => .delivering [] }

/-- `eeexec x` in the directory `/d`. -/
theorem direct_not_launched : ¬∀ (cwd path : List Byte) (args : List (List Byte)) (w : World),
    (∀ v : World, v.os = w.os → v.isFile (cwd ++ slash :: path) = true) → (∀ a ∈ args, space ∉ a) →
    ((hostPath cwd path :: args).flatMap (· ++ [0])).length < maxPath →
    Launches (hostPath cwd path :: args) ((execDirect cwd path args).run w).acts := by
  intro h
  have hv : ∀ v : World, v.os = (World.linked .ready (-1) []).os → v.isFile (str "/d" ++ slash :: str "x") = true := by
    intro v hv
    rw [World.isFile, hv]
    exact show (true && isRegMode 0x8000) = true by decide
  obtain ⟨s, bytes, ret, hs, hc⟩ := h (str "/d") (str "x") [] (.linked .ready (-1) []) hv (by simp) (by decide)
  have hacts : ((execDirect (str "/d") (str "x") []).run (.linked .ready (-1) [])).acts = [.close (-1), .socket .dgram (some 3),
      .connect 3 true, .send 3 (execeeReq (fun _ => 0) (execFile (str "/d") (str "x") []) 0) (some pktExeceeReqSize)] := by
    decide +kernel
  rw [hacts] at hs
  have hb : bytes = execeeReq (fun _ => 0) (execFile (str "/d") (str "x") []) 0 := by
    simp only [List.mem_cons, reduceCtorEq, false_or, List.not_mem_nil, or_false] at hs
    exact (Act.send.inj hs).2.1
  exact absurd (hb ▸ hc.argc) (by decide +kernel)

end Pksh
