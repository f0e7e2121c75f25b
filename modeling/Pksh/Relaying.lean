import Pksh.Answering

/-! The packets the command side sends. Every command sends its own code, in
the order in which the cases of the switch are run through. -/

namespace Pksh

open Wire Traced

variable {α β : Type}

/-- What is done to set up and take down connections. -/
def Act.wires : Act → Bool
  | .socket _ _ | .connect _ _ | .close _ | .stat _ _ | .unlinked => true
  | _ => false

def Act.relays : Act → Bool
  | .send _ _ _ | .blocks _ => true
  | a => a.wires

def Wires (m : Io α) : Prop :=
  ∀ w, (∀ a ∈ (m.run w).acts, a.wires = true) ∧ ((m.run w).value = none → Stuck (m.run w))

/-- The packets sent, as far as the program gets. -/
structure Emits (codes : List Word) (r : Result World Act α) : Prop where
  relays : ∀ a ∈ r.acts, a.relays = true
  sent : sentCodes r.acts <+: codes
  all : r.value ≠ none → sentCodes r.acts = codes
  stuck : r.value = none → Stuck r

theorem Act.relays_of_wires {a : Act} (h : a.wires = true) : a.relays = true := by
  cases a <;> simp_all [wires, relays]

theorem Act.refusal_of_relays {a : Act} (h : a.relays = true) : a.refusal = false := by
  cases a <;> simp_all [wires, relays, refusal]

theorem sentCodes_wires {as : List Act} (h : ∀ a ∈ as, a.wires = true) : sentCodes as = [] := by
  refine sentCodes_mute fun a ha => ?_
  have hw := h a ha
  cases a <;> simp_all [Act.wires, Act.mute, Act.refusal]

theorem Wires.emits {m : Io α} (h : Wires m) (w : World) : Emits [] (m.run w) where
  relays a ha := Act.relays_of_wires ((h w).1 a ha)
  sent := by simp [sentCodes_wires (h w).1]
  all _ := sentCodes_wires (h w).1
  stuck := (h w).2

theorem Emits.bind {c d : List Word} {m : Io α} {f : α → Io β} {w : World} (hm : Emits c (m.run w))
    (hf : ∀ a, (m.run w).value = some a → Emits d ((f a).run (m.run w).state)) :
    Emits (c ++ d) ((m >>= f).run w) := by
  cases hv : (m.run w).value with
  | none =>
    rw [Prog.run_bind, Result.andThen_none _ hv]
    exact ⟨hm.relays, hm.sent.trans (List.prefix_append c d), fun h => absurd rfl h,
      fun _ => ⟨rfl, (hm.stuck hv).2⟩⟩
  | some a =>
    have hd := hf a hv
    have hc : sentCodes (m.run w).acts = c := hm.all (by simp [hv])
    rw [Prog.run_bind, Result.andThen_some _ hv]
    refine ⟨fun b hb => ?_, ?_, fun h => ?_, fun h => (hd.stuck h).after _⟩
    · rcases List.mem_append.mp hb with hb | hb
      · exact hm.relays b hb
      · exact hd.relays b hb
    · rw [Result.after_acts, sentCodes_append, hc]
      exact (List.prefix_append_right_inj c).mpr hd.sent
    · rw [Result.after_acts, sentCodes_append, hc, hd.all h]

theorem Emits.wires_bind {c : List Word} {m : Io α} {f : α → Io β} {w : World} (hm : Wires m)
    (hf : ∀ a, (m.run w).value = some a → Emits c ((f a).run (m.run w).state)) :
    Emits c ((m >>= f).run w) := (hm.emits w).bind hf

theorem Emits.bind_wires {c : List Word} {m : Io α} {f : α → Io β} {w : World} (hm : Emits c (m.run w))
    (hf : ∀ a, Wires (f a)) : Emits c ((m >>= f).run w) :=
  List.append_nil c ▸ hm.bind fun a _ => (hf a).emits _

namespace Wires

theorem of_returns {m : Io α} (hm : ∀ w, ∀ a ∈ (m.run w).acts, a.wires = true)
    (hv : ∀ w, (m.run w).value ≠ none) : Wires m :=
  fun w => ⟨hm w, fun h => absurd h (hv w)⟩

theorem pure (a : α) : Wires (pure a : Io α) := of_returns (by simp) (by simp)

theorem get : Wires (Prog.get : Io World) := of_returns (by simp) (by simp)

theorem bind {m : Io α} {f : α → Io β} (hm : Wires m) (hf : ∀ a, Wires (f a)) : Wires (m >>= f) := by
  intro w
  cases hv : (m.run w).value with
  | none =>
    rw [Prog.run_bind, Result.andThen_none _ hv]
    exact ⟨(hm w).1, fun _ => ⟨rfl, ((hm w).2 hv).2⟩⟩
  | some a =>
    rw [Prog.run_bind, Result.andThen_some _ hv]
    refine ⟨fun b hb => ?_, fun h => ((hf a _).2 h).after _⟩
    rcases List.mem_append.mp hb with hb | hb
    · exact (hm w).1 b hb
    · exact (hf a _).1 b hb

theorem ite {c : Prop} [Decidable c] {p q : Io α} (hp : Wires p) (hq : Wires q) :
    Wires (if c then p else q) := by
  split
  · exact hp
  · exact hq

theorem setVars (f : Vars → Vars) : Wires (setVars f) :=
  of_returns (by simp [Pksh.setVars]) (by simp [Pksh.setVars])

theorem asks {answer : World → α} {act : α → Act} {h : ∀ a, (act a).quiet = true}
    (ha : ∀ a, (act a).wires = true) : Wires (asks answer act h) :=
  of_returns (by simp [Pksh.asks, ha]) (by simp [Pksh.asks])

theorem sysClose (fd : Int) : Wires (sysClose fd) :=
  of_returns (by simp [Pksh.sysClose, Act.wires]) (by simp [Pksh.sysClose])

theorem sysSocket (type : SockType) : Wires (sysSocket type) := by
  refine of_returns (fun w => ?_) fun w => ?_ <;>
    (simp only [Pksh.sysSocket]; split) <;> simp [Act.wires]

theorem sysConnect (fd : Int) : Wires (sysConnect fd) := by
  refine of_returns (fun w => ?_) fun w => ?_ <;>
    (simp only [Pksh.sysConnect]; split) <;> simp [Act.wires]

theorem sysSoError (fd : Int) : Wires (sysSoError fd) := by
  refine of_returns (fun w => ?_) fun w => ?_ <;>
    (simp only [Pksh.sysSoError]; split) <;> simp [Act.wires]

theorem sysSelectConnect (fd : Int) : Wires (sysSelectConnect fd) :=
  of_returns (by simp [Pksh.sysSelectConnect]) (by simp [Pksh.sysSelectConnect])

theorem loadPacket : Wires loadPacket := get.bind fun _ => .pure _

theorem pkoCmdCon : Wires pkoCmdCon := by
  refine (sysSocket _).bind fun fd => (setVars _).bind fun _ => ?_
  cases fd with
  | none => exact .pure _
  | some fd => exact (sysConnect fd).bind fun _ => .pure _

theorem cmdListenerOn (fd : Int) : Wires (cmdListenerOn fd) := by
  refine (sysConnect fd).bind fun e => ?_
  cases e with
  | none => exact .pure _
  | some e =>
    refine .ite (.pure _) ((sysSelectConnect fd).bind fun late => ?_)
    cases late with
    | true => exact (sysClose fd).bind fun _ => .pure _
    | false =>
      refine (sysSoError fd).bind fun error => ?_
      rcases error with _ | _ | e
      · exact .pure _
      · exact .pure _
      · exact (sysClose fd).bind fun _ => .pure _

theorem cmdListener : Wires cmdListener := by
  refine (sysSocket _).bind fun fd => ?_
  cases fd with
  | none => exact .pure _
  | some fd => exact cmdListenerOn fd

theorem awaitLink (attempts : Nat) : Wires (awaitLink attempts) := by
  induction attempts with
  | zero => exact fun _ => ⟨by simp [Pksh.awaitLink, emit, Act.wires], fun _ => ⟨rfl, .unlinked, by simp [Pksh.awaitLink, emit], rfl⟩⟩
  | succ attempts ih => exact cmdListener.bind fun fd => (setVars _).bind fun _ => .ite (.pure _) ih

theorem closeNetfs : Wires closeNetfs :=
  get.bind fun _ => (sysClose _).bind fun _ => setVars _

end Wires

theorem emits_sysSend (s : Int) (bs : List Byte) (w : World) : Emits [ofBe32 bs] ((sysSend s bs).run w) := by
  obtain ⟨ret, ⟨ha, hv⟩ | ⟨ha, _⟩⟩ := sysSend_acts w s bs
  · exact ⟨by simp [ha, Act.relays], by simp [ha, sentCodes], fun _ => by simp [ha, sentCodes],
      fun h => absurd h hv⟩
  · exact ⟨by simp [ha, Act.relays], by simp [ha, sentCodes], fun _ => by simp [ha, sentCodes],
      fun h => ⟨h, .blocks s, by simp [ha], rfl⟩⟩

theorem emits_sendReq {sock : Int} {cmd : Word} {size len : Nat} {fields : List (Nat × List Byte)}
    (hs : 4 ≤ size) (hf : ∀ f ∈ fields, 4 ≤ f.1) (w : World) :
    Emits [cmd] ((sendReq sock size (reqHdr cmd len ++ fields)).run w) := by
  have hc : ofBe32 (((w.os.stack w.now).stores (reqHdr cmd len ++ fields)).slice 0 size) = cmd := by
    rw [← ofBe32_take _ (Nat.le_refl 4), Mem.slice_take _ _ hs, Mem.stores, reqHdr, List.cons_append,
      List.foldl_cons, ← Mem.stores, Mem.slice_stores_disjoint, head_store_code, ofBe32_be32]
    intro f hm
    rcases List.mem_cons.mp hm with rfl | hm
    · exact Nat.le_refl 4
    · exact hf f hm
  have h := emits_sysSend sock (((w.os.stack w.now).stores (reqHdr cmd len ++ fields)).slice 0 size) w
  rw [hc] at h
  exact h

theorem emits_command {code : Word} {req : Int → Io Int}
    (h : ∀ fd w, Emits [code] ((req fd).run w)) (w : World) : Emits [code] ((command req).run w) :=
  .wires_bind .pkoCmdCon fun _ _ => .wires_bind .get fun _ _ => h _ _

section Requests

variable (sock : Int) (w : World)

theorem emits_pkoDumpmemoryReq (file : List Byte) (offset size : Word) :
    Emits [dumpmemCmd] ((pkoDumpmemoryReq sock file offset size).run w) :=
  emits_sendReq (by decide) (by simp) w

theorem emits_pkoDumpregsReq (file : List Byte) (regs : Word) :
    Emits [dumpregsCmd] ((pkoDumpregsReq sock file regs).run w) :=
  emits_sendReq (by decide) (by simp) w

theorem emits_pkoExeceeReq (argv : List Byte) (argc : Word) :
    Emits [execeeCmd] ((pkoExeceeReq sock argv argc).run w) :=
  emits_sendReq (by decide) (by simp) w

theorem emits_pkoExeciopReq (argv : List Byte) (argc : Word) :
    Emits [execiopCmd] ((pkoExeciopReq sock argv argc).run w) :=
  emits_sendReq (by decide) (by simp) w

theorem emits_pkoGsexecReq (file : List Byte) (size : Word) :
    Emits [gsexecCmd] ((pkoGsexecReq sock file size).run w) :=
  emits_sendReq (by decide) (by simp) w

theorem emits_pkoResetReq : Emits [resetCmd] ((pkoResetReq sock).run w) := by
  have h : Emits [resetCmd] ((sendReq sock pktResetReqSize (reqHdr resetCmd pktResetReqSize ++ [])).run w) :=
    emits_sendReq (by decide) (by simp) w
  rwa [List.append_nil] at h

theorem emits_pkoStopVu (vpu : Word) : Emits [stopvuCmd] ((pkoStopVu sock vpu).run w) :=
  emits_sendReq (by decide) (by simp) w

theorem emits_pkoStartVu (vpu : Word) : Emits [startvuCmd] ((pkoStartVu sock vpu).run w) :=
  emits_sendReq (by decide) (by simp) w

end Requests

/-- The size `cli_gsexec` finds for a data file. -/
def World.gsexecSize (w : World) (arg : List Byte) : Int :=
  let r := w.os.stat w.now (trimInPlace arg)
  if r.1 then (cWord r.2.size).toInt else 0

/-- The command packets sent for one that came from a client. -/
def World.forwarded (w : World) : Cmd → List Word
  | .gsexec =>
    let size := w.gsexecSize (packetStr w.recvPacket 8)
    (if size > 16384 ∨ size = 0 then [] else [gsexecCmd]) ++ [stopvuCmd]
  | .execee => (if w.state = 1 then [resetCmd] else []) ++ [execeeCmd]
  | c => if c.isFileIo then [] else [c.code]

theorem forwarded_not_rly (w : World) (c : Cmd) : ∀ code ∈ w.forwarded c, code ∉ rlyCodes := by
  have hs : ∀ d : Cmd, ∀ code ∈ [d.code], code ∉ rlyCodes := by
    intro d code h
    rw [List.mem_singleton.mp h]
    exact d.code_not_rly
  intro code hc
  cases c with
  | gsexec =>
    rcases List.mem_append.mp hc with h | h
    · split at h
      · cases h
      · exact hs .gsexec code h
    · exact hs .stopvu code h
  | execee =>
    rcases List.mem_append.mp hc with h | h
    · split at h
      · exact hs .reset code h
      · cases h
    · exact hs .execee code h
  | dumpmem => exact hs .dumpmem code hc
  | dumpregs => exact hs .dumpregs code hc
  | stopvu => exact hs .stopvu code hc
  | startvu => exact hs .startvu code hc
  | execiop => exact hs .execiop code hc
  | reset => exact hs .reset code hc
  | _ => cases hc

theorem emits_cliReset (w : World) : Emits [resetCmd] (cliReset.run w) :=
  .wires_bind (.setVars _) fun _ _ =>
    (emits_command (emits_pkoResetReq ·) _).bind_wires fun _ => Wires.closeNetfs.bind fun _ => .pure 0

theorem emits_cliExeceiop (arg : List Byte) (w : World) : Emits [execiopCmd] ((cliExeceiop arg).run w) :=
  .wires_bind (.setVars _) fun _ _ => .wires_bind .get fun _ _ =>
    (emits_command (fun fd v => emits_pkoExeciopReq fd v _ _) _).bind_wires fun _ => .pure 0

theorem emits_execee (arg : List Byte) (w : World) : Emits [execeeCmd] ((execee arg).run w) :=
  .wires_bind (.setVars _) fun _ _ => .wires_bind .get fun _ _ =>
    (emits_command (fun fd v => emits_pkoExeceeReq fd v _ _) _).bind_wires fun _ => .pure 0

theorem emits_resetAndReconnect (w : World) : Emits [resetCmd] (resetAndReconnect.run w) :=
  (emits_cliReset w).bind_wires fun _ => Wires.get.bind fun _ =>
    (Wires.sysClose _).bind fun _ => Wires.awaitLink _

theorem emits_cliExecee (arg : List Byte) (w : World) :
    Emits ((if w.state = 1 then [resetCmd] else []) ++ [execeeCmd]) ((cliExecee arg).run w) := by
  refine .wires_bind .get fun v hv => ?_
  obtain rfl : w = v := by simpa using hv
  by_cases h : w.state = 1
  · rw [if_pos h, if_pos h]
    exact (emits_resetAndReconnect w).bind fun _ _ => emits_execee arg _
  · rw [if_neg h, if_neg h]
    exact emits_execee arg w

theorem emits_cliGsexec (arg : List Byte) (w : World) :
    Emits (if w.gsexecSize arg > 16384 ∨ w.gsexecSize arg = 0 then [] else [gsexecCmd])
      ((cliGsexec arg).run w) := by
  have hm : Wires (sizeFile (trimInPlace arg)) := (Wires.asks fun _ => rfl).bind fun _ => .pure _
  refine .wires_bind hm fun size hv => ?_
  obtain rfl : w.gsexecSize arg = size := by simpa [World.gsexecSize, sizeFile, sysStat, asks] using hv
  by_cases h1 : w.gsexecSize arg > 16384
  · rw [if_pos (.inl h1), if_pos h1]
    exact (Wires.emits (.pure _) _)
  · by_cases h2 : w.gsexecSize arg = 0
    · rw [if_pos (.inr h2), if_neg h1, if_pos h2]
      exact (Wires.emits (.pure _) _)
    · rw [if_neg (by tauto), if_neg h1, if_neg h2]
      exact .wires_bind .get fun _ _ =>
        (emits_command (fun fd v => emits_pkoGsexecReq fd v _ _) _).bind_wires fun _ => .pure 0

theorem emits_stopvuCase (w : World) : Emits [stopvuCmd] (stopvuCase.run w) :=
  .wires_bind .loadPacket fun _ _ =>
    (emits_command (fun fd v => emits_pkoStopVu fd v _) _).bind_wires fun _ => .pure ()

theorem emits_relay (c : Cmd) (w : World) : Emits (w.forwarded c) ((relay c).run w) := by
  cases c with
  | dumpmem =>
    exact .wires_bind .loadPacket fun _ _ =>
      (emits_command (fun fd v => emits_pkoDumpmemoryReq fd v _ _ _) _).bind_wires fun _ => .pure ()
  | dumpregs =>
    exact .wires_bind .loadPacket fun _ _ =>
      (emits_command (fun fd v => emits_pkoDumpregsReq fd v _ _) _).bind_wires fun _ => .pure ()
  | gsexec =>
    refine .wires_bind .loadPacket fun m hm => ?_
    obtain rfl : w.recvPacket = m := by simpa [loadPacket] using hm
    exact (emits_cliGsexec _ w).bind fun _ _ => emits_stopvuCase _
  | stopvu => exact emits_stopvuCase w
  | startvu =>
    exact .wires_bind .loadPacket fun _ _ =>
      (emits_command (fun fd v => emits_pkoStartVu fd v _) _).bind_wires fun _ => .pure ()
  | execee =>
    refine .wires_bind .loadPacket fun m hm => ?_
    exact (emits_cliExecee _ w).bind_wires fun _ => .pure ()
  | execiop => exact .wires_bind .loadPacket fun _ _ => (emits_cliExeceiop _ _).bind_wires fun _ => .pure ()
  | reset => exact (emits_cliReset w).bind_wires fun _ => .pure ()
  | _ => exact Wires.emits (.pure ()) w

end Pksh
