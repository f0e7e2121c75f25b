import Pksh.Sessions
import Pksh.CopyRoutes

/-! The steps of `cp`: the requests of a transfer next to a local file, and
what stands before and behind its loop. -/

namespace Pksh

open Wire Traced

/-- The reply to a read, with the data behind it. -/
structure Portion where
  reply : Reply
  data : List Byte
  cmd : reply.cmd = ps2netfsReadRly
  fits : pktFileRlySize ≤ reply.len.toNat ∧ reply.len.toNat ≤ pktReadRlySize
  measured : data.length = reply.retval.toInt.toNat

namespace Portion

def bytes (c : Portion) : List Byte := c.reply.bytes ++ c.data

def stream (cs : List Portion) : List Byte := cs.flatMap bytes

def contents (cs : List Portion) : List Byte := cs.flatMap data

def asExchange (c : Portion) (fd size : Word) : Exchange where
  request := .read fd size
  reply := c.reply
  data := c.data
  answers := ⟨c.cmd, c.fits.1, c.fits.2⟩
  measured := c.measured

end Portion

/-- Both ends of a transfer: the connection, and a local file. -/
structure Joined (fd fd0 : Int) (stream : List Byte) (w : World) : Prop where
  talking : Talking fd stream w
  plain : w.desc fd0 = some .plain

namespace Joined

variable {fd fd0 : Int} {stream : List Byte} {w v : World}

theorem ne (h : Joined fd fd0 stream w) : fd ≠ fd0 := by
  rintro rfl
  obtain ⟨k, hk, -⟩ := h.talking.sock
  rw [h.plain] at hk
  cases hk

theorem of_desc (h : Joined fd fd0 stream w) (hn : v.ps2NetfsFd = w.ps2NetfsFd) (hd : v.desc = w.desc) :
    Joined fd fd0 stream v := ⟨h.talking.of_desc hn (by rw [hd]), by rw [hd, h.plain]⟩

theorem tick (h : Joined fd fd0 stream w) : Joined fd fd0 stream w.tick := h.of_desc rfl rfl

theorem of_converses {as : List Act} {rest : List Byte} (h : Joined fd fd0 stream w) (hk : Accounted w as v) (ht : Converses w as v)
    (hv : Talking fd rest v) : Joined fd fd0 rest v ∧ ∀ a ∈ as, a.talks = true := by
  obtain ⟨hp, ha⟩ := ht.plain hk (by rw [hv.netfs]; exact hv.nonneg) h.plain
  exact ⟨⟨hv, hp⟩, ha⟩

end Joined

section Steps

variable {fd fd0 : Int} {rest : List Byte} {w : World}

theorem Hears.readData {pktType : Word} (response : Option Mem) : Sat (Hears pktType) (readData response) := by
  cases response with
  | none => exact .pure _
  | some m => exact .ite (Sat.get.bind fun _ => (Hears.pkoRecvBytes _ _ _).bind fun _ => .pure _) (.pure _)

theorem Converses.read (d size : Word) : Sat Converses (ps2netfsReqRead d size) := by
  refine Sat.bind (Converses.netfsCall (.read d size)) fun response => ?_
  cases response with
  | none => exact .pure _
  | some m => exact .ite (Sat.get.bind fun _ => (Converses.pkoRecvBytes _ _ _).bind fun _ => .pure _) (.pure _)

theorem ask_run (e : Exchange) (h : Joined fd fd0 (e.bytes ++ rest) w) : ∃ v as,
    e.request.run.run w = ⟨some e.reply.retval.toInt, v, as⟩ ∧ Joined fd fd0 rest v ∧ v.os = w.os ∧
      v.now = w.now + e.request.calls ∧ (∀ a ∈ as, a.talks = true) ∧ Asks fd [e.request] (outgoing as) := by
  obtain ⟨v, as, hrun, ht, hnow, hasks⟩ := exchange_run e h.talking
  have hk := e.request.run.keeps w
  have hta := Converses.run e.request w
  rw [hrun] at hk hta
  obtain ⟨hj, ha⟩ := h.of_converses hk hta ht
  exact ⟨v, as, hrun, hj, hk.os, hnow, ha, hasks⟩

theorem read_run (c : Portion) (d size : Word) (h : Joined fd fd0 (c.bytes ++ rest) w) : ∃ v as,
    (ps2netfsReqRead d size).run w = ⟨some (c.reply.retval.toInt, c.data), v, as⟩ ∧ Joined fd fd0 rest v ∧ v.os = w.os ∧
      v.now = w.now + 1 ∧ (∀ a ∈ as, a.talks = true) ∧ Asks fd [.read d size] (outgoing as) := by
  have ht := h.talking
  rw [Portion.bytes, List.append_assoc] at ht
  obtain ⟨v, as, hcall, hm, hv, hcalls, ho⟩ := call_run ht (c.asExchange d size).answers
  obtain ⟨u, bs, hdata, hu, hnow⟩ := readData_finds hv (retval_of_slice hm c.fits.1) c.measured
  have hrun : (ps2netfsReqRead d size).run w = ⟨some (c.reply.retval.toInt, c.data), u, as ++ bs⟩ := by
    refine (ps2netfsReqRead_run d size w).trans ?_
    refine (congrArg (Result.andThen · _) hcall).trans ?_
    rw [Result.andThen_mk_some, hdata, Result.after_mk]
  have hk := (ps2netfsReqRead d size).keeps w
  have hta := Converses.read d size w
  rw [hrun] at hk hta
  obtain ⟨hj, ha⟩ := h.of_converses hk hta hu
  have hears := ((Hears.readData (some v.recvPacket) : Sat (Hears ps2netfsReadRly) _) v).2.2
  rw [hdata] at hears
  exact ⟨u, _, hrun, hj, hk.os, hnow.trans hcalls, ha, .of_call ho hears⟩

theorem answer_run {p : Reply} (r : NetfsReq) (hp : p.Returns r.awaits) (hr : r.room = pktFileRlySize)
    (h : Joined fd fd0 (p.bytes ++ rest) w) : ∃ v as, r.run.run w = ⟨some p.retval.toInt, v, as⟩ ∧ Joined fd fd0 rest v ∧
      v.os = w.os ∧ v.now = w.now + r.calls ∧ (∀ a ∈ as, a.talks = true) ∧ Asks fd [r] (outgoing as) := by
  have hdata : ([] : List Byte).length = r.data p.retval := by
    cases r with
    | read d size => cases hr
    | _ => rfl
  have hb : p.bytes ++ rest = p.bytes ++ [] ++ rest := by rw [List.append_nil]
  rw [hb] at h
  exact ask_run ⟨r, p, [], ⟨hp.cmd, Nat.le_of_eq hp.len.symm, by rw [hp.len, hr]⟩, hdata⟩ h

theorem open_run {path : List Byte} {flags : Word} {mode : Nat} {stream : List Byte} (h : Talking fd stream w)
    (ho : (w.os.openFile w.now path flags mode).filter w.unused = some fd0) :
    (sysOpen path flags mode).run w = ⟨some fd0, w.tick.setDesc fd0 (some .plain), [.openFile path (some fd0)]⟩ ∧
      0 ≤ fd0 ∧ Joined fd fd0 stream (w.tick.setDesc fd0 (some .plain)) := by
  have hu := World.unused_iff.mp (Option.filter_eq_some_iff.mp ho).2
  have hne : fd ≠ fd0 := by
    rintro rfl
    obtain ⟨k, hk, -⟩ := h.sock
    rw [hu.2] at hk
    cases hk
  refine ⟨by simp only [sysOpen, ho], hu.1, h.of_desc rfl ?_, by simp⟩
  simp only [World.setDesc, Function.update_of_ne hne]
  rfl

theorem close_run (h : Joined fd fd0 rest w) : ∃ r, (sysClose fd0).run w = ⟨some r, w.tick.setDesc fd0 none, [.close fd0]⟩ ∧
    Talking fd rest (w.tick.setDesc fd0 none) := by
  refine ⟨_, rfl, h.talking.of_desc rfl ?_⟩
  simp only [World.setDesc, Function.update_of_ne h.ne]
  rfl

theorem lseek_run {offset whence : Int} (h : Joined fd fd0 rest w) :
    (sysLseek fd0 offset whence).run w = ⟨some (w.os.lseek w.now fd0 offset whence), w.tick,
      [.lseek fd0 (w.os.lseek w.now fd0 offset whence)]⟩ := by
  simp only [sysLseek, asks, h.plain, Option.isSome_some, if_true]

/-- The read of a round of the fetching loop. -/
theorem fetch_run (c : Portion) (d : Word) (h : Joined fd fd0 (c.bytes ++ rest) w) : ∃ v as,
    (do let r ← ps2netfsReqRead d (BitVec.ofNat 32 blockSize); pure r.2 : Io (List Byte)).run w = ⟨some c.data, v, as⟩ ∧
      Joined fd fd0 rest v ∧ v.os = w.os ∧ v.now = w.now + 1 ∧ (∀ a ∈ as, a.talks = true) ∧
      Asks fd [.read d (BitVec.ofNat 32 blockSize)] (outgoing as) := by
  obtain ⟨v, as, hread, h⟩ := read_run c d (BitVec.ofNat 32 blockSize) h
  refine ⟨v, as, ?_, h⟩
  rw [Prog.run_bind, hread, Result.andThen_mk_some, Prog.run_pure, Result.after_mk, List.append_nil]

/-- Its write. -/
theorem store_run {bs : List Byte} {n : Nat} (h : Joined fd fd0 rest w) (hw : w.os.write w.now fd0 bs = some n) :
    (do let _ ← sysWrite fd0 bs : Io Unit).run w = ⟨some (), w.tick, [.write fd0 bs (some (min n bs.length))]⟩ := by
  have hrun : (sysWrite fd0 bs).run w =
      ⟨some (some (min n bs.length)), w.tick, [.write fd0 bs (some (min n bs.length))]⟩ := by
    simp only [sysWrite, h.plain, hw, Option.map_some]
  rw [Prog.run_bind, hrun, Result.andThen_mk_some, Prog.run_pure, Result.after_mk, List.append_nil]

/-- What is left behind a pointer of `argv` when a system call is about to be
made. -/
def World.freed (w : World) (i : Nat) : List Byte := (w.os.stack w.now).cstr (i * maxpathlen) maxpathlen

theorem freedStr_run (i : Nat) (w : World) : (freedStr i).run w = ⟨some (w.freed i), w, []⟩ := rfl

theorem cWord_toInt (d : Word) : cWord d.toInt = d := BitVec.ofInt_toInt

/-- What `cp` does behind its loop. -/
def shut (d : Word) (fd0 : Int) : Io Int := do
  let _ ← ps2netfsReqClose d
  let _ ← sysClose fd0
  pure 0

theorem shut_run {p : Reply} {d : Word} (hp : p.Returns ps2netfsCloseRly) (h : Joined fd fd0 (p.bytes ++ rest) w) :
    ∃ v as, (shut d fd0).run w = ⟨some 0, v, as ++ [.close fd0]⟩ ∧ Talking fd rest v ∧ v.desc fd0 = none ∧
      (∀ a ∈ as, a.talks = true) ∧ Asks fd [.close d] (outgoing as) := by
  obtain ⟨v, as, hr, hj, -, -, ha, hk⟩ := answer_run (.close d) hp rfl h
  obtain ⟨r, hclose, ht⟩ := close_run hj
  simp only [NetfsReq.run] at hr
  refine ⟨_, as, ?_, ht, by simp [World.setDesc], ha, hk⟩
  simp only [shut, Prog.run_bind, hr, Result.andThen_mk_some, hclose, Prog.run_pure, Result.after_mk, List.append_nil]

/-- From the PS2, up to the loop: the file has `n` bytes. -/
theorem copyFrom_opened {opened sized rewound : Reply} {n : Nat} (opens : opened.Returns ps2netfsOpenRly)
    (granted : 0 ≤ opened.retval.toInt) (sizes : sized.Returns ps2netfsLseekRly) (measured : sized.retval.toInt = n)
    (rewinds : rewound.Returns ps2netfsLseekRly)
    (h : Talking fd (opened.bytes ++ (sized.bytes ++ (rewound.bytes ++ rest))) w)
    (ho : (w.os.openFile w.now (w.freed 1) hostCopyFlags 0o644).filter w.unused = some fd0) :
    ∃ v as, copyFrom.run w = (((fetchLoop (do let r ← ps2netfsReqRead opened.retval (BitVec.ofNat 32 blockSize); pure r.2)
          (fun bytes => do let _ ← sysWrite fd0 bytes) n (w.os.stack (w.now + 4)) n).run v).andThen fun _ =>
            (shut opened.retval fd0).run).after (.openFile (w.freed 1) (some fd0) :: as) ∧
      Joined fd fd0 rest v ∧ v.os = w.os ∧ v.now = w.now + 4 ∧ (∀ a ∈ as, a.talks = true) ∧
      Asks fd [.openFile (w.tick.freed 0) 0x0001, .lseek opened.retval 0 (cWord seekEnd),
        .lseek opened.retval 0 (cWord seekSet)] (outgoing as) := by
  obtain ⟨hopen, h0, j0⟩ := open_run h ho
  obtain ⟨v1, a1, hr1, j1, hos1, hnow1, ht1, hk1⟩ :=
    answer_run (.openFile ((w.tick.setDesc fd0 (some .plain)).freed 0) 0x0001) opens rfl j0
  obtain ⟨v2, a2, hr2, j2, hos2, hnow2, ht2, hk2⟩ := answer_run (.lseek opened.retval 0 (cWord seekEnd)) sizes rfl j1
  obtain ⟨v3, a3, hr3, j3, hos3, hnow3, ht3, hk3⟩ := answer_run (.lseek opened.retval 0 (cWord seekSet)) rewinds rfl j2
  simp only [NetfsReq.run] at hr1 hr2 hr3
  have hfd1 : ¬opened.retval.toInt < 0 := Int.not_lt.mpr granted
  have hos : v3.os = w.os := hos3.trans (hos2.trans hos1)
  have hnow : v3.now = w.now + 4 := hnow3.trans (congrArg (· + 1) (hnow2.trans (congrArg (· + 1) hnow1)))
  refine ⟨v3, a1 ++ (a2 ++ a3), ?_, j3, hos, hnow, ?_, ?_⟩
  · simp only [copyFrom, Prog.run_bind, Prog.run_get, freedStr_run, Result.andThen_mk_some, hopen, if_neg (Int.not_lt.mpr h0),
      hr1, if_neg hfd1, cWord_toInt, hr2, hr3, measured, Int.toNat_natCast, hos, hnow]
    simp only [Result.after_after, List.cons_append, List.nil_append, List.append_nil]
    rfl
  · intro a ha
    rcases List.mem_append.mp ha with ha | ha
    · exact ht1 a ha
    · exact (List.mem_append.mp ha).elim (ht2 a) (ht3 a)
  · rw [outgoing_append, outgoing_append]
    exact hk1.append (hk2.append hk3)

/-- To the PS2, up to the loop: the local file has `size` bytes. -/
theorem copyTo_opened {opened : Reply} {size : Int} (opens : opened.Returns ps2netfsOpenRly)
    (granted : 0 ≤ opened.retval.toInt) (hsize : w.os.lseek (w.now + 2) fd0 0 seekEnd = size)
    (h : Talking fd (opened.bytes ++ rest) w)
    (ho : (w.os.openFile w.now (w.freed 0) 0 0).filter w.unused = some fd0) :
    ∃ v as l, copyTo.run w = (((sendLoop (sysRead fd0 blockSize) (fun buffer n => ps2netfsReqWrite opened.retval buffer (cWord n))
          Prog.hang w.os.patience (w.os.stack (w.now + 4)) size 0).run v).andThen fun _ =>
            (shut opened.retval fd0).run).after (.openFile (w.freed 0) (some fd0) :: (as ++ [.lseek fd0 size, .lseek fd0 l])) ∧
      Joined fd fd0 rest v ∧ v.os = w.os ∧ v.now = w.now + 4 ∧ (∀ a ∈ as, a.talks = true) ∧
      Asks fd [.openFile (w.tick.freed 1) ps2CopyFlags] (outgoing as) := by
  obtain ⟨hopen, h0, j0⟩ := open_run h ho
  obtain ⟨v1, a1, hr1, j1, hos1, hnow1, ht1, hk1⟩ :=
    answer_run (.openFile ((w.tick.setDesc fd0 (some .plain)).freed 1) ps2CopyFlags) opens rfl j0
  have hos : v1.os = w.os := hos1
  have hnow : v1.now = w.now + 2 := hnow1
  have hl : (sysLseek fd0 0 seekEnd).run v1 = ⟨some size, v1.tick, [.lseek fd0 size]⟩ := by
    rw [lseek_run j1, hnow, hos, hsize]
  simp only [NetfsReq.run] at hr1
  have hfd1 : ¬opened.retval.toInt < 0 := Int.not_lt.mpr granted
  refine ⟨v1.tick.tick, a1, v1.tick.os.lseek v1.tick.now fd0 0 seekSet, ?_, j1.tick.tick, hos, congrArg (· + 2) hnow, ht1, hk1⟩
  have hnow' : v1.tick.tick.now = w.now + 4 := congrArg (· + 2) hnow
  have hos' : v1.tick.tick.os = w.os := hos
  simp only [copyTo, Prog.run_bind, Prog.run_get, freedStr_run, Result.andThen_mk_some, hopen, if_neg (Int.not_lt.mpr h0),
    hr1, if_neg hfd1, cWord_toInt, hl, lseek_run j1.tick, hnow', hos']
  simp only [Result.after_after, List.cons_append, List.nil_append]
  rfl

end Steps

section Command

variable {w : World}

def argvOf (arg : List Byte) (i : Nat) : List Byte := (buildArgv arg).1.getD i []

variable {arg : List Byte}

theorem cliCopy_from (hargs : ¬(buildArgv arg).2 < 2) (hdev : (splitFilename (argvOf arg 0)).1 ≠ []) :
    cliCopy arg = withNetfs copyFrom := (if_neg hargs).trans (if_pos hdev)

theorem cliCopy_to (hargs : ¬(buildArgv arg).2 < 2) (hhost : (splitFilename (argvOf arg 0)).1 = [])
    (hdev : (splitFilename (argvOf arg 1)).1 ≠ []) : cliCopy arg = withNetfs copyTo :=
  (if_neg hargs).trans ((if_neg (not_not.mpr hhost)).trans (if_pos hdev))

end Command

end Pksh
