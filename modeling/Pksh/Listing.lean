import Pksh.DreadLoop

/-! `cli_list` on a device, and when it comes to its end with each entry
printed once. -/

namespace Pksh

open Wire Traced

theorem Accounted.desc_of_neg {w w' : World} {as : List Act} (h : Accounted w as w') {s : Int} (hs : s < 0)
    (hn : w.desc s = none) : w'.desc s = none :=
  h.unopened s hn fun a ha ho => absurd (h.opened s a ha ho).1 (by omega)

/-- On a number that is no descriptor every receive fails, and is tried again. -/
theorem netfsCall_nowhere (fields : List (Nat × List Byte)) (size len : Nat) (pktType : Word) {w : World}
    (h : w.desc w.ps2NetfsFd = none) : ((netfsCall fields (sendRequest size) len pktType).run w).value = none := by
  let v : World := { w with sendPacket := w.sendPacket.stores fields }
  obtain ⟨hv, hvars, hi, _⟩ := awaiting_request v size
  rw [netfsCall, Prog.run_bind]
  change ((sendRequest size >>= _ : Io (Option Mem)).run v).value = none
  rw [Prog.run_bind]
  generalize (sendRequest size).run v = r at hv hvars hi
  cases hr : r.value with
  | none => rw [Result.andThen_none _ hr]
  | some sent =>
    rw [Result.andThen_some _ hr, Result.after_value]
    have hs : sent = true := by
      rw [hr] at hv
      obtain ⟨_, _, rfl⟩ := Option.map_eq_some_iff.mp hv.symm
      rfl
    have hfd : r.state.ps2NetfsFd = w.ps2NetfsFd := by
      rw [hvars]
    have hin : r.state.inflow r.state.ps2NetfsFd = ⟨[], .fail .EBADF true⟩ := by
      rw [hfd]
      refine hi.trans ?_
      simp [World.inflow, World.sockAt, v, h, Sock.dead]
    have hacc : ((ps2netfsAcceptPkt r.state.ps2NetfsFd len pktType).run r.state).value = none := by
      rw [accept_short (by rw [World.pending, hin]; decide), hin]
      rfl
    rw [hs, if_pos rfl, Prog.run_bind, Prog.run_get, Result.andThen_mk_some, Prog.run_bind,
      Result.andThen_none _ hacc]
    rfl

/-- The listing of a directory comes to its end, and every entry on the way
there can be read. -/
def Listening.Lists (x : Listening) : Prop :=
  x.verdict pktFileRlySize ps2netfsDopenRly = .passed → 0 ≤ x.next.field →
    ∃ rs b, Stops pktDreadRlySize ps2netfsDreadRly x.next rs b ∧ (b = false → x.next.field = 0) ∧ ∀ r ∈ rs, Legible r

def behindFirst (bs : List Byte) : List Byte := bs.drop (pktHdrSize + (announced bs - pktHdrSize))

theorem behindFirst_listening (u : World) : behindFirst (u.pending u.ps2NetfsFd) = u.listening.next.stream := by
  change u.listening.stream.drop _ = u.listening.stream.drop u.listening.asked
  by_cases h6 : pktHdrSize ≤ u.listening.stream.length
  · have hlen : u.listening.hlen = announced u.listening.stream := congrArg BitVec.toNat (header_store u.listening.buffer h6).2
    rw [Listening.asked, hlen]
    rfl
  · have hdrop {n : Nat} : u.listening.stream.drop (pktHdrSize + n) = [] := List.drop_of_length_le (by omega)
    rw [hdrop, Listening.asked, hdrop]

/-- What is left to do once the directory is open. -/
def showOpened (fd : Int) (arg : List Byte) : Io (Int × List Printed) := do
  let w ← Prog.get
  let shown ← showEntries (cWord fd) w.os.patience
  if fd > 0 then
    let _ ← ps2netfsReqDclose (cWord fd)
    pure (0, .heading arg :: shown)
  else pure (0, shown)

theorem dclose_value {fd : Word} {v : World} : ((ps2netfsReqDclose fd).run v).value =
    ((netfsCall (reqHdr ps2netfsDcloseCmd pktCloseReqSize ++ [(6, le32 (htonl fd))]) (sendRequest pktCloseReqSize)
      pktFileRlySize ps2netfsDcloseRly).run v).value.map retval :=
  congrArg Result.value (Prog.run_bind_pure _ _ v)

theorem dclose_returns (fd : Word) {v : World} (h : v.Ends) : ((ps2netfsReqDclose fd).run v).value ≠ none := by
  have hc := called (reqHdr ps2netfsDcloseCmd pktCloseReqSize ++ [(6, le32 (htonl fd))]) pktCloseReqSize pktFileRlySize
    ps2netfsDcloseRly h
  rw [dclose_value]
  generalize (netfsCall _ _ _ _).run v = r at hc ⊢
  cases hc <;> simp

def headed (fd : Int) (arg : List Byte) : List Printed := if fd > 0 then [.heading arg] else []

theorem headed_plain {fd : Int} {arg : List Byte} : ∀ s ∈ headed fd arg, s.entry? = none ∧ s.text ≠ none := by
  rw [headed]
  split
  · exact List.forall_mem_singleton.mpr ⟨rfl, nofun⟩
  · exact nofun

section Opened

variable {fd : Int} {arg : List Byte} {v : World}

theorem showOpened_stops {rs : List (List Byte)} {b : Bool} (hs : Stops pktDreadRlySize ps2netfsDreadRly v.listening rs b)
    (hv : v.Ends) (hn : v.desc (-1) = none) (hp : v.listening.stream.length < v.os.patience) :
    ∃ ds, List.Forall₂ Copied rs ds ∧ (((b = false → fd ≤ 0) →
        ((showOpened fd arg).run v).value = some (0, headed fd arg ++ ds.map .entry)) ∧
      (¬(b = false → fd ≤ 0) → ((showOpened fd arg).run v).value = none)) := by
  obtain ⟨t, bs, ds, hrun, hcopied, hopen, hshut⟩ := showEntries_stops (cWord fd) hs hv rfl hp
  have hdesc : t.desc (-1) = none := by
    have hk := (showEntries (cWord fd) v.os.patience).keeps v
    rw [hrun] at hk
    exact hk.desc_of_neg (by decide) hn
  refine ⟨ds, hcopied, ?_⟩
  rw [showOpened, Prog.run_bind, Prog.run_get, Result.andThen_mk_some, Result.after_value, Prog.run_bind, hrun,
    Result.andThen_mk_some, Result.after_value, headed]
  by_cases hpos : fd > 0
  · rw [if_pos hpos, if_pos hpos, Prog.run_bind_pure]
    cases b with
    | true =>
      obtain ⟨ret, hret⟩ := Option.ne_none_iff_exists'.mp (dclose_returns (cWord fd) (hopen rfl))
      rw [hret]
      exact ⟨fun _ => rfl, fun h => absurd nofun h⟩
    | false =>
      have hnone : ((ps2netfsReqDclose (cWord fd)).run t).value = none := by
        rw [dclose_value, netfsCall_nowhere _ _ _ _ (by rw [hshut rfl, hdesc]), Option.map_none]
      rw [hnone]
      exact ⟨fun h => absurd (h rfl) (Int.not_le.mpr hpos), fun _ => rfl⟩
  · rw [if_neg hpos, if_neg hpos]
    exact ⟨fun _ => rfl, fun h => absurd (fun _ => Int.not_lt.mp hpos) h⟩

theorem showOpened_endless (hs : ∀ rs b, ¬Stops pktDreadRlySize ps2netfsDreadRly v.listening rs b) (hv : v.Ends) :
    ((showOpened fd arg).run v).value = none := by
  rw [showOpened, Prog.run_bind, Prog.run_get, Result.andThen_mk_some, Result.after_value, Prog.run_bind,
    Result.andThen_none _ (showEntries_endless hs hv)]

/-- What it prints can be printed, and is each entry once. -/
def Once (r : Option (Int × List Printed)) (stream : List Byte) : Prop :=
  ∃ ret shown, r = some (ret, shown) ∧ Printed.texts shown ≠ none ∧ EachOnce stream shown

theorem once_none {stream : List Byte} : ¬Once none stream := fun ⟨_, _, h, _⟩ => nomatch h

theorem once_some {ret : Int} {shown : List Printed} {stream : List Byte} :
    Once (some (ret, shown)) stream ↔ Printed.texts shown ≠ none ∧ EachOnce stream shown := by
  constructor
  · rintro ⟨_, _, h, hs⟩
    cases h
    exact hs
  · exact fun h => ⟨ret, shown, rfl, h⟩

theorem showOpened_once_iff (hv : v.Ends) (hn : v.desc (-1) = none) (hp : v.listening.stream.length < v.os.patience)
    (h0 : 0 ≤ fd) : Once ((showOpened fd arg).run v).value v.listening.stream ↔
      ∃ rs b, Stops pktDreadRlySize ps2netfsDreadRly v.listening rs b ∧ (b = false → fd = 0) ∧ ∀ r ∈ rs, Legible r := by
  by_cases hs : ∃ rs b, Stops pktDreadRlySize ps2netfsDreadRly v.listening rs b
  · obtain ⟨rs, b, hs⟩ := hs
    obtain ⟨ds, hcopied, hdone, hstuck⟩ := @showOpened_stops fd arg v rs b hs hv hn hp
    by_cases hclose : b = false → fd ≤ 0
    · rw [hdone hclose, once_some, once_iff_legible hs.front hs.whole hcopied headed_plain]
      constructor
      · exact fun h => ⟨rs, b, hs, fun hb => Int.le_antisymm (hclose hb) h0, h⟩
      · rintro ⟨rs', b', hs', -, h⟩
        rwa [(hs.unique hs').1]
    · rw [hstuck hclose]
      refine iff_of_false once_none ?_
      rintro ⟨rs', b', hs', h, -⟩
      rw [← (hs.unique hs').2] at h
      exact hclose fun hb => Int.le_of_eq (h hb)
  · rw [showOpened_endless (fun rs b h => hs ⟨rs, b, h⟩) hv]
    exact iff_of_false once_none fun ⟨rs, b, h, _⟩ => hs ⟨rs, b, h⟩

end Opened

theorem failed_once {arg stream : List Byte} : Once (some (-1, [.failed arg])) stream :=
  once_some.mpr ⟨nofun, [], List.nil_prefix, .nil⟩

theorem showDir_once_iff {u : World} {arg : List Byte} (hu : u.Ends) (hn : u.desc (-1) = none)
    (hp : u.listening.stream.length < u.os.patience) :
    Once ((showDir arg).run u).value (behindFirst (u.pending u.ps2NetfsFd)) ↔ u.listening.Lists := by
  have hc := called (reqHdr ps2netfsDopenCmd pktFileReqSize ++ [(10, strncpy arg maxPath)]) pktFileReqSize pktFileRlySize
    ps2netfsDopenRly hu
  have hrun : (ps2netfsReqDopen arg).run u = _ := Prog.run_bind_pure _ _ u
  have hkeep := (ps2netfsReqDopen arg).keeps u
  rw [showDir, Prog.run_bind, hrun, behindFirst_listening]
  rw [hrun] at hkeep
  generalize (netfsCall _ _ _ _).run u = r at hc hkeep ⊢
  cases hc with
  | closed judged => exact iff_of_true failed_once fun h => absurd (judged.symm.trans h) (by decide)
  | refused judged => exact iff_of_true failed_once fun h => absurd (judged.symm.trans h) (by decide)
  | @passed v as judged ends netfs next got =>
    have hfield : retval (some v.recvPacket) = u.listening.next.field := by
      rw [← next]
      rfl
    rw [Option.map_some, hfield, Result.andThen_mk_some, Result.after_value]
    by_cases hneg : u.listening.next.field < 0
    · rw [if_pos hneg]
      exact iff_of_true failed_once fun _ h0 => absurd hneg (Int.not_lt.mpr h0)
    · have h0 := Int.not_lt.mp hneg
      have hlen : v.listening.stream.length < v.os.patience := by
        rw [next, hkeep.os, Listening.next, Listening.recv, List.length_drop]
        omega
      have hstream : u.listening.next.stream = v.listening.stream := by rw [next]
      rw [if_neg hneg, hstream]
      refine (showOpened_once_iff ends (hkeep.desc_of_neg (by decide) hn) hlen h0).trans ?_
      rw [next]
      exact ⟨fun h _ _ => h, fun h => h judged h0⟩

section Command

variable {w u : World} {arg : List Byte} {as : List Act}

theorem showList_run (hdev : (splitFilename arg).1 ≠ []) (hopen : reopenNetfs.run w = ⟨some (), u, as⟩)
    (hconn : 0 ≤ u.ps2NetfsFd) : (showList arg).run w = ((showDir arg).run u).after as := by
  rw [showList, if_pos hdev, Prog.run_bind, hopen, Result.andThen_mk_some, Prog.run_bind, Prog.run_get,
    Result.andThen_mk_some, if_neg (Int.not_lt.mpr hconn)]
  rfl

theorem cliList_value (arg : List Byte) (w : World) :
    ((cliList arg).run w).value = ((showList arg).run w).value.map Prod.fst := by
  rw [← showList_forgets, Prog.run_bind_pure]

/-- `cli_list` returns, and what it has printed is each entry of the stream once. -/
def PrintsOnce (arg : List Byte) (w : World) (stream : List Byte) : Prop :=
  ∃ ret shown, ((cliList arg).run w).value = some ret ∧ ((showList arg).run w).value = some (ret, shown) ∧
    Printed.texts shown ≠ none ∧ EachOnce stream shown

theorem printsOnce_iff (hdev : (splitFilename arg).1 ≠ []) (hopen : reopenNetfs.run w = ⟨some (), u, as⟩)
    (hconn : 0 ≤ u.ps2NetfsFd) (stream : List Byte) :
    PrintsOnce arg w stream ↔ Once ((showDir arg).run u).value stream := by
  rw [PrintsOnce, cliList_value, showList_run hdev hopen hconn, Result.after_value, Once]
  constructor
  · rintro ⟨ret, shown, -, h⟩
    exact ⟨ret, shown, h⟩
  · rintro ⟨ret, shown, hval, h⟩
    exact ⟨ret, shown, by rw [hval, Option.map_some], hval, h⟩

/-- Listing a directory ends, each entry printed once, exactly when one of the
replies ends it before the stream does, and those before it can be read. Every
byte of the stream is allowed a round of the loop. -/
theorem cliList_prints_iff (hdev : (splitFilename arg).1 ≠ []) (hopen : reopenNetfs.run w = ⟨some (), u, as⟩)
    (hconn : 0 ≤ u.ps2NetfsFd) (hends : u.Ends) (hneg : u.desc (-1) = none)
    (hrounds : u.listening.stream.length < u.os.patience) :
    PrintsOnce arg w (behindFirst (u.pending u.ps2NetfsFd)) ↔ u.listening.Lists :=
  (printsOnce_iff hdev hopen hconn _).trans (showDir_once_iff hends hneg hrounds)

end Command

/-- A server that sends these replies and closes the connection. -/
def serverSays (replies : List Byte) : World :=
  { World.linked { Host.refusing with patience := 1000 } 3
      [(7, .sock ⟨⟨Inflow.push replies [], .eof⟩, ⟨[], .accepts⟩⟩)] with ps2NetfsFd := 7 }

def valueRly (cmd fd : Word) : List Byte := be32 cmd ++ (be16 10 ++ be32 fd)

theorem serverSays_ends (replies : List Byte) : (serverSays replies).Ends := ⟨nofun, nofun⟩

theorem serverSays_open (replies : List Byte) :
    reopenNetfs.run (serverSays replies) = ⟨some (), serverSays replies, []⟩ := rfl

theorem serverSays_netfs (replies : List Byte) : 0 ≤ (serverSays replies).ps2NetfsFd := by
  change (0 : Int) ≤ 7
  decide

theorem serverSays_desc (replies : List Byte) : (serverSays replies).desc (-1) = none := rfl

theorem mc_device : (splitFilename (str "mc0:/")).1 ≠ [] := by decide +kernel

/-- A directory with two files, dated the 31st of December. -/
def dreadRlyOf (name : List Byte) : List Byte :=
  be32 ps2netfsDreadRly ++ (be16 306 ++ (be32 1 ++ (be32 0x21ff ++ (be32 0 ++ (be32 1234 ++
    (List.replicate 18 0 ++ [59, 23, 31, 12, 0, 0] ++ (be32 0 ++ strncpy name maxPath)))))))

def twoFiles : List Byte :=
  valueRly ps2netfsDopenRly 3 ++ (dreadRlyOf (str "BOOT.ELF") ++ (dreadRlyOf (str "ICON.SYS") ++
    (valueRly ps2netfsDreadRly 0 ++ valueRly ps2netfsDcloseRly 0)))

theorem twoFiles_lists : (serverSays twoFiles).listening.Lists := by
  intro _ _
  refine ⟨_, true, .more (x := (serverSays twoFiles).listening.next) ?_ ?_ ?_ (.more ?_ ?_ ?_ (.last ?_ ?_)), nofun, ?_⟩
  all_goals decide +kernel

theorem cliList_prints_two : PrintsOnce (str "mc0:/") (serverSays twoFiles)
    (behindFirst ((serverSays twoFiles).pending (serverSays twoFiles).ps2NetfsFd)) :=
  (cliList_prints_iff mc_device (serverSays_open _) (serverSays_netfs _) (serverSays_ends _) (serverSays_desc _)
    (by decide +kernel)).mpr twoFiles_lists

/-- The server opens the directory and closes the connection. -/
def openedOnly : World := serverSays (valueRly ps2netfsDopenRly 3)

theorem openedOnly_cut : openedOnly.listening.verdict pktFileRlySize ps2netfsDopenRly = .passed ∧
    openedOnly.listening.next.field = 3 ∧
    openedOnly.listening.next.verdict pktDreadRlySize ps2netfsDreadRly = .passed ∧
    ¬openedOnly.listening.next.next.field ≤ 0 ∧
    ¬openedOnly.listening.next.asked ≤ openedOnly.listening.next.stream.length := by
  decide +kernel

theorem openedOnly_rounds : openedOnly.listening.stream.length < openedOnly.os.patience := by decide +kernel

theorem listing_endless : ¬∀ (w u : World) (arg : List Byte) (as : List Act), (splitFilename arg).1 ≠ [] →
    reopenNetfs.run w = ⟨some (), u, as⟩ → 0 ≤ u.ps2NetfsFd → u.Ends → u.desc (-1) = none →
    u.listening.stream.length < u.os.patience → PrintsOnce arg w (behindFirst (u.pending u.ps2NetfsFd)) := by
  intro h
  have hprints := h openedOnly openedOnly _ _ mc_device (serverSays_open _) (serverSays_netfs _) (serverSays_ends _)
    (serverSays_desc _) openedOnly_rounds
  have honce := (printsOnce_iff mc_device (serverSays_open _) (serverSays_netfs _) _).mp hprints
  have hlists := (showDir_once_iff (serverSays_ends _) (serverSays_desc _) openedOnly_rounds).mp honce
  obtain ⟨opened, field, passed, again, cut⟩ := openedOnly_cut
  obtain ⟨rs, b, hs, -⟩ := hlists opened (Int.le_of_lt (field ▸ (by decide : (0 : Int) < 3)))
  cases hs with
  | closed judged => exact absurd (passed.symm.trans judged) nofun
  | refused judged => exact absurd (passed.symm.trans judged) nofun
  | last _ nonpos => exact again nonpos
  | more _ _ whole => exact cut whole

end Pksh
