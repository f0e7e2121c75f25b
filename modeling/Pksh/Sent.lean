import Pksh.CopyFiles

/-! `cp` to the PS2 when reads and writes move what they like: what the file on
the PS2 holds in the end, and when that is right. -/

namespace Pksh

open Wire Traced

section Loop

variable (src : List Byte) (reads writes : Nat → Nat)

/-- The rounds of the loop from a round on, as many as the run is watched for at most. -/
def roundsFrom (n k : Nat) : Nat → Nat
  | 0 => 0
  | left + 1 => if writePos n reads writes k < n then roundsFrom n (k + 1) left + 1 else 0

def blocksRead (k r : Nat) : List (List Byte) := (List.range' k r).map (readAt src reads)

/-- The answers to the writes: each says how much was taken. -/
def takenReplies (k r : Nat) : List Reply :=
  (List.range' k r).map fun k => .value ps2netfsWriteRly (BitVec.ofNat 32 (moved (writes k) (readAt src reads k).length))

variable {src reads writes} {fd fd0 : Int} {rest : List Byte} {w : World}

theorem roundsFrom_le (n k left : Nat) : roundsFrom reads writes n k left ≤ left := by
  induction left generalizing k with
  | zero => exact Nat.le_refl 0
  | succ left ih =>
    rw [roundsFrom]
    split
    · exact Nat.succ_le_succ (ih (k + 1))
    · exact Nat.zero_le _

theorem roundsFrom_done {n k left : Nat} (h : roundsFrom reads writes n k left < left) :
    writePos n reads writes (k + roundsFrom reads writes n k left) = n := by
  induction left generalizing k with
  | zero => omega
  | succ left ih =>
    rw [roundsFrom] at h ⊢
    split at h
    · rename_i hk
      rw [if_pos hk, show k + (roundsFrom reads writes n (k + 1) left + 1) =
        k + 1 + roundsFrom reads writes n (k + 1) left by omega]
      exact ih (by omega)
    · rename_i hk
      have hle := @writePos_le reads writes n k
      have hn := @readPos_le reads n k
      rw [if_neg hk, Nat.add_zero]
      omega

theorem roundsFrom_hangs (h : ¬SendFull n reads writes) (k left : Nat) : roundsFrom reads writes n k left = left := by
  induction left generalizing k with
  | zero => rfl
  | succ left ih => rw [roundsFrom, if_pos (writePos_lt h k), ih]

theorem roundsFrom_full {n : Nat} (h : SendFull n reads writes) (k left : Nat) :
    roundsFrom reads writes n k left ≤ n - readPos n reads k := by
  induction left generalizing k with
  | zero => exact Nat.zero_le _
  | succ left ih =>
    rw [roundsFrom]
    split
    · rename_i hk
      rw [writePos_full h] at hk
      have hpos := @moved_pos (reads k) (min blockSize (n - readPos n reads k)) (by rw [blockSize]; omega)
      have hstep := ih (k + 1)
      rw [readPos] at hstep
      omega
    · exact Nat.zero_le _

/-- The sending loop in these rounds; it is given up when they are not enough. -/
theorem sendLoop_copies (d : Word) (k left : Nat) (buffer : Mem)
    (h : Joined fd fd0 (Reply.stream (takenReplies src reads writes k (roundsFrom reads writes src.length k left)) ++ rest) w)
    (hr : ∀ j, w.os.read (w.now + 3 * j) fd0 blockSize = some (readAt src reads (k + j))) :
    ∃ v as rs, (sendLoop (sysRead fd0 blockSize) (fun buffer n => ps2netfsReqWrite d buffer (cWord n)) Prog.hang left buffer
        src.length (writePos src.length reads writes k)).run w =
          ⟨if roundsFrom reads writes src.length k left < left then some () else none, v, as⟩ ∧
      Joined fd fd0 rest v ∧ Asks fd rs (outgoing as) ∧
      List.Forall₂ (NetfsReq.Writes d) rs (blocksRead src reads k (roundsFrom reads writes src.length k left)) := by
  induction left generalizing k buffer w with
  | zero => exact ⟨w, [], [], rfl, h, .nil, .nil⟩
  | succ left ih =>
    rw [roundsFrom] at h ⊢
    by_cases hk : writePos src.length reads writes k < src.length
    · have hmore : (writePos src.length reads writes k : Int) < src.length := Int.ofNat_lt.mpr hk
      have hb := readAt_le src reads k
      have hm := (moved_le (writes k) (readAt src reads k).length).trans hb
      rw [if_pos hk, takenReplies, List.range'_succ, List.map_cons, Reply.stream, List.flatMap_cons, List.append_assoc] at h
      have hread : w.os.read w.now fd0 blockSize = some (readAt src reads k) := hr 0
      obtain ⟨v, as, hround, hj, hos, hnow, hasks⟩ := sendLoop_round d left buffer hmore h (Reply.value_returns _ _) hread hb
      have htotal : (writePos src.length reads writes k : Int) +
          (Reply.value ps2netfsWriteRly (BitVec.ofNat 32 (moved (writes k) (readAt src reads k).length))).retval.toInt =
          (writePos src.length reads writes (k + 1) : Nat) := by
        rw [Reply.value_retval, toInt_ofNat_small (hm.trans_lt (by decide)), writePos, readAt_length]
        exact (Int.natCast_add _ _).symm
      obtain ⟨u, cs, rs, hloop, hju, hks, hrs⟩ := ih (k + 1) (buffer.store 0 (readAt src reads k)) hj fun j => by
        rw [hos, hnow, show w.now + 3 + 3 * j = w.now + 3 * (j + 1) by omega, show k + 1 + j = k + (j + 1) by omega]
        exact hr (j + 1)
      refine ⟨u, as ++ cs, .write d (buffer.store 0 (readAt src reads k)) (cWord ((readAt src reads k).length : Int)) :: rs, ?_,
        hju, ?_, ?_⟩
      · rw [htotal, hloop, Result.after_mk] at hround
        rw [hround, if_pos hk]
        simp only [Nat.add_lt_add_iff_right]
      · rw [outgoing_append]
        exact hasks.append hks
      · rw [if_pos hk, blocksRead, List.range'_succ, List.map_cons]
        exact .cons ⟨_, rfl, Mem.slice_store_eq _ _ rfl⟩ hrs
    · have hdone : ¬(writePos src.length reads writes k : Int) < src.length := fun hc => hk (Int.ofNat_lt.mp hc)
      rw [if_neg hk] at h ⊢
      refine ⟨w, [], [], ?_, h, .nil, .nil⟩
      rw [sendLoop, if_neg hdone, if_pos (Nat.succ_pos left)]
      rfl

end Loop

section Served

variable {src old name path : List Byte} {reads writes : Nat → Nat} {d flags : Word} {D : Ps2Disk}

theorem serve_open {q : Delivered} (hq : (NetfsReq.openFile path flags).SentAs q) : D.serve writes q =
    { D with
      files := Function.update D.files (wireName path) (kept flags ps2Trunc (D.files (wireName path)))
      opened := some (wireName path, 0) } := by
  obtain ⟨⟨u, hs⟩, hc, -⟩ := hq
  obtain ⟨cmd, fs, -, -, hw⟩ := NetfsReq.header_of_not_misbuilt (show (NetfsReq.openFile path flags).misbuilt = false from rfl)
  rw [show (NetfsReq.openFile path flags).wire _ = _ from hw _] at hs
  have hcmd : ofBe32 q.struct = ps2netfsOpenCmd := (BitVec.add_left_inj (z := 1)).mp hc.symm
  have hflags : ofBe32 (q.struct.drop 6) = flags := by
    have h : (Arg.word 6 flags).Decodes ((u.sendPacket.stores (NetfsReq.openFile path flags).fields).slice 0 pktFileReqSize) :=
      word_decodes (NetfsReq.openFile path flags).fields_ordered (by simp [NetfsReq.fields]) (by decide)
    exact (congrArg (fun bs : List Byte => ofBe32 (bs.drop 6)) hs).trans h
  have hname : fieldName (q.struct.drop 10) = wireName path := by
    have h : ((q.struct).drop 10).take (strncpy path maxPath).length = strncpy path maxPath := by
      rw [hs]
      exact field_slice (NetfsReq.openFile path flags).fields_ordered (by simp [NetfsReq.fields])
        (by rw [strncpy_length]; exact Nat.le_refl _)
    have hl := strncpy_length path maxPath
    rw [hl] at h
    rw [fieldName, wireName, fieldName, h, List.take_of_length_le (Nat.le_of_eq hl)]
  rw [Ps2Disk.serve, if_pos hcmd, hflags, hname]

theorem serve_write {r : NetfsReq} {b : List Byte} {q : Delivered} {off : Nat} (hr : r.Writes d b) (hb : b.length ≤ blockSize)
    (hq : r.SentAs q) (ho : D.opened = some (name, off)) : D.serve writes q =
      { files := Function.update D.files name (overwrite (D.files name) off (b.take (moved (writes D.round) b.length)))
        opened := some (name, off + moved (writes D.round) b.length)
        round := D.round + 1 } := by
  obtain ⟨hc, hd⟩ := hr.delivered hb hq.cmd hq.data
  rw [Ps2Disk.serve, hc, if_neg (by decide), if_pos rfl, ho, hd]

theorem serve_close {q : Delivered} (hq : (NetfsReq.close d).SentAs q) : D.serve writes q = D := by
  have hcmd : ofBe32 q.struct = ps2netfsCloseCmd := (BitVec.add_left_inj (z := 1)).mp hq.cmd.symm
  rw [Ps2Disk.serve, hcmd, if_neg (by decide), if_neg (by decide)]

theorem serve_writes {rs : List NetfsReq} {qs : List Delivered} (k r : Nat)
    (hw : List.Forall₂ (NetfsReq.Writes d) rs (blocksRead src reads k r))
    (hq : List.Forall₂ NetfsReq.SentAs (rs ++ [.close d]) qs)
    (hn : writePos src.length reads writes (k + r) = src.length)
    (ho : D.opened = some (name, writePos src.length reads writes k)) (hk : D.round = k)
    (hd : D.files name = src.take (writePos src.length reads writes k) ++ old.drop (writePos src.length reads writes k)) :
    (qs.foldl (Ps2Disk.serve writes) D).files = Function.update D.files name (src ++ old.drop src.length) := by
  induction r generalizing k rs qs D with
  | zero =>
    obtain rfl := List.forall₂_nil_right_iff.mp hw
    obtain ⟨q, qs', hclose, hnil, rfl⟩ := List.forall₂_cons_left_iff.mp hq
    obtain rfl := List.forall₂_nil_left_iff.mp hnil
    rw [Nat.add_zero] at hn
    rw [hn, List.take_length] at hd
    rw [← hd, Function.update_eq_self, List.foldl_cons, serve_close hclose]
    rfl
  | succ r ih =>
    rw [blocksRead, List.range'_succ, List.map_cons] at hw
    obtain ⟨r0, rs', hr0, hrs, rfl⟩ := List.forall₂_cons_right_iff.mp hw
    obtain ⟨q, qs', hq0, hqs, rfl⟩ := List.forall₂_cons_left_iff.mp hq
    have heven := writePos_eq hn (Nat.le_add_right k (r + 1))
    have hlen := readAt_length src reads k
    have hm := moved_le (writes k) (readAt src reads k).length
    have hread := moved_le (reads k) (min blockSize (src.length - readPos src.length reads k))
    have hbytes : (readAt src reads k).take (moved (writes k) (readAt src reads k).length) =
        (src.drop (writePos src.length reads writes k)).take (moved (writes k) (readAt src reads k).length) := by
      rw [readAt, List.take_take, ← readAt, Nat.min_eq_left (by omega), heven]
    have hnext : writePos src.length reads writes (k + 1) =
        writePos src.length reads writes k + moved (writes k) (readAt src reads k).length := by rw [writePos, hlen]
    rw [List.foldl_cons, serve_write hr0 (readAt_le src reads k) hq0 ho, hk, hd, hbytes, overwrite_prefix (by
      have := @readPos_le reads src.length k
      omega), ← hnext]
    refine (ih (k + 1) hrs hqs ?_ rfl rfl (Function.update_self ..)).trans (Function.update_idem _ _ _)
    rw [show k + 1 + r = k + (r + 1) by omega, hn]

theorem serve_sent {fd : Int} {rs : List NetfsReq} {sent : List (Int × List Byte)} {r : Nat} (ps2 : Files)
    (hk : Asks fd (.openFile path ps2CopyFlags :: (rs ++ [.close d])) sent)
    (hw : List.Forall₂ (NetfsReq.Writes d) rs (blocksRead src reads 0 r)) (hr : writePos src.length reads writes r = src.length) :
    (((frames Delivered.next (sent.flatMap Prod.snd)).getD []).foldl (Ps2Disk.serve writes) ⟨ps2, none, 0⟩).files =
      Function.update ps2 (wireName path) (src ++ (ps2 (wireName path)).drop src.length) := by
  have hsendable := writes_sendable hw fun b hb => by
    obtain ⟨i, -, rfl⟩ := List.mem_map.mp hb
    exact readAt_le src reads i
  have hclose : (NetfsReq.close d).Sendable := ⟨by simp [NetfsReq.PathsFit, NetfsReq.args], rfl, fun _ _ _ h => by cases h⟩
  have hrest : ∀ r ∈ rs ++ [.close d], r.Sendable := fun r hr =>
    (List.mem_append.mp hr).elim (hsendable r) fun hr => List.mem_singleton.mp hr ▸ hclose
  obtain ⟨qs, hqs, hsent⟩ := hk.delivered
    (fun r hr => (List.mem_cons.mp hr).elim (fun h => h ▸ rfl) fun hr => (hrest r hr).built)
    fun d' ptr size hr => (List.mem_cons.mp hr).elim (fun h => by cases h) fun hr => (hrest _ hr).size d' ptr size rfl
  obtain ⟨q, qs', hq, hqrest, rfl⟩ := List.forall₂_cons_left_iff.mp hsent
  have hkept : kept ps2CopyFlags ps2Trunc (ps2 (wireName path)) = ps2 (wireName path) := by
    rw [kept, if_pos (by decide)]
  have hfiles := @serve_writes src (ps2 (wireName path)) (wireName path) reads writes d
    ⟨Function.update ps2 (wireName path) (ps2 (wireName path)), some (wireName path, 0), 0⟩ rs qs' 0 r hw hqrest
    (by rwa [Nat.zero_add]) rfl rfl (Function.update_self ..)
  rw [hqs, Option.getD_some, List.foldl_cons, serve_open hq, hkept, hfiles]
  exact Function.update_idem _ _ _

end Served

/-- What the server sends when it takes a file: each write takes what it likes. -/
def taking (d closed : Word) (src : List Byte) (reads writes : Nat → Nat) (patience : Nat) : List Byte :=
  (Reply.value ps2netfsOpenRly d).bytes ++
    (Reply.stream (takenReplies src reads writes 0 (roundsFrom reads writes src.length 0 patience)) ++
      (Reply.value ps2netfsCloseRly closed).bytes)

/-- The host gives out the file `src` under the name that is left of `argv[0]`,
and the PS2 takes what is written. -/
structure Sending (stack : Nat → Mem) (t : Nat) (reads writes : Nat → Nat) (src : List Byte) (u : World) : Prop where
  memory : u.os.stack = stack
  time : u.now = t
  small : src.length < 2 ^ 31
  heard : ∃ fd rest d closed, 0 ≤ BitVec.toInt d ∧ Talking fd (taking d closed src reads writes u.os.patience ++ rest) u
  opens : ∃ fd0, (u.os.openFile t (leftOf stack t 0) 0 0).filter u.unused = some fd0 ∧
    u.os.lseek (t + 2) fd0 0 seekEnd = src.length ∧
      ∀ k, u.os.read (t + (3 * k + 4)) fd0 blockSize = some (readAt src reads k)

theorem copyTo_copies {stack : Nat → Mem} {t : Nat} {reads writes : Nat → Nat} {src : List Byte} {w u : World}
    {as : List Act} (hopen : reopenNetfs.run w = ⟨some (), u, as⟩) (h : Sending stack t reads writes src u) :
    ((withNetfs copyTo).run w).value =
        (if roundsFrom reads writes src.length 0 u.os.patience < u.os.patience then some 0 else none) ∧
      (roundsFrom reads writes src.length 0 u.os.patience < u.os.patience → ∀ ps2 : Files,
        Ps2Disk.behind writes ps2 ((withNetfs copyTo).run w).acts = Function.update ps2 (wireName (leftOf stack (t + 1) 1))
          (src ++ (ps2 (wireName (leftOf stack (t + 1) 1))).drop src.length)) := by
  obtain ⟨rfl, rfl, -, ⟨fd, rest, d, closed, hd, ht⟩, fd0, hfd0, hsize, hread⟩ := h
  rw [withNetfs_after hopen (ht.netfs ▸ ht.nonneg)]
  simp only [taking, List.append_assoc] at ht
  obtain ⟨v1, a1, l, hrun, j1, hos1, hnow1, ht1, hk1⟩ := copyTo_opened (Reply.value_returns _ _)
    (by rwa [Reply.value_retval]) hsize ht hfd0
  obtain ⟨v2, a2, rs, hloop, j2, hk2, hw⟩ := sendLoop_copies (Reply.value ps2netfsOpenRly d).retval 0 u.os.patience
    (u.os.stack (u.now + 4)) j1 fun j => by
      rw [hos1, hnow1, show u.now + 4 + 3 * j = u.now + (3 * j + 4) by omega, hread j, Nat.zero_add]
  rw [show ((0 : Int)) = (writePos src.length reads writes 0 : Nat) from rfl] at hrun
  rw [hrun, hloop]
  by_cases hdone : roundsFrom reads writes src.length 0 u.os.patience < u.os.patience
  · obtain ⟨v3, a3, hshut, -, -, -, hk3⟩ := shut_run (d := (Reply.value ps2netfsOpenRly d).retval) (Reply.value_returns _ _) j2
    rw [if_pos hdone, if_pos hdone, Result.andThen_mk_some, hshut]
    refine ⟨rfl, fun _ ps2 => ?_⟩
    have hconnect := reopenNetfs_connecting w
    rw [hopen] at hconnect
    have hk := hk1.append (hk2.append hk3)
    have hout : outgoing (as ++ ((.openFile (u.freed 0) (some fd0) ::
        (a1 ++ [.lseek fd0 src.length, .lseek fd0 l])) ++ (a2 ++ (a3 ++ [.close fd0])))) =
        outgoing a1 ++ (outgoing a2 ++ outgoing a3) := by
      rw [outgoing_append, outgoing_connecting hconnect, outgoing_append, outgoing_append, outgoing_append]
      simp [outgoing]
    simp only [Result.after_mk, Ps2Disk.behind]
    rw [hout]
    exact serve_sent ps2 hk hw (by simpa using roundsFrom_done hdone)
  · rw [if_neg hdone, if_neg hdone]
    exact ⟨rfl, fun hc => absurd hc hdone⟩

def taker (stack : Nat → Mem) (t : Nat) (reads writes : Nat → Nat) (src : List Byte) (patience : Nat) : World :=
  { World.served { Host.refusing with
      stack := stack
      openFile := fun _ _ _ _ => some 8
      lseek := fun _ _ _ _ => src.length
      read := fun s _ _ => some (readAt src reads ((s - (t + 4)) / 3))
      patience := patience } 7 (taking 2 0 src reads writes patience) [] with
    now := t }

theorem taker_sending (stack : Nat → Mem) (t : Nat) (reads writes : Nat → Nat) {src : List Byte} (patience : Nat)
    (h : src.length < 2 ^ 31) : Sending stack t reads writes src (taker stack t reads writes src patience) := by
  have ht : Talking 7 (taking 2 0 src reads writes patience ++ []) (taker stack t reads writes src patience) := by
    rw [List.append_nil]
    exact (Talking.served (by decide) _ _).of_desc rfl rfl
  refine ⟨rfl, rfl, h, ⟨7, [], 2, 0, by decide, ht⟩, 8, rfl, rfl, fun k => ?_⟩
  have hk : (t + (3 * k + 4) - (t + 4)) / 3 = k := by omega
  exact congrArg (fun i => some (readAt src reads i)) hk

theorem taker_opens (stack : Nat → Mem) (t : Nat) (reads writes : Nat → Nat) (src : List Byte) (patience : Nat) :
    reopenNetfs.run (taker stack t reads writes src patience) = ⟨some (), taker stack t reads writes src patience, []⟩ := rfl

/-- Whatever the files of `n` and `m` bytes hold, and wherever `cp` starts from,
the file of the PS2 is the one of the host when it returns. -/
def SendsRight (arg a b : List Byte) (stack : Nat → Mem) (t : Nat) (reads writes : Nat → Nat) (n m : Nat) : Prop :=
  ∀ (w u : World) (as : List Act) (ps2 host : Files), reopenNetfs.run w = ⟨some (), u, as⟩ →
    Sending stack t reads writes (host (leftOf stack t 0)) u → (host a).length = n → (ps2 b).length = m →
      ∀ ret, ((cliCopy arg).run w).value = some ret → Ps2Disk.behind writes ps2 ((cliCopy arg).run w).acts b = host a

section Send

variable {arg a b : List Byte} {stack : Nat → Mem} {t : Nat} {reads writes : Nat → Nat} {n m : Nat}

/-- `cp` of a file that it finishes: what the file `b` of the PS2 holds behind it. -/
theorem SendsRight.taker (hc : cliCopy arg = withNetfs copyTo) (h : SendsRight arg a b stack t reads writes n m)
    {ps2 host : Files} (ha : (host a).length = n) (hb : (ps2 b).length = m) (hs : (host (leftOf stack t 0)).length < 2 ^ 31)
    (hfull : SendFull (host (leftOf stack t 0)).length reads writes) :
    Function.update ps2 (wireName (leftOf stack (t + 1) 1)) (host (leftOf stack t 0) ++
      (ps2 (wireName (leftOf stack (t + 1) 1))).drop (host (leftOf stack t 0)).length) b = host a := by
  let patience := (host (leftOf stack t 0)).length + 1
  have hopen := taker_opens stack t reads writes (host (leftOf stack t 0)) patience
  have hf := taker_sending stack t reads writes patience hs
  have hdone : roundsFrom reads writes (host (leftOf stack t 0)).length 0 patience < patience :=
    Nat.lt_succ_of_le (roundsFrom_full hfull 0 patience)
  obtain ⟨hv, hd⟩ := copyTo_copies hopen hf
  have hr := h _ _ _ ps2 host hopen hf ha hb 0 (by rw [hc, hv]; exact if_pos hdone)
  rwa [hc, hd hdone] at hr

theorem sendFull_zero : SendFull 0 reads writes := fun _ hk => absurd hk (Nat.not_lt_zero _)

theorem sendFull_one : SendFull 1 reads writes := by
  intro k hk
  have hz : readPos 1 reads k = 0 := by omega
  rw [hz, moved, moved, blockSize]
  omega

theorem sendsRight_iff (hc : cliCopy arg = withNetfs copyTo) (hn : n < 2 ^ 31) :
    SendsRight arg a b stack t reads writes n m ↔
      leftOf stack t 0 = a ∧ ¬SendFull n reads writes ∨
      leftOf stack t 0 = a ∧ wireName (leftOf stack (t + 1) 1) = b ∧ m ≤ n ∨
        wireName (leftOf stack (t + 1) 1) ≠ b ∧ n = 0 ∧ m = 0 := by
  refine ⟨fun h => ?_, fun h w u as ps2 host hopen hf ha hb ret hret => ?_⟩
  · by_cases hx : leftOf stack t 0 = a
    · by_cases hfull : SendFull n reads writes
      · by_cases hy : wireName (leftOf stack (t + 1) 1) = b
        · have hlong := @SendsRight.taker _ _ _ _ _ _ _ _ _ hc h (fun _ => List.replicate m 0) (fun _ => List.replicate n 0)
            List.length_replicate List.length_replicate (by rwa [List.length_replicate]) (by rwa [List.length_replicate])
          rw [hy, Function.update_self, List.length_replicate, List.drop_replicate, List.append_right_eq_self,
            List.replicate_eq_nil_iff] at hlong
          exact .inr (.inl ⟨hx, hy, Nat.le_of_sub_eq_zero hlong⟩)
        · have hmiss := @SendsRight.taker _ _ _ _ _ _ _ _ _ hc h (fun _ => List.replicate m 0) (fun _ => List.replicate n 1)
            List.length_replicate List.length_replicate (by rwa [List.length_replicate]) (by rwa [List.length_replicate])
          rw [Function.update_of_ne (Ne.symm hy)] at hmiss
          exact .inr (.inr ⟨hy, replicate_eq hmiss⟩)
      · exact .inl ⟨hx, hfull⟩
    · -- an empty file is sent in the place of the one that was asked for, or a byte in the place of nothing
      have hmiss := @SendsRight.taker _ _ _ _ _ _ _ _ _ hc h (fun _ => List.replicate m 0)
        (Function.update (fun _ => List.replicate n 1) (leftOf stack t 0) [])
        (by rw [Function.update_of_ne (Ne.symm hx), List.length_replicate]) List.length_replicate
        (by rw [Function.update_self]; decide) (by rw [Function.update_self]; exact sendFull_zero)
      rw [Function.update_self, Function.update_of_ne (Ne.symm hx), List.nil_append, List.length_nil, List.drop_zero,
        Function.update_eq_self] at hmiss
      obtain ⟨rfl, rfl⟩ := replicate_eq hmiss
      refine .inr (.inr ⟨fun hy => ?_, rfl, rfl⟩)
      have hbyte := @SendsRight.taker _ _ _ _ _ _ _ _ _ hc h (fun _ => []) (Function.update (fun _ => []) (leftOf stack t 0) [7])
        (by rw [Function.update_of_ne (Ne.symm hx), List.length_nil]) rfl (by rw [Function.update_self]; decide)
        (by rw [Function.update_self]; exact sendFull_one)
      rw [hy, Function.update_self, Function.update_self, Function.update_of_ne (Ne.symm hx)] at hbyte
      cases hbyte
  · obtain ⟨hv, hd⟩ := copyTo_copies hopen hf
    rw [hc, hv] at hret
    have hdone : roundsFrom reads writes (host (leftOf stack t 0)).length 0 u.os.patience < u.os.patience := by
      by_contra hno
      rw [if_neg hno] at hret
      cases hret
    rw [hc, hd hdone]
    rcases h with ⟨hx, hfull⟩ | ⟨hx, hy, hle⟩ | ⟨hy, rfl, rfl⟩
    · rw [hx, ha, roundsFrom_hangs hfull] at hdone
      exact absurd hdone (Nat.lt_irrefl _)
    · rw [hx, hy, Function.update_self, List.drop_of_length_le (by omega), List.append_nil]
    · rw [Function.update_of_ne (Ne.symm hy), List.length_eq_zero_iff.mp ha, List.length_eq_zero_iff.mp hb]

end Send

end Pksh
