import Pksh.CopyFiles

/-! `cp` from the PS2 when reads and writes move what they like: what the file
on the host holds in the end, and when that is right. -/

namespace Pksh

open Wire Traced

def Reply.bringing (k : Nat) : Reply := ⟨ps2netfsReadRly, 14, be32 (BitVec.ofNat 32 k) ++ be32 (BitVec.ofNat 32 k), rfl⟩

theorem Reply.bringing_fits (k : Nat) :
    pktFileRlySize ≤ (Reply.bringing k).len.toNat ∧ (Reply.bringing k).len.toNat ≤ pktReadRlySize := by
  change pktFileRlySize ≤ 14 ∧ 14 ≤ pktReadRlySize
  decide

theorem Reply.bringing_measured {k : Nat} (h : k ≤ blockSize) : k = (Reply.bringing k).retval.toInt.toNat := by
  have hb : blockSize = 65536 := rfl
  have hr : (Reply.bringing k).retval.toInt = k := by
    rw [Reply.retval, Reply.bringing, ofBe32_be32_append]
    exact toInt_ofNat_small (by omega)
  rw [hr, Int.toNat_natCast]

/-- A part of a file that is not larger than the buffer, as the server sends it. -/
def Portion.holding (data : List Byte) (h : data.length ≤ blockSize) : Portion where
  reply := .bringing data.length
  data := data
  cmd := rfl
  fits := Reply.bringing_fits data.length
  measured := Reply.bringing_measured h

section Rounds

variable (src : List Byte) (reads : Nat → Nat)

def portions (k r : Nat) : List Portion := (List.range' k r).map fun k => .holding (readAt src reads k) (readAt_le src reads k)

/-- The rounds of the loop for a file of `n` bytes. -/
def blocksOf (n : Nat) : Nat := (n + (blockSize - 1)) / blockSize

theorem blocksOf_pos {n : Nat} (h : 0 < n) : blocksOf n = blocksOf (n - blockSize) + 1 := by
  simp only [blocksOf, blockSize]
  omega

theorem blocksOf_zero : blocksOf 0 = 0 := rfl

end Rounds

section Loop

variable {fd fd0 : Int} {rest src y : List Byte} {reads writes : Nat → Nat} {w : World}

/-- Each round is one of `fetchEnd`. -/
theorem fetchLoop_copies (d : Word) (rounds : Nat) (buffer : Mem) (size : Int) (c : Copy)
    (h : Joined fd fd0 (Portion.stream (portions src reads c.round (blocksOf size.toNat)) ++ rest) w)
    (hw : ∀ k bs, w.os.write (w.now + (2 * k + 1)) fd0 bs = some (moved (writes (c.round + k)) bs.length))
    (hpos : c.pos = readPos src.length reads c.round) (hr : size.toNat ≤ rounds) :
    ∃ v as, (fetchLoop (do let r ← ps2netfsReqRead d (BitVec.ofNat 32 blockSize); pure r.2)
        (fun bytes => do let _ ← sysWrite fd0 bytes) rounds buffer size).run w = ⟨some (), v, as⟩ ∧ Joined fd fd0 rest v ∧
      ∀ D : Disk, D.opened fd0 = some (y, c.off) → D.files y = c.dst → (as.foldl Disk.act D).files =
        Function.update D.files y (fetchEnd src reads writes rounds buffer size.toNat c).dst := by
  induction rounds generalizing buffer size c w with
  | zero =>
    rw [Nat.le_zero.mp hr] at h ⊢
    exact ⟨w, [], rfl, h, fun D _ hd => by rw [fetchEnd, ← hd, Function.update_eq_self]; rfl⟩
  | succ rounds ih =>
    by_cases hsize : size > 0
    · have hmin : (min size blockSize).toNat = min size.toNat blockSize := by
        rw [blockSize]
        omega
      have hsub : (size - blockSize).toNat = size.toNat - blockSize := by
        rw [blockSize]
        omega
      have hgot : readAt src reads c.round = c.got src reads := by rw [readAt, Copy.got, hpos]
      rw [blocksOf_pos (by omega), portions, List.range'_succ, List.map_cons, Portion.stream, List.flatMap_cons,
        List.append_assoc] at h
      obtain ⟨v, as, hread, hj, hos, hnow, ht, -⟩ := fetch_run _ d h
      let bytes := (buffer.store 0 (c.got src reads)).slice 0 (min size.toNat blockSize)
      have hput := @store_run _ _ _ _ bytes _ hj (by rw [hos, hnow]; exact hw 0 bytes)
      rw [Nat.min_eq_left (moved_le _ _), Nat.add_zero] at hput
      obtain ⟨u, bs, hloop, hju, hdisk⟩ := ih (buffer.store 0 (c.got src reads)) (size - blockSize)
        (c.next writes (c.got src reads) bytes) (w := v.tick) (by rw [hsub]; exact hj.tick)
        (fun k bs => by
          have hk := hw (k + 1) bs
          rw [show w.now + (2 * (k + 1) + 1) = v.tick.now + (2 * k + 1) by change _ = v.now + 1 + _; omega,
            show c.round + (k + 1) = c.round + 1 + k by omega] at hk
          exact (congrArg (fun o : Host => o.write _ _ _) hos).trans hk)
        (by rw [Copy.next_pos, Copy.next_round, readPos, ← hgot, readAt_length, hpos])
        (by
          rw [hsub, blockSize]
          omega)
      have hdata : (Portion.holding (readAt src reads c.round) (readAt_le src reads c.round)).data = c.got src reads := hgot
      rw [hdata] at hread
      refine ⟨u, as ++ (.write fd0 bytes (some (moved (writes c.round) bytes.length)) :: bs), ?_, hju, fun D ho hd => ?_⟩
      · rw [fetchLoop, if_pos hsize, Prog.run_bind, hread, Result.andThen_mk_some, hmin, Prog.run_bind, hput,
          Result.andThen_mk_some, hloop, Result.after_mk, Result.after_mk]
        rfl
      · have hnext := hdisk (D.act (.write fd0 bytes (some (moved (writes c.round) bytes.length))))
          (by simp [Disk.act, ho]) (by simp [Disk.act, ho, hd, Copy.next])
        rw [List.foldl_append, Disk.foldl_talks ht, List.foldl_cons, hnext, fetchEnd, if_pos (by omega), hsub]
        simp [Disk.act, ho, bytes]
    · rw [show size.toNat = 0 by omega] at h ⊢
      refine ⟨w, [], ?_, h, fun D _ hd => ?_⟩
      · rw [fetchLoop, if_neg hsize]
        rfl
      · rw [fetchEnd, if_neg (Nat.lt_irrefl 0), ← hd, Function.update_eq_self]
        rfl

end Loop

/-- What the server sends when it gives out a file: each read moves what it likes. -/
def giving (d pos closed : Word) (src : List Byte) (reads : Nat → Nat) : List Byte :=
  (Reply.value ps2netfsOpenRly d).bytes ++ ((Reply.value ps2netfsLseekRly (BitVec.ofNat 32 src.length)).bytes ++
    ((Reply.value ps2netfsLseekRly pos).bytes ++ (Portion.stream (portions src reads 0 (blocksOf src.length)) ++
      (Reply.value ps2netfsCloseRly closed).bytes)))

/-- The PS2 gives out the file `src`, and the host opens the file that is left
of `argv[1]`, whose writes take what they like. -/
structure Fetching (stack : Nat → Mem) (t : Nat) (reads writes : Nat → Nat) (src : List Byte) (u : World) : Prop where
  memory : u.os.stack = stack
  time : u.now = t
  small : src.length < 2 ^ 31
  heard : ∃ fd rest d pos closed, 0 ≤ BitVec.toInt d ∧ Talking fd (giving d pos closed src reads ++ rest) u
  opens : ∃ fd0, (u.os.openFile t (leftOf stack t 1) hostCopyFlags 0o644).filter u.unused = some fd0 ∧
    ∀ k bs, u.os.write (t + (2 * k + 5)) fd0 bs = some (moved (writes k) bs.length)

theorem copyFrom_copies {stack : Nat → Mem} {t : Nat} {reads writes : Nat → Nat} {src : List Byte} {w u : World}
    {as : List Act} (host : Files) (hopen : reopenNetfs.run w = ⟨some (), u, as⟩) (h : Fetching stack t reads writes src u) :
    ((withNetfs copyFrom).run w).value = some 0 ∧ Disk.behind host ((withNetfs copyFrom).run w).acts =
      Function.update host (leftOf stack t 1) (arrived src reads writes (stack (t + 4)) (host (leftOf stack t 1))) := by
  obtain ⟨rfl, rfl, small, ⟨fd, rest, d, pos, closed, hd, ht⟩, fd0, hfd0, hwrite⟩ := h
  rw [withNetfs_after hopen (ht.netfs ▸ ht.nonneg)]
  simp only [giving, List.append_assoc] at ht
  obtain ⟨v1, a1, hrun, j1, hos1, hnow1, ht1, -⟩ := copyFrom_opened (n := src.length) (Reply.value_returns _ _)
    (by rwa [Reply.value_retval]) (Reply.value_returns _ _) (by rw [Reply.value_retval, toInt_ofNat_small small])
    (Reply.value_returns _ _) ht hfd0
  obtain ⟨v2, a2, hloop, j2, hdisk⟩ := @fetchLoop_copies _ _ _ _ (leftOf u.os.stack u.now 1) _ writes _
    (Reply.value ps2netfsOpenRly d).retval src.length (u.os.stack (u.now + 4)) src.length
    ⟨0, host (leftOf u.os.stack u.now 1), 0, 0⟩ j1
    (fun k bs => by
      rw [hos1, hnow1, show u.now + 4 + (2 * k + 1) = u.now + (2 * k + 5) by omega, hwrite k bs, Nat.zero_add])
    rfl (Nat.le_refl _)
  obtain ⟨v3, a3, hshut, -, -, ht3, -⟩ := shut_run (d := (Reply.value ps2netfsOpenRly d).retval) (Reply.value_returns _ _) j2
  rw [hrun, hloop, Result.andThen_mk_some, hshut]
  refine ⟨rfl, ?_⟩
  have hconnect := @Disk.foldl_connecting host as (by
    have := reopenNetfs_connecting w
    rwa [hopen] at this)
  have hfiles := hdisk (Disk.act ⟨host, fun _ => none⟩ (.openFile (leftOf u.os.stack u.now 1) (some fd0)))
    (by simp [Disk.act]) (by simp [Disk.act, kept, hostCopyFlags, hostTrunc])
  simp only [Result.after_mk, Disk.behind, List.foldl_append, List.foldl_cons, List.foldl_nil, hconnect,
    Disk.foldl_talks ht1, Disk.foldl_talks ht3, World.freed_eq]
  refine Eq.trans ?_ (hfiles.trans ?_)
  · rfl
  · simp [Disk.act, arrived]

def giver (stack : Nat → Mem) (t : Nat) (reads writes : Nat → Nat) (src : List Byte) : World :=
  { World.served { Host.refusing with
      stack := stack
      openFile := fun _ _ _ _ => some 8
      write := fun s _ bs => some (moved (writes ((s - (t + 5)) / 2)) bs.length) } 7 (giving 2 0 0 src reads) [] with
    now := t }

theorem giver_fetching (stack : Nat → Mem) (t : Nat) (reads writes : Nat → Nat) {src : List Byte} (h : src.length < 2 ^ 31) :
    Fetching stack t reads writes src (giver stack t reads writes src) := by
  have ht : Talking 7 (giving 2 0 0 src reads ++ []) (giver stack t reads writes src) := by
    rw [List.append_nil]
    exact (Talking.served (by decide) _ _).of_desc rfl rfl
  refine ⟨rfl, rfl, h, ⟨7, [], 2, 0, 0, by decide, ht⟩, 8, rfl, fun k bs => ?_⟩
  have hk : (t + (2 * k + 5) - (t + 5)) / 2 = k := by omega
  exact congrArg (fun i => some (moved (writes i) bs.length)) hk

theorem giver_opens (stack : Nat → Mem) (t : Nat) (reads writes : Nat → Nat) (src : List Byte) :
    reopenNetfs.run (giver stack t reads writes src) = ⟨some (), giver stack t reads writes src, []⟩ := rfl

/-- Whatever the files of `n` and `m` bytes hold, and wherever `cp` starts from,
the file of the host is the one of the PS2 when it returns. -/
def FetchesRight (arg a b : List Byte) (stack : Nat → Mem) (t : Nat) (reads writes : Nat → Nat) (n m : Nat) : Prop :=
  ∀ (w u : World) (as : List Act) (ps2 host : Files), reopenNetfs.run w = ⟨some (), u, as⟩ →
    Fetching stack t reads writes (ps2 (wireName (leftOf stack (t + 1) 0))) u → (ps2 a).length = n → (host b).length = m →
      ∀ ret, ((cliCopy arg).run w).value = some ret → Disk.behind host ((cliCopy arg).run w).acts b = ps2 a

section Fetch

variable {arg : List Byte} {stack : Nat → Mem} {t : Nat} {reads writes : Nat → Nat} {n m : Nat}

/-- `cp` in this state: what the file `b` of the host holds behind it. -/
theorem FetchesRight.giver {a b : List Byte} (hc : cliCopy arg = withNetfs copyFrom)
    (h : FetchesRight arg a b stack t reads writes n m) {ps2 host : Files} (ha : (ps2 a).length = n) (hb : (host b).length = m)
    (hs : (ps2 (wireName (leftOf stack (t + 1) 0))).length < 2 ^ 31) :
    Function.update host (leftOf stack t 1) (arrived (ps2 (wireName (leftOf stack (t + 1) 0))) reads writes (stack (t + 4))
      (host (leftOf stack t 1))) b = ps2 a := by
  have hopen := giver_opens stack t reads writes (ps2 (wireName (leftOf stack (t + 1) 0)))
  have hf := giver_fetching stack t reads writes hs
  obtain ⟨hv, hd⟩ := copyFrom_copies host hopen hf
  have hr := h _ _ _ ps2 host hopen hf ha hb 0 (by rw [hc, hv])
  rwa [hc, hd] at hr

theorem arrived_nil (buffer : Mem) (old : List Byte) : arrived [] reads writes buffer old = old := rfl

theorem arrived_one (buffer : Mem) (b : Byte) : arrived [b] reads writes buffer [] = [b] := by
  have hone (k : Nat) : moved k 1 = 1 := by
    rw [moved]
    omega
  refine (arrived_iff (n := 1) (m := 0)).mpr ⟨Nat.zero_le 1, fun j hj => ?_⟩ [b] [] rfl rfl
  obtain rfl : j = 0 := by
    rw [blockSize] at hj
    omega
  exact ⟨hone _, hone _⟩

theorem fetchesRight_iff {a b : List Byte} (hc : cliCopy arg = withNetfs copyFrom) (hn : n < 2 ^ 31) :
    FetchesRight arg a b stack t reads writes n m ↔
      wireName (leftOf stack (t + 1) 0) = a ∧ leftOf stack t 1 = b ∧ m ≤ n ∧ FetchFull n reads writes ∨
        leftOf stack t 1 ≠ b ∧ n = 0 ∧ m = 0 := by
  refine ⟨fun h => ?_, fun h w u as ps2 host hopen hf ha hb ret _ => ?_⟩
  · by_cases hy : leftOf stack t 1 = b
    · refine .inl ?_
      have hat {ps2 host : Files} (ha : (ps2 a).length = n) (hb : (host b).length = m)
          (hs : (ps2 (wireName (leftOf stack (t + 1) 0))).length < 2 ^ 31) :
          arrived (ps2 (wireName (leftOf stack (t + 1) 0))) reads writes (stack (t + 4)) (host b) = ps2 a := by
        have := h.giver hc ha hb hs
        rwa [hy, Function.update_self] at this
      have hx : wireName (leftOf stack (t + 1) 0) = a := by
        by_contra hx
        -- an empty file is read in the place of the one that was asked for, or a byte in the place of nothing
        have hmiss := @hat (Function.update (fun _ => List.replicate n 1) (wireName (leftOf stack (t + 1) 0)) [])
          (fun _ => List.replicate m 0) (by rw [Function.update_of_ne (Ne.symm hx), List.length_replicate])
          List.length_replicate (by rw [Function.update_self]; decide)
        rw [Function.update_self, Function.update_of_ne (Ne.symm hx), arrived_nil] at hmiss
        obtain ⟨rfl, rfl⟩ := replicate_eq hmiss
        have hbyte := @hat (Function.update (fun _ => []) (wireName (leftOf stack (t + 1) 0)) [7]) (fun _ => [])
          (by rw [Function.update_of_ne (Ne.symm hx), List.length_nil]) rfl (by rw [Function.update_self]; decide)
        rw [Function.update_self, Function.update_of_ne (Ne.symm hx), arrived_one] at hbyte
        cases hbyte
      have hall (src old : List Byte) (hs : src.length = n) (ho : old.length = m) :
          arrived src reads writes (stack (t + 4)) old = src :=
        @hat (fun _ => src) (fun _ => old) hs ho (hs ▸ hn)
      exact ⟨hx, hy, arrived_iff.mp hall⟩
    · refine .inr ⟨hy, replicate_eq ?_⟩
      have hmiss := @FetchesRight.giver _ _ _ _ _ _ _ _ _ hc h (fun _ => List.replicate n 1) (fun _ => List.replicate m 0)
        List.length_replicate List.length_replicate (by rwa [List.length_replicate])
      rwa [Function.update_of_ne (Ne.symm hy)] at hmiss
  · obtain ⟨-, hd⟩ := copyFrom_copies host hopen hf
    rw [hc, hd]
    rcases h with ⟨hx, hy, hfull⟩ | ⟨hy, rfl, rfl⟩
    · rw [hx, hy, Function.update_self]
      exact arrived_iff.mpr hfull _ _ ha hb
    · rw [Function.update_of_ne (Ne.symm hy), List.length_eq_zero_iff.mp ha, List.length_eq_zero_iff.mp hb]

end Fetch

end Pksh
