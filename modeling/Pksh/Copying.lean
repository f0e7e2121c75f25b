import Pksh.Lib.Memory
import Mathlib.Data.Nat.Find

/-! The two loops of `cli_copy`, and what the rounds of the first one make of
the destination when transfers may move fewer bytes than they were asked to. -/

namespace Pksh

open Wire

/-- `sizeof(buffer)`. -/
def blockSize : Nat := 65536

section Loops

variable {m : Type → Type} [Monad m]

/-- PS2 to host, given what `read` puts at the start of the buffer. A round
takes a block off `size`, so as many rounds as it has bytes are enough. -/
def fetchLoop (read : m (List Byte)) (write : List Byte → m Unit) : Nat → Mem → Int → m Unit
  | 0, _, _ => pure ()
  | rounds + 1, buffer, size =>
    if size > 0 then do
      let got ← read
      write ((buffer.store 0 got).slice 0 (min size blockSize).toNat)
      fetchLoop read write rounds (buffer.store 0 got) (size - blockSize)
    else pure ()

def sendLoop (read : m (Option (List Byte))) (write : Mem → Int → m Int) (endless : m Unit) :
    Nat → Mem → Int → Int → m Unit
  | 0, _, _, _ => endless
  | rounds + 1, buffer, size, total =>
    if total < size then do
      let got ← read
      let result ← write (buffer.store 0 (got.getD [])) (got.elim (-1) fun bs => (bs.length : Int))
      sendLoop read write endless rounds (buffer.store 0 (got.getD [])) size (total + result)
    else pure ()

end Loops

/-- The flags with which the destination is opened on the host, `O_RDWR` and
`O_CREAT`, and on the PS2, `PS2_O_WRONLY` and `PS2_O_CREAT`. -/
def hostCopyFlags : Word := 0x42
def ps2CopyFlags : Word := 0x202

def hostTrunc : Word := 0x200
def ps2Trunc : Word := 0x400

/-- What is left of a file when it is opened. -/
def kept (flags trunc : Word) (old : List Byte) : List Byte := if flags &&& trunc = 0 then old else []

/-- How many bytes a successful transfer moves when it is asked for `asked`. -/
def moved (wish asked : Nat) : Nat := min (max 1 wish) asked

/-- The file behind the writing of some bytes. -/
def overwrite (file : List Byte) (off : Nat) (bytes : List Byte) : List Byte :=
  file.take off ++ bytes ++ file.drop (off + bytes.length)

section Overwrite

variable {file bytes : List Byte} {off : Nat}

theorem overwrite_length (h : off ≤ file.length) :
    (overwrite file off bytes).length = max file.length (off + bytes.length) := by
  simp only [overwrite, List.length_append, List.length_take, List.length_drop]
  omega

theorem overwrite_take (h : off ≤ file.length) : (overwrite file off bytes).take off = file.take off := by
  rw [overwrite, List.append_assoc, List.take_append_of_le_length (by rw [List.length_take]; omega), List.take_take,
    Nat.min_self]

theorem overwrite_drop (h : off ≤ file.length) :
    (overwrite file off bytes).drop (off + bytes.length) = file.drop (off + bytes.length) := by
  have hl : (file.take off ++ bytes).length = off + bytes.length := by
    rw [List.length_append, List.length_take, Nat.min_eq_left h]
  rw [overwrite, List.drop_append_of_le_length (Nat.le_of_eq hl.symm), List.drop_of_length_le (Nat.le_of_eq hl),
    List.nil_append]

theorem overwrite_getElem? (h : off ≤ file.length) {i : Nat} (hi : i < bytes.length) :
    (overwrite file off bytes)[off + i]? = bytes[i]? := by
  have hl : (file.take off).length = off := by rw [List.length_take, Nat.min_eq_left h]
  rw [overwrite, List.append_assoc, List.getElem?_append_right (by omega), hl, Nat.add_sub_cancel_left,
    List.getElem?_append_left hi]

theorem overwrite_prefix {src : List Byte} {p k : Nat} (hp : p + k ≤ src.length) :
    overwrite (src.take p ++ file.drop p) p ((src.drop p).take k) = src.take (p + k) ++ file.drop (p + k) := by
  have hl : (src.take p).length = p := by rw [List.length_take]; omega
  have hk : ((src.drop p).take k).length = k := by rw [List.length_take, List.length_drop]; omega
  have hd : (src.take p ++ file.drop p).drop (p + k) = file.drop (p + k) := by
    rw [← List.drop_drop, List.drop_left' hl, List.drop_drop]
  rw [overwrite, List.take_left' hl, hk, hd, List.take_add]

end Overwrite

theorem moved_le (wish asked : Nat) : moved wish asked ≤ asked := Nat.min_le_right _ _

theorem moved_pos (wish : Nat) {asked : Nat} (h : 0 < asked) : 0 < moved wish asked := by
  simp only [moved]
  omega

/-- The offsets of both files, the destination, and the rounds behind. -/
structure Copy where
  pos : Nat
  dst : List Byte
  off : Nat
  round : Nat

section Fetch

variable (src : List Byte) (reads writes : Nat → Nat)

def Copy.got (c : Copy) : List Byte :=
  (src.drop c.pos).take (moved (reads c.round) (min blockSize (src.length - c.pos)))

/-- The state behind a read of `got` and a write of `bytes`. -/
def Copy.next (c : Copy) (got bytes : List Byte) : Copy where
  pos := c.pos + got.length
  dst := overwrite c.dst c.off (bytes.take (moved (writes c.round) bytes.length))
  off := c.off + moved (writes c.round) bytes.length
  round := c.round + 1

@[simp] theorem Copy.next_pos (c : Copy) (got bytes : List Byte) :
    (c.next writes got bytes).pos = c.pos + got.length := rfl

@[simp] theorem Copy.next_off (c : Copy) (got bytes : List Byte) :
    (c.next writes got bytes).off = c.off + moved (writes c.round) bytes.length := rfl

@[simp] theorem Copy.next_round (c : Copy) (got bytes : List Byte) : (c.next writes got bytes).round = c.round + 1 := rfl

def fetchEnd : Nat → Mem → Nat → Copy → Copy
  | 0, _, _, c => c
  | rounds + 1, buffer, size, c =>
    if 0 < size then
      let got := c.got src reads
      fetchEnd rounds (buffer.store 0 got) (size - blockSize)
        (c.next writes got ((buffer.store 0 got).slice 0 (min size blockSize)))
    else c

def arrived (buffer : Mem) (old : List Byte) : List Byte :=
  (fetchEnd src reads writes src.length buffer src.length ⟨0, old, 0, 0⟩).dst

variable {src reads writes}

/-- What writing can do to the destination: everything before the offset and
behind the new offset is as it was. -/
structure Copy.Extends (c e : Copy) : Prop where
  off : c.off ≤ e.off
  fits : e.off ≤ e.dst.length
  length : e.dst.length = max c.dst.length e.off
  take : e.dst.take c.off = c.dst.take c.off
  drop : e.dst.drop e.off = c.dst.drop e.off

namespace Copy.Extends

variable {c d e : Copy}

theorem refl (h : c.off ≤ c.dst.length) : Extends c c :=
  ⟨Nat.le_refl _, h, (Nat.max_eq_left h).symm, rfl, rfl⟩

theorem trans (h : Extends c d) (h' : Extends d e) : Extends c e where
  off := h.off.trans h'.off
  fits := h'.fits
  length := by rw [h'.length, h.length, Nat.max_assoc, Nat.max_eq_right h'.off]
  take := by
    rw [← Nat.min_eq_left h.off, ← List.take_take, h'.take, List.take_take, Nat.min_eq_left h.off, h.take]
  drop := by
    obtain ⟨k, hk⟩ := Nat.exists_eq_add_of_le h'.off
    rw [h'.drop, hk, ← List.drop_drop, h.drop, List.drop_drop]

theorem next (h : c.off ≤ c.dst.length) (got bytes : List Byte) : Extends c (c.next writes got bytes) := by
  have hk : (bytes.take (moved (writes c.round) bytes.length)).length = moved (writes c.round) bytes.length := by
    rw [List.length_take, Nat.min_eq_left (moved_le _ _)]
  have hl := @overwrite_length c.dst (bytes.take (moved (writes c.round) bytes.length)) c.off h
  rw [hk] at hl
  refine ⟨Nat.le_add_right _ _, ?_, hl, overwrite_take h, ?_⟩
  · exact (Nat.le_max_right _ _).trans_eq hl.symm
  · have hd := @overwrite_drop c.dst (bytes.take (moved (writes c.round) bytes.length)) c.off h
    rwa [hk] at hd

end Copy.Extends

theorem extends_fetchEnd (rounds : Nat) (buffer : Mem) (size : Nat) {c : Copy} (h : c.off ≤ c.dst.length) :
    c.Extends (fetchEnd src reads writes rounds buffer size c) := by
  induction rounds generalizing buffer size c with
  | zero => exact .refl h
  | succ rounds ih =>
    rw [fetchEnd]
    split
    · have hn := @Copy.Extends.next writes c h (c.got src reads)
        ((buffer.store 0 (c.got src reads)).slice 0 (min size blockSize))
      exact hn.trans (ih _ _ hn.fits)
    · exact .refl h

/-- The bytes asked for in a round of the fetching loop. -/
def asked (size j : Nat) : Nat := min (size - blockSize * j) blockSize

theorem asked_succ (size j : Nat) : asked size (j + 1) = asked (size - blockSize) j := by
  simp only [asked, blockSize]
  omega

/-- The writes never get further than the size, and there only when all of
them are full. -/
theorem fetchEnd_off (rounds : Nat) (buffer : Mem) (size : Nat) (c : Copy) :
    (fetchEnd src reads writes rounds buffer size c).off ≤ c.off + size ∧
      ((fetchEnd src reads writes rounds buffer size c).off = c.off + size →
        ∀ j, blockSize * j < size → moved (writes (c.round + j)) (asked size j) = asked size j) := by
  induction rounds generalizing buffer size c with
  | zero =>
    refine ⟨Nat.le_add_right _ _, fun h j hj => ?_⟩
    rw [fetchEnd] at h
    omega
  | succ rounds ih =>
    rw [fetchEnd]
    by_cases hs : 0 < size
    · rw [if_pos hs]
      have hm := moved_le (writes c.round) (min size blockSize)
      have hmin : min size blockSize + (size - blockSize) = size := by
        rw [blockSize]
        omega
      obtain ⟨hle, hfull⟩ := ih (buffer.store 0 (c.got src reads)) (size - blockSize)
        (c.next writes (c.got src reads) ((buffer.store 0 (c.got src reads)).slice 0 (min size blockSize)))
      simp only [Copy.next, Mem.slice_length] at hle hfull ⊢
      refine ⟨by omega, fun h j hj => ?_⟩
      cases j with
      | zero =>
        simp only [asked, Nat.mul_zero, Nat.sub_zero, Nat.add_zero]
        omega
      | succ j =>
        have hj' := hfull (by omega) j (by rw [blockSize] at hj ⊢; omega)
        rw [asked_succ, show c.round + (j + 1) = c.round + 1 + j by omega]
        exact hj'
    · rw [if_neg hs]
      exact ⟨Nat.le_add_right _ _, fun h j hj => by omega⟩

/-- So far as much was read as was written, and the destination holds it. -/
structure Copy.Even (c : Copy) (src old : List Byte) (p : Nat) : Prop where
  pos : c.pos = p
  off : c.off = p
  dst : c.dst = src.take p ++ old.drop p

theorem Copy.Even.next {c : Copy} {old : List Byte} {p n : Nat} {bytes : List Byte} (h : c.Even src old p)
    (hp : p + n ≤ src.length) (hb : bytes = (src.drop p).take n)
    (hw : moved (writes c.round) bytes.length = bytes.length) : (c.next writes bytes bytes).Even src old (p + n) := by
  have hn : bytes.length = n := by rw [hb, List.length_take, List.length_drop]; omega
  refine ⟨by rw [Copy.next, h.pos, hn], by rw [Copy.next, hw, h.off, hn], ?_⟩
  rw [Copy.next, hw, List.take_length, h.dst, h.off, hb]
  exact overwrite_prefix hp

theorem fetchEnd_full (rounds : Nat) (buffer : Mem) (size : Nat) {c : Copy} {old : List Byte} (hr : size ≤ rounds)
    (h : c.Even src old (src.length - size)) (hs : size ≤ src.length)
    (hf : ∀ j, blockSize * j < size → moved (reads (c.round + j)) (asked size j) = asked size j ∧
      moved (writes (c.round + j)) (asked size j) = asked size j) :
    (fetchEnd src reads writes rounds buffer size c).dst = src ++ old.drop src.length := by
  induction rounds generalizing buffer size c with
  | zero =>
    obtain rfl : size = 0 := Nat.le_zero.mp hr
    rw [fetchEnd, h.dst, Nat.sub_zero, List.take_length]
  | succ rounds ih =>
    rw [fetchEnd]
    by_cases hpos : 0 < size
    · rw [if_pos hpos]
      obtain ⟨hread, hwrite⟩ := hf 0 (by simpa using hpos)
      have ha : asked size 0 = min size blockSize := by simp [asked]
      rw [ha, Nat.add_zero] at hread hwrite
      have hgot : c.got src reads = (src.drop (src.length - size)).take (min size blockSize) := by
        rw [Copy.got, h.pos, show src.length - (src.length - size) = size by omega, Nat.min_comm, hread]
      have hlen : (c.got src reads).length = min size blockSize := by
        rw [hgot, List.length_take, List.length_drop]
        omega
      have hbytes : (buffer.store 0 (c.got src reads)).slice 0 (min size blockSize) = c.got src reads :=
        Mem.slice_store_eq _ _ hlen
      have hnext := h.next (n := min size blockSize) (by omega) hgot (by rw [hlen]; exact hwrite)
      simp only [hbytes]
      refine ih _ _ (by rw [blockSize]; omega) ?_ (by omega) fun j hj => ?_
      · rwa [show src.length - size + min size blockSize = src.length - (size - blockSize) by
          rw [blockSize]; omega] at hnext
      · have hj' := hf (j + 1) (by rw [blockSize] at hj ⊢; omega)
        rw [asked_succ, show c.round + (j + 1) = c.round + 1 + j by omega] at hj'
        exact hj'
    · rw [if_neg hpos]
      obtain rfl : size = 0 := by omega
      rw [h.dst, Nat.sub_zero, List.take_length]

theorem Copy.Extends.getElem? {c e : Copy} (h : c.Extends e) {i : Nat} (hi : i < c.off) : e.dst[i]? = c.dst[i]? := by
  rw [← List.getElem?_take_of_lt hi, h.take, List.getElem?_take_of_lt hi]

theorem fetchEnd_stale {g : Byte} {r : Nat} (k rounds : Nat) (buffer : Mem) (size : Nat) {c : Copy}
    (hr : size ≤ rounds) (hpos : c.pos + size = src.length) (hoff : c.off ≤ c.dst.length) (hbuf : buffer r = g)
    (hsrc : ∀ i, i < c.pos + blockSize * k → src[i]? = some g)
    (hread : ∀ j, j < k → moved (reads (c.round + j)) (asked size j) = asked size j)
    (hshort : moved (reads (c.round + k)) (asked size k) = r) (hlt : r < asked size k)
    (hwrite : ∀ j, blockSize * j < size → moved (writes (c.round + j)) (asked size j) = asked size j) :
    (fetchEnd src reads writes rounds buffer size c).dst[c.off + blockSize * k + r]? = some g := by
  induction k generalizing rounds buffer size c with
  | zero =>
    have ha : asked size 0 = min size blockSize := by simp [asked]
    obtain ⟨rounds, rfl⟩ : ∃ n, rounds = n + 1 := ⟨rounds - 1, by omega⟩
    have hw := hwrite 0 (by omega)
    rw [ha, Nat.add_zero] at hshort hw
    rw [ha] at hlt
    have hgot : (c.got src reads).length = r := by
      rw [Copy.got, show src.length - c.pos = size by omega, Nat.min_comm, hshort, List.length_take, List.length_drop]
      omega
    have hx := @Copy.Extends.next writes c hoff (c.got src reads)
      ((buffer.store 0 (c.got src reads)).slice 0 (min size blockSize))
    have hin : c.off + r < (c.next writes (c.got src reads)
        ((buffer.store 0 (c.got src reads)).slice 0 (min size blockSize))).off := by
      rw [Copy.next_off, Mem.slice_length, hw]
      omega
    rw [fetchEnd, if_pos (by omega), Nat.mul_zero, Nat.add_zero,
      (extends_fetchEnd rounds _ _ hx.fits).getElem? hin, Copy.next, Mem.slice_length, hw]
    dsimp only
    rw [overwrite_getElem? hoff (by rw [List.length_take, Mem.slice_length]; omega),
      List.getElem?_take_of_lt hlt, Mem.slice_getElem? _ hlt, Nat.zero_add, Mem.store_of_ge (by omega), hbuf]
  | succ k ih =>
    have hk : blockSize * (k + 1) < size := by rw [asked] at hlt; omega
    have ha : asked size 0 = blockSize := by
      rw [asked]
      rw [blockSize] at hk ⊢
      omega
    have hrb : r < blockSize := by rw [asked] at hlt; omega
    obtain ⟨rounds, rfl⟩ : ∃ n, rounds = n + 1 := ⟨rounds - 1, by omega⟩
    have hmin : min size blockSize = blockSize := by
      rw [blockSize] at hk ⊢
      omega
    have hw := hwrite 0 (by omega)
    have hd := hread 0 (Nat.succ_pos k)
    rw [ha, Nat.add_zero] at hw hd
    have hlen : (c.got src reads).length = blockSize := by
      rw [Copy.got, show src.length - c.pos = size by omega, Nat.min_comm, hmin, hd, List.length_take, List.length_drop]
      omega
    have hgr : (c.got src reads)[r]? = some g := by
      rw [Copy.got, show src.length - c.pos = size by omega, Nat.min_comm, hmin, hd, List.getElem?_take_of_lt hrb,
        List.getElem?_drop]
      exact hsrc _ (by rw [blockSize] at hrb ⊢; omega)
    have hx := @Copy.Extends.next writes c hoff (c.got src reads)
      ((buffer.store 0 (c.got src reads)).slice 0 (min size blockSize))
    have h0 : buffer.store 0 (c.got src reads) (0 + r) = g := Mem.store_of_mem hgr
    rw [Nat.zero_add] at h0
    have hnext := ih rounds (buffer.store 0 (c.got src reads)) (size - blockSize)
      (c := c.next writes (c.got src reads) ((buffer.store 0 (c.got src reads)).slice 0 (min size blockSize)))
    have hfits := hx.fits
    simp only [Copy.next_pos, Copy.next_off, Copy.next_round, Mem.slice_length, hmin, hw, hlen] at hnext hfits
    rw [fetchEnd, if_pos (by omega), show c.off + blockSize * (k + 1) + r = c.off + blockSize + blockSize * k + r by
      rw [Nat.mul_succ]; omega, hmin]
    refine hnext (by rw [blockSize]; omega) (by rw [blockSize] at hk ⊢; omega) hfits h0 ?_ ?_ ?_ ?_ ?_
    · intro i hi
      exact hsrc i (by rw [Nat.mul_succ]; omega)
    · intro j hj
      have hj' := hread (j + 1) (by omega)
      rwa [asked_succ, show c.round + (j + 1) = c.round + 1 + j by omega] at hj'
    · rw [asked_succ, show c.round + (k + 1) = c.round + 1 + k by omega] at hshort
      exact hshort
    · rw [asked_succ] at hlt
      exact hlt
    · intro j hj
      have hj' := hwrite (j + 1) (by rw [blockSize] at hj ⊢; omega)
      rwa [asked_succ, show c.round + (j + 1) = c.round + 1 + j by omega] at hj'

/-- Every transfer of a fetched file of size `n` moves what it was asked to. -/
def FetchFull (n : Nat) (reads writes : Nat → Nat) : Prop :=
  ∀ j, blockSize * j < n →
    moved (reads j) (asked n j) = asked n j ∧ moved (writes j) (asked n j) = asked n j

theorem arrived_elim {buffer : Mem} {old : List Byte} (h : arrived src reads writes buffer old = src) :
    ∃ e : Copy, Copy.Extends ⟨0, old, 0, 0⟩ e ∧ e.dst = src ∧ e.off ≤ src.length ∧ (e.off = src.length →
      ∀ j, blockSize * j < src.length → moved (writes j) (asked src.length j) = asked src.length j) := by
  obtain ⟨hle, hfull⟩ := @fetchEnd_off src reads writes src.length buffer src.length
    ⟨0, old, 0, 0⟩
  simp only [Nat.zero_add] at hle hfull
  exact ⟨_, extends_fetchEnd src.length buffer src.length (Nat.zero_le _), h, hle, hfull⟩

section Right

variable {n m : Nat} {buffer : Mem}

theorem arrived_length
    (h : ∀ src old, src.length = n → old.length = m → arrived src reads writes buffer old = src) : m ≤ n := by
  obtain ⟨e, hx, hd, -, -⟩ :=
    arrived_elim (h (List.replicate n 0) (List.replicate m 0) List.length_replicate List.length_replicate)
  have hl := hx.length
  simp only [hd, List.length_replicate] at hl
  rw [hl]
  exact Nat.le_max_left _ _

theorem arrived_writes
    (h : ∀ src old, src.length = n → old.length = m → arrived src reads writes buffer old = src) :
    ∀ j, blockSize * j < n → moved (writes j) (asked n j) = asked n j := by
  obtain ⟨e, hx, hd, hle, hfull⟩ :=
    arrived_elim (h (List.replicate n 0) (List.replicate m 1) List.length_replicate List.length_replicate)
  have hl := hx.length
  have hdr := hx.drop
  simp only [hd, List.length_replicate, List.drop_replicate] at hl hdr hle hfull
  refine hfull ?_
  by_contra hne
  -- what was not written still holds what the destination held before
  obtain ⟨k, hk⟩ : ∃ k, n - e.off = k + 1 := ⟨n - e.off - 1, by omega⟩
  have hm : m - e.off = k + 1 := by omega
  rw [hk, hm, List.replicate_succ, List.replicate_succ] at hdr
  exact absurd (List.cons.inj hdr).1 (by decide)

theorem arrived_reads (hw : ∀ j, blockSize * j < n → moved (writes j) (asked n j) = asked n j)
    (h : ∀ src old, src.length = n → old.length = m → arrived src reads writes buffer old = src) :
    ∀ j, blockSize * j < n → moved (reads j) (asked n j) = asked n j := by
  by_contra hc
  push Not at hc
  obtain ⟨hk, hne⟩ := Nat.find_spec hc
  have hmin : ∀ j, j < Nat.find hc → moved (reads j) (asked n j) = asked n j := by
    intro j hj
    by_contra hf
    refine Nat.find_min hc hj ⟨?_, hf⟩
    exact (Nat.mul_lt_mul_of_pos_left hj (by decide)).trans hk
  generalize Nat.find hc = k at hk hne hmin
  have hlt : moved (reads k) (asked n k) < asked n k := lt_of_le_of_ne (moved_le _ _) hne
  let r := moved (reads k) (asked n k)
  let src := List.replicate (blockSize * k) (buffer r) ++ List.replicate (n - blockSize * k) (buffer r + 1)
  have hn : src.length = n := by
    simp only [src, List.length_append, List.length_replicate]
    omega
  have hd := h src (List.replicate m 0) hn List.length_replicate
  rw [arrived, hn] at hd
  have hr : r < n - blockSize * k := hlt.trans_le (Nat.min_le_left _ _)
  have hstale := @fetchEnd_stale src reads writes (buffer r) r k n buffer n
    ⟨0, List.replicate m 0, 0, 0⟩ (Nat.le_refl n) (by rw [hn]; exact Nat.zero_add n) (Nat.zero_le _) rfl
    (fun i hi => by
      rw [Nat.zero_add] at hi
      rw [List.getElem?_append_left (by rwa [List.length_replicate])]
      exact List.getElem?_replicate_of_lt hi)
    (fun j hj => by rw [Nat.zero_add]; exact hmin j hj) (by rw [Nat.zero_add]) hlt
    (fun j hj => by rw [Nat.zero_add]; exact hw j hj)
  have hsrc : src[blockSize * k + r]? = some (buffer r + 1) := by
    rw [List.getElem?_append_right (by rw [List.length_replicate]; omega), List.length_replicate,
      Nat.add_sub_cancel_left]
    exact List.getElem?_replicate_of_lt hr
  rw [hd, Nat.zero_add, hsrc, Option.some.injEq] at hstale
  exact absurd hstale (by simp)

/-- Fetching a file is right, whatever the two files hold, exactly when the
destination was no longer and every transfer is full. -/
theorem arrived_iff :
    (∀ src old, src.length = n → old.length = m → arrived src reads writes buffer old = src) ↔
      m ≤ n ∧ FetchFull n reads writes := by
  refine ⟨fun h => ⟨arrived_length h, fun j hj => ?_⟩, fun ⟨hm, hf⟩ src old hs ho => ?_⟩
  · have hw := arrived_writes h
    exact ⟨arrived_reads hw h j hj, hw j hj⟩
  · subst hs
    rw [arrived, @fetchEnd_full src reads writes src.length buffer src.length ⟨0, old, 0, 0⟩ old (Nat.le_refl _)
      ⟨(Nat.sub_self _).symm, (Nat.sub_self _).symm, by simp⟩ (Nat.le_refl _)
      (fun j hj => by simpa using hf j hj), List.drop_of_length_le (by omega), List.append_nil]

end Right

end Fetch

/-- How far the source is read before a round. -/
def readPos (n : Nat) (reads : Nat → Nat) : Nat → Nat
  | 0 => 0
  | k + 1 => readPos n reads k + moved (reads k) (min blockSize (n - readPos n reads k))

/-- Every write of a sent file of size `n` moves what it was asked to. -/
def SendFull (n : Nat) (reads writes : Nat → Nat) : Prop :=
  ∀ k, readPos n reads k < n →
    moved (writes k) (moved (reads k) (min blockSize (n - readPos n reads k))) =
      moved (reads k) (min blockSize (n - readPos n reads k))

section Send

variable {reads writes : Nat → Nat} {n : Nat}

theorem readPos_mono {j k : Nat} (h : j ≤ k) : readPos n reads j ≤ readPos n reads k := by
  induction k with
  | zero =>
    obtain rfl : j = 0 := Nat.le_zero.mp h
    exact Nat.le_refl _
  | succ k ih =>
    rcases Nat.of_le_succ h with h | rfl
    · exact (ih h).trans (Nat.le_add_right _ _)
    · exact Nat.le_refl _

theorem readPos_le (k : Nat) : readPos n reads k ≤ n := by
  induction k with
  | zero => exact Nat.zero_le n
  | succ k ih =>
    have h := moved_le (reads k) (min blockSize (n - readPos n reads k))
    rw [readPos]
    omega

/-- How far the destination is written before a round. -/
def writePos (n : Nat) (reads writes : Nat → Nat) : Nat → Nat
  | 0 => 0
  | k + 1 => writePos n reads writes k + moved (writes k) (moved (reads k) (min blockSize (n - readPos n reads k)))

theorem writePos_add (k j : Nat) :
    writePos n reads writes (k + j) + readPos n reads k ≤ readPos n reads (k + j) + writePos n reads writes k := by
  induction j with
  | zero => rw [Nat.add_zero, Nat.add_comm]
  | succ j ih =>
    have h := moved_le (writes (k + j)) (moved (reads (k + j)) (min blockSize (n - readPos n reads (k + j))))
    rw [← Nat.add_assoc, writePos, readPos]
    omega

theorem writePos_le (k : Nat) : writePos n reads writes k ≤ readPos n reads k := by
  have h := @writePos_add reads writes n 0 k
  simpa [readPos, writePos] using h

theorem writePos_eq {k r : Nat} (hr : writePos n reads writes r = n) (hk : k ≤ r) :
    writePos n reads writes k = readPos n reads k := by
  obtain ⟨j, rfl⟩ := Nat.exists_eq_add_of_le hk
  have h := @writePos_add reads writes n k j
  have hle := @writePos_le reads writes n k
  have hn := @readPos_le reads n (k + j)
  omega

theorem writePos_lt (h : ¬SendFull n reads writes) (k : Nat) : writePos n reads writes k < n := by
  refine Nat.lt_of_le_of_ne ((writePos_le k).trans (readPos_le k)) fun hk => h fun j hj => ?_
  -- the rounds behind a full destination do not read any more
  have hjk : j < k := by
    by_contra hc
    have := @readPos_mono reads n k j (Nat.not_lt.mp hc)
    have := @writePos_le reads writes n k
    omega
  have h0 := writePos_eq hk (Nat.le_of_lt hjk)
  have h1 := writePos_eq hk hjk
  rw [writePos, readPos] at h1
  omega

theorem writePos_full (h : SendFull n reads writes) (k : Nat) : writePos n reads writes k = readPos n reads k := by
  induction k with
  | zero => rfl
  | succ k ih =>
    rw [writePos, readPos, ih]
    by_cases hk : readPos n reads k < n
    · rw [h k hk]
    · rw [show n - readPos n reads k = 0 by omega, Nat.min_zero, moved, moved, Nat.min_zero, Nat.min_zero]

end Send

end Pksh
