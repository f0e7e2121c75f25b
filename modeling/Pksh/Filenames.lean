import Pksh.HostPaths
import Pksh.Lib.Scan
import Pksh.Shell

/-! `split_filename` store by store, into arrays of the size it takes them to
have. -/

namespace Pksh

open Wire

structure SplitBufs where
  device : Nat
  dir : Nat
  filename : Nat

/-- The stores of `split_filename`, in order, each with its address. -/
def splitStores (b : SplitBufs) (arg : List Byte) : List (Nat × List Byte) :=
  [(b.device, List.replicate maxpathlen 0), (b.dir, List.replicate maxpathlen 0),
    (b.filename, List.replicate maxpathlen 0)] ++
  match strstr (str ":") arg with
  | none => [(b.device, [0]), (b.filename, strncpy arg maxpathlen)]
  | some ptr =>
    let n := arg.length - ptr.length
    (if n > maxpathlen then [(b.device, [0])] else [(b.device, strncpy arg (n + 1)), (b.device + (n + 1), [0])]) ++
      [(b.filename, strncpy (ptr.drop 1) maxpathlen)]

def splitFilenameAt (b : SplitBufs) (arg : List Byte) (m : Mem) : Mem := m.stores (splitStores b arg)

def InArray (array run : Nat × Nat) : Prop := array.1 ≤ run.1 ∧ run.1 + run.2 ≤ array.1 + array.2

def Separate (r s : Nat × Nat) : Prop := r.1 + r.2 ≤ s.1 ∨ s.1 + s.2 ≤ r.1

def SplitBufs.arrays (b : SplitBufs) (size : Nat) : List (Nat × Nat) := [(b.device, size), (b.dir, size), (b.filename, size)]

/-- What is promised of a call whose arrays have `MAXPATHLEN` bytes. -/
structure SplitsWell (b : SplitBufs) (arg : List Byte) (m : Mem) : Prop where
  whole : m.cstr b.device maxpathlen ++ m.cstr b.filename maxpathlen = arg
  empty : m.cstr b.device maxpathlen = [] ↔ colon ∉ arg
  upTo : colon ∈ arg → m.cstr b.device maxpathlen = arg.takeWhile (· ≠ colon) ++ [colon]
  terminated : 0 ∈ m.slice b.device maxpathlen ∧ 0 ∈ m.slice b.filename maxpathlen
  inside : ∀ f ∈ splitStores b arg, ∃ array ∈ b.arrays maxpathlen, InArray array (f.1, f.2.length)

section Colon

variable {pre rest : List Byte}

theorem strstr_colon_append (hp : colon ∉ pre) (rest : List Byte) :
    strstr (str ":") (pre ++ colon :: rest) = some (colon :: rest) := by
  induction pre with
  | nil => exact strstr_start (List.prefix_append (str ":") rest)
  | cons b pre ih =>
    rw [List.mem_cons, not_or] at hp
    have hb : ¬(str ":").isPrefixOf (b :: (pre ++ colon :: rest)) = true := by
      rw [List.isPrefixOf_iff_prefix]
      exact fun h => hp.1 (List.cons_prefix_cons.mp h).1
    rw [List.cons_append, strstr, if_neg hb]
    exact ih hp.2

theorem strstr_colon_none {arg : List Byte} (h : colon ∉ arg) : strstr (str ":") arg = none := by
  cases hs : strstr (str ":") arg with
  | none => rfl
  | some ptr => exact absurd ((strstr_colon arg).mp (by rw [hs]; rfl)) h

/-- `ptr - arg` -/
theorem colon_offset (pre rest : List Byte) :
    (pre ++ colon :: rest).length - (colon :: rest).length = pre.length := by
  rw [List.length_append, Nat.add_sub_cancel]

theorem splitFilename_colon (hp : colon ∉ pre) (hl : pre.length ≤ maxpathlen) :
    splitFilename (pre ++ colon :: rest) = (pre ++ [colon], rest) := by
  rw [splitFilename, strstr_colon_append hp]
  simp only [colon_offset, if_neg (Nat.not_lt.mpr hl), List.drop_succ_cons, List.drop_zero]
  rw [List.append_cons, List.take_left' (by rw [List.length_append, List.length_singleton])]

theorem splitFilename_plain {arg : List Byte} (h : colon ∉ arg) : splitFilename arg = ([], arg) := by
  rw [splitFilename, strstr_colon_none h]

end Colon

section Stores

variable {m : Mem} {s : List Byte} {off n : Nat}

theorem strncpy_stringAt (h0 : 0 ∉ s) (h : s.length < n) : (m.store off (strncpy s n)).StringAt off s where
  bytes := by
    have hlen : s.length + 1 ≤ (strncpy s n).length := by rw [strncpy_length]; exact h
    rw [Mem.slice_store_of_le hlen, strncpy_of_lt h, List.append_cons, List.take_left' (by simp)]
  free := h0

end Stores

section Split

variable {b : SplitBufs} {arg : List Byte}

theorem separate_device_filename {size : Nat} (h : (b.arrays size).Pairwise Separate) :
    b.device + size ≤ b.filename ∨ b.filename + size ≤ b.device :=
  List.rel_of_pairwise_cons h (List.mem_cons_of_mem _ List.mem_cons_self)

theorem splitStores_plain (hc : colon ∉ arg) :
    splitStores b arg = [(b.device, List.replicate maxpathlen 0), (b.dir, List.replicate maxpathlen 0),
      (b.filename, List.replicate maxpathlen 0), (b.device, [0]), (b.filename, strncpy arg maxpathlen)] := by
  rw [splitStores, strstr_colon_none hc]
  rfl

theorem splitStores_colon {pre rest : List Byte} (hp : colon ∉ pre) (hl : pre.length ≤ maxpathlen) :
    splitStores b (pre ++ colon :: rest) = [(b.device, List.replicate maxpathlen 0),
      (b.dir, List.replicate maxpathlen 0), (b.filename, List.replicate maxpathlen 0), (b.device, pre ++ [colon]),
      (b.device + (pre ++ [colon]).length, [0]), (b.filename, strncpy rest maxpathlen)] := by
  have hcopy : strncpy (pre ++ colon :: rest) (pre.length + 1) = pre ++ [colon] := by
    rw [strncpy, List.append_cons, List.take_left' (by simp)]
    simp
  rw [splitStores, strstr_colon_append hp]
  simp only [colon_offset, if_neg (Nat.not_lt.mpr hl), hcopy, List.drop_succ_cons, List.drop_zero]
  rw [List.length_append, List.length_singleton]
  rfl

/-- The copy to `filename` comes last, with the string of `device` in place. -/
theorem splitFilenameAt_last (h0 : 0 ∉ arg) (hl : arg.length < maxpathlen) (m : Mem) :
    ∃ m' : Mem, m'.StringAt b.device (splitFilename arg).1 ∧
      splitFilenameAt b arg m = m'.store b.filename (strncpy (splitFilename arg).2 maxpathlen) := by
  by_cases hc : colon ∈ arg
  · obtain ⟨pre, rest, rfl, hp⟩ := List.eq_append_cons_of_mem hc
    have hpre : pre.length ≤ maxpathlen := (List.prefix_append pre _).length_le.trans (Nat.le_of_lt hl)
    have hzero : 0 ∉ pre ++ [colon] := by
      rw [List.append_cons, List.mem_append, not_or] at h0
      exact h0.1
    rw [splitFilename_colon hp hpre, splitFilenameAt, splitStores_colon hp hpre]
    simp only [Mem.stores, List.foldl_cons, List.foldl_nil]
    rw [← Mem.store_append]
    exact ⟨_, ⟨Mem.slice_store_eq _ _ (by simp), hzero⟩, rfl⟩
  · rw [splitFilename_plain hc, splitFilenameAt, splitStores_plain hc]
    exact ⟨_, ⟨Mem.slice_store_eq _ _ rfl, List.not_mem_nil⟩, rfl⟩

theorem splitFilename_append (hl : arg.length < maxpathlen) : (splitFilename arg).1 ++ (splitFilename arg).2 = arg := by
  by_cases hc : colon ∈ arg
  · obtain ⟨pre, rest, rfl, hp⟩ := List.eq_append_cons_of_mem hc
    rw [splitFilename_colon hp ((List.prefix_append pre _).length_le.trans (Nat.le_of_lt hl)), ← List.append_cons]
  · rw [splitFilename_plain hc, List.nil_append]

theorem splitFilename_device (hl : arg.length < maxpathlen) :
    (splitFilename arg).1 = if colon ∈ arg then arg.takeWhile (· ≠ colon) ++ [colon] else [] := by
  by_cases hc : colon ∈ arg
  · rw [if_pos hc]
    obtain ⟨pre, rest, rfl, hp⟩ := List.eq_append_cons_of_mem hc
    rw [splitFilename_colon hp ((List.prefix_append pre _).length_le.trans (Nat.le_of_lt hl)),
      takeWhile_ne_append_cons hp]
  · rw [if_neg hc, splitFilename_plain hc]

theorem splitFilenameAt_strings (ha : (b.arrays maxpathlen).Pairwise Separate) (h0 : 0 ∉ arg)
    (hl : arg.length < maxpathlen) (m : Mem) :
    (splitFilenameAt b arg m).StringAt b.device (splitFilename arg).1 ∧
      (splitFilenameAt b arg m).StringAt b.filename (splitFilename arg).2 := by
  have hdf := separate_device_filename ha
  have hparts := splitFilename_append hl
  have hfree : 0 ∉ (splitFilename arg).2 := fun h => h0 (hparts ▸ List.mem_append_right _ h)
  have hlen := congrArg List.length hparts
  rw [List.length_append] at hlen
  obtain ⟨m', hdevice, hlast⟩ := splitFilenameAt_last (b := b) h0 hl m
  rw [hlast]
  refine ⟨hdevice.store_disjoint ?_, strncpy_stringAt hfree (by omega)⟩
  rw [strncpy_length]
  omega

/-- A store into the array at `off`, which leaves nothing but zeros behind the
first `len` bytes. -/
structure StringStore (len off : Nat) (f : Nat × List Byte) : Prop where
  start : off ≤ f.1
  stop : f.1 + f.2.length ≤ off + maxpathlen
  zeros : ∀ i x, f.2[i]? = some x → x ≠ 0 → f.1 + i < off + len

theorem stringStore_clear (len off : Nat) : StringStore len off (off, List.replicate maxpathlen 0) where
  start := Nat.le_refl off
  stop := Nat.add_le_add_left List.length_replicate.le off
  zeros _ _ hx hn := absurd (List.eq_of_mem_replicate (List.mem_of_getElem? hx)) hn

theorem stringStore_copy (off : Nat) {s : List Byte} {len : Nat} (hs : s.length ≤ len) :
    StringStore len off (off, strncpy s maxpathlen) where
  start := Nat.le_refl off
  stop := Nat.add_le_add_left (strncpy_length s maxpathlen).le off
  zeros i x hx hn := by
    have hi : i < s.length := Nat.lt_of_not_le fun hle => hn (strncpy_zero hle hx)
    exact Nat.add_lt_add_left (Nat.lt_of_lt_of_le hi hs) off

theorem stringStore_bytes (off : Nat) {s : List Byte} {len : Nat} (hs : s.length ≤ len) (hl : len ≤ maxpathlen) :
    StringStore len off (off, s) where
  start := Nat.le_refl off
  stop := Nat.add_le_add_left (hs.trans hl) off
  zeros _ _ hx _ := Nat.add_lt_add_left (Nat.lt_of_lt_of_le (List.getElem?_eq_some_iff.mp hx).1 hs) off

theorem stringStore_end {off n len : Nat} (hn : n < maxpathlen) : StringStore len off (off + n, [0]) where
  start := Nat.le_add_right off n
  stop := Nat.add_le_add_left hn off
  zeros _ _ hx h0 := absurd (List.mem_singleton.mp (List.mem_of_getElem? hx)) h0

theorem splitStores_shape (hl : arg.length < maxpathlen) {f : Nat × List Byte} (hf : f ∈ splitStores b arg) :
    ∃ off ∈ [b.device, b.dir, b.filename], StringStore arg.length off f := by
  have hdevice : b.device ∈ [b.device, b.dir, b.filename] := List.mem_cons_self
  have hdir : b.dir ∈ [b.device, b.dir, b.filename] := List.mem_cons_of_mem _ List.mem_cons_self
  have hfilename : b.filename ∈ [b.device, b.dir, b.filename] := by simp
  by_cases hc : colon ∈ arg
  · obtain ⟨pre, rest, rfl, hp⟩ := List.eq_append_cons_of_mem hc
    have hlen : (pre ++ colon :: rest).length = (pre ++ [colon]).length + rest.length := by
      rw [List.append_cons, List.length_append]
    have hpre : pre.length ≤ maxpathlen := (List.prefix_append pre _).length_le.trans (Nat.le_of_lt hl)
    rw [splitStores_colon hp hpre] at hf
    simp only [List.mem_cons, List.not_mem_nil, or_false] at hf
    rcases hf with rfl | rfl | rfl | rfl | rfl | rfl
    · exact ⟨_, hdevice, stringStore_clear _ _⟩
    · exact ⟨_, hdir, stringStore_clear _ _⟩
    · exact ⟨_, hfilename, stringStore_clear _ _⟩
    · exact ⟨_, hdevice, stringStore_bytes _ (by omega) (Nat.le_of_lt hl)⟩
    · -- the terminator behind the colon, which is not the last byte of the array
      exact ⟨_, hdevice, stringStore_end (by omega)⟩
    · exact ⟨_, hfilename, stringStore_copy _ (by omega)⟩
  · rw [splitStores_plain hc] at hf
    simp only [List.mem_cons, List.not_mem_nil, or_false] at hf
    rcases hf with rfl | rfl | rfl | rfl | rfl
    · exact ⟨_, hdevice, stringStore_clear _ _⟩
    · exact ⟨_, hdir, stringStore_clear _ _⟩
    · exact ⟨_, hfilename, stringStore_clear _ _⟩
    · exact ⟨_, hdevice, stringStore_end (n := 0) (Nat.zero_lt_of_lt hl)⟩
    · exact ⟨_, hfilename, stringStore_copy _ (Nat.le_refl _)⟩

theorem mem_arrays {off size : Nat} (h : off ∈ [b.device, b.dir, b.filename]) : (off, size) ∈ b.arrays size :=
  List.mem_map_of_mem (f := fun off => (off, size)) h

theorem splitStores_inArray (hl : arg.length < maxpathlen) {f : Nat × List Byte} (hf : f ∈ splitStores b arg) :
    ∃ array ∈ b.arrays maxpathlen, InArray array (f.1, f.2.length) := by
  obtain ⟨off, hoff, hstore⟩ := splitStores_shape hl hf
  exact ⟨_, mem_arrays hoff, hstore.start, hstore.stop⟩

end Split

theorem splitFilename_splits (b : SplitBufs) (arg : List Byte) (m : Mem) (ha : (b.arrays maxpathlen).Pairwise Separate)
    (h0 : 0 ∉ arg) (hl : arg.length < maxpathlen) : SplitsWell b arg (splitFilenameAt b arg m) := by
  obtain ⟨hdevice, hfilename⟩ := splitFilenameAt_strings ha h0 hl m
  have hparts := splitFilename_append hl
  have hshort : (splitFilename arg).1.length < maxpathlen ∧ (splitFilename arg).2.length < maxpathlen := by
    rw [← hparts, List.length_append] at hl
    omega
  have hdev := hdevice.cstr_eq hshort.1
  rw [splitFilename_device (by omega)] at hdev
  exact {
    whole := by rw [hdevice.cstr_eq hshort.1, hfilename.cstr_eq hshort.2, hparts]
    empty := by
      rw [hdev]
      by_cases hc : colon ∈ arg <;> simp [hc]
    upTo := fun hc => by rw [hdev, if_pos hc]
    terminated := ⟨hdevice.zero_mem hshort.1, hfilename.zero_mem hshort.2⟩
    inside := fun f hf => splitStores_inArray hl hf }

/-- `mc0:boot.elf` -/
theorem splitFilename_splits_card : SplitsWell ⟨0, maxpathlen, 2 * maxpathlen⟩ (str "mc0:boot.elf")
    (splitFilenameAt ⟨0, maxpathlen, 2 * maxpathlen⟩ (str "mc0:boot.elf") fun _ => 0xff) :=
  splitFilename_splits _ _ _ (by simp [SplitBufs.arrays, Separate, maxpathlen]) (by decide) (by decide)

end Pksh
