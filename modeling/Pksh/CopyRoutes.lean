import Pksh.Argv
import Pksh.Filenames

/-! The way `cli_copy` takes, read from the six static arrays that its two calls
of `split_filename` fill. -/

namespace Pksh

open Wire

/-- Where the arrays of pksh start: `device`, `dir`, `filename`, and the same
with a 2. -/
structure Statics where
  first : SplitBufs
  second : SplitBufs

def Statics.arrays (l : Statics) : List (Nat × Nat) := l.first.arrays maxpathlen ++ l.second.arrays maxPath

inductive CopyRoute
  | tooFew
  | fromPs2
  | toPs2
  | shell (clicom : List Byte)
deriving DecidableEq, Repr

def copySplitAt (l : Statics) (a b : List Byte) (m : Mem) : Mem :=
  splitFilenameAt l.second b (splitFilenameAt l.first a m)

/-- What `cli_copy` goes on with. -/
def copyRouteAt (l : Statics) (m : Mem) (arg : List Byte) : CopyRoute :=
  let argv := buildArgv arg
  if argv.2 < 2 then .tooFew
  else
    let m := copySplitAt l (argv.1.getD 0 []) (argv.1.getD 1 []) m
    if m l.first.device ≠ 0 then .fromPs2
    else if m l.second.device ≠ 0 then .toPs2
    else .shell (str "cp " ++ arg)

/-- What is promised of the line `cp A B`. -/
structure CopySplit (l : Statics) (m : Mem) (a b : List Byte) : Prop where
  fromPs2 : copyRouteAt l m (a ++ space :: b) = .fromPs2 ↔ colon ∈ a
  toPs2 : copyRouteAt l m (a ++ space :: b) = .toPs2 ↔ colon ∉ a ∧ colon ∈ b
  shell : colon ∉ a → colon ∉ b → copyRouteAt l m (a ++ space :: b) = .shell (str "cp " ++ (a ++ space :: b))
  insideFirst : ∀ f ∈ splitStores l.first a, ∃ array ∈ l.first.arrays maxpathlen, InArray array (f.1, f.2.length)
  insideSecond : ∀ f ∈ splitStores l.second b, ∃ array ∈ l.second.arrays maxPath, InArray array (f.1, f.2.length)
  kept : ∀ i, (∀ array ∈ l.second.arrays maxPath, ¬InArray array (i, 1)) →
    copySplitAt l a b m i = splitFilenameAt l.first a m i

section Outside

variable {b : SplitBufs} {arg : List Byte} {size i : Nat}

theorem splitStores_zero (hl : arg.length < size) (hs : size ≤ maxpathlen)
    (hout : ∀ array ∈ b.arrays size, ¬InArray array (i, 1)) {f : Nat × List Byte} (hf : f ∈ splitStores b arg)
    (hi : f.1 ≤ i) {x : Byte} (hx : f.2[i - f.1]? = some x) : x = 0 := by
  obtain ⟨off, hoff, hstore⟩ := splitStores_shape (Nat.lt_of_lt_of_le hl hs) hf
  by_contra hn
  have hlt := hstore.zeros _ x hx hn
  have hle := hstore.start
  exact hout (off, size) (mem_arrays hoff) ⟨by simp only; omega, by simp only; omega⟩

theorem splitStores_covered (hl : arg.length < maxpathlen) :
    Mem.Covered (splitStores b arg) i ↔ ∃ array ∈ b.arrays maxpathlen, InArray array (i, 1) := by
  constructor
  · rintro ⟨f, hf, hle, hlt⟩
    obtain ⟨array, harray, hin⟩ := splitStores_inArray hl hf
    exact ⟨array, harray, hin.1.trans hle, by simp only [InArray] at hin ⊢; omega⟩
  · rintro ⟨array, harray, hle, hlt⟩
    have hcleared : (array.1, List.replicate maxpathlen 0) ∈ splitStores b arg ∧ array.2 = maxpathlen := by
      simp only [SplitBufs.arrays, List.mem_cons, List.not_mem_nil, or_false] at harray
      rcases harray with rfl | rfl | rfl
      · exact ⟨List.mem_append_left _ List.mem_cons_self, rfl⟩
      · exact ⟨List.mem_append_left _ (List.mem_cons_of_mem _ List.mem_cons_self), rfl⟩
      · exact ⟨List.mem_append_left _ (List.mem_cons_of_mem _ (List.mem_cons_of_mem _ List.mem_cons_self)), rfl⟩
    refine ⟨_, hcleared.1, hle, ?_⟩
    rw [List.length_replicate, ← hcleared.2]
    exact hlt

instance (array run : Nat × Nat) : Decidable (InArray array run) := inferInstanceAs (Decidable (_ ∧ _))

/-- A byte outside of arrays that are shorter than `MAXPATHLEN`. -/
theorem splitFilenameAt_outside (hl : arg.length < size) (hs : size ≤ maxpathlen)
    (hout : ∀ array ∈ b.arrays size, ¬InArray array (i, 1)) (m : Mem) :
    splitFilenameAt b arg m i = if ∃ array ∈ b.arrays maxpathlen, InArray array (i, 1) then 0 else m i := by
  have hcov := splitStores_covered (b := b) (i := i) (Nat.lt_of_lt_of_le hl hs)
  by_cases hreach : ∃ array ∈ b.arrays maxpathlen, InArray array (i, 1)
  · rw [if_pos hreach]
    exact Mem.stores_cleared (fun f hf hi x hx => splitStores_zero hl hs hout hf hi hx) (hcov.mpr hreach)
  · rw [if_neg hreach]
    exact Mem.stores_of_not_covered (mt hcov.mp hreach)

end Outside

section Route

variable {l : Statics} {a b : List Byte}

theorem buildArgv_pair (ha : IsWord a) (hb : IsWord b) : buildArgv (a ++ space :: b) = ([a, b], 2) := by
  have hline : spelled a [(0, b)] ++ List.replicate 0 space = a ++ space :: b := by
    rw [List.replicate_zero, List.append_nil]
    rfl
  have hrest : ∀ p ∈ [(0, b)], IsWord p.2 := fun p hp => List.mem_singleton.mp hp ▸ hb
  rw [buildArgv, if_neg (by simp), ← hline, buildArgvLoop_spelled maxArgv 0 ha.2.1 hrest]
  rfl

theorem splitFilename_head (hl : a.length < maxpathlen) (h0 : 0 ∉ a) :
    (splitFilename a).1.headD 0 ≠ 0 ↔ colon ∈ a := by
  rw [splitFilename_device hl]
  by_cases hc : colon ∈ a
  · rw [if_pos hc]
    refine ⟨fun _ => hc, fun _ => ?_⟩
    obtain ⟨pre, rest, rfl, hp⟩ := List.eq_append_cons_of_mem hc
    rw [takeWhile_ne_append_cons hp]
    cases pre with
    | nil => exact nofun
    | cons x pre => exact fun hx => h0 (List.mem_cons.mpr (.inl (Eq.symm hx)))
  · rw [if_neg hc]
    exact ⟨fun h => absurd rfl h, fun h => absurd h hc⟩

/-- The first byte of the device, which the copy of the file name behind it
clears if it reaches that far. -/
theorem splitFilenameAt_device {s : SplitBufs} {size : Nat} (ha : (s.arrays size).Pairwise Separate) (hl : b.length < size)
    (hs : size ≤ maxpathlen) (h0 : 0 ∉ b) (m : Mem) :
    splitFilenameAt s b m s.device ≠ 0 ↔ colon ∈ b ∧ ¬InArray (s.filename, maxpathlen) (s.device, 1) := by
  have hmax : b.length < maxpathlen := Nat.lt_of_lt_of_le hl hs
  have hapart := separate_device_filename ha
  have hlen := congrArg List.length (splitFilename_append hmax)
  rw [List.length_append] at hlen
  obtain ⟨m', hdevice, hlast⟩ := splitFilenameAt_last (b := s) h0 hmax m
  rw [hlast]
  by_cases hin : InArray (s.filename, maxpathlen) (s.device, 1)
  · have hfar : s.filename + size ≤ s.device := by
      simp only [InArray] at hin
      omega
    have hlt : s.device - s.filename < (strncpy (splitFilename b).2 maxpathlen).length := by
      rw [strncpy_length]
      simp only [InArray] at hin
      omega
    have hbyte := List.getElem?_eq_getElem hlt
    have hzero := strncpy_zero (by omega) hbyte
    rw [Mem.store, if_pos (by omega), hbyte, hzero]
    exact ⟨fun h => absurd rfl h, fun h => absurd hin h.2⟩
  · have hkept : m'.store s.filename (strncpy (splitFilename b).2 maxpathlen) s.device = m' s.device := by
      simp only [InArray] at hin
      by_cases hlt : s.device < s.filename
      · exact Mem.store_of_lt hlt
      · refine Mem.store_of_ge ?_
        rw [strncpy_length]
        omega
    rw [hkept, hdevice.head, splitFilename_head hmax h0]
    exact ⟨fun h => ⟨h, hin⟩, And.left⟩

def Statics.Cleared (l : Statics) (i : Nat) : Prop := ∃ array ∈ l.second.arrays maxpathlen, InArray array (i, 1)

instance (l : Statics) (i : Nat) : Decidable (l.Cleared i) := inferInstanceAs (Decidable (∃ array ∈ _, _))

theorem Statics.separate_first (h : l.arrays.Pairwise Separate) : (l.first.arrays maxpathlen).Pairwise Separate :=
  (List.pairwise_append.mp h).1

theorem Statics.separate_second (h : l.arrays.Pairwise Separate) : (l.second.arrays maxPath).Pairwise Separate :=
  (List.pairwise_append.mp h).2.1

theorem Statics.device_outside (h : l.arrays.Pairwise Separate) {array : Nat × Nat}
    (harray : array ∈ l.second.arrays maxPath) : ¬InArray array (l.first.device, 1) := by
  have hapart := (List.pairwise_append.mp h).2.2 (l.first.device, maxpathlen) List.mem_cons_self array harray
  simp only [Separate, InArray, maxpathlen] at hapart ⊢
  omega

/-- What `splitFilenameAt_outside` says of the second call. -/
theorem copySplitAt_outside {i : Nat} (hb : b.length < maxPath)
    (hout : ∀ array ∈ l.second.arrays maxPath, ¬InArray array (i, 1)) (m : Mem) :
    copySplitAt l a b m i = if l.Cleared i then 0 else splitFilenameAt l.first a m i :=
  splitFilenameAt_outside hb (by decide) hout _

theorem copyRouteAt_eq (hl : l.arrays.Pairwise Separate) (ha : IsWord a) (hal : a.length < maxPath) (hb : IsWord b)
    (hbl : b.length < maxPath) (m : Mem) : copyRouteAt l m (a ++ space :: b) =
      if colon ∈ a ∧ ¬l.Cleared l.first.device then .fromPs2
      else if colon ∈ b ∧ ¬InArray (l.second.filename, maxpathlen) (l.second.device, 1) then .toPs2
      else .shell (str "cp " ++ (a ++ space :: b)) := by
  have hmax : maxPath ≤ maxpathlen := by decide
  have hfar : ¬InArray (l.first.filename, maxpathlen) (l.first.device, 1) := by
    have hapart := separate_device_filename (Statics.separate_first hl)
    simp only [InArray, maxpathlen] at hapart ⊢
    omega
  have hkept := splitFilenameAt_device (Statics.separate_first hl) (Nat.lt_of_lt_of_le hal hmax) (Nat.le_refl _) ha.2.2 m
  have hfirst : copySplitAt l a b m l.first.device ≠ 0 ↔ colon ∈ a ∧ ¬l.Cleared l.first.device := by
    rw [copySplitAt_outside hbl fun array => Statics.device_outside hl]
    by_cases hcleared : l.Cleared l.first.device
    · rw [if_pos hcleared]
      exact ⟨fun h => absurd rfl h, fun h => absurd hcleared h.2⟩
    · rw [if_neg hcleared, hkept]
      exact ⟨fun h => ⟨h.1, hcleared⟩, fun h => ⟨h.1, hfar⟩⟩
  have hsecond : copySplitAt l a b m l.second.device ≠ 0 ↔
      colon ∈ b ∧ ¬InArray (l.second.filename, maxpathlen) (l.second.device, 1) :=
    splitFilenameAt_device (Statics.separate_second hl) hbl hmax hb.2.2 _
  rw [copyRouteAt, buildArgv_pair ha hb]
  simp only [List.getD_cons_zero, List.getD_cons_succ, hfirst, hsecond]
  rw [if_neg (Nat.lt_irrefl 2)]

def CopyRoute.run : CopyRoute → Io Int
  | .fromPs2 => withNetfs copyFrom
  | .toPs2 => withNetfs copyTo
  | _ => pure 0

def Statics.declared : Statics where
  first := ⟨0, maxpathlen, 2 * maxpathlen⟩
  second := ⟨3 * maxpathlen, 3 * maxpathlen + maxPath, 3 * maxpathlen + 2 * maxPath⟩

theorem Statics.declared_separate : Statics.declared.arrays.Pairwise Separate := by
  simp [arrays, SplitBufs.arrays, declared, Separate, maxpathlen, maxPath]

/-- Where the second call reaches no first byte that is read, the way is the one
of `cli_copy` on the strings. -/
theorem cliCopy_route (hl : l.arrays.Pairwise Separate) (ha : IsWord a) (hal : a.length < maxPath) (hb : IsWord b)
    (hbl : b.length < maxPath) (hdevice : ¬l.Cleared l.first.device)
    (hdevice2 : ¬InArray (l.second.filename, maxpathlen) (l.second.device, 1)) (m : Mem) :
    cliCopy (a ++ space :: b) = (copyRouteAt l m (a ++ space :: b)).run := by
  have hmax : maxPath ≤ maxpathlen := by decide
  have hempty {s : List Byte} (hs : s.length < maxPath) : (splitFilename s).1 ≠ [] ↔ colon ∈ s := by
    rw [splitFilename_device (Nat.lt_of_lt_of_le hs hmax)]
    by_cases hc : colon ∈ s <;> simp [hc]
  rw [cliCopy, buildArgv_pair ha hb, copyRouteAt_eq hl ha hal hb hbl]
  simp only [List.getD_cons_zero, List.getD_cons_succ, hempty hal, hempty hbl, hdevice, hdevice2, not_false_eq_true,
    and_true]
  rw [if_neg (Nat.lt_irrefl 2)]
  by_cases hca : colon ∈ a
  · rw [if_pos hca, if_pos hca]
    rfl
  · rw [if_neg hca, if_neg hca]
    by_cases hcb : colon ∈ b
    · rw [if_pos hcb, if_pos hcb]
      rfl
    · rw [if_neg hcb, if_neg hcb]
      rfl

theorem cliCopy_declared (ha : IsWord a) (hal : a.length < maxPath) (hb : IsWord b) (hbl : b.length < maxPath) (m : Mem) :
    cliCopy (a ++ space :: b) = (copyRouteAt .declared m (a ++ space :: b)).run :=
  cliCopy_route Statics.declared_separate ha hal hb hbl (by decide) (by decide) m

/-- Whatever lies next to the second arrays: one of its bytes is cleared. -/
theorem second_clears_outside (l : Statics) (hb : b.length < maxPath) :
    ∃ i, (∀ array ∈ l.second.arrays maxPath, ¬InArray array (i, 1)) ∧ ∀ m, copySplitAt l a b m i = 0 := by
  -- of three bytes 256 apart, `dir2` and `filename2` hold two
  obtain ⟨i, hi, hdir, hfilename⟩ : ∃ i, (l.second.device + maxPath ≤ i ∧ i < l.second.device + maxpathlen) ∧
      ¬InArray (l.second.dir, maxPath) (i, 1) ∧ ¬InArray (l.second.filename, maxPath) (i, 1) := by
    simp only [InArray, maxPath, maxpathlen]
    by_contra hnone
    have h1 := not_exists.mp hnone (l.second.device + 256)
    have h2 := not_exists.mp hnone (l.second.device + 512)
    have h3 := not_exists.mp hnone (l.second.device + 768)
    omega
  have hout : ∀ array ∈ l.second.arrays maxPath, ¬InArray array (i, 1) := by
    intro array harray
    simp only [SplitBufs.arrays, List.mem_cons, List.not_mem_nil, or_false] at harray
    rcases harray with rfl | rfl | rfl
    · exact fun hin => absurd hin.2 (by simp only; omega)
    · exact hdir
    · exact hfilename
  have hcleared : l.Cleared i := ⟨(l.second.device, maxpathlen), List.mem_cons_self, by simp only [InArray]; omega⟩
  exact ⟨i, hout, fun m => by rw [copySplitAt_outside hb hout, if_pos hcleared]⟩

theorem copySplit_never (l : Statics) (m : Mem) (a b : List Byte) : ¬CopySplit l m a b := by
  intro h
  -- the array that `memset` clears does not fit in any of the three
  have hmem : (l.second.device, List.replicate maxpathlen 0) ∈ splitStores l.second b :=
    List.mem_append_left _ List.mem_cons_self
  obtain ⟨array, harray, hle, hend⟩ := h.insideSecond _ hmem
  have hsize : array.2 = maxPath := by
    simp only [SplitBufs.arrays, List.mem_cons, List.not_mem_nil, or_false] at harray
    rcases harray with rfl | rfl | rfl <;> rfl
  rw [hsize, List.length_replicate] at hend
  have hmax : maxPath < maxpathlen := by decide
  simp only at hle hend
  omega

/-- `cp x y`, with something behind `filename2`. -/
theorem copySplit_fails : ¬CopySplit Statics.declared (fun _ => 1) (str "x") (str "y") := by
  intro h
  have hout : ∀ array ∈ Statics.declared.second.arrays maxPath, ¬InArray array (3 * maxpathlen + 3 * maxPath, 1) := by
    decide
  have hkept := h.kept _ hout
  have hfirst : ∀ array ∈ Statics.declared.first.arrays maxpathlen, ¬InArray array (3 * maxpathlen + 3 * maxPath, 1) := by
    decide
  rw [copySplitAt_outside (by decide) hout, if_pos (by decide),
    splitFilenameAt_outside (by decide) (Nat.le_refl _) hfirst, if_neg (by decide)] at hkept
  exact absurd hkept (by decide)

end Route

end Pksh
