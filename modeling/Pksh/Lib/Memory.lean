import Pksh.Lib.Bytes
import Pksh.Lib.Pieces

/-! Byte memory addressed from the start of an object, with stores of runs of
bytes and loads of words in host order. -/

namespace Wire

abbrev Mem := Nat → Byte

namespace Mem

def store (m : Mem) (off : Nat) (bs : List Byte) : Mem :=
  fun i => if off ≤ i then (bs[i - off]?).getD (m i) else m i

def slice (m : Mem) (off n : Nat) : List Byte := (List.range n).map (fun i => m (off + i))

def half (m : Mem) (off : Nat) : Half := joinHalf (m (off + 1)) (m off)

def word (m : Mem) (off : Nat) : Word := joinWord (m (off + 3)) (m (off + 2)) (m (off + 1)) (m off)

/-- The string that starts at `off`, read no further than `n` bytes. -/
def cstr (m : Mem) (off n : Nat) : List Byte := (m.slice off n).takeWhile (· ≠ 0)

@[simp] theorem slice_length (m : Mem) (off n : Nat) : (m.slice off n).length = n := by
  simp [slice]

theorem slice_getElem? (m : Mem) {off n i : Nat} (h : i < n) :
    (m.slice off n)[i]? = some (m (off + i)) := by
  simp [slice, h]

theorem slice_add (m : Mem) (off a b : Nat) :
    m.slice off (a + b) = m.slice off a ++ m.slice (off + a) b := by
  apply List.ext_getElem?
  intro i
  by_cases ha : i < a
  · rw [List.getElem?_append_left (by simpa using ha), slice_getElem? m ha, slice_getElem? m (by omega)]
  · rw [List.getElem?_append_right (by simpa using Nat.le_of_not_lt ha), slice_length]
    by_cases hb : i < a + b
    · rw [slice_getElem? m hb, slice_getElem? m (by omega)]
      congr 2
      omega
    · simp [slice, hb, show ¬ i - a < b by omega]

theorem store_of_lt {m : Mem} {off i : Nat} {bs : List Byte} (h : i < off) : m.store off bs i = m i := by
  simp [store, Nat.not_le.mpr h]

theorem store_of_ge {m : Mem} {off i : Nat} {bs : List Byte} (h : off + bs.length ≤ i) :
    m.store off bs i = m i := by
  have : bs[i - off]? = none := List.getElem?_eq_none (by omega)
  simp [store, this]

theorem store_of_mem {m : Mem} {off i : Nat} {bs : List Byte} {b : Byte}
    (h : bs[i]? = some b) : m.store off bs (off + i) = b := by
  simp [store, h]

@[simp] theorem store_nil (m : Mem) (off : Nat) : m.store off [] = m := by
  funext i
  simp [store]

@[simp] theorem slice_store (m : Mem) (off : Nat) (bs : List Byte) :
    (m.store off bs).slice off bs.length = bs := by
  apply List.ext_getElem?
  intro i
  by_cases h : i < bs.length
  · rw [slice_getElem? _ h, store_of_mem (List.getElem?_eq_getElem h), List.getElem?_eq_getElem h]
  · simp [slice, h]

theorem slice_congr {m m' : Mem} {off n : Nat} (h : ∀ i, off ≤ i → i < off + n → m i = m' i) :
    m.slice off n = m'.slice off n := by
  simp only [slice]
  apply List.map_congr_left
  intro i hi
  exact h _ (by omega) (by have := List.mem_range.mp hi; omega)

theorem store_append (m : Mem) (off : Nat) (as bs : List Byte) :
    m.store off (as ++ bs) = (m.store off as).store (off + as.length) bs := by
  funext i
  simp only [store]
  by_cases ha : i - off < as.length
  · rw [List.getElem?_append_left ha]
    rw [if_neg (show ¬off + as.length ≤ i by omega)]
  · rw [List.getElem?_append_right (Nat.le_of_not_lt ha), List.getElem?_eq_none (Nat.le_of_not_lt ha)]
    by_cases hi : off ≤ i
    · rw [if_pos hi, if_pos (by omega), if_pos hi, Nat.sub_sub]
      rfl
    · rw [if_neg hi, if_neg (by omega), if_neg hi]

theorem slice_store_disjoint {m : Mem} {off off' n : Nat} {bs : List Byte}
    (h : off' + n ≤ off ∨ off + bs.length ≤ off') :
    (m.store off bs).slice off' n = m.slice off' n := by
  apply slice_congr
  intro i hi hi'
  rcases h with h | h
  · exact store_of_lt (by omega)
  · exact store_of_ge (by omega)

theorem slice_take (m : Mem) (off : Nat) {n k : Nat} (h : k ≤ n) :
    (m.slice off n).take k = m.slice off k := by
  obtain ⟨j, rfl⟩ := Nat.exists_eq_add_of_le h
  rw [slice_add, List.take_left' (by simp)]

theorem slice_drop (m : Mem) (off : Nat) {n k : Nat} (h : k ≤ n) :
    (m.slice off n).drop k = m.slice (off + k) (n - k) := by
  obtain ⟨j, rfl⟩ := Nat.exists_eq_add_of_le h
  rw [slice_add, List.drop_left' (by simp), Nat.add_sub_cancel_left]

theorem slice_inside {m m' : Mem} {n off k : Nat} (h : m.slice 0 n = m'.slice 0 n) (hk : off + k ≤ n) :
    m.slice off k = m'.slice off k := by
  have hd := congrArg (List.drop off) h
  rw [slice_drop m 0 (by omega), slice_drop m' 0 (by omega), Nat.zero_add] at hd
  have ht := congrArg (List.take k) hd
  rwa [slice_take m off (by omega), slice_take m' off (by omega)] at ht

theorem slice_store_eq (m : Mem) (off : Nat) {n : Nat} {bs : List Byte} (h : bs.length = n) :
    (m.store off bs).slice off n = bs := h ▸ slice_store m off bs

theorem store_take_drop (m : Mem) (bs : List Byte) (a b : Nat) :
    (m.store 0 (bs.take a)).store a ((bs.drop a).take b) = m.store 0 (bs.take (a + b)) := by
  rw [List.take_add, store_append]
  by_cases h : a ≤ bs.length
  · rw [List.length_take, Nat.min_eq_left h, Nat.zero_add]
  · rw [List.drop_of_length_le (Nat.le_of_not_le h), List.take_nil, store_nil, store_nil]

theorem slice_store_of_le {m : Mem} {off n : Nat} {bs : List Byte} (h : n ≤ bs.length) :
    (m.store off bs).slice off n = bs.take n := by
  rw [← slice_take _ off h, slice_store]

theorem slice_store_mid {m : Mem} {off n : Nat} {as bs bs' cs : List Byte} (h : m.slice off n = as ++ bs ++ cs)
    (hl : bs'.length = bs.length) : (m.store (off + as.length) bs').slice off n = as ++ bs' ++ cs := by
  have hn : n = as.length + bs.length + cs.length := by
    have hlen := congrArg List.length h
    simp only [slice_length, List.length_append] at hlen
    exact hlen
  subst hn
  rw [slice_add, slice_add] at h ⊢
  obtain ⟨hab, hc⟩ := List.append_inj h (by simp)
  obtain ⟨ha, _⟩ := List.append_inj hab (by simp)
  have hleft : (m.store (off + as.length) bs').slice off as.length = as :=
    (slice_store_disjoint (.inl (Nat.le_refl _))).trans ha
  have hright : (m.store (off + as.length) bs').slice (off + (as.length + bs.length)) cs.length = cs :=
    (slice_store_disjoint (.inr (by omega))).trans hc
  rw [hleft, slice_store_eq m _ hl, hright]

theorem store_zero_of_lt (m : Mem) {i : Nat} {bs : List Byte} (h : i < bs.length) : m.store 0 bs i = bs[i] := by
  simp [store, h]

theorem store_congr (m m' : Mem) {i : Nat} {bs : List Byte} (h : i < bs.length) : m.store 0 bs i = m'.store 0 bs i := by
  rw [store_zero_of_lt m h, store_zero_of_lt m' h]

theorem slice_store_drop (m : Mem) (bs : List Byte) {off : Nat} (h : off ≤ bs.length) :
    (m.store 0 bs).slice off (bs.length - off) = bs.drop off := by
  have hd := slice_drop (m.store 0 bs) 0 h
  rw [slice_store, Nat.zero_add] at hd
  exact hd.symm

theorem takeWhile_dropWhile {β : Type} (p : β → Bool) (l : List β) : (l.dropWhile p).takeWhile p = [] := by
  induction l with
  | nil => rfl
  | cons b l ih =>
    cases hb : p b with
    | true => rw [List.dropWhile_cons_of_pos hb, ih]
    | false =>
      rw [List.dropWhile_cons_of_neg (by simp [hb]), List.takeWhile_cons_of_neg (by simp [hb])]

theorem takeWhile_append_of_mem {β : Type} {p : β → Bool} {l l' : List β} {b : β} (hb : b ∈ l) (hp : p b = false) :
    (l ++ l').takeWhile p = l.takeWhile p := by
  induction l with
  | nil => cases hb
  | cons x l ih =>
    cases hx : p x with
    | false => rw [List.cons_append, List.takeWhile_cons_of_neg (by simp [hx]), List.takeWhile_cons_of_neg (by simp [hx])]
    | true =>
      have hl : b ∈ l := (List.mem_cons.mp hb).resolve_left (by rintro rfl; rw [hp] at hx; cases hx)
      rw [List.cons_append, List.takeWhile_cons_of_pos hx, List.takeWhile_cons_of_pos hx, ih hl]

theorem cstr_store {m : Mem} {off n : Nat} {bs : List Byte} (h : bs.length = (m.cstr off n).length)
    (h0 : ∀ b ∈ bs, b ≠ 0) : (m.store off bs).cstr off n = bs := by
  have hsplit := List.takeWhile_append_dropWhile (p := (· ≠ (0 : Byte))) (l := m.slice off n)
  have hk : bs.length ≤ n := by
    have := congrArg List.length hsplit
    rw [List.length_append, slice_length, ← cstr, ← h] at this
    omega
  have hrest : m.slice (off + bs.length) (n - bs.length) = (m.slice off n).dropWhile (· ≠ 0) := by
    have hd := congrArg (List.drop (m.cstr off n).length) hsplit
    rw [← cstr, List.drop_left] at hd
    rw [← slice_drop m off hk, h, ← hd]
  have hs : (m.store off bs).slice off n = bs ++ (m.slice off n).dropWhile (· ≠ 0) := by
    conv => lhs; rw [← Nat.add_sub_cancel' hk]
    rw [slice_add, slice_store, slice_store_disjoint (.inr (Nat.le_refl _)), hrest]
  rw [cstr, hs, List.takeWhile_append_of_pos (by simpa using h0), takeWhile_dropWhile, List.append_nil]

theorem cstr_of_slice {m : Mem} {off n : Nat} {s rest : List Byte} (h : m.slice off n = s ++ 0 :: rest) (h0 : 0 ∉ s) :
    m.cstr off n = s := by
  rw [cstr, h, takeWhile_ne_append_cons h0]

theorem takeWhile_drop {β : Type} {p : β → Bool} {l : List β} {k : Nat} (h : k ≤ (l.takeWhile p).length) :
    (l.drop k).takeWhile p = (l.takeWhile p).drop k := by
  induction k generalizing l with
  | zero => rfl
  | succ k ih =>
    cases l with
    | nil => rfl
    | cons b l =>
      by_cases hb : p b = true
      · rw [List.takeWhile_cons_of_pos hb] at h ⊢
        exact ih (Nat.le_of_succ_le_succ h)
      · rw [List.takeWhile_cons_of_neg hb] at h
        cases h

theorem cstr_drop {m : Mem} {off n k : Nat} (h : k ≤ (m.cstr off n).length) :
    m.cstr (off + k) (n - k) = (m.cstr off n).drop k := by
  have hk : k ≤ n := h.trans ((List.takeWhile_prefix _).length_le.trans_eq (slice_length m off n))
  rw [cstr, ← slice_drop m off hk]
  exact takeWhile_drop h

theorem ne_zero_of_mem_cstr {m : Mem} {off n : Nat} {b : Byte} (h : b ∈ m.cstr off n) : b ≠ 0 := by
  simpa using List.mem_takeWhile_imp h

theorem cstr_succ {m : Mem} {off n : Nat} (h : m off ≠ 0) : m.cstr off (n + 1) = m off :: m.cstr (off + 1) n := by
  have h1 : m.slice off 1 = [m off] := rfl
  rw [cstr, Nat.add_comm n 1, slice_add, h1, List.singleton_append, List.takeWhile_cons_of_pos (by simpa using h)]
  rfl

theorem cstr_eq_nil_iff {m : Mem} {off n : Nat} (hn : 0 < n) : m.cstr off n = [] ↔ m off = 0 := by
  obtain ⟨k, rfl⟩ := Nat.exists_eq_add_of_le hn
  have h1 : m.slice off 1 = [m off] := rfl
  rw [cstr, slice_add, h1]
  by_cases h : m off = 0 <;> simp [h]

/-- A struct is filled in field by field: an offset and the bytes for it. -/
def stores (m : Mem) (fields : List (Nat × List Byte)) : Mem := fields.foldl (fun m f => m.store f.1 f.2) m

theorem slice_stores_disjoint {m : Mem} {off n : Nat} {fields : List (Nat × List Byte)}
    (h : ∀ f ∈ fields, off + n ≤ f.1) : (m.stores fields).slice off n = m.slice off n := by
  induction fields generalizing m with
  | nil => rfl
  | cons f fields ih =>
    rw [stores, List.foldl_cons, ← stores, ih fun g hg => h g (List.mem_cons_of_mem _ hg)]
    exact slice_store_disjoint (.inl (h f List.mem_cons_self))

/-- Every field of a struct whose fields lie in order holds what was put there. -/
theorem slice_stores {m : Mem} {fields : List (Nat × List Byte)} {f : Nat × List Byte}
    (h : fields.Pairwise fun f g => f.1 + f.2.length ≤ g.1) (hf : f ∈ fields) :
    (m.stores fields).slice f.1 f.2.length = f.2 := by
  induction fields generalizing m with
  | nil => cases hf
  | cons g fields ih =>
    rw [stores, List.foldl_cons, ← stores]
    rcases List.mem_cons.mp hf with rfl | hf
    · rw [slice_stores_disjoint fun g hg => List.rel_of_pairwise_cons h hg, slice_store]
    · exact ih h.of_cons hf

/-- Some field lies over the byte at `i`. -/
def Covered (fields : List (Nat × List Byte)) (i : Nat) : Prop := ∃ f ∈ fields, f.1 ≤ i ∧ i < f.1 + f.2.length

theorem stores_of_not_covered {m : Mem} {fields : List (Nat × List Byte)} {i : Nat} (h : ¬Covered fields i) :
    m.stores fields i = m i := by
  induction fields generalizing m with
  | nil => rfl
  | cons f fields ih =>
    rw [stores, List.foldl_cons, ← stores, ih fun ⟨g, hg, hi⟩ => h ⟨g, List.mem_cons_of_mem _ hg, hi⟩]
    by_cases hf : i < f.1
    · exact store_of_lt hf
    · refine store_of_ge (Nat.le_of_not_lt fun hlt => h ⟨f, List.mem_cons_self, ?_⟩)
      exact ⟨Nat.le_of_not_lt hf, hlt⟩

theorem stores_cleared {m : Mem} {fields : List (Nat × List Byte)} {i : Nat}
    (h : ∀ f ∈ fields, f.1 ≤ i → ∀ b, f.2[i - f.1]? = some b → b = 0) (hc : Covered fields i) :
    m.stores fields i = 0 := by
  induction fields generalizing m with
  | nil => obtain ⟨f, hf, _⟩ := hc; cases hf
  | cons f fields ih =>
    rw [stores, List.foldl_cons, ← stores]
    by_cases hrest : Covered fields i
    · exact ih (fun g hg => h g (List.mem_cons_of_mem _ hg)) hrest
    · obtain ⟨g, hg, hle, hlt⟩ := hc
      obtain rfl : g = f := (List.mem_cons.mp hg).resolve_right fun hg => hrest ⟨g, hg, hle, hlt⟩
      have hb := List.getElem?_eq_getElem (l := g.2) (i := i - g.1) (by omega)
      have hput : m.store g.1 g.2 i = g.2[i - g.1] := by
        rw [store, if_pos hle, hb, Option.getD_some]
      rw [stores_of_not_covered hrest, hput]
      exact h g List.mem_cons_self hle _ hb

theorem slice_stores_amid {m : Mem} {front back : List (Nat × List Byte)} {f : Nat × List Byte} {off n : Nat}
    (hf : ∀ g ∈ front, g.1 + g.2.length ≤ off) (hb : ∀ g ∈ back, off + n ≤ g.1) :
    (m.stores (front ++ f :: back)).slice off n = (m.store f.1 f.2).slice off n := by
  have happ : m.stores (front ++ f :: back) = ((m.stores front).store f.1 f.2).stores back := by
    simp [stores, List.foldl_append]
  rw [happ, slice_stores_disjoint hb]
  refine slice_congr fun i hi _ => ?_
  have hfront : m.stores front i = m i := by
    refine stores_of_not_covered ?_
    rintro ⟨g, hg, -, hlt⟩
    exact absurd hlt (Nat.not_lt.mpr ((hf g hg).trans hi))
  rw [store, store, hfront]

theorem stores_of_covered {m m' : Mem} {fields : List (Nat × List Byte)} {i : Nat} (h : Covered fields i ∨ m i = m' i) :
    m.stores fields i = m'.stores fields i := by
  induction fields generalizing m m' with
  | nil => exact h.resolve_left fun ⟨f, hf, _⟩ => nomatch hf
  | cons f fields ih =>
    rw [stores, stores, List.foldl_cons, List.foldl_cons, ← stores, ← stores]
    refine ih ?_
    by_cases hf : f.1 ≤ i ∧ i < f.1 + f.2.length
    · have hlt : i - f.1 < f.2.length := by omega
      exact .inr (by simp [store, hf.1, hlt])
    · rcases h with ⟨g, hg, hi⟩ | h
      · rcases List.mem_cons.mp hg with rfl | hg
        · exact absurd hi hf
        · exact .inl ⟨g, hg, hi⟩
      · exact .inr (by simp [store, h])

theorem slice_stores_congr {m m' : Mem} {fields : List (Nat × List Byte)} {n : Nat} (h : ∀ i < n, Covered fields i) :
    (m.stores fields).slice 0 n = (m'.stores fields).slice 0 n :=
  slice_congr fun i _ hi => stores_of_covered (.inl (h i (by omega)))

/-- The fields lie side by side from `off` to `n`. -/
def Tiles (n : Nat) : Nat → List (Nat × List Byte) → Prop
  | off, [] => off = n
  | off, f :: fields => f.1 = off ∧ Tiles n (off + f.2.length) fields

theorem Tiles.covered {n off i : Nat} {fields : List (Nat × List Byte)} (h : Tiles n off fields) (ho : off ≤ i)
    (hi : i < n) : Covered fields i := by
  induction fields generalizing off with
  | nil => exact absurd hi (by rw [show n = off from h.symm]; omega)
  | cons f fields ih =>
    obtain ⟨hf, ht⟩ := h
    by_cases hlt : i < off + f.2.length
    · exact ⟨f, List.mem_cons_self, hf ▸ ho, hf ▸ hlt⟩
    · obtain ⟨g, hg, hgi⟩ := ih ht (Nat.le_of_not_lt hlt)
      exact ⟨g, List.mem_cons_of_mem _ hg, hgi⟩

theorem Tiles.le {n off : Nat} {fields : List (Nat × List Byte)} (h : Tiles n off fields) : off ≤ n := by
  induction fields generalizing off with
  | nil => exact Nat.le_of_eq h
  | cons f fields ih => exact Nat.le_trans (Nat.le_add_right off f.2.length) (ih h.2)

theorem Tiles.ge {n off : Nat} {fields : List (Nat × List Byte)} (h : Tiles n off fields) :
    ∀ f ∈ fields, off ≤ f.1 := by
  induction fields generalizing off with
  | nil => exact fun _ hf => nomatch hf
  | cons f fields ih =>
    intro g hg
    rcases List.mem_cons.mp hg with rfl | hg
    · exact Nat.le_of_eq h.1.symm
    · exact Nat.le_trans (Nat.le_add_right off f.2.length) (ih h.2 g hg)

theorem Tiles.ordered {n off : Nat} {fields : List (Nat × List Byte)} (h : Tiles n off fields) :
    fields.Pairwise fun f g => f.1 + f.2.length ≤ g.1 := by
  induction fields generalizing off with
  | nil => exact .nil
  | cons f fields ih => exact .cons (fun g hg => h.1 ▸ h.2.ge g hg) (ih h.2)

theorem Tiles.slice {n off : Nat} {fields : List (Nat × List Byte)} (h : Tiles n off fields) (m : Mem) :
    (m.stores fields).slice off (n - off) = fields.flatMap Prod.snd := by
  induction fields generalizing off m with
  | nil =>
    rw [show off = n from h, Nat.sub_self]
    rfl
  | cons f fields ih =>
    obtain ⟨hf, ht⟩ := h
    have hle := ht.le
    have hn : n - off = f.2.length + (n - (off + f.2.length)) := by omega
    rw [hn, slice_add, stores, List.foldl_cons, ← stores, ih ht, List.flatMap_cons, slice_stores_disjoint ht.ge, ← hf,
      slice_store]

theorem ntohl_word (m : Mem) (off : Nat) : ntohl (m.word off) = ofBe32 (m.slice off 4) := by
  rw [ntohl, word, htonl_joinWord]
  simp [ofBe32, slice]

theorem ntohs_half (m : Mem) (off : Nat) : ntohs (m.half off) = ofBe16 (m.slice off 2) := by
  rw [ntohs, half, htons_joinHalf]
  simp [ofBe16, slice]

theorem ntohl_word_eq_iff {m : Mem} {off : Nat} {w : Word} : ntohl (m.word off) = w ↔ m.slice off 4 = be32 w := by
  rw [ntohl_word, ofBe32_eq_iff (slice_length m off 4)]

theorem ntohs_half_toNat (m : Mem) (off : Nat) :
    (ntohs (m.half off)).toNat = 256 * (m off).toNat + (m (off + 1)).toNat := by
  rw [ntohs, half, htons_joinHalf, joinHalf_toNat]

end Mem

end Wire
