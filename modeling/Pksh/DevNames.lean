import Pksh.Shell

/-! What `cli_devlist` prints, and how far it reads behind `devlist`. -/

namespace Pksh

open Wire Traced

/-- The lines printed, each with a number and a name, the offsets from `devlist`
on that are read, and whether the last of them is outside the memory. -/
structure DevWalk where
  printed : List (List Byte × Nat)
  reads : List Nat
  faulted : Bool

/-- The loop over the names. `strlen` reads up to the terminator, or to the end
of the memory. -/
def devWalk (mem : List Byte) : Nat → Nat → Nat → DevWalk
  | 0, _, _ => ⟨[], [], false⟩
  | rounds + 1, i, ptr =>
    let name := (mem.drop ptr).takeWhile (· ≠ 0)
    let reads := List.range' ptr (name.length + 1)
    if mem.length ≤ ptr + name.length then ⟨[], reads, true⟩
    else
      let w := devWalk mem rounds (i + 1) (ptr + name.length + 1)
      ⟨(name, i) :: w.printed, reads ++ w.reads, w.faulted⟩

/-- `for(i = 0; i < numdevs; i++)` -/
def showDevlist (mem : List Byte) (numdevs : Int) : DevWalk := devWalk mem numdevs.toNat 0 0

/-- `cli_devlist` with what it prints. `buffer` is what the array holds before
the request and `beyond` the memory behind it. -/
def cliDevlistShown (buffer beyond : List Byte) : Io (Option DevWalk) := do
  reopenNetfs
  let w ← Prog.get
  if w.ps2NetfsFd < 0 then pure none
  else
    let r ← ps2netfsReqDevlist
    pure (some (showDevlist (r.2.getD buffer ++ beyond) r.1))

/-- The walk stays in the list, comes to its end, and prints the names of a list
that holds as many as are announced. -/
structure DevlistKept (devlist beyond : List Byte) (numdevs : Int) : Prop where
  inside : ∀ p ∈ (showDevlist (devlist ++ beyond) numdevs).reads, p < devlist.length
  ends : (showDevlist (devlist ++ beyond) numdevs).faulted = false
  prints : ∀ names : List (List Byte), (∀ name ∈ names, 0 ∉ name) → names.flatMap (· ++ [0]) <+: devlist →
    numdevs = names.length → (showDevlist (devlist ++ beyond) numdevs).printed = names.zipIdx

section Walk

variable {pre name rest beyond : List Byte}

theorem count_terminated (h0 : 0 ∉ name) : (name ++ 0 :: rest).count 0 = rest.count 0 + 1 := by
  rw [List.count_append, List.count_eq_zero.mpr h0, List.count_cons_self, Nat.zero_add]

theorem devWalk_name (h0 : 0 ∉ name) (rounds i : Nat) :
    devWalk (pre ++ (name ++ 0 :: rest)) (rounds + 1) i pre.length =
      ⟨(name, i) :: (devWalk (pre ++ name ++ [0] ++ rest) rounds (i + 1) (pre ++ name ++ [0]).length).printed,
        List.range' pre.length (name.length + 1) ++
          (devWalk (pre ++ name ++ [0] ++ rest) rounds (i + 1) (pre ++ name ++ [0]).length).reads,
        (devWalk (pre ++ name ++ [0] ++ rest) rounds (i + 1) (pre ++ name ++ [0]).length).faulted⟩ := by
  have hmem : pre ++ (name ++ 0 :: rest) = pre ++ name ++ [0] ++ rest := by simp
  have hlen : ¬ (pre ++ (name ++ 0 :: rest)).length ≤ pre.length + name.length := by
    simp only [List.length_append, List.length_cons]
    omega
  have hptr : pre.length + name.length + 1 = (pre ++ name ++ [0]).length := by simp [Nat.add_assoc]
  rw [devWalk, List.drop_left, takeWhile_ne_append_cons h0, if_neg hlen, hptr, ← hmem]

theorem devWalk_leaves (h0 : 0 ∉ name) (rounds i : Nat) :
    pre.length + name.length ∈ (devWalk (pre ++ (name ++ beyond)) (rounds + 1) i pre.length).reads := by
  have hmem : pre.length + name.length ∈
      List.range' pre.length ((name ++ beyond.takeWhile (· ≠ 0)).length + 1) := by
    rw [List.mem_range'_1, List.length_append]
    omega
  rw [devWalk, List.drop_left, takeWhile_ne_append h0]
  split
  · exact hmem
  · exact List.mem_append_left _ hmem

theorem devWalk_inside_iff (pre list beyond : List Byte) (rounds i : Nat) :
    (∀ p ∈ (devWalk (pre ++ (list ++ beyond)) rounds i pre.length).reads, p < pre.length + list.length) ↔
      rounds ≤ list.count 0 := by
  induction rounds generalizing pre list i with
  | zero => exact iff_of_true (by simp [devWalk]) (Nat.zero_le _)
  | succ rounds ih =>
    by_cases h0 : 0 ∈ list
    · obtain ⟨name, rest, rfl, hn⟩ := List.eq_append_cons_of_mem h0
      have hi := ih (pre ++ name ++ [0]) rest (i + 1)
      have hlen : (pre ++ name ++ [0]).length + rest.length = pre.length + (name ++ 0 :: rest).length := by
        simp only [List.length_append, List.length_cons, List.length_nil]
        omega
      rw [count_terminated hn, Nat.add_le_add_iff_right, ← hi, List.append_assoc name, List.cons_append, devWalk_name hn, hlen]
      refine ⟨fun h p hp => h p (List.mem_append_right _ hp), fun h p hp => ?_⟩
      rcases List.mem_append.mp hp with hp | hp
      · rw [List.mem_range'_1] at hp
        simp only [List.length_append, List.length_cons]
        omega
      · exact h p hp
    · refine iff_of_false (fun h => absurd (h _ (devWalk_leaves h0 rounds i)) (Nat.lt_irrefl _)) fun h => ?_
      rw [List.count_eq_zero.mpr h0] at h
      exact absurd h (Nat.not_succ_le_zero rounds)

theorem devWalk_ends (pre list beyond : List Byte) {rounds : Nat} (i : Nat) (h : rounds ≤ list.count 0) :
    (devWalk (pre ++ (list ++ beyond)) rounds i pre.length).faulted = false := by
  induction rounds generalizing pre list i with
  | zero => rfl
  | succ rounds ih =>
    obtain ⟨name, rest, rfl, hn⟩ := List.eq_append_cons_of_mem (List.count_pos_iff.mp (Nat.lt_of_lt_of_le rounds.succ_pos h))
    rw [count_terminated hn, Nat.add_le_add_iff_right] at h
    rw [List.append_assoc name, List.cons_append, devWalk_name hn]
    exact ih (pre ++ name ++ [0]) rest (i + 1) h

theorem devWalk_names (pre rest : List Byte) {names : List (List Byte)} (h0 : ∀ name ∈ names, 0 ∉ name) (i : Nat) :
    (devWalk (pre ++ (names.flatMap (· ++ [0]) ++ rest)) names.length i pre.length).printed = names.zipIdx i := by
  induction names generalizing pre i with
  | nil => rfl
  | cons name names ih =>
    have hi := ih (pre ++ name ++ [0]) (fun x hx => h0 x (List.mem_cons_of_mem _ hx)) (i + 1)
    have hmem : pre ++ ((name :: names).flatMap (· ++ [0]) ++ rest) =
        pre ++ (name ++ 0 :: (names.flatMap (· ++ [0]) ++ rest)) := by
      simp
    rw [hmem, List.length_cons, devWalk_name (h0 name List.mem_cons_self), hi, List.zipIdx_cons]

end Walk

/-- The walk is safe exactly when the reply announces no more names than its
list has terminators. -/
theorem devlistKept_iff (m : Mem) (beyond : List Byte) :
    DevlistKept (m.slice 14 maxPath) beyond (retval (some m)) ↔ retval (some m) ≤ (m.slice 14 maxPath).count 0 := by
  generalize m.slice 14 maxPath = devlist
  generalize retval (some m) = numdevs
  have hcount : numdevs ≤ devlist.count 0 ↔ numdevs.toNat ≤ devlist.count 0 := by omega
  have hinside := devWalk_inside_iff [] devlist beyond numdevs.toNat 0
  rw [List.length_nil, Nat.zero_add] at hinside
  rw [hcount, ← hinside]
  constructor
  · exact fun h => h.inside
  · refine fun h => ⟨h, devWalk_ends [] devlist beyond 0 (hinside.mp h), ?_⟩
    rintro names h0 ⟨rest, rfl⟩ rfl
    have hn := devWalk_names [] (rest ++ beyond) h0 0
    rw [List.nil_append, ← List.append_assoc] at hn
    exact hn

/-- A reply that announces one name and whose list has no terminator. -/
def unterminatedReply : Mem := fun i => if i < 9 then 0 else if i = 9 then 1 else if i < 14 then 0 else 0x41

theorem devlist_overread : ¬ ∀ (m : Mem) (beyond : List Byte),
    DevlistKept (m.slice 14 maxPath) beyond (retval (some m)) := by
  intro h
  have h0 : 0 ∉ unterminatedReply.slice 14 maxPath := by
    intro hm
    obtain ⟨i, -, hi⟩ := List.mem_map.mp hm
    have hbyte : unterminatedReply (14 + i) = 0x41 := by
      rw [unterminatedReply, if_neg (by omega), if_neg (by omega), if_neg (by omega)]
    rw [hbyte] at hi
    exact absurd hi (by decide)
  have hk := (h unterminatedReply []).inside _ (@devWalk_leaves [] _ [] h0 0 0)
  exact absurd hk (by simp)

theorem cliDevlist_eq (buffer beyond : List Byte) (w : World) :
    cliDevlist.run w = ((cliDevlistShown buffer beyond).run w).andThen fun _ s => ⟨some 0, s, []⟩ := by
  rw [cliDevlist, withNetfs, cliDevlistShown]
  simp only [Prog.run_bind, Result.andThen_assoc]
  congr 1
  funext _ v
  by_cases hv : v.ps2NetfsFd < 0
  · simp [hv]
  · simp [hv, Result.andThen_assoc]
    rfl

/-- What is printed comes from a reply, or there is no reply and nothing is printed. -/
theorem cliDevlistShown_walk {buffer beyond : List Byte} {w : World} {walk : DevWalk}
    (h : ((cliDevlistShown buffer beyond).run w).value = some (some walk)) :
    (∃ m : Mem, walk = showDevlist (m.slice 14 maxPath ++ beyond) (retval (some m))) ∨ walk = ⟨[], [], false⟩ := by
  obtain ⟨-, -, h⟩ := Prog.value_bind h
  obtain ⟨v, -, h⟩ := Prog.value_bind h
  split at h
  · cases h
  · obtain ⟨r, hr, h⟩ := Prog.value_bind h
    obtain ⟨response, -, hv⟩ := Prog.value_bind hr
    cases h
    cases hv
    cases response with
    | none => exact .inr rfl
    | some m => exact .inl ⟨m, rfl⟩

end Pksh
