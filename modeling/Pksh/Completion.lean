import Pksh.Argv
import Pksh.HostPaths

/-! `filename_completion_ignore`, which thins out the names readline has found. -/

namespace Pksh

open Wire

def acceptSuffixLoop : List (List Byte) → List Byte → Int
  | [], _ => 1
  | dir :: next, name => if (strstr dir name).isSome then 0 else acceptSuffixLoop next name

/-- `accept_suffix`, which returns 0 for a name that is accepted. -/
def acceptSuffix (suffixList : List (List Byte)) (name : List Byte) : Int :=
  if suffixList = [] then 0 else acceptSuffixLoop suffixList name

def isDir (stat : List Byte → Bool × Stat) (name : List Byte) : Int :=
  let r := stat name
  if r.1 then (if isDirMode r.2.mode then 1 else 0) else 0

/-- What a call reads and does not change: the strings on the heap, the suffixes
and the file system. -/
structure Surroundings where
  text : Nat → List Byte
  suffixList : List (List Byte)
  stat : List Byte → Bool × Stat

/-- The array of names, the array that is taken for the time of a call, and what
was freed. -/
structure Matches where
  names : List Ptr
  newnames : Option (List Ptr)
  freed : List Ptr

namespace Matches

/-- `newnames[i] = p`; there is no result where the array is too short. -/
def setNew (s : Matches) (i : Nat) (p : Ptr) : Option Matches := do
  let slots ← s.newnames
  if i < slots.length then some { s with newnames := some (slots.set i p) } else none

/-- `names[i] = p` -/
def setName (s : Matches) (i : Nat) (p : Ptr) : Option Matches :=
  if i < s.names.length then some { s with names := s.names.set i p } else none

/-- `free(p)`; there is no result for a string that was freed before. -/
def free (s : Matches) : Ptr → Option Matches
  | .null => some s
  | .block id => if .block id ∈ s.freed then none else some { s with freed := s.freed ++ [.block id] }
  | .other _ => none

def freeNew (s : Matches) : Option Matches := s.newnames.map fun _ => { s with newnames := none }

def string (s : Matches) (e : Surroundings) : Ptr → Option (List Byte)
  | .block id => if .block id ∈ s.freed then none else some (e.text id)
  | _ => none

/-- The array as it is read, up to the first `NULL`. -/
def array (s : Matches) : List Ptr := s.names.takeWhile (· ≠ .null)

end Matches

/-- `for (nidx = 1; names[nidx]; nidx++) ;` -/
def countNames (s : Matches) : Nat → Nat → Option Nat
  | 0, _ => none
  | turns + 1, nidx => do
    let p ← s.names[nidx]?
    if p = .null then some nidx else countNames s turns (nidx + 1)

def keepNames (e : Surroundings) : Nat → Nat → Nat → Matches → Option (Nat × Matches)
  | 0, _, _, _ => none
  | turns + 1, idx, nidx, s => do
    let p ← s.names[idx]?
    if p = .null then some (nidx, s)
    else
      let name ← s.string e p
      if acceptSuffix e.suffixList name = 0 then
        let s ← s.setNew nidx p
        keepNames e turns (idx + 1) (nidx + 1) s
      else if isDir e.stat name = 1 then
        let s ← s.setNew nidx p
        keepNames e turns (idx + 1) (nidx + 1) s
      else
        let s ← s.free p
        keepNames e turns (idx + 1) nidx s

def copyBack : Nat → Nat → Matches → Option (Nat × Matches)
  | 0, _, _ => none
  | turns + 1, nidx, s => do
    let slots ← s.newnames
    let p ← slots[nidx]?
    if p = .null then some (nidx, s)
    else
      let s ← s.setName nidx p
      copyBack turns (nidx + 1) s

/-- What is done with the new array, which has its end at `nidx`. -/
def giveBack (turns nidx : Nat) (s : Matches) : Option (Int × Matches) :=
  if nidx = 1 then do
    let common ← s.names[0]?
    let s ← s.free common
    let s ← s.setName 0 .null
    let s ← s.freeNew
    some (-1, s)
  else if nidx = 2 then do
    let common ← s.names[0]?
    let s ← s.free common
    let slots ← s.newnames
    let only ← slots[1]?
    let s ← s.setName 0 only
    let s ← s.setName 1 .null
    let s ← s.freeNew
    some (-1, s)
  else do
    let copied ← copyBack turns 1 s
    let s ← copied.2.setName copied.1 .null
    let s ← s.freeNew
    some (0, s)

/-- `filename_completion_ignore` with at most `turns` turns of each loop; `junk`
is what the array from `malloc` holds. -/
def filenameCompletionIgnore (e : Surroundings) (junk : Nat → Ptr) (turns : Nat) (s : Matches) : Option (Int × Matches) := do
  let second ← s.names[1]?
  if second = .null then some (-1, s)
  else
    let size ← countNames s turns 1
    let s := { s with newnames := some ((List.range (size + 1)).map junk) }
    let common ← s.names[0]?
    let s ← s.setNew 0 common
    let kept ← keepNames e turns 1 1 s
    let s ← kept.2.setNew kept.1 .null
    giveBack turns kept.1 s

/-- A name stays if it is accepted or is a directory. -/
def Surroundings.keeps (e : Surroundings) (id : Nat) : Bool :=
  acceptSuffix e.suffixList (e.text id) = 0 || isDir e.stat (e.text id) = 1

/-- The array for a prefix and the candidates that stay. -/
def thinned (pre : Nat) : List Nat → List Ptr
  | [] => []
  | [only] => [.block only]
  | kept => (pre :: kept).map .block

/-- What is promised of an array with a prefix and candidates behind it. -/
structure Thinned (e : Surroundings) (pre : Nat) (candidates : List Nat) (s : Matches) : Prop where
  array : s.array = thinned pre (candidates.filter e.keeps)
  terminated : .null ∈ s.names
  owned : ∀ id ∈ pre :: candidates, s.array.count (.block id) + s.freed.count (.block id) = 1
  released : s.newnames = none

section Suffixes

theorem acceptSuffix_iff (suffixList : List (List Byte)) (name : List Byte) :
    acceptSuffix suffixList name = 0 ↔ suffixList = [] ∨ ∃ dir ∈ suffixList, dir <:+: name := by
  have hloop (l : List (List Byte)) : acceptSuffixLoop l name = 0 ↔ ∃ dir ∈ l, dir <:+: name := by
    induction l with
    | nil => simp [acceptSuffixLoop]
    | cons dir next ih =>
      rw [acceptSuffixLoop, List.exists_mem_cons_iff, ← strstr_isSome_iff]
      by_cases h : (strstr dir name).isSome
      · simp [h]
      · rw [if_neg h, ih]
        simp [h]
  rw [acceptSuffix]
  by_cases h : suffixList = []
  · simp [h]
  · rw [if_neg h, hloop]
    simp [h]

end Suffixes

section Slots

variable {rest : List Ptr} {p q : Ptr} {s : Matches} {i : Nat}

theorem slot_at {l front : List Ptr} (hl : l = front ++ p :: rest) (hi : i = front.length) : l[i]? = some p := by
  rw [hl, hi, List.getElem?_append_right (Nat.le_refl _), Nat.sub_self]
  rfl

theorem set_at {l front : List Ptr} (hl : l = front ++ p :: rest) (hi : i = front.length) :
    i < l.length ∧ l.set i q = front ++ q :: rest := by
  rw [hl, hi, List.set_append_right _ _ (Nat.le_refl _), Nat.sub_self, List.length_append, List.length_cons]
  exact ⟨by omega, rfl⟩

theorem setNew_at (front : List Ptr) (hs : s.newnames = some (front ++ p :: rest)) (hi : i = front.length) :
    s.setNew i q = some { s with newnames := some (front ++ q :: rest) } := by
  obtain ⟨hlt, hset⟩ := set_at (l := front ++ p :: rest) (q := q) rfl hi
  simp only [Matches.setNew, hs, Option.bind_eq_bind, Option.bind_some, if_pos hlt, hset]

theorem setName_at (front : List Ptr) (hs : s.names = front ++ p :: rest) (hi : i = front.length) :
    s.setName i q = some { s with names := front ++ q :: rest } := by
  obtain ⟨hlt, hset⟩ := set_at (q := q) hs hi
  rw [Matches.setName, if_pos hlt, hset]

theorem free_block {id : Nat} (h : .block id ∉ s.freed) :
    s.free (.block id) = some { s with freed := s.freed ++ [.block id] } := if_neg h

end Slots

section Loops

variable {e : Surroundings} {turns idx nidx : Nat} {cs : List Nat} {rest : List Ptr}

theorem countNames_run {s : Matches} (front : List Ptr) (hn : s.names = front ++ (cs.map .block ++ .null :: rest))
    (hi : nidx = front.length) (ht : cs.length < turns) : countNames s turns nidx = some (nidx + cs.length) := by
  induction cs generalizing front nidx turns with
  | nil =>
    obtain ⟨turns, rfl⟩ := Nat.exists_eq_add_one_of_ne_zero (Nat.ne_zero_of_lt ht)
    rw [countNames, slot_at hn hi]
    rfl
  | cons c cs ih =>
    obtain ⟨turns, rfl⟩ := Nat.exists_eq_add_one_of_ne_zero (Nat.ne_zero_of_lt ht)
    have hrest : countNames s turns (nidx + 1) = some (nidx + 1 + cs.length) := by
      refine ih (front ++ [.block c]) ?_ ?_ (Nat.lt_of_succ_lt_succ ht)
      · rw [hn, ← List.append_cons]
        rfl
      · rw [hi, List.length_append, List.length_singleton]
    rw [countNames, slot_at hn hi]
    simp only [Option.bind_eq_bind, Option.bind_some, reduceCtorEq, if_false, hrest, List.length_cons]
    congr 1
    omega

theorem keepNames_step {s : Matches} {c : Nat} (hp : s.names[idx]? = some (.block c)) (hfresh : .block c ∉ s.freed) :
    keepNames e (turns + 1) idx nidx s =
      if e.keeps c then (s.setNew nidx (.block c)).bind (keepNames e turns (idx + 1) (nidx + 1))
      else (s.free (.block c)).bind (keepNames e turns (idx + 1) nidx) := by
  have hstring : s.string e (.block c) = some (e.text c) := if_neg hfresh
  rw [keepNames, hp]
  simp only [Option.bind_eq_bind, Option.bind_some, reduceCtorEq, if_false, hstring, Surroundings.keeps,
    Bool.or_eq_true, decide_eq_true_eq]
  by_cases ha : acceptSuffix e.suffixList (e.text c) = 0
  · rw [if_pos ha, if_pos (.inl ha)]
  · by_cases hd : isDir e.stat (e.text c) = 1
    · rw [if_neg ha, if_pos hd, if_pos (.inr hd)]
    · rw [if_neg ha, if_neg hd, if_neg (not_or.mpr ⟨ha, hd⟩)]

/-- The candidates that stay go to the new array, in order; the others are freed. -/
theorem keepNames_run (s : Matches) (front head slack : List Ptr) (hn : s.names = front ++ (cs.map .block ++ .null :: rest))
    (hi : idx = front.length) (hs : s.newnames = some (head ++ slack)) (hj : nidx = head.length) (hd : cs.Nodup)
    (hfresh : ∀ c ∈ cs, .block c ∉ s.freed) (hroom : cs.length < slack.length) (ht : cs.length < turns) :
    keepNames e turns idx nidx s = some (nidx + (cs.filter e.keeps).length,
      { s with
        newnames := some (head ++ ((cs.filter e.keeps).map .block ++ slack.drop (cs.filter e.keeps).length))
        freed := s.freed ++ (cs.filter fun c => !e.keeps c).map .block }) := by
  induction cs generalizing s front head slack idx nidx turns with
  | nil =>
    obtain ⟨turns, rfl⟩ := Nat.exists_eq_add_one_of_ne_zero (Nat.ne_zero_of_lt ht)
    rw [keepNames, slot_at hn hi]
    simp [← hs]
  | cons c cs ih =>
    obtain ⟨turns, rfl⟩ := Nat.exists_eq_add_one_of_ne_zero (Nat.ne_zero_of_lt ht)
    obtain ⟨hc, hd⟩ := List.nodup_cons.mp hd
    obtain ⟨x, slack, rfl⟩ := List.exists_cons_of_length_pos (Nat.zero_lt_of_lt hroom)
    rw [List.length_cons, List.length_cons] at hroom
    have hnames : s.names = (front ++ [.block c]) ++ (cs.map .block ++ .null :: rest) := by
      rw [hn, ← List.append_cons]
      rfl
    have hidx : idx + 1 = (front ++ [Ptr.block c]).length := by rw [hi, List.length_append, List.length_singleton]
    have hothers : ∀ c' ∈ cs, .block c' ∉ s.freed := fun c' hc' => hfresh c' (List.mem_cons_of_mem _ hc')
    have hturns : cs.length < turns := Nat.lt_of_succ_lt_succ ht
    rw [keepNames_step (slot_at hn hi) (hfresh c List.mem_cons_self)]
    by_cases hk : e.keeps c = true
    · have hnidx : nidx + 1 = (head ++ [Ptr.block c]).length := by rw [hj, List.length_append, List.length_singleton]
      have hrest := ih { s with newnames := some (head ++ .block c :: slack) } (front ++ [.block c]) (head ++ [.block c])
        slack hnames hidx (by rw [← List.append_cons]) hnidx hd hothers (by omega) hturns
      rw [if_pos hk, setNew_at head hs hj, Option.bind_some, hrest]
      simp [hk]
      omega
    · have hfreed : ∀ c' ∈ cs, .block c' ∉ s.freed ++ [.block c] := by
        intro c' hc' hm
        rcases List.mem_append.mp hm with hm | hm
        · exact hothers c' hc' hm
        · obtain rfl : c' = c := by simpa using hm
          exact hc hc'
      have hrest := ih { s with freed := s.freed ++ [.block c] } (front ++ [.block c]) head (x :: slack) hnames hidx hs hj
        hd hfreed (by rw [List.length_cons]; omega) hturns
      rw [if_neg hk, free_block (hfresh c List.mem_cons_self), Option.bind_some, hrest]
      simp [hk]

theorem copyBack_step {s : Matches} {slots : List Ptr} {p : Ptr} (hs : s.newnames = some slots)
    (hp : slots[nidx]? = some p) : copyBack (turns + 1) nidx s =
      if p = .null then some (nidx, s) else (s.setName nidx p).bind (copyBack turns (nidx + 1)) := by
  simp only [copyBack, hs, hp, Option.bind_eq_bind, Option.bind_some]

theorem copyBack_run (s : Matches) (head front old : List Ptr)
    (hs : s.newnames = some (head ++ (cs.map .block ++ .null :: rest))) (hj : nidx = head.length)
    (hn : s.names = front ++ old) (hi : nidx = front.length) (hroom : cs.length < old.length) (ht : cs.length < turns) :
    copyBack turns nidx s =
      some (nidx + cs.length, { s with names := front ++ (cs.map .block ++ old.drop cs.length) }) := by
  induction cs generalizing s head front old nidx turns with
  | nil =>
    obtain ⟨turns, rfl⟩ := Nat.exists_eq_add_one_of_ne_zero (Nat.ne_zero_of_lt ht)
    have hsame : { s with names := front ++ old } = s := by rw [← hn]
    rw [copyBack_step hs (slot_at rfl hj), if_pos rfl]
    exact congrArg (fun s' => some (nidx, s')) hsame.symm
  | cons c cs ih =>
    obtain ⟨turns, rfl⟩ := Nat.exists_eq_add_one_of_ne_zero (Nat.ne_zero_of_lt ht)
    obtain ⟨x, old, rfl⟩ := List.exists_cons_of_length_pos (Nat.zero_lt_of_lt hroom)
    rw [List.length_cons, List.length_cons] at hroom
    have hslots : s.newnames = some ((head ++ [.block c]) ++ (cs.map .block ++ .null :: rest)) := by
      rw [hs, ← List.append_cons]
      rfl
    have hnidx : nidx + 1 = (head ++ [Ptr.block c]).length := by rw [hj, List.length_append, List.length_singleton]
    have hfront : nidx + 1 = (front ++ [Ptr.block c]).length := by rw [hi, List.length_append, List.length_singleton]
    have hrest := ih { s with names := front ++ .block c :: old } (head ++ [.block c]) (front ++ [.block c]) old hslots
      hnidx (by rw [← List.append_cons]) hfront (by omega) (Nat.lt_of_succ_lt_succ ht)
    rw [copyBack_step hs (slot_at rfl hj), if_neg nofun, setName_at front hn hi, Option.bind_some, hrest]
    simp
    omega

end Loops

section Owners

variable {pre : Nat} {cs : List Nat} {array freed : List Ptr}

theorem null_not_mem (ids : List Nat) : Ptr.null ∉ ids.map .block := by
  intro h
  obtain ⟨id, -, hid⟩ := List.mem_map.mp h
  cases hid

theorem array_eq {s : Matches} {ids : List Nat} {rest : List Ptr} (h : s.names = ids.map .block ++ .null :: rest) :
    s.array = ids.map .block := by
  rw [Matches.array, h]
  exact takeWhile_ne_append_cons (null_not_mem ids) rest

theorem owned_once (hp : (array ++ freed).Perm ((pre :: cs).map .block)) (hd : (pre :: cs).Nodup) {id : Nat}
    (hid : id ∈ pre :: cs) : array.count (.block id) + freed.count (.block id) = 1 := by
  have hinj : Function.Injective Ptr.block := fun _ _ h => Ptr.block.inj h
  rw [← List.count_append, hp.count_eq]
  exact List.count_eq_one_of_mem (hd.map hinj) (List.mem_map_of_mem hid)

theorem kept_dropped_perm (p : Nat → Bool) (cs : List Nat) :
    ((cs.filter p).map Ptr.block ++ (cs.filter fun c => !p c).map Ptr.block).Perm (cs.map Ptr.block) := by
  rw [← List.map_append]
  exact (List.filter_append_perm p cs).map _

end Owners

section Call

variable {e : Surroundings} {pre : Nat} {cs : List Nat} {turns : Nat} {rest slack freed : List Ptr}

theorem giveBack_none (hpre : .block pre ∉ freed) :
    giveBack turns 1 ⟨.block pre :: rest, some (.block pre :: .null :: slack), freed⟩ =
      some (-1, ⟨.null :: rest, none, freed ++ [.block pre]⟩) := by
  have hfree : Matches.free ⟨.block pre :: rest, some (.block pre :: .null :: slack), freed⟩ (.block pre) =
      some ⟨.block pre :: rest, some (.block pre :: .null :: slack), freed ++ [.block pre]⟩ := free_block hpre
  have hname : Matches.setName ⟨.block pre :: rest, some (.block pre :: .null :: slack), freed ++ [.block pre]⟩ 0 .null =
      some ⟨.null :: rest, some (.block pre :: .null :: slack), freed ++ [.block pre]⟩ := setName_at [] rfl rfl
  rw [giveBack, if_pos rfl]
  simp only [List.getElem?_cons_zero, Option.bind_eq_bind, Option.bind_some, hfree, hname]
  rfl

theorem giveBack_one {p : Ptr} {only : Nat} (hpre : .block pre ∉ freed) :
    giveBack turns 2 ⟨.block pre :: p :: rest, some (.block pre :: .block only :: .null :: slack), freed⟩ =
      some (-1, ⟨.block only :: .null :: rest, none, freed ++ [.block pre]⟩) := by
  generalize hslots : Ptr.block pre :: .block only :: .null :: slack = slots
  have hfree : Matches.free ⟨.block pre :: p :: rest, some slots, freed⟩ (.block pre) =
      some ⟨.block pre :: p :: rest, some slots, freed ++ [.block pre]⟩ := free_block hpre
  have hfirst : Matches.setName ⟨.block pre :: p :: rest, some slots, freed ++ [.block pre]⟩ 0 (.block only) =
      some ⟨.block only :: p :: rest, some slots, freed ++ [.block pre]⟩ := setName_at [] rfl rfl
  have hend : Matches.setName ⟨.block only :: p :: rest, some slots, freed ++ [.block pre]⟩ 1 .null =
      some ⟨.block only :: .null :: rest, some slots, freed ++ [.block pre]⟩ := setName_at [.block only] rfl rfl
  have honly : slots[1]? = some (.block only) := by rw [← hslots]; rfl
  rw [giveBack, if_neg (by decide), if_pos rfl]
  simp only [List.getElem?_cons_zero, Option.bind_eq_bind, Option.bind_some, hfree, honly, hfirst, hend]
  rfl

theorem giveBack_many (kept : List Nat) (old slack freed : List Ptr) (hk : 2 ≤ kept.length)
    (hroom : kept.length < old.length) (ht : kept.length < turns) : ∃ left, giveBack turns (1 + kept.length)
      ⟨.block pre :: old, some (.block pre :: (kept.map .block ++ .null :: slack)), freed⟩ =
        some (0, ⟨(pre :: kept).map .block ++ .null :: left, none, freed⟩) := by
  obtain ⟨p, left, hleft⟩ := List.exists_cons_of_length_pos (l := old.drop kept.length) (by
    rw [List.length_drop]
    omega)
  have hcopy : copyBack turns 1 ⟨.block pre :: old, some (.block pre :: (kept.map .block ++ .null :: slack)), freed⟩ =
      some (1 + kept.length, ⟨.block pre :: (kept.map .block ++ p :: left),
        some (.block pre :: (kept.map .block ++ .null :: slack)), freed⟩) := by
    rw [← hleft]
    exact copyBack_run _ [.block pre] [.block pre] old rfl rfl rfl rfl hroom ht
  have hend : Matches.setName ⟨.block pre :: (kept.map .block ++ p :: left),
      some (.block pre :: (kept.map .block ++ .null :: slack)), freed⟩ (1 + kept.length) .null =
        some ⟨(pre :: kept).map .block ++ .null :: left,
          some (.block pre :: (kept.map .block ++ .null :: slack)), freed⟩ :=
    setName_at ((pre :: kept).map .block) rfl (by simp [Nat.add_comm])
  refine ⟨left, ?_⟩
  rw [giveBack, if_neg (by omega), if_neg (by omega)]
  simp only [hcopy, hend, Option.bind_eq_bind, Option.bind_some]
  rfl

theorem thinned_of (ids : List Nat) (hd : (pre :: cs).Nodup) (hids : ids.map Ptr.block = thinned pre (cs.filter e.keeps))
    (hp : (ids.map Ptr.block ++ freed).Perm ((pre :: cs).map Ptr.block)) :
    Thinned e pre cs ⟨ids.map .block ++ .null :: rest, none, freed⟩ where
  array := (array_eq rfl).trans hids
  terminated := List.mem_append_right _ List.mem_cons_self
  owned id hid := by
    rw [array_eq rfl]
    exact owned_once hp hd hid
  released := rfl

theorem filenameCompletionIgnore_kept (e : Surroundings) (pre : Nat) (hne : cs ≠ []) (hd : cs.Nodup) (rest : List Ptr)
    (junk : Nat → Ptr) (ht : cs.length < turns) : ∃ slack,
      filenameCompletionIgnore e junk turns ⟨.block pre :: (cs.map .block ++ .null :: rest), none, []⟩ =
        giveBack turns (1 + (cs.filter e.keeps).length) ⟨.block pre :: (cs.map .block ++ .null :: rest),
          some (.block pre :: ((cs.filter e.keeps).map .block ++ .null :: slack)),
          (cs.filter fun c => !e.keeps c).map .block⟩ := by
  obtain ⟨c, cs', rfl⟩ := List.exists_cons_of_ne_nil hne
  generalize hcs : c :: cs' = cs at *
  generalize hnames : Ptr.block pre :: (cs.map .block ++ .null :: rest) = names
  have hsize : countNames ⟨names, none, []⟩ turns 1 = some (1 + cs.length) :=
    countNames_run [.block pre] hnames.symm rfl ht
  obtain ⟨x, slack, hslack⟩ :=
    List.exists_cons_of_length_pos (l := (List.range (1 + cs.length + 1)).map junk) (by simp)
  have hroom : slack.length = cs.length + 1 := by
    have hlen := congrArg List.length hslack
    simp only [List.length_map, List.length_range, List.length_cons] at hlen
    omega
  have hfirst : Matches.setNew ⟨names, some (x :: slack), []⟩ 0 (.block pre) = some ⟨names, some (.block pre :: slack), []⟩ :=
    setNew_at [] rfl rfl
  have hfew : (cs.filter e.keeps).length ≤ cs.length := List.length_filter_le _ _
  obtain ⟨p, slack', hslack'⟩ := List.exists_cons_of_length_pos (l := slack.drop (cs.filter e.keeps).length) (by
    rw [List.length_drop]
    omega)
  have hkeep : keepNames e turns 1 1 ⟨names, some (.block pre :: slack), []⟩ = some (1 + (cs.filter e.keeps).length,
      ⟨names, some (.block pre :: ((cs.filter e.keeps).map .block ++ p :: slack')),
        (cs.filter fun c => !e.keeps c).map .block⟩) := by
    rw [← hslack']
    exact keepNames_run _ [.block pre] [.block pre] slack hnames.symm rfl rfl rfl hd (fun c _ => List.not_mem_nil)
      (by omega) ht
  have hend : Matches.setNew ⟨names, some (.block pre :: ((cs.filter e.keeps).map .block ++ p :: slack')),
      (cs.filter fun c => !e.keeps c).map .block⟩ (1 + (cs.filter e.keeps).length) .null =
        some ⟨names, some (.block pre :: ((cs.filter e.keeps).map .block ++ .null :: slack')),
          (cs.filter fun c => !e.keeps c).map .block⟩ :=
    setNew_at (.block pre :: (cs.filter e.keeps).map .block) rfl (by simp [Nat.add_comm])
  have hsecond : names[1]? = some (.block c) := by
    rw [← hnames, ← hcs]
    rfl
  have hcommon : names[0]? = some (.block pre) := by
    rw [← hnames]
    rfl
  refine ⟨slack', ?_⟩
  rw [filenameCompletionIgnore]
  simp only [hsecond, Option.bind_eq_bind, Option.bind_some, reduceCtorEq, if_false, hsize, hslack, hcommon, hfirst,
    hkeep, hend]

theorem filenameCompletionIgnore_run (hne : cs ≠ []) (hd : (pre :: cs).Nodup) (rest : List Ptr) (junk : Nat → Ptr)
    (ht : cs.length < turns) : ∃ ret s,
      filenameCompletionIgnore e junk turns ⟨(pre :: cs).map .block ++ .null :: rest, none, []⟩ = some (ret, s) ∧
        Thinned e pre cs s := by
  obtain ⟨hpre, hcs⟩ := List.nodup_cons.mp hd
  have hfreed : Ptr.block pre ∉ (cs.filter fun c => !e.keeps c).map .block := by
    intro h
    obtain ⟨id, hid, heq⟩ := List.mem_map.mp h
    cases heq
    exact hpre (List.mem_of_mem_filter hid)
  have hperm := kept_dropped_perm e.keeps cs
  have hfew : (cs.filter e.keeps).length ≤ cs.length := List.length_filter_le _ _
  obtain ⟨slack, hrun⟩ := filenameCompletionIgnore_kept e pre hne hcs rest junk ht
  rw [List.map_cons, List.cons_append, hrun]
  -- none, one, or more stay; the prefix is freed in the first two cases
  generalize hfilter : cs.filter e.keeps = kept at *
  match kept with
  | [] =>
    refine ⟨_, _, giveBack_none hfreed, ?_⟩
    exact thinned_of [] hd (by rw [hfilter]; rfl) ((List.perm_append_singleton _ _).trans (hperm.cons _))
  | [only] =>
    obtain ⟨c, cs', rfl⟩ := List.exists_cons_of_ne_nil hne
    refine ⟨_, _, giveBack_one hfreed, ?_⟩
    exact thinned_of [only] hd (by rw [hfilter]; rfl) ((List.perm_append_singleton _ (_ :: _)).trans (hperm.cons _))
  | k :: k' :: more =>
    have hroom : cs.length < (cs.map Ptr.block ++ .null :: rest).length := by
      rw [List.length_append, List.length_map]
      exact Nat.lt_add_of_pos_right (Nat.succ_pos _)
    obtain ⟨left, hmany⟩ := @giveBack_many pre turns (k :: k' :: more) _ slack
      ((cs.filter fun c => !e.keeps c).map .block) (Nat.le_add_left 2 more.length) (Nat.lt_of_le_of_lt hfew hroom)
      (Nat.lt_of_le_of_lt hfew ht)
    exact ⟨_, _, hmany, thinned_of _ hd (by rw [hfilter]; rfl) (hperm.cons _)⟩

theorem filenameCompletionIgnore_thins (e : Surroundings) (pre : Nat) (candidates : List Nat) (rest : List Ptr)
    (junk : Nat → Ptr) (hne : candidates ≠ []) (hd : (pre :: candidates).Nodup) :
    ∃ least, ∀ turns, least ≤ turns → ∃ ret s,
      filenameCompletionIgnore e junk turns ⟨(pre :: candidates).map .block ++ .null :: rest, none, []⟩ = some (ret, s) ∧
        Thinned e pre candidates s :=
  ⟨candidates.length + 1, fun _ ht => filenameCompletionIgnore_run hne hd rest junk ht⟩

/-- Of `boot.elf`, `boot.c` and the directory `boots`, the last two stay. -/
theorem filenameCompletionIgnore_thins_boot :
    let e : Surroundings :=
      { text := fun id => [str "boot", str "boot.elf", str "boot.c", str "boots"].getD id []
        suffixList := [str ".c"]
        stat := fun name => (true, ⟨if name = str "boots" then 0x41ed else 0x81a4, 0, 0, 0, 0⟩) }
    ∃ least, ∀ turns, least ≤ turns → ∃ ret s,
      filenameCompletionIgnore e (fun _ => .other 7) turns ⟨[0, 1, 2, 3].map .block ++ [.null], none, []⟩ = some (ret, s) ∧
        Thinned e 0 [1, 2, 3] s :=
  filenameCompletionIgnore_thins _ 0 [1, 2, 3] [] _ (by decide) (by decide)

end Call

end Pksh
