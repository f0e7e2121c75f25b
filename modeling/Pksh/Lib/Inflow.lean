import Mathlib.Data.List.Basic

/-! What arrives on a byte stream: chunks of any size with errors that pass in
between, and how the stream ends. `drops` tells the errors that end a
connection; only the end of the stream can fail with one of them. -/

namespace Wire

variable {ε β : Type} {drops : ε → Bool}

inductive Arrival (β : Type) (drops : ε → Bool)
  | data (b : β) (bs : List β)
  | hiccup (e : ε) (passes : drops e = false)

/-- After the last arrival the stream stays silent, is at its end, or fails:
on every later call, or on one call with the end of the stream after it. -/
inductive Ending (ε : Type)
  | quiet
  | eof
  | fail (e : ε) (sticky : Bool)
deriving DecidableEq, Repr

structure Inflow (β : Type) (drops : ε → Bool) where
  arrivals : List (Arrival β drops)
  ending : Ending ε

inductive Recv (ε β : Type)
  | got (bs : List β)
  | closed
  | error (e : ε)

/-- The bytes a call returns, the end of the stream being no bytes. -/
def Recv.ret : Recv ε β → Option (List β)
  | .got bs => some bs
  | .closed => some []
  | .error _ => none

/-- How a loop that reads a fixed number of bytes ends. -/
inductive Reading (ε : Type)
  | full
  | eof
  | dropped (e : ε)
  | never
deriving DecidableEq, Repr

namespace Ending

def afterFail : Ending ε → Ending ε
  | .fail e true => .fail e true
  | .fail _ false => .eof
  | end' => end'

/-- How a reader that retries every error but the dropping ones meets the end. -/
def stop (drops : ε → Bool) : Ending ε → Reading ε
  | .quiet => .never
  | .eof => .eof
  | .fail e sticky => if drops e then .dropped e else if sticky then .never else .eof

end Ending

namespace Inflow

def push (bs : List β) (as : List (Arrival β drops)) : List (Arrival β drops) :=
  match bs with
  | [] => as
  | b :: bs => .data b bs :: as

/-- One receive call for at most `n` bytes; `none` when it never returns. -/
def recv (n : Nat) (f : Inflow β drops) : Option (Recv ε β × Inflow β drops) :=
  match f.arrivals with
  | .data b bs :: as => some (.got ((b :: bs).take n), ⟨push ((b :: bs).drop n) as, f.ending⟩)
  | .hiccup e _ :: as => some (.error e, ⟨as, f.ending⟩)
  | [] =>
    match f.ending with
    | .quiet => none
    | .eof => some (.closed, f)
    | .fail e sticky => some (.error e, ⟨[], (Ending.fail e sticky).afterFail⟩)

def readFrom (ending : Ending ε) : Nat → List (Arrival β drops) →
    Reading ε × List β × Inflow β drops
  | 0, as => (.full, [], ⟨as, ending⟩)
  | _ + 1, [] => (ending.stop drops, [], ⟨[], ending.afterFail⟩)
  | n + 1, .hiccup _ _ :: as => readFrom ending (n + 1) as
  | n + 1, .data b bs :: as =>
    if bs.length < n + 1 then
      let r := readFrom ending (n - bs.length) as
      (r.1, b :: bs ++ r.2.1, r.2.2)
    else
      (.full, (b :: bs).take (n + 1), ⟨push ((b :: bs).drop (n + 1)) as, ending⟩)

/-- Receiving again and again until `n` bytes are there: how it ends, the
bytes it got, and what is left. -/
def read (n : Nat) (f : Inflow β drops) : Reading ε × List β × Inflow β drops :=
  readFrom f.ending n f.arrivals

def live (f : Inflow β drops) : List β :=
  f.arrivals.flatMap fun
    | .data b bs => b :: bs
    | .hiccup _ _ => []

def stop (f : Inflow β drops) : Reading ε := f.ending.stop drops

@[simp] theorem live_nil (e : Ending ε) : (⟨[], e⟩ : Inflow β drops).live = [] := rfl

theorem live_push (bs : List β) (as : List (Arrival β drops)) (e : Ending ε) :
    (⟨push bs as, e⟩ : Inflow β drops).live = bs ++ (⟨as, e⟩ : Inflow β drops).live := by
  cases bs <;> simp [push, live]

@[simp] theorem read_zero (f : Inflow β drops) : f.read 0 = (.full, [], f) := by
  obtain ⟨as, e⟩ := f
  cases as <;> simp [read, readFrom]

theorem readFrom_of_le (e : Ending ε) (as : List (Arrival β drops)) (n : Nat)
    (h : n ≤ (⟨as, e⟩ : Inflow β drops).live.length) :
    (readFrom e n as).1 = .full ∧
      (readFrom e n as).2.1 = (⟨as, e⟩ : Inflow β drops).live.take n ∧
      (readFrom e n as).2.2.live = (⟨as, e⟩ : Inflow β drops).live.drop n ∧
      (readFrom e n as).2.2.ending = e := by
  induction as generalizing n with
  | nil =>
    have hn : n = 0 := by simpa using h
    subst hn
    simp [readFrom]
  | cons a as ih =>
    cases n with
    | zero => simp [readFrom]
    | succ n =>
      cases a with
      | hiccup x hx => simpa [readFrom, live] using ih (n + 1) (by simpa [live] using h)
      | data b bs =>
        by_cases hb : bs.length < n + 1
        · have hlen : n - bs.length ≤ (⟨as, e⟩ : Inflow β drops).live.length := by
            simp only [live, List.flatMap_cons, List.length_append, List.length_cons] at h ⊢
            omega
          obtain ⟨h1, h2, h3, h4⟩ := ih (n - bs.length) hlen
          have hl : (⟨.data b bs :: as, e⟩ : Inflow β drops).live =
              (b :: bs) ++ (⟨as, e⟩ : Inflow β drops).live := by simp [live]
          have hn : n + 1 = (b :: bs).length + (n - bs.length) := by simp only [List.length_cons]; omega
          have hr : readFrom e (n + 1) (.data b bs :: as) =
              ((readFrom e (n - bs.length) as).1, b :: bs ++ (readFrom e (n - bs.length) as).2.1,
                (readFrom e (n - bs.length) as).2.2) := by simp [readFrom, hb]
          rw [hr, hl, hn, List.take_length_add_append, List.drop_length_add_append]
          exact ⟨h1, by rw [h2], h3, h4⟩
        · have hl : (⟨.data b bs :: as, e⟩ : Inflow β drops).live =
              (b :: bs) ++ (⟨as, e⟩ : Inflow β drops).live := by simp [live]
          have hle : n + 1 ≤ (b :: bs).length := by simp only [List.length_cons]; omega
          simp only [readFrom, hb, if_false, live_push, hl, List.take_append_of_le_length hle,
            List.drop_append_of_le_length hle, and_self]

theorem readFrom_of_lt (e : Ending ε) (as : List (Arrival β drops)) (n : Nat)
    (h : (⟨as, e⟩ : Inflow β drops).live.length < n) :
    readFrom e n as = (e.stop drops, (⟨as, e⟩ : Inflow β drops).live, ⟨[], e.afterFail⟩) := by
  induction as generalizing n with
  | nil =>
    obtain ⟨k, rfl⟩ : ∃ k, n = k + 1 := ⟨n - 1, by omega⟩
    simp [readFrom]
  | cons a as ih =>
    obtain ⟨k, rfl⟩ : ∃ k, n = k + 1 := ⟨n - 1, by omega⟩
    cases a with
    | hiccup x hx => simpa [readFrom, live] using ih (k + 1) (by simpa [live] using h)
    | data b bs =>
      simp only [live, List.flatMap_cons, List.length_append, List.length_cons] at h
      have hb : bs.length < k + 1 := by omega
      have hh := ih (k - bs.length) (by simp only [live]; omega)
      simp [readFrom, hb, hh, live]

section Read

variable {f : Inflow β drops} {n : Nat}

theorem read_full (h : n ≤ f.live.length) :
    (f.read n).1 = .full ∧ (f.read n).2.1 = f.live.take n ∧
      (f.read n).2.2.live = f.live.drop n ∧ (f.read n).2.2.ending = f.ending :=
  readFrom_of_le f.ending f.arrivals n h

theorem read_short (h : f.live.length < n) :
    f.read n = (f.stop, f.live, ⟨[], f.ending.afterFail⟩) :=
  readFrom_of_lt f.ending f.arrivals n h

theorem stop_ne_full : f.stop ≠ .full := by
  unfold stop Ending.stop
  split
  · simp
  · simp
  · split
    · simp
    · split <;> simp

theorem read_append (f : Inflow β drops) (n : Nat) :
    (f.read n).2.1 ++ (f.read n).2.2.live = f.live := by
  by_cases h : n ≤ f.live.length
  · obtain ⟨_, h2, h3, _⟩ := read_full h
    rw [h2, h3, List.take_append_drop]
  · rw [read_short (Nat.lt_of_not_le h)]
    simp

theorem read_got_length (f : Inflow β drops) (n : Nat) :
    (f.read n).2.1.length = min n f.live.length := by
  by_cases h : n ≤ f.live.length
  · rw [(read_full h).2.1, List.length_take]
  · rw [read_short (Nat.lt_of_not_le h)]
    have := Nat.lt_of_not_le h
    simp only
    omega

end Read

theorem recv_length {f g : Inflow β drops} {n : Nat} {r : Recv ε β} {bs : List β} (h : f.recv n = some (r, g))
    (hr : r.ret = some bs) : bs.length ≤ n := by
  obtain ⟨as, e⟩ := f
  cases as with
  | nil =>
    cases e with
    | quiet => cases h
    | eof =>
      cases h
      cases hr
      exact Nat.zero_le n
    | fail x sticky =>
      cases h
      cases hr
  | cons a as =>
    cases a with
    | hiccup x hx =>
      cases h
      cases hr
    | data b bs =>
      cases h
      cases hr
      exact List.length_take_le n _

theorem recv_got_ne_nil {f g : Inflow β drops} {n : Nat} {bs : List β} (hn : 0 < n) (h : f.recv n = some (.got bs, g)) :
    bs ≠ [] := by
  obtain ⟨n, rfl⟩ := Nat.exists_eq_add_one_of_ne_zero (Nat.ne_of_gt hn)
  obtain ⟨as, e⟩ := f
  cases as with
  | nil => cases e <;> cases h
  | cons a as =>
    cases a with
    | hiccup x hx => cases h
    | data b bs =>
      cases h
      exact List.cons_ne_nil b _

theorem recv_append {f g : Inflow β drops} {n : Nat} {r : Recv ε β} (h : f.recv n = some (r, g)) :
    r.ret.getD [] ++ g.live = f.live := by
  obtain ⟨as, e⟩ := f
  cases as with
  | nil =>
    cases e with
    | quiet => cases h
    | eof => cases h; rfl
    | fail x sticky => cases h; rfl
  | cons a as =>
    cases a with
    | hiccup x hx =>
      cases h
      simp [Recv.ret, live]
    | data b bs =>
      cases h
      simp only [Recv.ret, Option.getD_some, live_push, ← List.append_assoc, List.take_append_drop]
      simp [live]

/-- The reading loop is the loop over single receive calls: it stops when it
has its bytes, at the end of the stream and at a dropping error, and tries
again after every other error. -/
theorem read_eq_recv (f : Inflow β drops) (n : Nat) :
    f.read n =
      if n = 0 then (.full, [], f)
      else match f.recv n with
        | none => (.never, [], f)
        | some (.got bs, g) =>
          ((g.read (n - bs.length)).1, bs ++ (g.read (n - bs.length)).2.1, (g.read (n - bs.length)).2.2)
        | some (.closed, g) => (.eof, [], g)
        | some (.error e, g) => if drops e then (.dropped e, [], g) else g.read n := by
  obtain ⟨as, e⟩ := f
  cases n with
  | zero => simp
  | succ n =>
    cases as with
    | nil =>
      cases e with
      | quiet => rfl
      | eof => rfl
      | fail x sticky =>
        cases hx : drops x <;> cases sticky <;>
          simp [read, readFrom, recv, Ending.stop, Ending.afterFail, hx]
    | cons a as =>
      cases a with
      | hiccup x hx => simp [read, readFrom, recv, hx]
      | data b bs =>
        by_cases hb : bs.length < n + 1
        · have hle : (b :: bs).length ≤ n + 1 := by simp only [List.length_cons]; omega
          have ht : (b :: bs).take (n + 1) = b :: bs := List.take_of_length_le hle
          have hd : (b :: bs).drop (n + 1) = [] := List.drop_of_length_le hle
          simp [read, readFrom, recv, hb, ht, hd, push]
        · have hl : n + 1 - ((b :: bs).take (n + 1)).length = 0 := by
            simp only [List.length_take, List.length_cons]
            omega
          simp only [recv, hl, read_zero, List.append_nil]
          simp [read, readFrom, hb]

end Inflow

end Wire
