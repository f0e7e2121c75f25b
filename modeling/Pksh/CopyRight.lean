import Pksh.Fetched
import Pksh.Sent

/-! When `cp` makes of the destination what the source is. Both files are
opened by what is left of their names in memory that was given back, and
neither is cut when it is opened. -/

namespace Pksh

open Wire Traced

section Copy

variable {arg : List Byte} (stack : Nat → Mem) (t : Nat) (reads writes : Nat → Nat) {n m : Nat}

/-- For all files of `n` bytes at the source and of `m` bytes at the destination,
in either direction: the right files have to be opened, the old destination must
not be longer, and from the PS2 every transfer has to move all it is asked to. To
the PS2, a write that moves less has the command run for ever. -/
theorem cp_right_iff (hargs : ¬(buildArgv arg).2 < 2) (hn : n < 2 ^ 31) :
    ((splitFilename (argvOf arg 0)).1 ≠ [] →
      (FetchesRight arg (argvOf arg 0) (argvOf arg 1) stack t reads writes n m ↔
        wireName (leftOf stack (t + 1) 0) = argvOf arg 0 ∧ leftOf stack t 1 = argvOf arg 1 ∧ m ≤ n ∧ FetchFull n reads writes ∨
          leftOf stack t 1 ≠ argvOf arg 1 ∧ n = 0 ∧ m = 0)) ∧
      ((splitFilename (argvOf arg 0)).1 = [] → (splitFilename (argvOf arg 1)).1 ≠ [] →
        (SendsRight arg (argvOf arg 0) (argvOf arg 1) stack t reads writes n m ↔
          leftOf stack t 0 = argvOf arg 0 ∧ ¬SendFull n reads writes ∨
            leftOf stack t 0 = argvOf arg 0 ∧ wireName (leftOf stack (t + 1) 1) = argvOf arg 1 ∧ m ≤ n ∨
              wireName (leftOf stack (t + 1) 1) ≠ argvOf arg 1 ∧ n = 0 ∧ m = 0)) :=
  ⟨fun hdev => fetchesRight_iff (cliCopy_from hargs hdev) hn, fun hhost hdev => sendsRight_iff (cliCopy_to hargs hhost hdev) hn⟩

end Copy

def inFull (_ : Nat) : Nat := blockSize

theorem cp_right_oneByte :
    FetchesRight (str "mc0:a b") (str "mc0:a") (str "b") (fun _ => leftAlone (str "mc0:a") (str "b")) 0 inFull inFull 1 1 ∧
      SendsRight (str "b mc0:a") (str "b") (str "mc0:a") (fun _ => leftAlone (str "b") (str "mc0:a")) 0 inFull inFull 1 1 := by
  have hone : FetchFull 1 inFull inFull := by
    intro j hj
    obtain rfl : j = 0 := by
      rw [blockSize] at hj
      omega
    decide
  exact ⟨((@cp_right_iff (str "mc0:a b") (fun _ => leftAlone (str "mc0:a") (str "b")) 0 inFull inFull 1 1 (by decide)
      (by decide)).1 (by decide)).mpr (.inl ⟨by decide +kernel, by decide +kernel, by decide, hone⟩),
    ((@cp_right_iff (str "b mc0:a") (fun _ => leftAlone (str "b") (str "mc0:a")) 0 inFull inFull 1 1 (by decide)
      (by decide)).2 (by decide) (by decide)).mpr (.inr (.inl ⟨by decide +kernel, by decide +kernel, by decide⟩))⟩

def oneByte : World := giver (fun _ => leftAlone (str "mc0:a") (str "b")) 0 inFull inFull [1]

/-- The tail of the longer file that was there is still there. -/
theorem cp_leaves_tail : ((cliCopy (str "mc0:a b")).run oneByte).value = some 0 ∧
    Disk.behind (fun _ => [2, 3]) ((cliCopy (str "mc0:a b")).run oneByte).acts (str "b") = [1, 3] ∧
      ¬FetchesRight (str "mc0:a b") (str "mc0:a") (str "b") (fun _ => leftAlone (str "mc0:a") (str "b")) 0 inFull inFull 1 2 := by
  have hf := @giver_fetching (fun _ => leftAlone (str "mc0:a") (str "b")) 0 inFull inFull [1] (by decide)
  have hopen := giver_opens (fun _ => leftAlone (str "mc0:a") (str "b")) 0 inFull inFull [1]
  have hc : cliCopy (str "mc0:a b") = withNetfs copyFrom := cliCopy_from (by decide) (by decide)
  have hb : leftOf (fun _ => leftAlone (str "mc0:a") (str "b")) 0 1 = str "b" := by decide +kernel
  have hend : arrived [1] inFull inFull (leftAlone (str "mc0:a") (str "b")) [2, 3] = [1, 3] := by decide +kernel
  obtain ⟨hv, hd⟩ := copyFrom_copies (fun _ => [2, 3]) hopen hf
  rw [← hc] at hv hd
  have hbehind := congrFun hd (str "b")
  rw [hb, Function.update_self, hend] at hbehind
  refine ⟨hv, hbehind, fun h => ?_⟩
  have hright := h _ _ _ (fun _ => [1]) (fun _ => [2, 3]) hopen hf rfl rfl 0 hv
  rw [hbehind] at hright
  exact absurd hright (by decide)

end Pksh
