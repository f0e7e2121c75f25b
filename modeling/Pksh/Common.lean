import Pksh.FileIo

/-! String helpers of the command line side. A string is the list of its bytes
before the terminating NUL. -/

namespace Pksh

open Wire Traced

def str (s : String) : List Byte := s.toList.map fun c => BitVec.ofNat 8 c.toNat

def space : Byte := 0x20

/-- `NEWLINE`. -/
def newline : Byte := 0x0a

def whitespace (c : Byte) : Bool := c = space || c = 0x09

/-- The command word of a line and what is behind it. -/
def splitLine (line : List Byte) : List Byte × List Byte :=
  let rest := line.dropWhile whitespace
  (rest.takeWhile fun c => !whitespace c, (rest.dropWhile fun c => !whitespace c).dropWhile whitespace)

/-- The rest of `s` from the first place where `pat` occurs. -/
def strstr (pat : List Byte) : List Byte → Option (List Byte)
  | [] => if pat.isPrefixOf [] then some [] else none
  | b :: s => if pat.isPrefixOf (b :: s) then some (b :: s) else strstr pat s

def argDeviceCheck (arg : List Byte) : Bool :=
  (strstr (str ":/") arg).isSome || (strstr (str "host:") arg).isSome || (strstr (str ":") arg).isSome

def argPrependHost (old : List Byte) : List Byte :=
  if (strstr (str ":/") old).isSome then old
  else match strstr (str "host:") old with
    | some s => str "host:" ++ ((strstr (str ":") s).getD []).drop 1
    | none => if (strstr (str ":") old).isSome then old else str "host:" ++ old

/-- What is left of `s` at its old address after `trim(s)`: the terminator
goes as far behind the first byte that is not a space as the trimmed length
before that. -/
def trimInPlace (s : List Byte) : List Byte :=
  let i := (s.reverse.dropWhile (· = space)).length
  s.take ((s.takeWhile (· = space)).length + i)

/-- `cmd[i]` of a C string. -/
def charAt (cmd : List Byte) (i : Nat) : Byte := cmd.getD i 0

/-- The end of the run of bytes satisfying `p` that starts at `pi`. -/
def runEnd (p : Byte → Bool) (cmd : List Byte) (pi : Nat) : Nat :=
  pi + ((cmd.drop pi).takeWhile p).length

/-- The loop of `fix_cmd_arg`: `ai` and `pi` are its indices into `cmd`, `argv`
is the block written so far. Every round moves `pi` forward, so as many rounds
as `cmd` has bytes are enough. -/
def fixCmdArgLoop (isFile : List Byte → Bool) (cmd : List Byte) :
    Nat → Nat → Nat → List Byte → Nat → List Byte × Nat
  | 0, _, _, argv, argc => (argv, argc)
  | rounds + 1, pi, ai, argv, argc =>
    if charAt cmd pi = 0 then (argv, argc)
    else
      let pi := runEnd (· ≠ space) cmd pi
      let arg := (cmd.drop ai).take (pi - ai)
      let arg := if isFile arg && !argDeviceCheck arg then str "host:" ++ arg else arg
      fixCmdArgLoop isFile cmd rounds (runEnd (· = space) cmd pi) (pi + 1) (argv ++ arg ++ [0]) (argc + 1)

/-- The argument block and `argc`; `argvlen` is the length of the block. -/
def fixCmdArg (isFile : List Byte → Bool) (cmd : List Byte) : List Byte × Nat :=
  fixCmdArgLoop isFile cmd cmd.length 0 0 [] 0

/-- `is_file`, asked of the file system as it is now. -/
def World.isFile (w : World) (path : List Byte) : Bool :=
  (w.os.stat w.now path).1 && isRegMode (w.os.stat w.now path).2.mode

/-- `size_file`: `st_size` as an `int`, and 0 when there is no such file. -/
def sizeFile (path : List Byte) : Io Int := do
  let r ← sysStat path
  pure (if r.1 then (cWord r.2.size).toInt else 0)

end Pksh
