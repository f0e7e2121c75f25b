import Pksh.ConfigLines
import Pksh.SearchPath
import Pksh.Trim

/-! The settings that `read_config` makes, line by line, and those that the
keys are for. -/

namespace Pksh

open Wire

def equals : Byte := 0x3d
def hash : Byte := 0x23

/-- What a line has `read_config` do. -/
inductive Setting
  | ip (ip : List Byte)
  | logStdout
  | log (file : List Byte)
  /-- `cli_log(stdout)`: the `FILE *` is taken for the name of a file. -/
  | logPointer
  | exception (screen : Bool)
  | verbose
  | debug
  | histfile (file : List Byte)
  | bind (ip : List Byte)
  | path (dirs : List (List Byte))
  | suffix (patterns : List (List Byte))
  | setroot (dir : List Byte)
  | home (dir : List Byte)
  | timeout (n : Word)
deriving DecidableEq, Repr

namespace Reader

end Reader

/-- The arrays hold what is copied: `dst_ip` and `src_ip` have 16 bytes, and
`pksh_history` has `MAXPATHLEN`. -/
def Setting.Fits : Setting → Prop
  | .ip s | .bind s => s.length < 16
  | .histfile s => s.length < maxpathlen
  | _ => True

/-- `blanks key blanks = blanks value blanks`. -/
structure Pair where
  before : List Byte
  key : List Byte
  behind : List Byte
  front : List Byte
  value : List Byte
  back : List Byte

namespace Pair

variable (p : Pair)

def keyPart : List Byte := p.before ++ p.key ++ p.behind

def valuePart : List Byte := p.front ++ p.value ++ p.back

def text : List Byte := p.keyPart ++ equals :: p.valuePart

/-- `key=value`. -/
def plain : Pair := ⟨[], p.key, [], [], p.value, []⟩

structure Spelled : Prop where
  blanks : ∀ b ∈ p.before ++ p.behind ++ (p.front ++ p.back), whitespace b = true
  key : ∀ b ∈ p.key, whitespace b = false ∧ b ≠ equals
  first : ∀ b ∈ p.value.head?, whitespace b = false
  last : ∀ b ∈ p.value.getLast?, whitespace b = false

end Pair

/-- A string that `read_line` can return. -/
structure Readable (line : List Byte) : Prop where
  newline : newline ∉ line
  nul : 0 ∉ line
  length : line.length < maxpathlen

inductive ConfigLine
  | comment (rest : List Byte) (readable : Readable (hash :: rest))
  | pair (p : Pair) (spelled : p.Spelled) (readable : Readable p.text)

namespace ConfigLine

def text : ConfigLine → List Byte
  | .comment rest _ => hash :: rest
  | .pair p _ _ => p.text

end ConfigLine

section Known

end Known

end Pksh
