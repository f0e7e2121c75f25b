import Pksh.Batch
import Pksh.Forwarding

/-! The size in a GSEXEC request, as pksh and the tool put it there. -/

namespace Pksh

open Wire Traced

section Requests

variable {size : Word} {α : Type}

end Requests

section Shell

variable {arg : List Byte} {w : World}

end Shell

end Pksh
