import Pksh.ConfigTable

/-! The settings that `read_config` makes, line by line. What `trim` returns is
not used, so a key is compared with all that stands in front of it, and with the
tabs behind it. -/

namespace Pksh

open Wire

section Line

variable {r : Reader} {p : Pair}

theorem Pair.Spelled.blank (h : p.Spelled) {b : Byte} (hb : b ∈ p.before ∨ b ∈ p.behind ∨ b ∈ p.front ∨ b ∈ p.back) :
    whitespace b = true :=
  h.blanks b (by simp only [List.mem_append]; tauto)

theorem Pair.Spelled.plain (h : p.Spelled) : p.plain.Spelled :=
  ⟨by simp [Pair.plain], h.key, h.first, h.last⟩

end Line

section File

variable (r : Reader) (b : LineBuf) (ls : List ConfigLine)

end File

section Settings

variable {α β : Type} {f g : α → Option β} {l : List α}

end Settings

end Pksh
