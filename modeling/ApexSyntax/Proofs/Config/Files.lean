-- Which file of a directory configures it. The first file that exists decides. If it is
-- invalid there is no configuration, whatever a valid file behind it says.
import ApexSyntax.Config.Settings
import ApexSyntax.Proofs.FileSystem.Walks
import Mathlib.Data.List.Basic
import Mathlib.Data.List.Find

namespace ApexSyntax

/-! ## The first that is there, and the first that is valid -/

section Choice

variable {α β : Type} {l front back : List α} {present : α → Bool} {valid : α → Option β} {x : α}

end Choice

namespace FileSystem

variable {fs fs' : FileSystem} {dir : Path} {f g : String × ConfigFormat} {c : Config}

/-! ## The files of a directory -/

namespace AddsInvalid

end AddsInvalid

end FileSystem

end ApexSyntax
