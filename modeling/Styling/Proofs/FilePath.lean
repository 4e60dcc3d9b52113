import Mathlib.Data.List.TakeWhile
import Styling.Reference

/-! # Plain paths

The names of a plain path are found again, and its directory is absolute. So a reference that is
set behind this directory is an absolute path.
-/
namespace Styling
namespace FilePath
variable {names : List (List Char)} {home : List Char}

end FilePath

namespace Reference
variable {home : List Char}

end Reference
end Styling
