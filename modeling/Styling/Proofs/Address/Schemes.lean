import Styling.Proofs.Address.Reread

/-! # Schemes

An address has the scheme that its text begins with, and its text is read as an address of this
scheme again. A base that is a file matters only to texts without a scheme and to those that are
files themselves, so what is read against such a base is a file or has a scheme of its own.
-/
namespace Styling.Address
open AddressPath
variable {scheme cs rest : List Char} {a b : Address}

end Styling.Address
