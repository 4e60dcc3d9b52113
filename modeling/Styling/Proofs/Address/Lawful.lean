import Styling.Proofs.Address.Home
import Styling.Proofs.Address.Remote
import Styling.Proofs.Address.Schemes

/-! # The library is lawful

The addresses that the program runs with keep the laws of a library: what a reference from a plain
path stands for is a file on this host, a file on another host, or an address of another scheme,
and its text is read as an address of the same kind.
-/
namespace Styling.Address
open AddressPath AddressLibrary
variable {reference : String} {a : Address} {bytes : List UInt8}

end Styling.Address
