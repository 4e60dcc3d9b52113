import Styling.Proofs.Address.Lawful
import Styling.Proofs.FilePath
import Styling.Proofs.Text.Utf8

/-! # References from a path and from its address

The home of a document is a path or the address of that path. From a path, a reference is resolved
by way of the address, but what has no path on this host is set behind the directory, and bytes
that are no text are mended. So, whatever lawful library joins the addresses, a reference names
the same file from both homes exactly if it is an absolute address, if it stands for a file on
this host whose path is text, or if it stands for nothing and is an absolute path itself.
-/
namespace Styling.Reference
open AddressLibrary
variable {home : List Char} {reference : String} {bytes : List UInt8}

section Laws
variable [AddressLibrary] (hlaws : Lawful) {u a b : Url}
include hlaws

section Homes
variable (hhome : FilePath.Plain home) (hu : ofPath? (String.ofList home) = some u)
  (h : (absolute? reference).isSome = false)
include hhome hu h

section Agreement
variable (hread : parse? (text u) = some u) (hscheme : scheme u = fileScheme)
include hread hscheme

end Agreement
end Homes
end Laws

def drawing : Url :=
  (⟨fileScheme, some .empty, "/home/user/drawing.easel".toList, none, none⟩ : Address)

end Styling.Reference
