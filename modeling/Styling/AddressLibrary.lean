import Styling.FilePath
import Styling.Text.Utf8

/-! # The library of addresses

Addresses are parsed, joined, written and turned into paths by a library, which is a parameter of
what uses it. What the standard of addresses and the library's documentation promise, as far as
references between files depend on it, is stated here as laws.
-/
namespace Styling

def fileScheme : List Char := "file".toList

class AddressLibrary where
  /-- Absolute addresses, as the library holds them. -/
  Url : Type
  parse? : String → Option Url
  /-- What a reference stands for, seen from an address. -/
  join? : Url → String → Option Url
  scheme : Url → List Char
  text : Url → String
  /-- The bytes of the path that an address names on this host. -/
  filePath? : Url → Option (List UInt8)
  ofFile? : String → Option Url
  ofDirectory? : String → Option Url

namespace AddressLibrary

/-- The address of an absolute path. A path that ends in a slash is a directory. -/
def ofPath? [AddressLibrary] (path : String) : Option Url :=
  if path.toList.getLast? == some '/' then ofDirectory? path else ofFile? path

end AddressLibrary
end Styling
