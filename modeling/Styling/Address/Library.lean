import Styling.Address.Reader

/-! # Addresses as a library

The addresses of this project as a library, for the program to run with. They follow the standard
of addresses, except for names of hosts beyond ASCII: of these only letters of the Latin, Greek
and Cyrillic scripts are mapped, and nothing is normalized.
-/
namespace Styling
namespace Address

def ofPath? (directory : Bool) (path : List Char) : Option Address :=
  if FilePath.isAbsolute path then
    let segments := (FilePath.names path).flatMap fun name =>
      '/' :: Percent.encode Percent.inFileSegment name
    some
      { scheme := fileScheme, authority := some .empty
        path := if directory || segments.isEmpty then segments ++ ['/'] else segments
        query := none, fragment := none }
  else none

/-- The bytes of the path that an address names on this host. A drive letter at the end of a
path is a directory. -/
def toPath? (a : Address) : Option (List UInt8) :=
  match a.path with
  | '/' :: _ =>
    if a.host?.all (· == "localhost".toList) then
      let bytes := Percent.decode a.path
      let drive := match bytes.reverse with
        | m :: l :: _ :: _ => AddressPath.isDrive [Char.ofNat l.toNat, Char.ofNat m.toNat]
        | _ => false
      some (if drive then bytes ++ ['/'.toUInt8] else bytes)
    else none
  | _ => none

end Address

instance : AddressLibrary where
  Url := Address
  parse? := Address.read? none
  join? base := Address.read? (some base)
  scheme := Address.scheme
  text := Address.text
  filePath? := Address.toPath?
  ofFile? path := Address.ofPath? false path.toList
  ofDirectory? path := Address.ofPath? true path.toList

instance : DecidableEq AddressLibrary.Url := inferInstanceAs (DecidableEq Address)

end Styling
