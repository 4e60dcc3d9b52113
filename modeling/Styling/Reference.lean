import Styling.AddressLibrary

/-! # References to style sheets

A style sheet is named by an absolute address or relative to the document that refers to it. The
home of that document is an address or a path; a path that ends in a slash is a directory, and
any other path a file in one. Schemes of one letter are drive letters, so such text is a path.
-/
namespace Styling.Reference
open AddressLibrary

def absolute? [AddressLibrary] (text : String) : Option Url :=
  (parse? text).filter fun a => 1 < (scheme a).length

/-- Resolves a reference against the path of a document, by way of the path's file address. -/
def resolveOnPath? [AddressLibrary] (reference home : String) : Option String :=
  if FilePath.isAbsolute home.toList then
    ((ofPath? home).bind fun base => (join? base reference).bind filePath?).map
      fun bytes => String.ofList (Utf8.decodeLossy bytes)
  else none

def joinPath (reference home : String) : String :=
  let home := home.toList
  let directory := if home.getLast? == some '/' then home else FilePath.parent home
  String.ofList (FilePath.join directory reference.toList)

def resolve [AddressLibrary] (reference : String) (home : Option String) : String :=
  if (absolute? reference).isSome then reference
  else
    match home with
    | none => reference
    | some home =>
      match absolute? home with
      | some base => ((join? base reference).map text).getD reference
      | none => (resolveOnPath? reference home).getD (joinPath reference home)

/-- The bytes of the path of a resolved reference, if it names a file on this host. -/
def path? [AddressLibrary] (reference : String) : Option (List UInt8) :=
  match absolute? reference with
  | some a => if scheme a == fileScheme then filePath? a else none
  | none => some (Utf8.encode reference.toList)

def scheme? [AddressLibrary] (reference : String) : Option String :=
  (absolute? reference).map fun _ => String.ofList (reference.toList.takeWhile (· != ':'))

end Styling.Reference
