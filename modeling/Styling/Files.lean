import Styling.Text.Pieces
import Styling.Text.Utf8

/-! # Files

A tree of files below a working directory, and reading a text from it. Nothing outside the
working directory can be read; the directories above it exist. Names and contents are bytes.
-/
namespace Styling

inductive ReadError
  | missing
  | isDirectory
  | notDirectory
  | nameTooLong
  | nulInName
  | notText
  /-- Anything else that a system may report. -/
  | other (message : String)
  deriving DecidableEq, Repr

def ReadError.message : ReadError → String
  | missing => "No such file or directory (os error 2)"
  | isDirectory => "Is a directory (os error 21)"
  | notDirectory => "Not a directory (os error 20)"
  | nameTooLong => "File name too long (os error 36)"
  | nulInName => "file name contained an unexpected NUL byte"
  | notText => "stream did not contain valid UTF-8"
  | other message => message

abbrev TextReader := List UInt8 → Except ReadError String

abbrev FileName := List UInt8

inductive FileNode
  | directory
  | file (content : List UInt8)
  deriving DecidableEq, Repr

structure Files where
  entries : List (List FileName × FileNode)

namespace Files

def empty : Files := ⟨[]⟩

def slash : UInt8 := 0x2f
def dot : UInt8 := 0x2e
def longestName : Nat := 255
def longestPath : Nat := 4096

def names : List UInt8 → List FileName
  | [] => [[]]
  | b :: bs =>
    if b == slash then [] :: names bs
    else
      match names bs with
      | [] => [[b]]
      | name :: rest => (b :: name) :: rest

def node? (f : Files) : List FileName → Option FileNode
  | [] => some .directory
  | path => f.entries.lookup path

/-- A place during a walk: some levels above the working directory, or below it. -/
inductive Place
  | above (levels : Nat)
  | below (path : List FileName)

def enter (f : Files) (place : Place) (name : FileName) : Except ReadError Place :=
  match place with
  | .above n =>
    if name == [] || name == [dot] then .ok (.above n)
    else if name == [dot, dot] then .ok (.above (n + 1))
    else if longestName < name.length then .error .nameTooLong
    else .error .missing
  | .below path =>
    match f.node? path with
    | some .directory =>
      if name == [] || name == [dot] then .ok place
      else if name == [dot, dot] then
        .ok (if path.isEmpty then .above 0 else .below path.dropLast)
      else if longestName < name.length then .error .nameTooLong
      else if (f.node? (path ++ [name])).isSome then .ok (.below (path ++ [name]))
      else .error .missing
    | some (.file _) => .error .notDirectory
    | none => .error .missing

def walk (f : Files) (place : Place) : List FileName → Except ReadError Place
  | [] => .ok place
  | name :: rest =>
    match f.enter place name with
    | .error e => .error e
    | .ok place => walk f place rest

/-- The bytes of the file at a path. Above the working directory there are only directories; an
absolute path leads above every level. -/
def readBytes (f : Files) (path : List UInt8) : Except ReadError (List UInt8) :=
  if path.contains 0 then .error .nulInName
  else if path.isEmpty then .error .missing
  else if longestPath ≤ path.length then .error .nameTooLong
  else
    let start := if path.head? == some slash then Place.above 0 else .below []
    match f.walk start (names path) with
    | .error e => .error e
    | .ok (.above _) => .error .isDirectory
    | .ok (.below path) =>
      match f.node? path with
      | some (.file content) => .ok content
      | some .directory => .error .isDirectory
      | none => .error .missing

def textOf (bytes : List UInt8) : Except ReadError String :=
  match Utf8.decode? bytes with
  | some cs => .ok (String.ofList cs)
  | none => .error .notText

def read (f : Files) : TextReader := fun path =>
  match f.readBytes path with
  | .error e => .error e
  | .ok bytes => textOf bytes

def pathOf (path : String) : List FileName :=
  (names (Utf8.encode path.toList)).filter fun name => !(name == [] || name == [dot])

def setNode (f : Files) (path : List FileName) (node : FileNode) : Files :=
  ⟨(path, node) :: f.entries.filter (·.1 != path)⟩

def put (f : Files) (path : String) (node : FileNode) : Files :=
  let path := pathOf path
  let parents := (List.range path.length).drop 1 |>.map path.take
  (parents.foldl (fun f p => if (f.node? p).isSome then f else f.setNode p .directory) f).setNode
    path node

def remove (f : Files) (path : String) : Files :=
  ⟨f.entries.filter (·.1 != pathOf path)⟩

end Files
end Styling
