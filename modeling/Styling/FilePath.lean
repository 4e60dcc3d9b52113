import Styling.Text.Pieces

/-! # File paths

Paths are texts whose names are set apart by slashes. Empty names and `.` name nothing, except a
`.` at the front of a relative path; `..` is kept as it is.
-/
namespace Styling.FilePath

def isAbsolute (path : List Char) : Bool := path.head? == some '/'

def namesNothing (name : List Char) : Bool := name.isEmpty || name == ['.']

/-- An absolute path without empty names, `.` and `..`; with a slash at its end it is a
directory. -/
def Plain (home : List Char) : Prop :=
  ∃ names directory, home = names.flatMap ('/' :: ·) ++ (if directory then ['/'] else []) ∧
    (names = [] → directory = true) ∧ ∀ n ∈ names, '/' ∉ n ∧ n ∉ [[], ['.'], ['.', '.']]

def names (path : List Char) : List (List Char) :=
  (pieces '/' path).filter (!namesNothing ·)

/-- The part of a path that no parent loses: its root, or its leading `.`. -/
def anchor (path : List Char) : List Char :=
  match path with
  | '/' :: _ => ['/']
  | ['.'] => ['.']
  | '.' :: '/' :: _ => ['.']
  | _ => []

def trimNames (names : List (List Char)) : List (List Char) :=
  (names.reverse.dropWhile namesNothing).reverse

/-- The directory of a path, as it is written; nothing for a path without names. -/
def parent (path : List Char) : List Char :=
  let front := anchor path
  let body := trimNames (pieces '/' (path.drop front.length))
  if body.isEmpty then [] else front ++ joinPieces '/' (trimNames body.dropLast)

def join (directory path : List Char) : List Char :=
  if isAbsolute path || directory.isEmpty then path
  else if directory.getLast? == some '/' then directory ++ path
  else directory ++ '/' :: path

end Styling.FilePath
