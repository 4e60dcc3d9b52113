import Styling.Address

/-! # Paths of addresses

A path is built segment by segment behind a path that is already there. The segments `.` and
`..`, also with their dots percent-encoded, go nowhere and up; a drive letter is not left again.
In a file address the first segment may be such a letter, which is then written with a colon.
-/
namespace Styling.AddressPath

def isDriveMark (c : Char) : Bool := c == ':' || c == '|'

def isDrive : List Char → Bool
  | [a, m] => a.isAlpha && isDriveMark m
  | _ => false

def isWrittenDrive : List Char → Bool
  | [a, ':'] => a.isAlpha
  | _ => false

def startsWithDrive : List Char → Bool
  | [a, m] => a.isAlpha && isDriveMark m
  | a :: m :: c :: _ => a.isAlpha && isDriveMark m && (c == '/' || c == '\\' || c == '?' || c == '#')
  | _ => false

def encodedDot : List (List Char) := [".".toList, "%2e".toList, "%2E".toList]

def isSingleDot (segment : List Char) : Bool := encodedDot.contains segment

def isDoubleDot (segment : List Char) : Bool :=
  encodedDot.any fun a => encodedDot.any fun b => a ++ b == segment

def endsInSlash (path : List Char) : Bool := path.getLast? == some '/'

def splitLast (path : List Char) : List Char × List Char :=
  let last := (path.reverse.takeWhile (· != '/')).reverse
  (path.take (path.length - last.length), last)

/-- Drops the last segment; in a file address a drive letter stays. -/
def pop (file : Bool) (path : List Char) : List Char :=
  let (front, last) := splitLast path
  if file && isWrittenDrive last then path else front

/-- Whether the slash at the end of a path ends a segment that can be left. -/
def slashRemovable (path : List Char) : Bool :=
  let (front, last) := splitLast path.dropLast
  !front.isEmpty && !startsWithDrive (last ++ ['/'])

def dropSlash (path : List Char) : List Char :=
  if endsInSlash path && slashRemovable path then path.dropLast else path

def addSlash (path : List Char) : List Char := if endsInSlash path then path else path ++ ['/']

def add (file : Bool) (path : List Char) (segment : List Char) (slash : Bool) : List Char :=
  let path := if file && isWrittenDrive (path.drop 1) && !segment.isEmpty then path ++ ['/'] else path
  if isDoubleDot segment then
    let up := pop file (dropSlash path)
    if slash then addSlash up else up
  else if isSingleDot segment then addSlash path
  else
    let segment := match segment with
      | [a, _] => if file && path.length == 1 && isDrive segment then [a, ':'] else segment
      | _ => segment
    path ++ segment ++ (if slash then ['/'] else [])

def addAll (file : Bool) (path : List Char) : List (List Char) → List Char
  | [] => path
  | [last] => add file path last false
  | segment :: rest => addAll file (add file path segment true) rest

def trimRoot (path : List Char) : List Char := '/' :: path.dropWhile (· == '/')

def endsPath (c : Char) : Bool := c == '?' || c == '#'

def grow (k : SchemeKind) (path cs : List Char) : List Char :=
  let body := cs.takeWhile (!endsPath ·)
  addAll (k == .file) path ((piecesBy k.isSlash body).map (Percent.encode Percent.inPath))

def extend (k : SchemeKind) (path cs : List Char) : List Char × List Char :=
  let path := grow k path cs
  (if k == .file then trimRoot path else path, cs.dropWhile (!endsPath ·))

def firstSegment (path : List Char) : List Char := (path.drop 1).takeWhile (· != '/')

end Styling.AddressPath
