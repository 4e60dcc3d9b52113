import Styling.Address.Path

/-! # Reading addresses

The text of an address is read against a base, if there is one. Control characters and spaces
around it, and tabs and line ends anywhere in it, are dropped. A text without a scheme takes the
parts that it leaves out from the base.
-/
namespace Styling.Address
open AddressPath

def readFragment (cs : List Char) : Option (List Char) :=
  match cs with
  | '#' :: rest => some (Percent.encode Percent.inFragment rest)
  | _ => none

def withTail (a : Address) (cs : List Char) : Address :=
  match cs with
  | '?' :: rest =>
    let escaped := if a.kind.isSpecial then Percent.inSpecialQuery else Percent.inQuery
    { a with
      query := some (Percent.encode escaped (rest.takeWhile (· != '#')))
      fragment := readFragment (rest.dropWhile (· != '#')) }
  | _ => { a with query := none, fragment := readFragment cs }

def extendPath (a : Address) (cs : List Char) : Address :=
  let r := AddressPath.extend a.kind a.path cs
  { a with path := r.1 }.withTail r.2

def startPath (a : Address) (cs : List Char) : Address :=
  match cs with
  | [] => extendPath { a with path := if a.kind.isSpecial then ['/'] else [] } []
  | c :: rest =>
    if a.kind.isSlash c then extendPath { a with path := ['/'] } rest
    else if endsPath c && !a.kind.isSpecial then { a with path := [] }.withTail cs
    else extendPath { a with path := ['/'] } cs

def endsAuthority (k : SchemeKind) (c : Char) : Bool := k.isSlash c || endsPath c

/-- The credentials before the last `@` of an authority, and what follows them. There is no
result if nothing does. -/
def splitCredentials (k : SchemeKind) (cs : List Char) : Option (List Char × List Char) :=
  let authority := cs.takeWhile (!endsAuthority k ·)
  if authority.contains '@' then
    let host := (authority.reverse.takeWhile (· != '@')).reverse
    let user := authority.take (authority.length - host.length - 1)
    let rest := cs.drop (user.length + 1)
    if user.isEmpty && rest.head?.any (endsAuthority k) then none
    else
      let name := user.takeWhile (· != ':')
      let password := user.drop (name.length + 1)
      let text := Percent.encode Percent.inUserInfo name ++
        (if password.isEmpty then [] else ':' :: Percent.encode Percent.inUserInfo password)
      some (if text.isEmpty then [] else text ++ ['@'], rest)
  else some ([], cs)

/-- Splits a text where its host ends. A colon in brackets belongs to the host. -/
def splitHost (k : SchemeKind) (bracketed : Bool) : List Char → List Char × List Char
  | [] => ([], [])
  | c :: cs =>
    if endsAuthority k c || (c == ':' && !bracketed) then ([], c :: cs)
    else
      let r := splitHost k (if c == '[' then true else if c == ']' then false else bracketed) cs
      (c :: r.1, r.2)

/-- The number after a host, left out if the scheme implies it, and what follows it. -/
def readPortNumber (scheme cs : List Char) : Option (Option Nat × List Char) :=
  let digits := cs.takeWhile Char.isDigit
  let rest := cs.dropWhile Char.isDigit
  let number := digits.foldl (fun n c => 10 * n + (c.toNat - '0'.toNat)) 0
  if 65535 < number then none
  else if rest.head?.all fun c => c == '/' || c == '\\' || endsPath c then
    let implied := digits.isEmpty || defaultPortNumber? scheme == some number
    some (if implied then none else some number, rest)
  else none

def readAuthority (scheme cs : List Char) : Option Address := do
  let k := SchemeKind.of scheme
  let (credentials, cs) ← splitCredentials k cs
  let (hostText, rest) := splitHost k false cs
  let host ← if k.isSpecial then (if hostText.isEmpty then none else Host.ofSpecial? hostText)
    else Host.ofOther? hostText
  let (portNumber, rest) ← match rest with
    | ':' :: cs => if host.isEmpty then none else readPortNumber scheme cs
    | _ => some (none, rest)
  if host.isEmpty && !credentials.isEmpty then none
  else some (startPath ⟨scheme, some ⟨credentials, host, portNumber⟩, [], none, none⟩ rest)

def readOther (scheme cs : List Char) : Option Address :=
  match cs with
  | '/' :: '/' :: rest => readAuthority scheme rest
  | '/' :: rest => some (extendPath ⟨scheme, none, ['/'], none, none⟩ rest)
  | _ =>
    let path := cs.takeWhile (!endsPath ·)
    some ({ scheme := scheme, authority := none, path := Percent.encode isControl path,
            query := none, fragment := none : Address }.withTail (cs.dropWhile (!endsPath ·)))

def withFragment (base : Address) (cs : List Char) : Address :=
  { base with fragment := readFragment cs }

def withQuery (base : Address) (cs : List Char) : Address := base.withTail cs

def splitSlashes (cs : List Char) : Nat × List Char :=
  let rest := cs.dropWhile fun c => c == '/' || c == '\\'
  (cs.length - rest.length, rest)

def readRelative (base : Address) (cs : List Char) : Option Address :=
  match cs with
  | [] => some { base with fragment := none }
  | c :: rest =>
    if c == '?' then some (base.withQuery cs)
    else if c == '#' then some (base.withFragment cs)
    else if c == '/' || c == '\\' then
      let (slashes, afterSlashes) := splitSlashes cs
      if 2 ≤ slashes then
        readAuthority base.scheme
          (match cs with
            | '/' :: '/' :: cs => cs
            | _ => afterSlashes)
      else some (extendPath { base with path := ['/'] } rest)
    else
      let path := pop false base.path
      some (extendPath { base with path := if path.isEmpty then ['/'] else path } cs)

/-- The address of a file on a host. A path that begins with a drive letter has no host. -/
def ofFileOnHost (host cs : List Char) : Address :=
  let path := match cs with
    | c :: rest => if SchemeKind.isSlash .file c then rest else cs
    | [] => []
  let drive := isWrittenDrive (firstSegment (grow .file ['/'] path))
  startPath ⟨fileScheme, some (if drive then .empty else ⟨[], host, none⟩), [], none, none⟩ cs

def readFileHost (cs : List Char) : Option Address :=
  let ends (c : Char) : Bool := c == '/' || c == '\\' || endsPath c
  let hostText := cs.takeWhile (!ends ·)
  let rest := cs.dropWhile (!ends ·)
  let nameless (cs : List Char) : Address :=
    extendPath ⟨fileScheme, some .empty, ['/'], none, none⟩ cs
  if isDrive hostText then some (nameless cs)
  else if hostText.isEmpty then some (nameless rest)
  else
    (Host.ofSpecial? hostText).map fun host =>
      if host == "localhost".toList then nameless rest else ofFileOnHost host rest

def readFile (base : Option Address) (cs : List Char) : Option Address :=
  let rooted (cs : List Char) : Address :=
    extendPath ⟨fileScheme, some .empty, ['/'], none, none⟩ cs
  let isMark (c : Char) : Bool := c == '/' || c == '\\'
  match cs with
  | [] => some ((base.map fun b => { b with fragment := none }).getD (rooted []))
  | c :: rest =>
    if isMark c then
      if rest.head?.any isMark then readFileHost (rest.drop 1)
      else if startsWithDrive rest then
        some (extendPath ⟨fileScheme, some .empty, [], none, none⟩ cs)
      else
        match base with
        | none => some (extendPath ⟨fileScheme, some .empty, [], none, none⟩ cs)
        | some b =>
          let drive := firstSegment b.path
          if isWrittenDrive drive then
            some (extendPath ⟨fileScheme, some .empty, '/' :: drive, none, none⟩ cs)
          else
            let host := (b.host?).getD []
            some (extendPath ⟨fileScheme, some ⟨[], host, none⟩, [], none, none⟩ cs)
    else
      match base with
      | none => some (rooted cs)
      | some b =>
        if c == '?' then some (b.withQuery cs)
        else if c == '#' then some (b.withFragment cs)
        else if startsWithDrive cs then some (rooted cs)
        else some (extendPath { b with path := pop true b.path } cs)

def isSchemeChar (c : Char) : Bool := c.isAlphanum || c == '+' || c == '-' || c == '.'

def splitScheme (cs : List Char) : Option (List Char × List Char) :=
  let scheme := cs.takeWhile isSchemeChar
  if scheme.head?.any Char.isAlpha then
    match cs.dropWhile isSchemeChar with
    | ':' :: rest => some (scheme.map Char.toLower, rest)
    | _ => none
  else none

def clean (cs : List Char) : List Char :=
  let isEdge (c : Char) : Bool := c.toNat ≤ 0x20
  let trimmed := ((cs.dropWhile isEdge).reverse.dropWhile isEdge).reverse
  trimmed.filter fun c => !(c == '\t' || c == '\n' || c == '\r')

def readWithScheme (base : Option Address) (scheme cs : List Char) : Option Address :=
  match SchemeKind.of scheme with
  | .file => readFile (base.filter fun b => b.kind == .file) cs
  | .hosted =>
    let (slashes, rest) := splitSlashes cs
    match base.filter fun b => b.scheme == scheme with
    | some b => if slashes < 2 then readRelative b cs else readAuthority scheme rest
    | none => readAuthority scheme rest
  | .other => readOther scheme cs

def read? (base : Option Address) (text : String) : Option Address :=
  let cs := clean text.toList
  match splitScheme cs with
  | some (scheme, rest) => readWithScheme base scheme rest
  | none =>
    match base with
    | none => none
    | some b =>
      if cs.head? == some '#' then some (b.withFragment cs)
      else if b.isOpaque then none
      else if b.kind == .file then readFile base cs
      else readRelative b cs

end Styling.Address
