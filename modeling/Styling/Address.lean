import Styling.Address.Host
import Styling.AddressLibrary

/-! # Addresses

The parts of an absolute address, each as it is written, and the address they make up. An
address without authority whose path does not begin with a slash has an opaque path, which
nothing can be resolved against.
-/
namespace Styling

structure Authority where
  /-- User name and password with their `@`, or nothing. -/
  credentials : List Char
  host : List Char
  portNumber : Option Nat
  deriving DecidableEq, Repr

structure Address where
  scheme : List Char
  authority : Option Authority
  path : List Char
  query : Option (List Char)
  fragment : Option (List Char)
  deriving DecidableEq, Repr

inductive SchemeKind
  | file
  /-- Known schemes other than `file`, whose addresses must have a host. -/
  | hosted
  | other
  deriving DecidableEq, Repr

namespace SchemeKind

def of (scheme : List Char) : SchemeKind :=
  if scheme == fileScheme then file
  else if ["http", "https", "ws", "wss", "ftp"].any (·.toList == scheme) then hosted
  else other

/-- In known schemes a backslash is a slash. -/
def isSpecial : SchemeKind → Bool
  | other => false
  | _ => true

def isSlash (k : SchemeKind) (c : Char) : Bool := c == '/' || (k.isSpecial && c == '\\')

end SchemeKind

def defaultPortNumber? (scheme : List Char) : Option Nat :=
  (([("http", 80), ("ws", 80), ("https", 443), ("wss", 443), ("ftp", 21)] :
    List (String × Nat)).find? (·.1.toList == scheme)).map Prod.snd

namespace Authority

def empty : Authority := ⟨[], [], none⟩

def chars (a : Authority) : List Char :=
  a.credentials ++ a.host ++
    (match a.portNumber with
      | some p => ':' :: (toString p).toList
      | none => [])

end Authority

namespace Address

def kind (a : Address) : SchemeKind := .of a.scheme

/-- An address without authority may not seem to have one, so a path that begins with two
slashes is written after `/.`. -/
def authorityChars (a : Address) : List Char :=
  match a.authority with
  | some authority => ['/', '/'] ++ authority.chars
  | none => if ['/', '/'].isPrefixOf a.path then ['/', '.'] else []

def tailChars (mark : Char) : Option (List Char) → List Char
  | some cs => mark :: cs
  | none => []

def chars (a : Address) : List Char :=
  a.scheme ++ [':'] ++ a.authorityChars ++ a.path ++ tailChars '?' a.query ++
    tailChars '#' a.fragment

def text (a : Address) : String := String.ofList a.chars

def isOpaque (a : Address) : Bool := a.authority.isNone && a.path.head? != some '/'

/-- A host that is not empty. -/
def host? (a : Address) : Option (List Char) :=
  (a.authority.map Authority.host).filter (!·.isEmpty)

end Address
end Styling
