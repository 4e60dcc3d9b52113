import Styling.Files
import Styling.Reference
import Styling.Sheet.Reader
import Styling.Text.Quoted

/-! # Sources of style sheets

A style sheet is read from a location or given as its text. Locations are resolved when a sheet
is added, and from then on the source is its key. Compiling a source reads and parses it.
-/
namespace Styling

inductive Source
  | location (reference : String)
  | literal (text : String)
  deriving DecidableEq, Repr

inductive LoadError
  | unreadable (reference : String) (why : ReadError)
  | unsupportedScheme (reference scheme : String)
  deriving DecidableEq, Repr

def LoadError.message : LoadError → String
  | unreadable reference why => "failed to read stylesheet " ++ reference ++ ": " ++ why.message
  | unsupportedScheme reference scheme =>
    "unsupported scheme '" ++ scheme ++ "' in stylesheet URI " ++ reference

abbrev Outcome := Except LoadError ParsedSheet

def firstLine (cs : List Char) : List Char :=
  let line := cs.takeWhile (· != '\n')
  if line.length < cs.length && line.getLast? == some '\r' then line.dropLast else line

namespace Source

def resolve [AddressLibrary] (home : Option String) : Source → Source
  | location reference => location (Reference.resolve reference home)
  | literal text => literal text

/-- What is shown for a source: its location, or the first line of its text. -/
def display : Source → String
  | location reference => reference
  | literal text =>
    let cs := text.toList
    let line := firstLine cs
    "<literal: " ++ String.ofList line ++ (if line.length < cs.length then "...>" else ">")

def label : Source → String
  | location reference => "Uri(" ++ Quoted.string reference ++ ")"
  | literal text => "Literal(" ++ Quoted.string text ++ ")"

def isLiteral : Source → Bool
  | literal _ => true
  | location _ => false

def text? [AddressLibrary] (read : TextReader) : Source → Except LoadError String
  | literal text => .ok text
  | location reference =>
    match Reference.path? reference with
    | none => .error (.unsupportedScheme reference ((Reference.scheme? reference).getD ""))
    | some path =>
      match read path with
      | .error why => .error (.unreadable reference why)
      | .ok text => .ok text

def compile [AddressLibrary] (read : TextReader) (s : Source) : Outcome :=
  (s.text? read).map ParsedSheet.ofText

theorem compile_literal [AddressLibrary] (read : TextReader) (text : String) :
    (literal text).compile read = .ok (ParsedSheet.ofText text) := rfl

end Source
end Styling
