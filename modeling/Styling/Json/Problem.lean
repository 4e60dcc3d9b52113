import Styling.Numeral.Shortest
import Styling.Json
import Styling.Text.Quoted
import Styling.Text.Utf8

/-! # Problems in JSON text

What can be wrong with a JSON text that is read for data of a known form, where it lies, and how
it is reported. Lines count from one, columns count the bytes of a line.
-/
namespace Styling.Json

inductive Found
  | null
  | bool (value : Bool)
  | integer (value : Int)
  | real (word : Nat)
  | string (value : String)
  | list
  | record
  deriving DecidableEq, Repr

def Found.text : Found → String
  | null => "null"
  | bool value => "boolean `" ++ toString value ++ "`"
  | integer value => "integer `" ++ toString value ++ "`"
  | real word => "floating point `" ++ Shortest.text layout word ++ "`"
  | string value => "string " ++ Quoted.string value
  | list => "sequence"
  | record => "map"

inductive Problem
  | unfinishedValue
  | unfinishedRecord
  | unfinishedList
  | unfinishedString
  | expectedValue
  /-- A word that begins like `null`, `true` or `false` is none of them. -/
  | expectedWord
  | expectedColon
  | expectedFieldEnd
  | expectedItemEnd
  | nameNotString
  | trailingComma
  | trailingText
  | invalidNumber
  | numberOutOfRange
  | controlInString
  | invalidEscape
  | loneSurrogate
  | missingSurrogate
  | mismatch (found : Found) (wanted : String)
  | outOfRange (value : Int) (wanted : String)
  | unknownField (name : String) (known : List String)
  | repeatedField (name : String)
  deriving DecidableEq, Repr

namespace Problem

def backquoted (s : String) : String := "`" ++ s ++ "`"

def message : Problem → String
  | unfinishedValue => "EOF while parsing a value"
  | unfinishedRecord => "EOF while parsing an object"
  | unfinishedList => "EOF while parsing a list"
  | unfinishedString => "EOF while parsing a string"
  | expectedValue => "expected value"
  | expectedWord => "expected ident"
  | expectedColon => "expected `:`"
  | expectedFieldEnd => "expected `,` or `\x7d`"
  | expectedItemEnd => "expected `,` or `]`"
  | nameNotString => "key must be a string"
  | trailingComma => "trailing comma"
  | trailingText => "trailing characters"
  | invalidNumber => "invalid number"
  | numberOutOfRange => "number out of range"
  | controlInString => "control character (\\u0000-\\u001F) found while parsing a string"
  | invalidEscape => "invalid escape"
  | loneSurrogate => "lone leading surrogate in hex escape"
  | missingSurrogate => "unexpected end of hex escape"
  | mismatch found wanted => "invalid type: " ++ found.text ++ ", expected " ++ wanted
  | outOfRange value wanted =>
    "invalid value: integer " ++ backquoted (toString value) ++ ", expected " ++ wanted
  | unknownField name known =>
    "unknown field " ++ backquoted name ++ ", expected " ++
      " or ".intercalate (known.map backquoted)
  | repeatedField name => "duplicate field " ++ backquoted name

end Problem

/-- A problem, and what is left of the text where it shows: it lies some bytes further on, but
not behind the end. -/
structure Stop where
  problem : Problem
  rest : List Char
  ahead : Nat
  deriving DecidableEq, Repr

def Stop.before (problem : Problem) (rest : List Char) : Stop := ⟨problem, rest, 0⟩

/-- The problem lies at the first byte that is left, which counts as read. -/
def Stop.past (problem : Problem) (rest : List Char) : Stop := ⟨problem, rest, 1⟩

abbrev Scan (α : Type) := Except Stop (α × List Char)

structure Fault where
  problem : Problem
  line : Nat
  column : Nat
  deriving DecidableEq, Repr

namespace Fault

def ofStop (text : List Char) (s : Stop) : Fault :=
  let bytes := Utf8.encode text
  let left := (Utf8.encode s.rest).length - s.ahead
  let consumed := bytes.take (bytes.length - left)
  ⟨s.problem, 1 + consumed.count 0x0a, (consumed.reverse.takeWhile (· != 0x0a)).length⟩

def text (f : Fault) : String :=
  f.problem.message ++ " at line " ++ toString f.line ++ " column " ++ toString f.column

end Fault
end Styling.Json
