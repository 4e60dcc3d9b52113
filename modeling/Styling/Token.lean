/-! # Tokens

The tokens of style sheet text. A numeric token keeps the numeral as it was written; its value
and whether it is whole are functions of that numeral. A token knows the characters it spans
and the line on which it starts.
-/
namespace Styling

inductive Bracket
  | round | square | curly
  deriving DecidableEq, Repr

/-- The operators `~=`, `|=`, `^=`, `$=` and `*=` of attribute tests, in this order. -/
inductive MatchOp
  | word | dash | beginning | ending | substring
  deriving DecidableEq, Repr

/-- Whether the text after `#` could also stand alone as an identifier. -/
inductive HashKind
  | id | unrestricted
  deriving DecidableEq, Repr

inductive Kind
  | ident (name : String)
  | function (name : String)
  | atKeyword (name : String)
  | hash (value : String) (kind : HashKind)
  | string (value : String)
  /-- A string that a line end breaks off. -/
  | badString
  | url (value : String)
  | delim (c : Char)
  | number (numeral : String)
  | percentage (numeral : String)
  | dimension (numeral unit : String)
  | attrMatch (op : MatchOp)
  | comment (text : String)
  | blank
  /-- The mark `<!--`. -/
  | cdo
  /-- The mark `-->`. -/
  | cdc
  | colon
  | semicolon
  | comma
  | opening (bracket : Bracket)
  | closing (bracket : Bracket)
  | eof
  deriving DecidableEq, Repr

/-- A kind with the half-open span `[start, stop)` of characters it was read from. -/
structure Token where
  kind : Kind
  start : Nat
  stop : Nat
  line : Nat
  deriving DecidableEq, Repr

namespace Kind

def isBlank : Kind → Bool
  | blank => true
  | _ => false

def isComment : Kind → Bool
  | comment _ => true
  | _ => false

def isEof : Kind → Bool
  | eof => true
  | _ => false

def opens? : Kind → Option Bracket
  | function _ => some .round
  | opening b => some b
  | _ => none

end Kind
end Styling
