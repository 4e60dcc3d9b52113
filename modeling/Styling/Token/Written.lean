import Styling.Text.Classes
import Styling.Text.Hex
import Styling.Token

/-! # The text of tokens

Identifiers and strings are escaped so that reading them again gives the same value. Two tokens
that would run together are written with an empty comment between them; `needsSeparator` says
which pairs those are.
-/
namespace Styling

def hexEscape (c : Char) : List Char := '\\' :: hexText c.toNat ++ [' ']

def nameCharText (c : Char) : List Char :=
  if c.isAlphanum || c == '-' || c == '_' || isNonAscii c then [c]
  else if isControl c then hexEscape c
  else ['\\', c]

/-- A name after `#` or a numeral, where a leading digit needs no escape. -/
def nameText (name : List Char) : List Char := name.flatMap nameCharText

def leadingDigitText : List Char → List Char
  | [] => []
  | c :: cs => (if c.isDigit then hexEscape c else nameCharText c) ++ nameText cs

/-- A name that stands alone. A digit may not be its first character, nor follow a leading
hyphen. -/
def identifierText : List Char → List Char
  | '-' :: cs => '-' :: leadingDigitText cs
  | cs => leadingDigitText cs

def stringCharText (c : Char) : List Char :=
  if c == '"' || c == '\\' then ['\\', c]
  else if isControl c then hexEscape c
  else [c]

def stringText (value : List Char) : List Char := '"' :: value.flatMap stringCharText ++ ['"']

def MatchOp.text : MatchOp → String
  | .word => "~="
  | .dash => "|="
  | .beginning => "^="
  | .ending => "$="
  | .substring => "*="

namespace Bracket

def openText : Bracket → List Char
  | round => ['(']
  | square => ['[']
  | curly => ['\x7b']

def closeText : Bracket → List Char
  | round => [')']
  | square => [']']
  | curly => ['\x7d']

end Bracket
namespace Kind

def chars : Kind → List Char
  | ident name => identifierText name.toList
  | function name => identifierText name.toList ++ ['(']
  | atKeyword name => '@' :: identifierText name.toList
  | hash value _ => '#' :: nameText value.toList
  | string value => stringText value.toList
  | badString => ['"', '\n']
  | url value => ['u', 'r', 'l', '('] ++ stringText value.toList ++ [')']
  | delim c => [c]
  | number numeral => numeral.toList
  | percentage numeral => numeral.toList ++ ['%']
  | dimension numeral unit => numeral.toList ++ nameText unit.toList
  | attrMatch op => op.text.toList
  | comment text => ['/', '*'] ++ text.toList ++ ['*', '/']
  | blank => [' ']
  | cdo => ['<', '!', '-', '-']
  | cdc => ['-', '-', '>']
  | colon => [':']
  | semicolon => [';']
  | comma => [',']
  | opening b => b.openText
  | closing b => b.closeText
  | eof => []

def text (k : Kind) : String := String.ofList k.chars

def isIdentLike : Kind → Bool
  | ident _ | function _ | url _ => true
  | _ => false

def isNumeric : Kind → Bool
  | number _ | percentage _ | dimension _ _ => true
  | _ => false

/-- Whether `next` written directly after `k` would be read as something else. -/
def needsSeparator (k next : Kind) : Bool :=
  let minus := next == delim '-'
  match k with
  | ident _ =>
    next.isIdentLike || next.isNumeric || minus || next == cdc || next == opening .round
  | atKeyword _ | hash _ _ | dimension _ _ =>
    next.isIdentLike || next.isNumeric || minus || next == cdc
  | delim '#' | delim '-' => next.isIdentLike || next.isNumeric || minus
  | number _ => next.isIdentLike || next.isNumeric || next == delim '%'
  | delim '@' => next.isIdentLike || minus
  | delim '.' | delim '+' => next.isNumeric
  | delim '/' => next == delim '*'
  | delim '<' => next == delim '!'
  | delim '~' | delim '|' | delim '^' | delim '$' | delim '*' => next == delim '='
  | _ => false

def charsAfter (k next : Kind) : List Char :=
  (if k.needsSeparator next then ['/', '*', '*', '/'] else []) ++ next.chars

def listCharsAfter (k : Kind) : List Kind → List Char
  | [] => []
  | next :: rest => k.charsAfter next ++ next.listCharsAfter rest

def listChars : List Kind → List Char
  | [] => []
  | k :: rest => k.chars ++ k.listCharsAfter rest

/-- A sequence of tokens, with an empty comment wherever one is needed. -/
def listText (kinds : List Kind) : String := String.ofList (listChars kinds)

end Kind
end Styling
