import Styling.Numeral
import Styling.Numeral.Shortest
import Styling.Text.Quoted
import Styling.Token

/-! # The names of tokens

Every kind of token has a name. Its label, for a reader who inspects tokens, is the name with
what the token holds, values in quotes.
-/
namespace Styling

namespace MatchOp

def name : MatchOp → String
  | word => "IncludeMatch"
  | dash => "DashMatch"
  | beginning => "PrefixMatch"
  | ending => "SuffixMatch"
  | substring => "SubstringMatch"

end MatchOp

namespace Bracket

def name : Bracket → String
  | round => "Paren"
  | square => "Bracket"
  | curly => "Brace"

end Bracket

def HashKind.name : HashKind → String
  | .id => "Id"
  | .unrestricted => "Unrestricted"

namespace Numeral

def typeName (numeral : String) : String := if isWhole numeral then "Integer" else "Number"

/-- Numbers between `10 ^ -4` and `10 ^ 16` are shown positionally. -/
def labelLayout : Shortest.Layout := ⟨-4, 16⟩

def valueLabel (numeral : String) : String :=
  let w := word numeral
  if w % Binary.signBit < Binary.infinity then Shortest.text labelLayout w
  else if w < Binary.signBit then "inf"
  else "-inf"

end Numeral
namespace Kind

def name : Kind → String
  | ident _ => "Ident"
  | function _ => "Function"
  | atKeyword _ => "AtKeyword"
  | hash _ _ => "Hash"
  | string _ => "String"
  | badString => "BadString"
  | url _ => "Url"
  | delim _ => "Delim"
  | number _ => "Number"
  | percentage _ => "Percentage"
  | dimension _ _ => "Dimension"
  | attrMatch op => op.name
  | comment _ => "Comment"
  | blank => "Whitespace"
  | cdo => "CDO"
  | cdc => "CDC"
  | colon => "Colon"
  | semicolon => "Semicolon"
  | comma => "Comma"
  | opening b => "Left" ++ b.name
  | closing b => "Right" ++ b.name
  | eof => "EOF"

def partsLabel (parts : List (String × String)) : String :=
  " \x7b " ++ ", ".intercalate (parts.map fun p => p.1 ++ ": " ++ p.2) ++ " \x7d"

def numericParts (numeral : String) : List (String × String) :=
  [("value", Numeral.valueLabel numeral), ("repr", Quoted.string numeral),
    ("numeric_type", Numeral.typeName numeral)]

def payloadLabel : Kind → String
  | ident s | function s | atKeyword s | string s | url s | comment s =>
    "(" ++ Quoted.string s ++ ")"
  | delim c => "(" ++ Quoted.char c ++ ")"
  | hash value kind => partsLabel [("value", Quoted.string value), ("hash_type", kind.name)]
  | number numeral | percentage numeral => partsLabel (numericParts numeral)
  | dimension numeral unit =>
    partsLabel (numericParts numeral ++ [("unit", Quoted.string unit)])
  | _ => ""

def label (k : Kind) : String := k.name ++ k.payloadLabel

end Kind
end Styling
