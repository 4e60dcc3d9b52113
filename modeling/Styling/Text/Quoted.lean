import Styling.Text.Hex
import Styling.Text.Printable

/-! # Texts quoted for a reader

A text between quotes, on one line: the quote and the backslash are escaped, common controls by
a letter, and other characters that are not printable by their code.
-/
namespace Styling.Quoted

def charText (quote c : Char) : List Char :=
  if c == '\x00' then ['\\', '0']
  else if c == '\t' then ['\\', 't']
  else if c == '\r' then ['\\', 'r']
  else if c == '\n' then ['\\', 'n']
  else if c == '\\' || c == quote then ['\\', c]
  else if isPrintable c then [c]
  else ['\\', 'u', '\x7b'] ++ hexText c.toNat ++ ['\x7d']

def text (quote : Char) (cs : List Char) : String :=
  String.ofList (quote :: cs.flatMap (charText quote) ++ [quote])

def string (s : String) : String := text '"' s.toList

def char (c : Char) : String := text '\'' [c]

end Styling.Quoted
