import Styling.Text.Hex
import Styling.Text.Utf8

/-! # Percent encoding

Each part of an address has a set of characters that are written as their bytes in hexadecimal;
characters outside ASCII always are. Decoding gives bytes, and leaves a percent sign that no two
digits follow as it is.
-/
namespace Styling.Percent

def byteText (b : UInt8) : List Char := '%' :: upperHexPadded 2 b.toNat

def encodeChar (escaped : Char → Bool) (c : Char) : List Char :=
  if isNonAscii c || escaped c then (String.utf8EncodeChar c).flatMap byteText else [c]

def encode (escaped : Char → Bool) (cs : List Char) : List Char := cs.flatMap (encodeChar escaped)

def inFragment (c : Char) : Bool := isControl c || " \"<>`".toList.contains c

def inPath (c : Char) : Bool := inFragment c || "#?\x7b\x7d".toList.contains c

def inUserInfo (c : Char) : Bool := inPath c || "/:;=@[\\]^|".toList.contains c

def inQuery (c : Char) : Bool := isControl c || " \"#<>".toList.contains c

def inSpecialQuery (c : Char) : Bool := inQuery c || c == '\''

/-- A segment of a file path, in which a percent sign means itself. -/
def inFileSegment (c : Char) : Bool := inPath c || "/%\\".toList.contains c

def decode : List Char → List UInt8
  | [] => []
  | '%' :: a :: b :: cs =>
    if isHexDigit a && isHexDigit b then
      UInt8.ofNat (16 * hexDigitValue a + hexDigitValue b) :: decode cs
    else 0x25 :: decode (a :: b :: cs)
  | c :: cs => String.utf8EncodeChar c ++ decode cs
termination_by cs => cs.length

end Styling.Percent
