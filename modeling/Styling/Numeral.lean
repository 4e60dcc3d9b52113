import Styling.Text.Classes
import Styling.Numeral.Binary

/-! # The values of numerals

A numeral is a sign, digits with at most one point, and an exponent; the words for infinity and
for no number are numerals too. Its value is the 64-bit floating-point word nearest to it. Text
that is no numeral has the value zero.
-/
namespace Styling.Numeral

inductive Reading
  /-- The number `digits · 10 ^ exponent`, where `digits` was written with `size` digits. -/
  | finite (negative : Bool) (digits size : Nat) (exponent : Int)
  | infinite (negative : Bool)
  | notANumber (negative : Bool)
  deriving DecidableEq, Repr

def digitsValue (digits : List Char) : Nat :=
  digits.foldl (fun n c => 10 * n + (c.toNat - '0'.toNat)) 0

def splitSign : List Char → Bool × List Char
  | '-' :: cs => (true, cs)
  | '+' :: cs => (false, cs)
  | cs => (false, cs)

/-- The number after the mark of an exponent; all of the text must belong to it. -/
def exponent? (cs : List Char) : Option Int :=
  let (negative, digits) := splitSign cs
  if digits.isEmpty || !digits.all Char.isDigit then none
  else some (if negative then -(digitsValue digits : Int) else digitsValue digits)

def read? (cs : List Char) : Option Reading :=
  let (negative, body) := splitSign cs
  if sameWord body "inf".toList || sameWord body "infinity".toList then
    some (.infinite negative)
  else if sameWord body "nan".toList then some (.notANumber negative)
  else
    let whole := body.takeWhile Char.isDigit
    let rest := body.dropWhile Char.isDigit
    let (fraction, rest) := match rest with
      | '.' :: r => (r.takeWhile Char.isDigit, r.dropWhile Char.isDigit)
      | _ => ([], rest)
    let digits := whole ++ fraction
    if digits.isEmpty then none
    else
      let power : Option Int := match rest with
        | [] => some 0
        | c :: r => if c == 'e' || c == 'E' then exponent? r else none
      power.map fun e =>
        .finite negative (digitsValue digits) digits.length (e - fraction.length)

/-- The magnitude nearest to `digits · 10 ^ exponent`. An exponent far outside the range of
finite words is decided by the number of digits alone. -/
def magnitude (digits size : Nat) (exponent : Int) : Nat :=
  if digits = 0 then 0
  else if exponent > 400 then Binary.infinity
  else if exponent + size < -400 then 0
  else if 0 ≤ exponent then Binary.nearest (digits * Nat.pow 10 exponent.toNat) 1
  else Binary.nearest digits (Nat.pow 10 (-exponent).toNat)

def Reading.word : Reading → Nat
  | finite negative digits size exponent => sign negative + magnitude digits size exponent
  | infinite negative => sign negative + Binary.infinity
  | notANumber negative => sign negative + Binary.notANumber
where
  sign (negative : Bool) : Nat := if negative then Binary.signBit else 0

/-- The floating-point word of a numeral's text; zero for text that is no numeral. -/
def word (text : String) : Nat := ((read? text.toList).map Reading.word).getD 0

/-- A numeral with a point denotes a number, one without it an integer. -/
def isWhole (text : String) : Bool := !text.toList.contains '.'

end Styling.Numeral
