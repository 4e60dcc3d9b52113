import Styling.Json.Problem
import Styling.Numeral

/-! # Numbers in JSON text

A whole number below `2 ^ 64`, or down to `-2 ^ 63`, is read exactly. Any other is a
floating-point number: its leading digits, as far as they stay below `2 ^ 64`, are rounded to a
word, and the word is multiplied or divided by a power of ten.
-/
namespace Styling.Json

inductive Number
  | natural (value : Nat)
  /-- The number below zero with this size. -/
  | negative (size : Nat)
  | real (word : Nat)
  deriving DecidableEq, Repr

def Number.found : Number → Found
  | natural value => .integer value
  | negative size => .integer (-size)
  | real word => .real word

/-- Appends the digits that a text begins with to a number, while it stays below a limit: the
number, how many digits were appended, and the text after them. -/
def appendDigits (limit n : Nat) : List Char → Nat × Nat × List Char
  | [] => (n, 0, [])
  | c :: cs =>
    let more := 10 * n + (c.toNat - '0'.toNat)
    if c.isDigit && more < limit then
      let r := appendDigits limit more cs
      (r.1, r.2.1 + 1, r.2.2)
    else (n, 0, c :: cs)

def startsWithDigit (cs : List Char) : Bool := cs.head?.any Char.isDigit

def digitLimit : Nat := Nat.pow 2 64
def exponentLimit : Nat := Nat.pow 2 31
def greatestPower : Nat := 308

def wholeMagnitude (n : Nat) : Nat := if n = 0 then 0 else Binary.nearest n 1

def product (a b : Nat) : Nat :=
  let (m, q) := Binary.decompose a
  let (n, r) := Binary.decompose b
  if m * n = 0 then 0
  else Binary.nearest (m * n * Nat.pow 2 (q + r).toNat) (Nat.pow 2 (-(q + r)).toNat)

def quotient (a b : Nat) : Nat :=
  let (m, q) := Binary.decompose a
  let (n, r) := Binary.decompose b
  if m = 0 then 0
  else Binary.nearest (m * Nat.pow 2 (q - r).toNat) (n * Nat.pow 2 (r - q).toNat)

def power (e : Nat) : Nat := Binary.nearest (Nat.pow 10 e) 1

def scaledMagnitude? (digits : Nat) (e : Int) : Option Nat :=
  let m := wholeMagnitude digits
  if m = 0 || e < -2 * greatestPower then some 0
  else if greatestPower < e then none
  else if 0 ≤ e then some (product m (power e.toNat)) |>.filter (· < Binary.infinity)
  else if -greatestPower ≤ e then some (quotient m (power (-e).toNat))
  else some (quotient (quotient m (power greatestPower)) (power (-e - greatestPower).toNat))

def signed (negative : Bool) (magnitude : Nat) : Number :=
  .real ((if negative then Binary.signBit else 0) + magnitude)

def scaledNumber (negative : Bool) (digits : Nat) (e : Int) (rest : List Char) : Scan Number :=
  match scaledMagnitude? digits e with
  | some m => .ok (signed negative m, rest)
  | none => .error (.before .numberOutOfRange rest)

def wholeNumber (negative : Bool) (n : Nat) : Number :=
  if !negative then .natural n
  else if n ≠ 0 ∧ n ≤ Nat.pow 2 63 then .negative n
  else signed true (wholeMagnitude n)

def exponentDigits (negative : Bool) (digits : Nat) (e : Int) (below : Bool) (cs : List Char) :
    Scan Number :=
  if cs.isEmpty then .error (.before .unfinishedValue cs)
  else if !startsWithDigit cs then .error (.past .invalidNumber cs)
  else
    let (n, _, rest) := appendDigits exponentLimit 0 cs
    if !startsWithDigit rest then
      scaledNumber negative digits (if below then e - n else e + n) rest
    else if digits ≠ 0 ∧ !below then .error (.past .numberOutOfRange rest)
    else .ok (signed negative 0, rest.dropWhile Char.isDigit)

def exponentPart (negative : Bool) (digits : Nat) (e : Int) : List Char → Scan Number
  | '+' :: cs => exponentDigits negative digits e false cs
  | '-' :: cs => exponentDigits negative digits e true cs
  | cs => exponentDigits negative digits e false cs

def afterDigits (negative : Bool) (digits : Nat) (e : Int) : List Char → Scan Number
  | 'e' :: cs | 'E' :: cs => exponentPart negative digits e cs
  | cs => scaledNumber negative digits e cs

def fractionPart (negative : Bool) (digits : Nat) (e : Int) (cs : List Char) : Scan Number :=
  let (digits, taken, rest) := appendDigits digitLimit digits cs
  if startsWithDigit rest || taken ≠ 0 then
    afterDigits negative digits (e - taken) (rest.dropWhile Char.isDigit)
  else if rest.isEmpty then .error (.before .unfinishedValue rest)
  else .error (.past .invalidNumber rest)

def afterWhole (negative : Bool) (digits dropped : Nat) : List Char → Scan Number
  | '.' :: cs => fractionPart negative digits dropped cs
  | 'e' :: cs => exponentPart negative digits dropped cs
  | 'E' :: cs => exponentPart negative digits dropped cs
  | cs =>
    if dropped = 0 then .ok (wholeNumber negative digits, cs)
    else scaledNumber negative digits dropped cs

/-- Reads a number after its sign. It begins with a digit, and with a zero only if no digit
follows. -/
def unsignedNumber (negative : Bool) (cs : List Char) : Scan Number :=
  match cs with
  | [] => .error (.before .unfinishedValue [])
  | '0' :: rest =>
    if startsWithDigit rest then .error (.past .invalidNumber rest)
    else afterWhole negative 0 0 rest
  | c :: _ =>
    if c.isDigit then
      let (digits, _, rest) := appendDigits digitLimit 0 cs
      let dropped := rest.takeWhile Char.isDigit
      afterWhole negative digits dropped.length (rest.dropWhile Char.isDigit)
    else .error (.past .invalidNumber cs)

def number? : List Char → Option (Scan Number)
  | '-' :: cs => some (unsignedNumber true cs)
  | cs => if startsWithDigit cs then some (unsignedNumber false cs) else none

end Styling.Json
