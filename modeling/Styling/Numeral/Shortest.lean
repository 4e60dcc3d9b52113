import Styling.Numeral.Binary

/-! # The fewest digits that read back

Of the decimal numbers that round to a given floating-point word, the one with the fewest
digits; of several, the nearest. `Layout` says how its digits are set out.
-/
namespace Styling.Shortest
open Binary

structure Decimal where
  digits : Nat
  exponent : Int
  deriving DecidableEq, Repr

/-- The least `e` with `num / den < 10 ^ e`. -/
def magnitude10 (num den : Nat) : Int :=
  if den ≤ num then (Nat.toDigits 10 (num / den)).length
  else 1 - ((Nat.toDigits 10 ((den - 1) / num)).length : Int)

/-- A quarter of the unit of the last place, counted in quarters: the word `m · 2 ^ q` is read
back from every number between `(4 m - below) / 4` and `(4 m + 2) / 4` units. -/
def below (m : Nat) (q : Int) : Nat := if m = fractionSize ∧ q ≠ -1074 then 1 else 2

/-- Whether `d · 10 ^ p` rounds to `m · 2 ^ q`. Both sides are scaled to whole numbers. -/
def readsBack (m : Nat) (q : Int) (d : Nat) (p : Int) : Bool :=
  let x := 4 * d * Nat.pow 10 p.toNat * Nat.pow 2 (-q).toNat
  let unit := Nat.pow 2 q.toNat * Nat.pow 10 (-p).toNat
  let low := (4 * m - below m q) * unit
  let high := (4 * m + 2) * unit
  if m % 2 = 0 then low ≤ x && x ≤ high else low < x && x < high

/-- The better of the two neighbours of `num / den` on the grid of multiples of `10 ^ p`, if
one of them reads back. -/
def onGrid? (m : Nat) (q : Int) (num den : Nat) (p : Int) : Option Decimal :=
  let n := num * Nat.pow 10 (-p).toNat
  let d := den * Nat.pow 10 p.toNat
  let low := n / d
  let lowFits := 0 < low && readsBack m q low p
  let highFits := readsBack m q (low + 1) p
  let highNearer := 2 * (n % d) > d || (2 * (n % d) == d && low % 2 == 1)
  if lowFits && (!highFits || !highNearer) then some ⟨low, p⟩
  else if highFits then some ⟨low + 1, p⟩
  else none

def ofMagnitude (magnitude : Nat) : Decimal :=
  let (m, q) := decompose magnitude
  let (num, den) := (m * Nat.pow 2 q.toNat, Nat.pow 2 (-q).toNat)
  let e := magnitude10 num den
  ((List.range 17).findSome? fun k => onGrid? m q num den (e - (k + 1 : Nat))).getD ⟨0, 0⟩

/-- How digits are set out: positional between two powers of ten, else with an exponent. -/
structure Layout where
  /-- The least power of ten that is written positionally is `10 ^ least`. -/
  least : Int
  /-- Numbers from `10 ^ most` on are written with an exponent. -/
  most : Int

def zeros (n : Nat) : List Char := List.replicate n '0'

def stripZeros (digits : List Char) : List Char × Nat :=
  let kept := (digits.reverse.dropWhile (· == '0')).reverse
  (kept, digits.length - kept.length)

/-- The text of a finite word. A positional number keeps a digit after its point. -/
def text (layout : Layout) (word : Nat) : String :=
  let negative := signBit ≤ word
  let magnitude := word % signBit
  let body :=
    if magnitude = 0 then "0.0".toList
    else
      let d := ofMagnitude magnitude
      let (digits, lost) := stripZeros (Nat.toDigits 10 d.digits)
      let point : Int := digits.length + d.exponent + lost
      if layout.least < point && point ≤ layout.most then
        if point ≤ 0 then ['0', '.'] ++ zeros (-point).toNat ++ digits
        else if digits.length ≤ point then
          digits ++ zeros (point.toNat - digits.length) ++ ['.', '0']
        else digits.take point.toNat ++ ['.'] ++ digits.drop point.toNat
      else
        let fraction := if digits.length = 1 then [] else '.' :: digits.drop 1
        digits.take 1 ++ fraction ++ ['e'] ++ (toString (point - 1)).toList
  String.ofList ((if negative then ['-'] else []) ++ body)

end Styling.Shortest
