/-! # Nearest binary fractions

The 64-bit floating-point words, as natural numbers, and the word nearest to a positive
quotient. A word below `infinity` is a sign and a magnitude `m · 2 ^ q` with `m < 2 ^ 53` and
`-1074 ≤ q`; of two words at one distance the one with even `m` is nearest.
-/
namespace Styling.Binary

def fractionSize : Nat := Nat.pow 2 52
def signBit : Nat := Nat.pow 2 63
def infinity : Nat := 2047 * fractionSize
def notANumber : Nat := infinity + Nat.pow 2 51

/-- The quotient rounded to the nearest whole number, a half to the even neighbour. -/
def divNearest (num den : Nat) : Nat :=
  let m := num / den
  let r := num % den
  if 2 * r > den || (2 * r == den && m % 2 == 1) then m + 1 else m

def scaled (num den : Nat) (q : Int) : Nat × Nat :=
  if 0 ≤ q then (num, den * Nat.pow 2 q.toNat) else (num * Nat.pow 2 (-q).toNat, den)

def nearest (num den : Nat) : Nat :=
  let low : Int := max (num.log2 - den.log2 - 53 : Int) (-1074)
  let s := scaled num den low
  let q := if s.1 / s.2 < 2 * fractionSize then low else low + 1
  let s := scaled num den q
  min infinity ((q + 1074).toNat * fractionSize + divNearest s.1 s.2)

def decompose (magnitude : Nat) : Nat × Int :=
  let e := magnitude / fractionSize
  let f := magnitude % fractionSize
  if e = 0 then (f, -1074) else (fractionSize + f, e - 1075)

end Styling.Binary
