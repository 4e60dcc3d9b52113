import Styling.Text.Classes

/-! # Letters outside ASCII in host names

A name of ASCII letters stands for any name: its ASCII characters come first, and then, as
numbers of a variable length, where to insert the others. The thresholds between digits adapt to
the numbers written so far.
-/
namespace Styling.Punycode

def digitChar (d : Nat) : Char :=
  if d < 26 then Char.ofNat ('a'.toNat + d) else Char.ofNat ('0'.toNat + d - 26)

def digitValue? (c : Char) : Option Nat :=
  if 'a' ≤ c && c ≤ 'z' then some (c.toNat - 'a'.toNat)
  else if 'A' ≤ c && c ≤ 'Z' then some (c.toNat - 'A'.toNat)
  else if c.isDigit then some (c.toNat - '0'.toNat + 26)
  else none

def threshold (k bias : Nat) : Nat := max 1 (min 26 (k - bias))

def halve : Nat → Nat → Nat → Nat × Nat
  | 0, delta, k => (delta, k)
  | fuel + 1, delta, k => if delta > 455 then halve fuel (delta / 35) (k + 36) else (delta, k)

def adapt (delta points : Nat) (first : Bool) : Nat :=
  let delta := if first then delta / 700 else delta / 2
  let delta := delta + delta / points
  let r := halve delta delta 0
  r.2 + 36 * r.1 / (r.1 + 38)

def numberText (bias : Nat) : Nat → Nat → Nat → List Char
  | 0, _, _ => []
  | fuel + 1, k, q =>
    let t := threshold k bias
    if q < t then [digitChar q]
    else digitChar (t + (q - t) % (36 - t)) :: numberText bias fuel (k + 36) ((q - t) / (36 - t))

structure State where
  out : List Char
  delta : Nat
  bias : Nat
  handled : Nat

def pass (basic m : Nat) (s : State) (c : Char) : State :=
  if c.toNat < m then { s with delta := s.delta + 1 }
  else if c.toNat = m then
    { out := s.out ++ numberText s.bias (s.delta + 1) 36 s.delta
      delta := 0
      bias := adapt s.delta (s.handled + 1) (s.handled == basic)
      handled := s.handled + 1 }
  else s

def rounds (name : List Char) (basic : Nat) : List Nat → Nat → State → State
  | [], _, s => s
  | m :: rest, n, s =>
    let s := { s with delta := s.delta + (m - n) * (s.handled + 1) }
    let s := name.foldl (pass basic m) s
    rounds name basic rest (m + 1) { s with delta := s.delta + 1 }

def encode (name : List Char) : List Char :=
  let basic := name.filter (!isNonAscii ·)
  let codes := ((name.filter isNonAscii).map Char.toNat).mergeSort.eraseDups
  let start := if basic.isEmpty then [] else basic ++ ['-']
  (rounds name basic.length codes 128 ⟨start, 0, 72, basic.length⟩).out

def readNumber (bias : Nat) : List Char → Nat → Nat → Nat → Option (Nat × List Char)
  | [], _, _, _ => none
  | c :: cs, k, weight, i =>
    match digitValue? c with
    | none => none
    | some d =>
      let i := i + d * weight
      let t := threshold k bias
      if d < t then some (i, cs) else readNumber bias cs (k + 36) (weight * (36 - t)) i

def insertions : Nat → List Char → Nat → Nat → Nat → List Char → Option (List Char)
  | _, [], _, _, _, out => some out
  | 0, _, _, _, _, _ => none
  | fuel + 1, cs, n, i, bias, out =>
    match readNumber bias cs 36 1 i with
    | none => none
    | some (j, rest) =>
      let size := out.length + 1
      let n := n + j / size
      let spot := j % size
      if n.isValidChar then
        insertions fuel rest n (spot + 1) (adapt (j - i) size (i == 0))
          (out.insertIdx spot (Char.ofNat n))
      else none

def decode? (cs : List Char) : Option (List Char) :=
  let tail := (cs.reverse.takeWhile (· != '-')).reverse
  let basic := (cs.take (cs.length - tail.length)).dropLast
  insertions (tail.length + 1) tail 128 0 72 basic

end Styling.Punycode
