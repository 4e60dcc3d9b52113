import Styling.Address.Percent
import Styling.Address.Punycode
import Styling.Text.Pieces

/-! # Hosts

The written form of a host: a name in ASCII letters of lower case, four numbers with dots, or
eight numbers in brackets with colons. A name whose last label is a number must be an address of
the second form.
-/
namespace Styling.Host

def numberIn? (base : Nat) (cs : List Char) : Option Nat :=
  if cs.all fun c => isHexDigit c && hexDigitValue c < base then
    some (cs.foldl (fun n c => base * n + hexDigitValue c) 0)
  else none

/-- A part of a dotted address: octal after a zero, hexadecimal after `0x`. -/
def dottedPart? : List Char → Option Nat
  | [] => none
  | '0' :: 'x' :: cs => numberIn? 16 cs
  | '0' :: 'X' :: cs => numberIn? 16 cs
  | '0' :: c :: cs => numberIn? 8 (c :: cs)
  | cs => numberIn? 10 cs

def isNumber (cs : List Char) : Bool := !cs.isEmpty && cs.all Char.isDigit

def dropTrailingEmpty (parts : List (List Char)) : List (List Char) :=
  if parts.getLast? == some [] then parts.dropLast else parts

def endsInNumber (name : List Char) : Bool :=
  match (dropTrailingEmpty (pieces '.' name)).getLast? with
  | none => false
  | some last => isNumber last || (dottedPart? last).isSome

/-- The address of parts of which the last fills all bytes that the others leave. -/
def combineParts? (parts : List Nat) : Option Nat :=
  match parts.getLast? with
  | none => none
  | some last =>
    let front := parts.dropLast
    let high := front.zipIdx.foldl (fun sum (n, i) => sum + n * Nat.pow 256 (3 - i)) 0
    if parts.length ≤ 4 && front.all (· < 256) && last < Nat.pow 256 (4 - front.length) then
      some (high + last)
    else none

def dottedText (n : Nat) : List Char :=
  joinPieces '.' ([3, 2, 1, 0].map fun i => (toString (n / Nat.pow 256 i % 256)).toList)

def dotted? (name : List Char) : Option (List Char) :=
  (((dropTrailingEmpty (pieces '.' name)).mapM dottedPart?).bind combineParts?).map dottedText

def embedded? (cs : List Char) : Option (List Nat) :=
  let part? (p : List Char) : Option Nat :=
    match p with
    | [] => none
    | '0' :: _ :: _ => none
    | _ => if p.length ≤ 3 then (numberIn? 10 p).filter (· < 256) else none
  match (pieces '.' cs).mapM part? with
  | some [a, b, c, d] => some [256 * a + b, 256 * c + d]
  | _ => none

def groups? : List (List Char) → Option (List Nat)
  | [] => some []
  | [last] =>
    if last.contains '.' then embedded? last
    else if last.isEmpty || 4 < last.length then none
    else (numberIn? 16 last).map ([·])
  | p :: rest =>
    if p.isEmpty || 4 < p.length then none
    else
      match numberIn? 16 p, groups? rest with
      | some n, some ns => some (n :: ns)
      | _, _ => none

def groupsOf? (cs : List Char) : Option (List Nat) :=
  if cs.isEmpty then some [] else groups? (pieces ':' cs)

def splitGap : List Char → Option (List Char × List Char)
  | [] => none
  | ':' :: ':' :: cs => some ([], cs)
  | c :: cs => (splitGap cs).map fun p => (c :: p.1, p.2)

/-- The eight numbers of a bracketed address, in which a double colon stands for zeros. -/
def bracketed? (cs : List Char) : Option (List Nat) :=
  match splitGap cs with
  | none => (groupsOf? cs).filter (·.length == 8)
  | some (before, after) =>
    if before.contains '.' then none
    else
      match groupsOf? before, groupsOf? after with
      | some a, some b =>
        if a.length + b.length < 8 then some (a ++ List.replicate (8 - a.length - b.length) 0 ++ b)
        else none
      | _, _ => none

def longestZeros (ns : List Nat) : Nat × Nat :=
  let runs := (List.range ns.length).map fun i => (i, ((ns.drop i).takeWhile (· == 0)).length)
  runs.foldl (fun best r => if best.2 < r.2 then r else best) (0, 0)

def bracketedText (ns : List Nat) : List Char :=
  let groups (ns : List Nat) := joinPieces ':' (ns.map hexText)
  let gap := longestZeros ns
  let body :=
    if gap.2 < 2 then groups ns
    else groups (ns.take gap.1) ++ [':', ':'] ++ groups (ns.drop (gap.1 + gap.2))
  '[' :: body ++ [']']

def ofBracketed? (cs : List Char) : Option (List Char) :=
  if cs.getLast? == some ']' then (bracketed? (cs.drop 1).dropLast).map bracketedText else none

def lowerLetter (c : Char) : Char :=
  let n := c.toNat
  if n < 0x80 then c.toLower
  else if n == 0x17f then 's'
  else if (0xc0 ≤ n && n ≤ 0xde && n != 0xd7) || (0x391 ≤ n && n ≤ 0x3a9) ||
      (0x410 ≤ n && n ≤ 0x42f) then Char.ofNat (n + 32)
  else if 0x400 ≤ n && n ≤ 0x40f then Char.ofNat (n + 80)
  else if ((0x100 ≤ n && n ≤ 0x12f) || (0x132 ≤ n && n ≤ 0x137) || (0x14a ≤ n && n ≤ 0x177)) &&
      n % 2 == 0 then Char.ofNat (n + 1)
  else if ((0x139 ≤ n && n ≤ 0x148) || (0x179 ≤ n && n ≤ 0x17e)) && n % 2 == 1 then
    Char.ofNat (n + 1)
  else c

/-- The characters that a character of a name stands for: lower case, full-width forms and
ideographic full stops as their plain ones, and nothing for a soft hyphen or a joiner. -/
def mapNameChar (c : Char) : List Char :=
  let n := c.toNat
  if n == 0xad || n == 0x200b || n == 0x2060 || n == 0xfeff then []
  else if n == 0x3002 || n == 0xff0e || n == 0xff61 then ['.']
  else if 0xff01 ≤ n && n ≤ 0xff5e then [(Char.ofNat (n - 0xfee0)).toLower]
  else [lowerLetter c]

def forbiddenInName (c : Char) : Bool :=
  isControl c || (0x80 ≤ c.toNat && c.toNat ≤ 0x9f) || c == replacement ||
    " %#/:<>?@[\\]^|".toList.contains c

/-- Whether a label could have been written without the mark that it has in ASCII. -/
def isPlainLabel (label : List Char) : Bool :=
  label.any isNonAscii && label.flatMap mapNameChar == label && !label.any forbiddenInName

def labelText? (label : List Char) : Option (List Char) :=
  if label.any isNonAscii then some (['x', 'n', '-', '-'] ++ Punycode.encode label)
  else if ['x', 'n', '-', '-'].isPrefixOf label then
    ((Punycode.decode? (label.drop 4)).filter isPlainLabel).map fun _ => label
  else some label

def name? (cs : List Char) : Option (List Char) := do
  let decoded ← Utf8.decode? (Percent.decode cs)
  let mapped := decoded.flatMap mapNameChar
  let labels ← (pieces '.' mapped).mapM labelText?
  let name := joinPieces '.' labels
  if name.isEmpty || mapped.any forbiddenInName then none else some name

def ofSpecial? (cs : List Char) : Option (List Char) :=
  if cs.head? == some '[' then ofBracketed? cs
  else
    match name? cs with
    | none => none
    | some name => if endsInNumber name then dotted? name else some name

def forbiddenInOpaque (c : Char) : Bool := "\x00\t\n\r #/:<>?@[\\]^|".toList.contains c

def ofOther? (cs : List Char) : Option (List Char) :=
  if cs.head? == some '[' then ofBracketed? cs
  else if cs.any forbiddenInOpaque then none
  else some (Percent.encode isControl cs)

end Styling.Host
