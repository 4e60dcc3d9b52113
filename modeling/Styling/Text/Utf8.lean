import Styling.Text.Classes

/-! # UTF-8

Characters as bytes, and bytes as characters. Bytes that encode no character are grouped into
the longest beginnings of an encoding, each of which counts as one error.
-/
namespace Styling.Utf8

def encode (cs : List Char) : List UInt8 := cs.flatMap String.utf8EncodeChar

/-- How many bytes follow a first byte above ASCII, the bits it contributes, and the bounds of
the second byte. -/
def lead (b : UInt8) : Option (Nat × Nat × UInt8 × UInt8) :=
  let n := b.toNat
  if n < 0xc2 then none
  else if n < 0xe0 then some (1, n - 0xc0, 0x80, 0xbf)
  else if n = 0xe0 then some (2, 0, 0xa0, 0xbf)
  else if n = 0xed then some (2, n - 0xe0, 0x80, 0x9f)
  else if n < 0xf0 then some (2, n - 0xe0, 0x80, 0xbf)
  else if n = 0xf0 then some (3, 0, 0x90, 0xbf)
  else if n < 0xf4 then some (3, n - 0xf0, 0x80, 0xbf)
  else if n = 0xf4 then some (3, n - 0xf0, 0x80, 0x8f)
  else none

/-- Adds the bits of the bytes that follow; stops before a byte that cannot follow. -/
def follow (low high : UInt8) (bits : Nat) : Nat → List UInt8 → Option Nat × List UInt8
  | 0, bs => (some bits, bs)
  | _ + 1, [] => (none, [])
  | n + 1, b :: bs =>
    if low ≤ b && b ≤ high then follow 0x80 0xbf (64 * bits + b.toNat % 64) n bs
    else (none, b :: bs)

theorem follow_length_le (low high : UInt8) (bits n : Nat) (bs : List UInt8) :
    (follow low high bits n bs).2.length ≤ bs.length := by
  induction n generalizing low high bits bs with
  | zero => exact Nat.le_refl _
  | succ n ih =>
    cases bs with
    | nil => exact Nat.le_refl _
    | cons b bs =>
      unfold follow
      split
      · exact Nat.le_succ_of_le (ih ..)
      · exact Nat.le_refl _

/-- The character that bytes begin with, or `none` for an error, and the bytes after it. -/
def next (b : UInt8) (bs : List UInt8) : Option Char × List UInt8 :=
  if b < 0x80 then (some (Char.ofNat b.toNat), bs)
  else
    match lead b with
    | none => (none, bs)
    | some (n, bits, low, high) =>
      let r := follow low high bits n bs
      (r.1.map Char.ofNat, r.2)

theorem next_length_le (b : UInt8) (bs : List UInt8) : (next b bs).2.length ≤ bs.length := by
  unfold next
  split
  · exact Nat.le_refl _
  · split
    · exact Nat.le_refl _
    · exact follow_length_le ..

def chunks : List UInt8 → List (Option Char)
  | [] => []
  | b :: bs =>
    let r := next b bs
    r.1 :: chunks r.2
termination_by bs => bs.length
decreasing_by exact Nat.lt_succ_of_le (next_length_le b bs)

def decode? (bs : List UInt8) : Option (List Char) := (chunks bs).mapM id

/-- The characters of bytes, with U+FFFD for each error. -/
def decodeLossy (bs : List UInt8) : List Char := (chunks bs).map (·.getD replacement)

end Styling.Utf8
