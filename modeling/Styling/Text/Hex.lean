/-! # Hexadecimal numbers

Digits are written in lower case and read in either; the value of a run of digits is folded
from the left.
-/
namespace Styling

def isHexDigit (c : Char) : Bool :=
  c.isDigit || ('a' ≤ c && c ≤ 'f') || ('A' ≤ c && c ≤ 'F')

def hexDigitValue (c : Char) : Nat :=
  if c.isDigit then c.toNat - '0'.toNat
  else if 'a' ≤ c && c ≤ 'f' then c.toNat - 'a'.toNat + 10
  else if 'A' ≤ c && c ≤ 'F' then c.toNat - 'A'.toNat + 10
  else 0

def hexValue (digits : List Char) : Nat :=
  digits.foldl (fun n c => 16 * n + hexDigitValue c) 0

/-- The digits of a number, at least one and no leading zero. -/
def hexText (n : Nat) : List Char := Nat.toDigits 16 n

/-- The last `width` digits of a number, with leading zeros. -/
def hexPadded : Nat → Nat → List Char
  | 0, _ => []
  | width + 1, n => hexPadded width (n / 16) ++ [Nat.digitChar (n % 16)]

def upperHexPadded (width n : Nat) : List Char := (hexPadded width n).map Char.toUpper

theorem length_hexPadded (width n : Nat) : (hexPadded width n).length = width := by
  induction width generalizing n with
  | zero => rfl
  | succ w ih => simp [hexPadded, ih]

theorem digitChar_hex : ∀ d < 16,
    isHexDigit (Nat.digitChar d) = true ∧ hexDigitValue (Nat.digitChar d) = d := by decide

theorem hexValue_concat (digits : List Char) (c : Char) :
    hexValue (digits ++ [c]) = 16 * hexValue digits + hexDigitValue c := by
  simp [hexValue]

theorem hexValue_hexPadded (width n : Nat) :
    hexValue (hexPadded width n) = n % Nat.pow 16 width := by
  induction width generalizing n with
  | zero => simp [hexPadded, hexValue, Nat.mod_one]
  | succ w ih =>
    have hpow : Nat.pow 16 (w + 1) = 16 * Nat.pow 16 w := Nat.mul_comm _ _
    rw [hexPadded, hexValue_concat, ih, (digitChar_hex _ (Nat.mod_lt n (by decide))).2, hpow,
      Nat.mod_mul]
    omega

theorem isHexDigit_of_mem_hexPadded {width n : Nat} {c : Char} (h : c ∈ hexPadded width n) :
    isHexDigit c = true := by
  induction width generalizing n with
  | zero => cases h
  | succ w ih =>
    rcases List.mem_append.mp h with h | h
    · exact ih h
    · rw [List.mem_singleton.mp h]
      exact (digitChar_hex _ (Nat.mod_lt n (by decide))).1

end Styling
