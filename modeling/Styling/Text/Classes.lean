/-! # Character classes of style sheet text

The classes that decide where a token begins and ends. Blanks are exactly five characters;
every character outside ASCII may stand in a name, so the classes need no Unicode table.
-/
namespace Styling

def isNewline (c : Char) : Bool := c == '\n' || c == '\r' || c == '\x0c'

def isBlank (c : Char) : Bool := isNewline c || c == '\t' || c == ' '

def isQuote (c : Char) : Bool := c == '"' || c == '\''

def isNonAscii (c : Char) : Bool := 128 ≤ c.toNat

def isControl (c : Char) : Bool := c.toNat < 32 || c.toNat == 127

def isNameStart (c : Char) : Bool := c.isAlpha || c == '_' || isNonAscii c

def isNameChar (c : Char) : Bool := isNameStart c || c.isDigit || c == '-'

def replacement : Char := '\ufffd'

theorem isBlank_of_isNewline {c : Char} (h : isNewline c = true) : isBlank c = true := by
  simp [isBlank, h]

theorem isNameChar_of_isNameStart {c : Char} (h : isNameStart c = true) :
    isNameChar c = true := by
  simp [isNameChar, h]

theorem ascii_cases {p : Char → Prop} (h : ∀ n < 128, p (Char.ofNat n)) {c : Char}
    (hc : c.toNat < 128) : p c := by
  have hn := h c.toNat hc
  rwa [Char.ofNat_toNat] at hn

theorem toNat_lt_of_not_isNonAscii {c : Char} (h : isNonAscii c = false) : c.toNat < 128 := by
  simpa [isNonAscii] using h

theorem toNat_lt_of_isControl {c : Char} (h : isControl c = true) : c.toNat < 128 := by
  simp only [isControl, Bool.or_eq_true, decide_eq_true_eq, beq_iff_eq] at h
  omega

theorem toNat_lt_of_isDigit {c : Char} (h : c.isDigit = true) : c.toNat < 128 := by
  simp only [Char.isDigit, Bool.and_eq_true, decide_eq_true_eq] at h
  have h9 : c.toNat ≤ 57 := h.2
  omega

def sameWord (a b : List Char) : Bool := a.map Char.toLower == b.map Char.toLower

end Styling
