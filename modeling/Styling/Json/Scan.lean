import Styling.Json.Number

/-! # Reading JSON text

The parts from which data of a known form is read: blanks, words, strings, and where the fields
of a record and the items of a list begin and end. A value of another form is read far enough to
say what it is.
-/
namespace Styling.Json

def isBlank (c : Char) : Bool := c == ' ' || c == '\n' || c == '\t' || c == '\r'

def dropBlanks (cs : List Char) : List Char := cs.dropWhile isBlank

def word : List Char → List Char → Except Stop (List Char)
  | [], cs => .ok cs
  | _ :: _, [] => .error (.before .unfinishedValue [])
  | w :: ws, c :: cs => if c = w then word ws cs else .error (.past .expectedWord (c :: cs))

/-! ## Strings -/

def escaped? : Char → Option Char
  | '"' => some '"'
  | '\\' => some '\\'
  | '/' => some '/'
  | 'b' => some '\x08'
  | 'f' => some '\x0c'
  | 'n' => some '\n'
  | 'r' => some '\r'
  | 't' => some '\t'
  | _ => none

/-- Reads four hexadecimal digits. They are four bytes of the text, whatever they are. -/
def hexUnit (cs : List Char) : Scan Nat :=
  if (Utf8.encode cs).length < 4 then .error (.before .unfinishedString [])
  else if (cs.take 4).length = 4 ∧ (cs.take 4).all isHexDigit then
    .ok (hexValue (cs.take 4), cs.drop 4)
  else .error ⟨.invalidEscape, cs, 4⟩

def isLeading (unit : Nat) : Bool := 0xd800 ≤ unit && unit < 0xdc00
def isTrailing (unit : Nat) : Bool := 0xdc00 ≤ unit && unit < 0xe000

def surrogatePair (leading trailing : Nat) : Char :=
  Char.ofNat (0x10000 + 0x400 * (leading - 0xd800) + (trailing - 0xdc00))

def trailingUnit (leading : Nat) (cs : List Char) : Scan Char :=
  match hexUnit cs with
  | .error s => .error s
  | .ok (unit, rest) =>
    if isTrailing unit then .ok (surrogatePair leading unit, rest)
    else .error (.before .loneSurrogate rest)

def expectInString (wanted : Char) : List Char → Except Stop (List Char)
  | [] => .error (.before .unfinishedString [])
  | c :: cs => if c = wanted then .ok cs else .error (.past .missingSurrogate (c :: cs))

def unitChar (unit : Nat) (cs : List Char) : Scan Char :=
  if isTrailing unit then .error (.before .loneSurrogate cs)
  else if !isLeading unit then .ok (Char.ofNat unit, cs)
  else
    match expectInString '\\' cs with
    | .error s => .error s
    | .ok rest =>
      match expectInString 'u' rest with
      | .error s => .error s
      | .ok rest => trailingUnit unit rest

def escape : List Char → Scan Char
  | [] => .error (.before .unfinishedString [])
  | c :: cs =>
    if c = 'u' then
      match hexUnit cs with
      | .error s => .error s
      | .ok (unit, rest) => unitChar unit rest
    else
      match escaped? c with
      | some e => .ok (e, cs)
      | none => .error (.past .invalidEscape (c :: cs))

theorem length_hexUnit {cs rest : List Char} {n : Nat} (h : hexUnit cs = .ok (n, rest)) :
    rest.length ≤ cs.length := by
  unfold hexUnit at h
  split at h
  · cases h
  · split at h
    · simp only [Except.ok.injEq, Prod.mk.injEq] at h
      rw [← h.2, List.length_drop]
      exact Nat.sub_le _ _
    · cases h

theorem length_trailingUnit {leading : Nat} {cs rest : List Char} {c : Char}
    (h : trailingUnit leading cs = .ok (c, rest)) : rest.length ≤ cs.length := by
  unfold trailingUnit at h
  split at h
  · cases h
  · next hu =>
    split at h
    · simp only [Except.ok.injEq, Prod.mk.injEq] at h
      exact h.2 ▸ length_hexUnit hu
    · cases h

theorem length_expectInString {wanted : Char} {cs rest : List Char}
    (h : expectInString wanted cs = .ok rest) : rest.length ≤ cs.length := by
  unfold expectInString at h
  split at h
  · cases h
  · split at h
    · cases h
      simp
    · cases h

theorem length_unitChar {unit : Nat} {cs rest : List Char} {c : Char}
    (h : unitChar unit cs = .ok (c, rest)) : rest.length ≤ cs.length := by
  unfold unitChar at h
  split at h
  · cases h
  · split at h
    · cases h
      exact Nat.le_refl _
    · split at h
      · cases h
      · next hb =>
        split at h
        · cases h
        · next hu =>
          exact Nat.le_trans (length_trailingUnit h)
            (Nat.le_trans (length_expectInString hu) (length_expectInString hb))

theorem length_escape {cs rest : List Char} {c : Char} (h : escape cs = .ok (c, rest)) :
    rest.length ≤ cs.length := by
  unfold escape at h
  split at h
  · cases h
  · refine Nat.le_succ_of_le ?_
    split at h
    · split at h
      · cases h
      · next hu => exact Nat.le_trans (length_unitChar h) (length_hexUnit hu)
    · split at h
      · cases h
        exact Nat.le_refl _
      · cases h

def stringChars (cs : List Char) : Scan (List Char) :=
  match cs with
  | [] => .error (.before .unfinishedString [])
  | '"' :: rest => .ok ([], rest)
  | '\\' :: rest =>
    match _h : escape rest with
    | .error s => .error s
    | .ok (c, rest') =>
      match stringChars rest' with
      | .error s => .error s
      | .ok (value, rest) => .ok (c :: value, rest)
  | c :: rest =>
    if c.toNat < 32 then .error (.past .controlInString cs)
    else
      match stringChars rest with
      | .error s => .error s
      | .ok (value, rest) => .ok (c :: value, rest)
termination_by cs.length
decreasing_by
  · have := length_escape _h
    simp only [List.length_cons]
    omega
  · simp

def stringAfterQuote (cs : List Char) : Scan String :=
  match stringChars cs with
  | .error s => .error s
  | .ok (value, rest) => .ok (String.ofList value, rest)

/-! ## Values of another form -/

/-- What is wrong with a value that is not of the wanted form. The text of the value begins with
its first character. -/
def mismatch (wanted : String) (cs : List Char) : Stop :=
  let report (found : Found) (rest : List Char) : Stop :=
    .before (.mismatch found wanted) rest
  let ofWord (letters : List Char) (found : Found) (cs : List Char) : Stop :=
    match word letters cs with
    | .error s => s
    | .ok rest => report found rest
  match cs with
  | 'n' :: cs => ofWord ['u', 'l', 'l'] .null cs
  | 't' :: cs => ofWord ['r', 'u', 'e'] (.bool true) cs
  | 'f' :: cs => ofWord ['a', 'l', 's', 'e'] (.bool false) cs
  | '"' :: cs =>
    match stringAfterQuote cs with
    | .error s => s
    | .ok (value, rest) => report (.string value) rest
  | '[' :: _ => report .list cs
  | '\x7b' :: _ => report .record cs
  | _ =>
    match number? cs with
    | some (.error s) => s
    | some (.ok (n, rest)) => report n.found rest
    | none => .past .expectedValue cs

def natural (wanted : String) (cs : List Char) : Scan Nat :=
  match dropBlanks cs with
  | [] => .error (.before .unfinishedValue [])
  | cs =>
    match number? cs with
    | some (.ok (.natural n, rest)) => .ok (n, rest)
    | some (.ok (.negative n, rest)) => .error (.before (.outOfRange (-n) wanted) rest)
    | _ => .error (mismatch wanted cs)

def quotedString (wanted : String) (cs : List Char) : Scan String :=
  match dropBlanks cs with
  | [] => .error (.before .unfinishedValue [])
  | '"' :: cs => stringAfterQuote cs
  | cs => .error (mismatch wanted cs)

def optional {α : Type} (read : List Char → Scan α) (cs : List Char) : Scan (Option α) :=
  match dropBlanks cs with
  | 'n' :: rest =>
    match word ['u', 'l', 'l'] rest with
    | .error s => .error s
    | .ok rest => .ok (none, rest)
  | cs =>
    match read cs with
    | .error s => .error s
    | .ok (value, rest) => .ok (some value, rest)

/-! ## Records and lists -/

def nextField? (first : Bool) (cs : List Char) : Except Stop (Option (List Char)) :=
  match dropBlanks cs with
  | [] => .error (.before .unfinishedRecord [])
  | '\x7d' :: _ => .ok none
  | c :: rest =>
    if first then
      if c == '"' then .ok (some rest) else .error (.past .nameNotString (c :: rest))
    else if c != ',' then .error (.past .expectedFieldEnd (c :: rest))
    else
      match dropBlanks rest with
      | '"' :: rest => .ok (some rest)
      | '\x7d' :: rest => .error (.past .trailingComma ('\x7d' :: rest))
      | [] => .error (.before .unfinishedValue [])
      | rest => .error (.past .nameNotString rest)

def colon (cs : List Char) : Except Stop (List Char) :=
  match dropBlanks cs with
  | ':' :: rest => .ok rest
  | [] => .error (.before .unfinishedRecord [])
  | rest => .error (.past .expectedColon rest)

def nextItem? (first : Bool) (cs : List Char) : Except Stop (Option (List Char)) :=
  match dropBlanks cs with
  | [] => .error (.before .unfinishedList [])
  | ']' :: _ => .ok none
  | c :: rest =>
    if first then .ok (some (c :: rest))
    else if c != ',' then .error (.past .expectedItemEnd (c :: rest))
    else
      match dropBlanks rest with
      | ']' :: rest => .error (.past .trailingComma (']' :: rest))
      | [] => .error (.before .unfinishedValue [])
      | rest => .ok (some rest)

def listEnd (cs : List Char) : Except Stop (List Char) :=
  match dropBlanks cs with
  | ']' :: rest => .ok rest
  | ',' :: rest =>
    match dropBlanks rest with
    | ']' :: rest => .error (.past .trailingComma (']' :: rest))
    | rest => .error (.past .trailingText rest)
  | [] => .error (.before .unfinishedList [])
  | rest => .error (.past .trailingText rest)

end Styling.Json
