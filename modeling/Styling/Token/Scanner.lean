/-! # Positions and lines

A scanner goes through a text character by character, and takes back the last one where it went
too far. It counts the characters and the line ends it has passed, also on its way back.
-/
namespace Styling

structure Scanner where
  input : List Char
  position : Nat
  line : Nat
  deriving DecidableEq, Repr

namespace Scanner

def ofText (text : String) : Scanner := ⟨text.toList, 0, 1⟩

def consume (s : Scanner) : Option Char × Scanner :=
  match s.input[s.position]? with
  | none => (none, s)
  | some c =>
    (some c, { s with position := s.position + 1, line := if c = '\n' then s.line + 1 else s.line })

def reconsume (s : Scanner) : Scanner :=
  match s.position with
  | 0 => s
  | n + 1 =>
    { s with position := n, line := if s.input[n]? = some '\n' then s.line - 1 else s.line }

def advance (s : Scanner) : Nat → Scanner
  | 0 => s
  | n + 1 => (s.advance n).consume.2

end Scanner
end Styling
