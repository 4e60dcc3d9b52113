import Styling.Token

/-! # Segments of a declaration block

The brackets that are open at a point of a block, and the segments that its semicolons cut. Only
the closer of the innermost bracket closes anything; every other closer is an ordinary token. A
semicolon inside brackets cuts nothing.
-/
namespace Styling

/-- The open brackets, innermost first. -/
abbrev OpenBrackets := List Bracket

namespace OpenBrackets

def push (stack : OpenBrackets) (k : Kind) : OpenBrackets :=
  match k.opens? with
  | some b => b :: stack
  | none => stack

def track (stack : OpenBrackets) (k : Kind) : OpenBrackets :=
  match stack with
  | b :: rest => if k = .closing b then rest else push stack k
  | [] => push stack k

end OpenBrackets

def endsSegment (curly : Bool) (stack : OpenBrackets) (k : Kind) : Bool :=
  stack.isEmpty && curly && k == .closing .curly

def cutsSegment (stack : OpenBrackets) (k : Kind) : Bool := stack.isEmpty && k == .semicolon

/-- The tokens up to the end of a segment, and those after it. A semicolon belongs to the
segment it ends and is dropped; a curly bracket that closes the block, if `curly` asks for it,
is left in place. -/
def splitSegment (curly : Bool) (stack : OpenBrackets) : List Token → List Token × List Token
  | [] => ([], [])
  | t :: ts =>
    if cutsSegment stack t.kind then ([], ts)
    else if endsSegment curly stack t.kind then ([], t :: ts)
    else
      let rest := splitSegment curly (stack.track t.kind) ts
      (t :: rest.1, rest.2)

theorem splitSegment_suffix (curly : Bool) (stack : OpenBrackets) (ts : List Token) :
    (splitSegment curly stack ts).2 <:+ ts := by
  induction ts generalizing stack with
  | nil => exact List.suffix_refl _
  | cons t ts ih =>
    unfold splitSegment
    split
    · exact List.suffix_cons _ _
    split
    · exact List.suffix_refl _
    · exact (ih _).trans (List.suffix_cons _ _)

end Styling
