import Styling.Token

/-! # Syntax faults

What can be wrong in a style sheet, where it is wrong, and how it is reported. A fault lies at
the start of the first token that cannot be what it should be, or at the end of the text.
-/
namespace Styling

inductive Cause
  | expectedSelector
  | unexpectedInSelector
  | expectedBlock
  | unexpectedAfterSelector
  | pseudoElement
  | functionalPseudoClass (name : String)
  | expectedPseudoClass
  | expectedClassName
  | expectedAttributeName
  | expectedAttributeOperator
  | expectedAttributeValue
  | unclosedAttribute
  | unclosedBlock
  | expectedProperty
  | expectedColon
  | brokenString
  | missingValue (property : String)
  deriving DecidableEq, Repr

namespace Cause

def message : Cause → String
  | expectedSelector => "expected selector"
  | unexpectedInSelector => "unexpected token in selector"
  | expectedBlock => "expected '\x7b' after selector"
  | unexpectedAfterSelector => "unexpected token after selector"
  | pseudoElement => "pseudo-elements are not supported"
  | functionalPseudoClass name => "functional pseudo-class ':" ++ name ++ "()' is not supported"
  | expectedPseudoClass => "expected pseudo-class name"
  | expectedClassName => "expected class name"
  | expectedAttributeName => "expected attribute name"
  | expectedAttributeOperator => "expected attribute operator or ']'"
  | expectedAttributeValue => "expected attribute value"
  | unclosedAttribute => "expected ']'"
  | unclosedBlock => "unexpected end of input in block"
  | expectedProperty => "expected property name"
  | expectedColon => "expected ':' after property name"
  | brokenString => "unterminated string in value"
  | missingValue property => "missing value for property '" ++ property ++ "'"

/-- The warning that a fault gives besides: it stands for a construct that is well formed but
not supported. -/
def notice? : Cause → Option String
  | pseudoElement => some "pseudo-elements are not supported"
  | functionalPseudoClass name => some ("unsupported functional pseudo-class ':" ++ name ++ "()'")
  | _ => none

end Cause

structure Fault where
  cause : Cause
  offset : Nat
  line : Nat
  deriving DecidableEq, Repr

namespace Fault

def ofToken (cause : Cause) (t : Token) : Fault := ⟨cause, t.start, t.line⟩

def text (f : Fault) : String :=
  "line " ++ toString f.line ++ ", offset " ++ toString f.offset ++ ": " ++ f.cause.message

end Fault

/-- A reader gives up: why, and before which of the tokens it was given. -/
structure Failure where
  cause : Cause
  rest : List Token
  deriving DecidableEq, Repr

/-- The fault lies at the first token left, or at the end `finish` of the text. -/
def Failure.fault (finish : Token) (f : Failure) : Fault :=
  Fault.ofToken f.cause (f.rest.headD finish)

/-- What a reader makes of the tokens it is given: a value and the tokens after it. -/
abbrev Reading (α : Type) := Except Failure (α × List Token)

namespace Reading

/-- The tokens left, after success or before the fault, are a suffix of `ts`. -/
def Within {α : Type} (ts : List Token) : Reading α → Prop
  | .error e => e.rest <:+ ts
  | .ok r => r.2 <:+ ts

theorem Within.trans {α : Type} {ts us : List Token} {r : Reading α} (h : Within ts r)
    (hs : ts <:+ us) : Within us r := by
  cases r with
  | error e => exact List.IsSuffix.trans h hs
  | ok r => exact List.IsSuffix.trans h hs

end Reading

def skipBlanks (ts : List Token) : List Token := ts.dropWhile (·.kind.isBlank)

theorem skipBlanks_suffix (ts : List Token) : skipBlanks ts <:+ ts := List.dropWhile_suffix _

end Styling
