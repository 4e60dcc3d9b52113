import Styling.Token.Written

/-! # Selectors

A selector is a binary tree: leaves are conditions on one element, and an inner node joins two
selectors with a combinator. Chains lean to the left, so the right operand of a node is the part
nearest to the element in question.
-/
namespace Styling

/-- A condition on one element. Names and values compare exactly. -/
inductive Condition
  | universal
  | type (name : String)
  | id (value : String)
  | styleClass (name : String)
  | pseudoClass (name : String)
  | hasAttribute (name : String)
  | attributeIs (name value : String)
  | attributeMatches (name : String) (op : MatchOp) (value : String)
  deriving DecidableEq, Repr

inductive Combinator
  /-- Both operands hold of the same element. -/
  | and
  | descendant
  | child
  | adjacentSibling
  | generalSibling
  deriving DecidableEq, Repr

inductive Selector
  | simple (condition : Condition)
  | combined (combinator : Combinator) (left right : Selector)
  deriving DecidableEq, Repr

abbrev SelectorGroup := List Selector

namespace Condition

def attributeTest (name : String) (op : Option MatchOp) (value : String) : Condition :=
  match op with
  | none => attributeIs name value
  | some op => attributeMatches name op value

def attributeTestChars (name op value : String) : List Char :=
  '[' :: identifierText name.toList ++ op.toList ++ stringText value.toList ++ [']']

def chars : Condition → List Char
  | universal => ['*']
  | type name => identifierText name.toList
  | id value => '#' :: identifierText value.toList
  | styleClass name => '.' :: identifierText name.toList
  | pseudoClass name => ':' :: identifierText name.toList
  | hasAttribute name => '[' :: identifierText name.toList ++ [']']
  | attributeIs name value => attributeTestChars name "=" value
  | attributeMatches name op value => attributeTestChars name op.text value

def text (c : Condition) : String := String.ofList c.chars

end Condition

def Combinator.chars : Combinator → List Char
  | and => []
  | descendant => [' ']
  | child => [' ', '>', ' ']
  | adjacentSibling => [' ', '+', ' ']
  | generalSibling => [' ', '~', ' ']

namespace Selector

def chars : Selector → List Char
  | simple c => c.chars
  | combined c left right => left.chars ++ c.chars ++ right.chars

def compound (first : Condition) (more : List Condition) : Selector :=
  more.foldl (fun left c => combined .and left (simple c)) (simple first)

def chain (first : Selector) (links : List (Combinator × Selector)) : Selector :=
  links.foldl (fun left link => combined link.1 left link.2) first

end Selector

def SelectorGroup.chars (g : SelectorGroup) : List Char :=
  [',', ' '].intercalate (g.map Selector.chars)

def SelectorGroup.text (g : SelectorGroup) : String := String.ofList (SelectorGroup.chars g)

end Styling
