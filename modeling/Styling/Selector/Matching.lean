import Styling.Document.Traversal
import Styling.Selector

/-! # Matching selectors

Selectors ask their questions of a model of elements, so that one rule serves plain documents
and documents whose elements have more pseudo-classes for a time. A selector is tested at its
right operand first; its left operand is then sought among the elements that the combinator
relates to that one.
-/
namespace Styling

/-- What selectors can ask about elements. -/
structure Model (ε : Type) where
  hasId : ε → String → Bool
  hasType : ε → String → Bool
  hasClass : ε → String → Bool
  hasPseudoClass : ε → String → Bool
  attribute? : ε → String → Option String
  /-- Whether the value of an attribute contains a text. -/
  containsWord : ε → String → String → Bool
  attributeNames : ε → List String
  parent? : ε → Option ε
  previous? : ε → Option ε
  /-- No chain of parents or of earlier siblings is longer. -/
  reach : Nat

def occursIn (part : List Char) : List Char → Bool
  | [] => part.isEmpty
  | c :: cs => part.isPrefixOf (c :: cs) || occursIn part cs

namespace Model

/-- A model that answers word and name questions by the general rules: the text occurs in the
value, and no names are known. -/
def bare {ε : Type} (m : Model ε) : Model ε :=
  { m with
    containsWord := fun e name word =>
      (m.attribute? e name).any fun value => occursIn word.toList value.toList
    attributeNames := fun _ => [] }

end Model

/-- Pseudo-classes that elements have for a time. An element may be listed more than once. -/
abbrev Overrides (ε : Type) := List (ε × List String)

namespace Overrides

def gives {ε : Type} [BEq ε] (o : Overrides ε) (e : ε) (name : String) : Bool :=
  o.any fun entry => entry.1 == e && entry.2.contains name

end Overrides

def Model.overlay {ε : Type} [BEq ε] (m : Model ε) (o : Overrides ε) : Model ε :=
  { m with hasPseudoClass := fun e name => o.gives e name || m.hasPseudoClass e name }

/-- The elements of a document. Its root is no element and so no parent. -/
def Document.model (d : Document) : Model Nat where
  hasId id name := ((d.element? id).bind Element.id?) == some name
  hasType id name := (d.element? id).any fun e => e.typeName == name
  hasClass id name := (d.element? id).any fun e => e.classes.contains name
  hasPseudoClass id name := (d.element? id).any fun e => e.pseudoClasses.contains name
  attribute? id name := (d.element? id).bind fun e => e.attribute? name
  containsWord id name word := ((d.element? id).bind fun e => e.attribute? name).any
    fun value => occursIn word.toList value.toList
  attributeNames id := ((d.element? id).map fun e => sortNames (e.attributes.map Prod.fst)).getD []
  parent? id := (d.parent? id).filter fun p => (d.element? p).isSome
  previous? id := d.previous? id
  reach := d.size

def MatchOp.holds (op : MatchOp) (text value : List Char) : Bool :=
  match op with
  | word => (wordChars value).contains text
  | dash => text.isPrefixOf value && (value.drop text.length).head?.all (· == '-')
  | beginning => !text.isEmpty && text.isPrefixOf value
  | ending => !text.isEmpty && text.isSuffixOf value
  | substring => occursIn text value

namespace Condition

def holds {ε : Type} (m : Model ε) (c : Condition) (e : ε) : Bool :=
  match c with
  | universal => true
  | type name => m.hasType e name
  | id value => m.hasId e value
  | styleClass name => m.hasClass e name
  | pseudoClass name => m.hasPseudoClass e name
  | hasAttribute name => (m.attribute? e name).isSome
  | attributeIs name value => m.attribute? e name == some value
  | attributeMatches name .substring value => m.containsWord e name value
  | attributeMatches name op value =>
    (m.attribute? e name).any fun v => op.holds value.toList v.toList

end Condition

/-- The elements among which a combinator seeks its left operand, nearest first. -/
def Combinator.related {ε : Type} (m : Model ε) (c : Combinator) (e : ε) : List ε :=
  match c with
  | and => [e]
  | descendant => follow m.parent? m.reach e
  | child => (m.parent? e).toList
  | adjacentSibling => (m.previous? e).toList
  | generalSibling => follow m.previous? m.reach e

namespace Selector

def match? {ε : Type} (m : Model ε) : Selector → ε → Option ε
  | simple c, e => if c.holds m e then some e else none
  | combined c left right, e =>
    match right.match? m e with
    | none => none
    | some subject =>
      if (c.related m subject).any fun a => (left.match? m a).isSome then some subject else none

end Selector

namespace SelectorGroup

def match? {ε : Type} (m : Model ε) (g : SelectorGroup) (e : ε) : Option ε :=
  g.findSome? fun s => s.match? m e

def accepts {ε : Type} (m : Model ε) (g : SelectorGroup) (e : ε) : Bool := (g.match? m e).isSome

end SelectorGroup
end Styling
