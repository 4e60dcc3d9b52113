import Styling.Document
import Styling.Selector.Matching
import Styling.Selector.Named
import Styling.Selector.Reader

/-! # Elements described by a path

A path such as `layer > rect.warning#r1[kind=note]:selected` describes a chain of elements, each
the only child of the one before. It is a selector whose compounds begin with a type and go on
with conditions that one element can be made to meet. Pseudo-classes are not set on the elements
but kept beside the chain.
-/
namespace Styling

inductive PathError
  | malformed (fault : Fault)
  /-- The path has several alternatives. -/
  | alternatives (count : Nat)
  | separator (found : Combinator)
  | emptyElement
  | startsWithout (found : Condition)
  | notConcrete (found : Condition)
  deriving DecidableEq, Repr

namespace PathError

def message : PathError → String
  | malformed f => f.text
  | alternatives n => "expected a single element path, found " ++ toString n ++ " selectors"
  | separator c => "elements must be separated by '>', found " ++ c.name
  | emptyElement => "empty element"
  | startsWithout c => "each element must start with a type name, found '" ++ c.text ++ "'"
  | notConcrete c => "'" ++ c.text ++ "' does not describe a concrete element"

end PathError

/-- The last element of a chain, the document that holds it, and the pseudo-classes to turn on. -/
structure PathTarget where
  document : Document
  target : Nat
  overrides : Overrides Nat
  deriving DecidableEq, Repr

namespace ElementPath

def steps : Selector → Except PathError (List Selector)
  | .combined .child left right =>
    match steps left with
    | .error e => .error e
    | .ok outer => .ok (outer ++ [right])
  | .simple c => .ok [.simple c]
  | .combined .and left right => .ok [.combined .and left right]
  | .combined c _ _ => .error (.separator c)

def conditions : Selector → List Condition
  | .simple c => [c]
  | .combined _ left right => conditions left ++ conditions right

structure Draft where
  element : Element
  classes : List String
  pseudoClasses : List String

def Draft.add (d : Draft) : Condition → Except PathError Draft
  | .id value => .ok { d with element := d.element.withId value }
  | .styleClass name => .ok { d with classes := d.classes ++ [name] }
  | .hasAttribute name => .ok { d with element := d.element.withAttribute name "" }
  | .attributeIs name value => .ok { d with element := d.element.withAttribute name value }
  | .pseudoClass name =>
    .ok { d with pseudoClasses :=
      if d.pseudoClasses.contains name then d.pseudoClasses else d.pseudoClasses ++ [name] }
  | c => .error (.notConcrete c)

def Draft.addAll (d : Draft) : List Condition → Except PathError Draft
  | [] => .ok d
  | c :: cs =>
    match d.add c with
    | .error e => .error e
    | .ok d => d.addAll cs

/-- The classes replace a class attribute that was given as one. -/
def Draft.finish (d : Draft) : Element :=
  if d.classes.isEmpty then d.element else d.element.withClasses d.classes

def describe : List Condition → Except PathError (Element × List String)
  | .type name :: rest =>
    match Draft.addAll ⟨Element.ofType name, [], []⟩ rest with
    | .error e => .error e
    | .ok d => .ok (d.finish, d.pseudoClasses)
  | c :: _ => .error (.startsWithout c)
  | [] => .error .emptyElement

def extend (p : PathTarget) (described : Element × List String) : PathTarget :=
  match p.document.appendElement? p.target described.1 with
  | none => p
  | some document =>
    let id := p.document.fresh
    ⟨document, id,
      if described.2.isEmpty then p.overrides else p.overrides ++ [(id, described.2)]⟩

def extendAll (p : PathTarget) : List Selector → Except PathError PathTarget
  | [] => .ok p
  | s :: rest =>
    match describe (conditions s) with
    | .error e => .error e
    | .ok described => extendAll (extend p described) rest

def ofSelector (s : Selector) : Except PathError PathTarget :=
  match steps s with
  | .error e => .error e
  | .ok ss => extendAll ⟨Document.empty, Document.root, []⟩ ss

def build (path : String) : Except PathError PathTarget :=
  match SelectorGroup.parse path with
  | .error f => .error (.malformed f)
  | .ok [s] => ofSelector s
  | .ok group => .error (.alternatives group.length)

end ElementPath
end Styling
