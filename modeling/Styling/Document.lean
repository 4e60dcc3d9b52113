import Styling.Text.Words

/-! # Documents

A document is a table of nodes that refer to each other by number; node 0 is the root, which is
no element. A node is linked to its parent, its children and its neighbours. New nodes are
detached until they are appended to a parent; nothing is ever removed.
-/
namespace Styling

structure Element where
  typeName : String
  /-- Names with their values; no name occurs twice. -/
  attributes : List (String × String)
  pseudoClasses : List String
  deriving DecidableEq, Repr

namespace Element

def ofType (typeName : String) : Element := ⟨typeName, [], []⟩

def put (name value : String) : List (String × String) → List (String × String)
  | [] => [(name, value)]
  | (n, v) :: rest => if n = name then (name, value) :: rest else (n, v) :: put name value rest

def withAttribute (e : Element) (name value : String) : Element :=
  { e with attributes := put name value e.attributes }

def withId (e : Element) (id : String) : Element := e.withAttribute "id" id

/-- The classes become one attribute, with a space between them. -/
def withClasses (e : Element) (classes : List String) : Element :=
  e.withAttribute "class" (" ".intercalate classes)

def withPseudoClass (e : Element) (name : String) : Element :=
  if e.pseudoClasses.contains name then e
  else { e with pseudoClasses := e.pseudoClasses ++ [name] }

def attribute? (e : Element) (name : String) : Option String := e.attributes.lookup name

def id? (e : Element) : Option String := e.attribute? "id"

def classes (e : Element) : List String := words ((e.attribute? "class").getD "")

end Element

def sortNames (names : List String) : List String := names.mergeSort (fun a b => decide (a ≤ b))

structure Node where
  /-- Nothing for a node that is no element. -/
  element : Option Element
  parent : Option Nat
  children : List Nat
  next : Option Nat
  previous : Option Nat
  deriving DecidableEq, Repr

def Node.detached (element : Option Element) : Node := ⟨element, none, [], none, none⟩

structure Document where
  nodes : List Node
  deriving DecidableEq, Repr

namespace Document

def root : Nat := 0

def empty : Document := ⟨[Node.detached none]⟩

def size (d : Document) : Nat := d.nodes.length

def get? (d : Document) (id : Nat) : Option Node := d.nodes[id]?

def element? (d : Document) (id : Nat) : Option Element := (d.get? id).bind Node.element

def parent? (d : Document) (id : Nat) : Option Nat := (d.get? id).bind Node.parent

def children (d : Document) (id : Nat) : List Nat := ((d.get? id).map Node.children).getD []

def next? (d : Document) (id : Nat) : Option Nat := (d.get? id).bind Node.next

def previous? (d : Document) (id : Nat) : Option Nat := (d.get? id).bind Node.previous

def fresh (d : Document) : Nat := d.size

def allocate (d : Document) (element : Option Element) : Document :=
  ⟨d.nodes ++ [Node.detached element]⟩

def update (d : Document) (id : Nat) (f : Node → Node) : Document := ⟨d.nodes.modify id f⟩

def linkSiblings (d : Document) (before after : Nat) : Document :=
  (d.update before fun n => { n with next := some after }).update after
    fun n => { n with previous := some before }

/-- Appends a node as the last child of another and links it there. Links that it has elsewhere
are left as they are. There is no result if one of the nodes does not exist. -/
def appendChild? (d : Document) (parent child : Nat) : Option Document :=
  match d.get? parent, d.get? child with
  | some p, some _ =>
    let d := d.update parent fun n => { n with children := n.children ++ [child] }
    let d := d.update child fun n => { n with parent := some parent }
    some (match p.children.getLast? with
      | some last => d.linkSiblings last child
      | none => d)
  | _, _ => none

def appendElement? (d : Document) (parent : Nat) (e : Element) : Option Document :=
  (d.allocate (some e)).appendChild? parent d.fresh

end Document
end Styling
