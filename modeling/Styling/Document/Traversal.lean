import Styling.Document

/-! # Walks through a document

Chains of links, and the nodes below a node. A chain of parents in a document without cycles is
shorter than the document. The nodes below a node are found with a stack of nodes still to be
visited; `preorder` says in which order that visits them.
-/
namespace Styling

def follow {ε : Type} (step : ε → Option ε) : Nat → ε → List ε
  | 0, _ => []
  | bound + 1, e =>
    match step e with
    | none => []
    | some a => a :: follow step bound a

namespace Document

def ancestors (d : Document) (id : Nat) : List Nat := follow d.parent? d.size id

/-- Visits the node on top of the stack and puts its children there, at most `bound` times. -/
def visit (d : Document) : Nat → List Nat → List Nat
  | 0, _ => []
  | _, [] => []
  | bound + 1, id :: stack => id :: visit d bound (d.children id ++ stack)

/-- No walk visits more nodes in a document without cycles, where every path is shorter than the
document and goes on in one of as many ways as there are links to children. -/
def visitBound (d : Document) : Nat :=
  Nat.pow (d.nodes.foldl (fun links n => links + n.children.length) 1) (d.size + 1)

def descendants (d : Document) (id : Nat) : List Nat := d.visit d.visitBound [id]

/-- A node, then the preorder of each of its children, down to a given depth. -/
def preorder (d : Document) : Nat → Nat → List Nat
  | 0, id => [id]
  | depth + 1, id => id :: (d.children id).flatMap (preorder d depth)

end Document
end Styling
