import Styling.Cascade.Origin
import Styling.Sheet

/-! # Applied styles

The declaration that won each property of an element, by the order of the properties' names. A
later declaration for a property replaces the earlier one.
-/
namespace Styling

structure AppliedDeclaration where
  origin : Origin
  declaration : Declaration
  deriving DecidableEq, Repr

/-- Properties in increasing order, each with its winner. -/
structure AppliedStyles where
  entries : List (String × AppliedDeclaration)
  deriving DecidableEq, Repr

namespace AppliedStyles

def empty : AppliedStyles := ⟨[]⟩

def insert (name : String) (a : AppliedDeclaration) :
    List (String × AppliedDeclaration) → List (String × AppliedDeclaration)
  | [] => [(name, a)]
  | (n, b) :: rest =>
    if name < n then (name, a) :: (n, b) :: rest
    else if n = name then (name, a) :: rest
    else (n, b) :: insert name a rest

def set (s : AppliedStyles) (a : AppliedDeclaration) : AppliedStyles :=
  ⟨insert a.declaration.property a s.entries⟩

def ofList (as : List AppliedDeclaration) : AppliedStyles := as.foldl set empty

def find? (s : AppliedStyles) (property : String) : Option AppliedDeclaration :=
  s.entries.lookup property

def get? (s : AppliedStyles) (property : String) : Option Declaration :=
  (s.find? property).map AppliedDeclaration.declaration

def originOf? (s : AppliedStyles) (property : String) : Option Origin :=
  (s.find? property).map AppliedDeclaration.origin

def valueText? (s : AppliedStyles) (property : String) : Option String :=
  (s.get? property).map Declaration.valueText

def size (s : AppliedStyles) : Nat := s.entries.length

def winners (s : AppliedStyles) : List AppliedDeclaration := s.entries.map Prod.snd

end AppliedStyles
end Styling
