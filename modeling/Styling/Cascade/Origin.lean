/-! # Origins

Where a style sheet comes from. Sheets of a later origin win over those of an earlier one,
whatever their selectors.
-/
namespace Styling

inductive Origin
  | userAgent
  | author
  | inline
  deriving DecidableEq, Repr

namespace Origin

/-- All origins, the weakest first. -/
def all : List Origin := [userAgent, author, inline]

def rank : Origin → Nat
  | userAgent => 0
  | author => 1
  | inline => 2

def name : Origin → String
  | userAgent => "user-agent"
  | author => "author"
  | inline => "inline"

def label : Origin → String
  | userAgent => "UserAgent"
  | author => "Author"
  | inline => "Inline"

def ofName? (name : String) : Option Origin := all.find? (·.name == name)

theorem mem_all (o : Origin) : o ∈ all := by cases o <;> decide

theorem ofName?_name (o : Origin) : ofName? o.name = some o := by cases o <;> rfl

end Origin
end Styling
