/-! # Warnings

A warning names the component it comes from. It is given once; the record of what has been given
can be cleared. Two warnings are the same if they read the same.
-/
namespace Styling

structure Warning where
  component : String
  message : String
  deriving DecidableEq, Repr

/-- What a reader of style sheets warns of. -/
def Warning.ofSheet (message : String) : Warning := ⟨"CSS", message⟩

def Warning.text (w : Warning) : String := "[" ++ w.component ++ "] " ++ w.message

/-- The texts of the warnings given since the record was last cleared. -/
structure WarningRecord where
  given : List String
  deriving DecidableEq, Repr

namespace WarningRecord

def empty : WarningRecord := ⟨[]⟩

def isNew (r : WarningRecord) (w : Warning) : Bool := !r.given.contains w.text

def note (r : WarningRecord) (w : Warning) : WarningRecord :=
  if r.isNew w then ⟨w.text :: r.given⟩ else r

def give (r : WarningRecord) : List Warning → List Warning × WarningRecord
  | [] => ([], r)
  | w :: ws =>
    let rest := (r.note w).give ws
    (if r.isNew w then w :: rest.1 else rest.1, rest.2)

end WarningRecord
end Styling
