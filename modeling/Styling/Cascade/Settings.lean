/-! # Settings of a manager -/
namespace Styling

structure Settings where
  /-- How many sheets are compiled at a time, if not left open. -/
  workers : Option Nat
  /-- The attribute with an element's own declarations, if there is one. -/
  styleAttribute : Option String
  deriving DecidableEq, Repr

namespace Settings

def default : Settings := ⟨none, some "style"⟩

def single : Settings := { default with workers := some 1 }

end Settings
end Styling
