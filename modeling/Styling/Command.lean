import Styling.Address.Library
import Styling.Reference

/-! # Commands

What can be asked of a collection of style sheets in files: their tokens, whether they have
faults, what was read from them, and which declarations reach an element. An invocation is a
command with the file of settings that was named beside it.
-/
namespace Styling

inductive Command
  | tokens (file : String) (json : Bool)
  | check (files : List String)
  | dump (file : String) (json : Bool)
  /-- Styles of the element at a path. Weaker sheets come first, each kind in order. -/
  | styles (element : String) (userAgent author : List String) (rules json : Bool)
  deriving DecidableEq, Repr

structure Invocation where
  settings : Option String
  command : Command
  deriving DecidableEq, Repr

namespace Invocation

def filePath (file : String) : List UInt8 := Utf8.encode file.toList

def paths (i : Invocation) : List (List UInt8) :=
  match i.command with
  | .tokens file _ => [filePath file]
  | .check files => files.map filePath
  | .dump file _ => [filePath file]
  | .styles _ userAgent author _ _ =>
    (i.settings.map filePath).toList ++
      (userAgent ++ author).filterMap fun file => Reference.path? (Reference.resolve file none)

end Invocation
end Styling
