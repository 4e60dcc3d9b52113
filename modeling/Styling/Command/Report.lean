import Styling.ElementPath
import Styling.Files
import Styling.Json.Problem
import Styling.Terminal

/-! # Reports

What a command writes to the two streams of text, and its exit status: zero for success, one for
faults and for errors, two for arguments that describe no command.
-/
namespace Styling

structure Report where
  status : Nat
  output : String
  errors : String
  deriving DecidableEq, Repr

namespace Report

def empty : Report := ⟨0, "", ""⟩

def write (text : String) : Report := ⟨0, text, ""⟩
def line (text : String) : Report := write (text ++ "\n")
def errorLine (text : String) : Report := ⟨0, "", text ++ "\n"⟩
def withStatus (status : Nat) (r : Report) : Report := { r with status }

/-- Both reports, one after the other; the greater status counts. -/
def append (a b : Report) : Report :=
  ⟨max a.status b.status, a.output ++ b.output, a.errors ++ b.errors⟩

def concat (rs : List Report) : Report := rs.foldl append empty

def lines (texts : List String) : Report := concat (texts.map line)
def errorLines (texts : List String) : Report := concat (texts.map errorLine)

def usage : Report :=
  (errorLine "usage: styling [--config FILE] (tokens | check | dump | match) ...").withStatus 2

end Report

inductive CommandError
  | unreadable (file : String) (why : ReadError)
  | badSettings (file : String) (why : Json.Fault)
  | badPath (why : PathError)
  deriving DecidableEq, Repr

namespace CommandError

def message : CommandError → String
  | unreadable file _ => "failed to read " ++ file
  | badSettings file _ => "invalid configuration in " ++ file
  | badPath why => why.message

def reason? : CommandError → Option String
  | unreadable _ why => some why.message
  | badSettings _ why => some why.text
  | badPath _ => none

def indented (text : String) : String :=
  String.ofList (joinPieces '\n' ((pieces '\n' text.toList).map ([' ', ' ', ' ', ' '] ++ ·)))

def text (e : CommandError) : String :=
  "Error: " ++ e.message ++
    ((e.reason?.map fun reason => "\n\nCaused by:\n" ++ indented reason).getD "")

def report (e : CommandError) : Report := (Report.errorLine e.text).withStatus 1

end CommandError

def Report.ofResult : Except CommandError Report → Report
  | .ok r => r
  | .error e => e.report

end Styling
