import Styling.Sheet.Reader

/-! # Reading a text in several steps

A session reads sheets, declaration lists and selector groups from one text, each from where the
one before stopped. Faults of sheets and declaration lists are kept; a faulty selector group is
an answer of its own.
-/
namespace Styling

structure Session where
  ahead : List Token
  finish : Token
  faults : List Fault

namespace Session

def ofText (text : String) : Session := ⟨significant text.toList, endToken text.toList, []⟩

def readSheet (s : Session) : ParsedSheet × Session :=
  let sheet : ParsedSheet := ⟨readStatements s.finish s.ahead⟩
  (sheet, { s with ahead := [], faults := s.faults ++ sheet.faults })

def readDeclarations (s : Session) : List Entry × Session :=
  let r := Styling.readDeclarations s.finish false s.ahead
  (r.1, { s with ahead := r.2, faults := s.faults ++ faultsOf r.1 })

/-- A token that is left over after a group is taken; any other fault leaves the offending token
in place. -/
def readSelectors (s : Session) : Except Fault SelectorGroup × Session :=
  match SelectorGroup.readAll s.ahead with
  | .ok group => (.ok group, { s with ahead := [] })
  | .error e =>
    let rest := if e.cause = .unexpectedAfterSelector then e.rest.drop 1 else e.rest
    (.error (e.fault s.finish), { s with ahead := rest })

end Session
end Styling
