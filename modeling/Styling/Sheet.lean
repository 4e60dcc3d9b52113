import Styling.Selector

/-! # Style sheets

A declaration gives a property its value, kept as tokens; a ruleset gives declarations to the
elements that its selectors match; a style sheet is its rulesets in document order. The text of
each is style sheet text again.
-/
namespace Styling

structure Declaration where
  property : String
  /-- The value, without comments and without blanks at its ends or doubled. -/
  terms : List Kind
  /-- Recorded, but without effect on which declaration wins. -/
  important : Bool
  deriving DecidableEq, Repr

structure Ruleset where
  selectors : SelectorGroup
  declarations : List Declaration
  deriving DecidableEq, Repr

structure Stylesheet where
  rulesets : List Ruleset
  deriving DecidableEq, Repr

namespace Declaration

def valueText (d : Declaration) : String := Kind.listText d.terms

def chars (d : Declaration) : List Char :=
  identifierText d.property.toList ++ [':', ' '] ++ Kind.listChars d.terms ++
    (if d.important then " !important".toList else [])

def text (d : Declaration) : String := String.ofList d.chars

end Declaration

namespace Ruleset

def chars (r : Ruleset) : List Char :=
  SelectorGroup.chars r.selectors ++ [' ', '\x7b', '\n'] ++
    r.declarations.flatMap (fun d => [' ', ' '] ++ d.chars ++ [';', '\n']) ++ ['\x7d']

def text (r : Ruleset) : String := String.ofList r.chars

end Ruleset

namespace Stylesheet

def chars (s : Stylesheet) : List Char := s.rulesets.flatMap fun r => r.chars ++ ['\n']

def text (s : Stylesheet) : String := String.ofList s.chars

end Stylesheet
end Styling
