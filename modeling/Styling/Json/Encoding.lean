import Styling.Cascade.Manager
import Styling.Json
import Styling.Selector.Named
import Styling.Token.Label

/-! # Style sheets as data

Tokens, selectors, style sheets and styles in JSON. A value of one of several kinds is a record
with the name of its kind as its only field, or the name alone where there is nothing to add.
-/
namespace Styling
open Json

namespace Kind

def numericFields (numeral : String) : List (String × Json) :=
  [("value", real (Numeral.word numeral)), ("repr", Json.string numeral),
    ("numeric_type", Json.string (Numeral.typeName numeral))]

def payload? : Kind → Option Json
  | ident s | function s | atKeyword s | string s | url s | comment s => some (Json.string s)
  | delim c => some (Json.string (String.singleton c))
  | hash value kind =>
    some (record [("value", Json.string value), ("hash_type", Json.string kind.name)])
  | number numeral | percentage numeral => some (record (numericFields numeral))
  | dimension numeral unit =>
    some (record (numericFields numeral ++ [("unit", Json.string unit)]))
  | _ => none

def toJson (k : Kind) : Json :=
  match k.payload? with
  | some payload => tagged k.name payload
  | none => Json.string k.name

end Kind

def Token.toJson (t : Token) : Json :=
  record [("value", t.kind.toJson), ("start", nat t.start), ("end", nat t.stop),
    ("line", nat t.line)]

def Condition.toJson : Condition → Json
  | universal => Json.string "Universal"
  | type name => tagged "Type" (Json.string name)
  | id value => tagged "Id" (Json.string value)
  | styleClass name => tagged "StyleClass" (Json.string name)
  | pseudoClass name => tagged "PseudoClass" (Json.string name)
  | hasAttribute name => tagged "AttributeExists" (Json.string name)
  | attributeIs name value => tagged "AttributeEquals" (pair name value)
  | attributeMatches name op value => tagged op.testName (pair name value)
where
  pair (a b : String) : Json := Json.list [Json.string a, Json.string b]

def Selector.toJson : Selector → Json
  | simple c => tagged "Simple" c.toJson
  | combined c left right =>
    tagged "Combined" (record [("combinator", Json.string c.name), ("left", left.toJson),
      ("right", right.toJson)])

def SelectorGroup.toJson (g : SelectorGroup) : Json := Json.list (g.map Selector.toJson)

def Declaration.toJson (d : Declaration) : Json :=
  record [("property", Json.string d.property), ("terms", Json.list (d.terms.map Kind.toJson)),
    ("important", bool d.important)]

def Ruleset.toJson (r : Ruleset) : Json :=
  record [("selectors", SelectorGroup.toJson r.selectors),
    ("declarations", Json.list (r.declarations.map Declaration.toJson))]

def Stylesheet.toJson (s : Stylesheet) : Json :=
  tagged "rulesets" (Json.list (s.rulesets.map Ruleset.toJson))

def Origin.toJson (o : Origin) : Json := Json.string o.name

def Source.toJson : Source → Json
  | location reference => tagged "Uri" (Json.string reference)
  | literal text => tagged "Literal" (Json.string text)

def AppliedDeclaration.toJson (a : AppliedDeclaration) : Json :=
  record [("origin", a.origin.toJson), ("declaration", a.declaration.toJson)]

def AppliedStyles.toJson (s : AppliedStyles) : Json :=
  tagged "declarations" (record (s.entries.map fun (name, a) => (name, a.toJson)))

def MatchedRuleset.toJson (m : MatchedRuleset) : Json :=
  record [("origin", m.origin.toJson), ("source", m.source.toJson),
    ("ruleset", m.ruleset.toJson)]

end Styling
