import Styling.Selector

/-! # The names of combinators and attribute tests -/
namespace Styling

def Combinator.name : Combinator → String
  | and => "And"
  | descendant => "Descendant"
  | child => "Child"
  | adjacentSibling => "AdjacentSibling"
  | generalSibling => "GeneralSibling"

def MatchOp.testName : MatchOp → String
  | word => "AttributeWordListItem"
  | dash => "AttributeStartsWith"
  | beginning => "AttributePrefix"
  | ending => "AttributeSuffix"
  | substring => "AttributeValueContainsWord"

end Styling
