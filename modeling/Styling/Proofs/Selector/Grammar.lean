import Styling.Selector.Reader

/-! # The grammar of selectors

The grammar relates kinds of tokens to the selectors they stand for. A compound has nothing
between its conditions, a combinator is a run of blanks or a mark with blanks around it, and
chains lean to the left. Kinds are viable if they begin a group that the end follows.
-/
namespace Styling.Grammar
open scoped List

/-- `S*` -/
def Blanks (ks : List Kind) : Prop := ∀ k ∈ ks, k = .blank

/-- `'=' | '~=' | '|=' | '^=' | '$=' | '*='`; nothing else stands for equality. -/
inductive Operator : Kind → Option MatchOp → Prop
  | equality : Operator (.delim '=') none
  | comparison (op : MatchOp) : Operator (.attrMatch op) (some op)

/-- `IDENT | STRING` -/
inductive Value : Kind → String → Prop
  | ident (value : String) : Value (.ident value) value
  | string (value : String) : Value (.string value) value

/-- `'[' S* IDENT S* [ operator S* value S* ]? ']'` -/
inductive AttributeTest : List Kind → Condition → Prop
  | has {s₁ s₂ : List Kind} (name : String) : Blanks s₁ → Blanks s₂ →
    AttributeTest ([.opening .square] ++ s₁ ++ [.ident name] ++ s₂ ++ [.closing .square])
      (.hasAttribute name)
  | compares {s₁ s₂ s₃ s₄ : List Kind} {o v : Kind} {op : Option MatchOp} {value : String}
    (name : String) : Blanks s₁ → Blanks s₂ → Operator o op → Blanks s₃ → Value v value →
    Blanks s₄ →
    AttributeTest ([.opening .square] ++ s₁ ++ [.ident name] ++ s₂ ++ [o] ++ s₃ ++ [v] ++ s₄ ++
      [.closing .square]) (.attributeTest name op value)

/-- `HASH | '.' IDENT | ':' IDENT | attribute test` -/
inductive Part : List Kind → Condition → Prop
  | id (value : String) (kind : HashKind) : Part [.hash value kind] (.id value)
  | styleClass (name : String) : Part [.delim '.', .ident name] (.styleClass name)
  | pseudoClass (name : String) : Part [.colon, .ident name] (.pseudoClass name)
  | attributeTest {ks : List Kind} {c : Condition} : AttributeTest ks c → Part ks c

/-- `IDENT | '*' | part` -/
inductive Head : List Kind → Condition → Prop
  | type (name : String) : Head [.ident name] (.type name)
  | universal : Head [.delim '*'] .universal
  | part {ks : List Kind} {c : Condition} : Part ks c → Head ks c

/-- `head part*` -/
inductive Compound : List Kind → Selector → Prop
  | head {ks : List Kind} {c : Condition} : Head ks c → Compound ks (.simple c)
  | more {ks part : List Kind} {s : Selector} {c : Condition} : Compound ks s → Part part c →
    Compound (ks ++ part) (.combined .and s (.simple c))

/-- The combinators with a mark. -/
inductive Mark : Kind → Combinator → Prop
  | child : Mark (.delim '>') .child
  | adjacentSibling : Mark (.delim '+') .adjacentSibling
  | generalSibling : Mark (.delim '~') .generalSibling

/-- `S+ | S* mark S*` -/
inductive Link : List Kind → Combinator → Prop
  | descendant {s : List Kind} : Blanks s → s ≠ [] → Link s .descendant
  | mark {s₁ s₂ : List Kind} {k : Kind} {c : Combinator} : Blanks s₁ → Mark k c → Blanks s₂ →
    Link (s₁ ++ [k] ++ s₂) c

/-- `S* compound ( combinator compound )*` -/
inductive Chain : List Kind → Selector → Prop
  | first {s ks : List Kind} {right : Selector} : Blanks s → Compound ks right →
    Chain (s ++ ks) right
  | next {ks link compound : List Kind} {left right : Selector} {c : Combinator} :
    Chain ks left → Link link c → Compound compound right →
    Chain (ks ++ link ++ compound) (.combined c left right)

/-- `S* compound ( combinator compound )* S*` -/
def Member (ks : List Kind) (s : Selector) : Prop :=
  ∃ front back, ks = front ++ back ∧ Chain front s ∧ Blanks back

/-- `selector ( ',' selector )*` -/
inductive Group : List Kind → SelectorGroup → Prop
  | one {ks : List Kind} {s : Selector} : Member ks s → Group ks [s]
  | more {ks member : List Kind} {g : SelectorGroup} {s : Selector} : Group ks g →
    Member member s → Group (ks ++ [.comma] ++ member) (g ++ [s])

/-- The kinds begin a group that the end of the text follows. -/
def Viable (ks : List Kind) : Prop := ∃ full g, Group full g ∧ ks <+: full ++ [.eof]

/-- Every member of a group is a chain of compounds. -/
theorem Group.chain_of_mem {ks : List Kind} {g : SelectorGroup} (h : Group ks g) :
    ∀ s ∈ g, ∃ front, Chain front s := by
  induction h with
  | one hmember =>
    obtain ⟨front, -, -, hchain, -⟩ := hmember
    exact List.forall_mem_singleton.mpr ⟨front, hchain⟩
  | more _ hmember ih =>
    obtain ⟨front, -, -, hchain, -⟩ := hmember
    exact List.forall_mem_append.mpr ⟨ih, List.forall_mem_singleton.mpr ⟨front, hchain⟩⟩

theorem Blanks.nil : Blanks [] := by simp [Blanks]

theorem Blanks.append {s₁ s₂ : List Kind} (h₁ : Blanks s₁) (h₂ : Blanks s₂) :
    Blanks (s₁ ++ s₂) := by
  intro k hk
  exact (List.mem_append.mp hk).elim (h₁ k) (h₂ k)

theorem Blanks.blank : Blanks [.blank] := by simp [Blanks]

end Styling.Grammar
