import Styling.Selector.Reader
import Styling.Sheet
import Styling.Sheet.Segment

/-! # Reading style sheets

Reading never fails: what is malformed is skipped and reported once. A malformed declaration
ends with its segment, a malformed ruleset with the bracket that closes its block, and an
at-rule, of which none is supported, with its block or the next semicolon. A sheet is read into
its statements; rulesets, faults and warnings are views of these.
-/
namespace Styling

inductive Entry
  | declared (declaration : Declaration)
  | malformed (fault : Fault)
  deriving DecidableEq, Repr

def Entry.declaration? : Entry → Option Declaration
  | declared d => some d
  | malformed _ => none

def Entry.fault? : Entry → Option Fault
  | declared _ => none
  | malformed f => some f

def declarationsOf (entries : List Entry) : List Declaration := entries.filterMap Entry.declaration?

def faultsOf (entries : List Entry) : List Fault := entries.filterMap Entry.fault?

/-- Makes one blank of every run of blanks; after a blank, none. -/
def collapseBlanks (afterBlank : Bool) : List Kind → List Kind
  | [] => []
  | k :: ks =>
    if k.isBlank then
      if afterBlank then collapseBlanks true ks else .blank :: collapseBlanks true ks
    else k :: collapseBlanks false ks

def trimBlanks (ks : List Kind) : List Kind := (ks.reverse.dropWhile Kind.isBlank).reverse

def isImportant : Kind → Bool
  | .ident name => sameWord name.toList "important".toList
  | _ => false

def splitImportant (terms : List Kind) : List Kind × Bool :=
  match terms.reverse with
  | [] => (terms, false)
  | last :: before =>
    if isImportant last then
      match before.dropWhile Kind.isBlank with
      | .delim '!' :: front => ((front.dropWhile Kind.isBlank).reverse, true)
      | _ => (terms, false)
    else (terms, false)

def valueTerms (value : List Token) : List Kind × Bool :=
  splitImportant (trimBlanks (collapseBlanks true (value.map Token.kind)))

/-- The declaration of the property named by `start`. A broken string is reported where it is,
a missing value at the property. -/
def readValueOf (start : Token) (property : String) (value : List Token) : Entry :=
  match value.find? (·.kind == .badString) with
  | some t => .malformed (Fault.ofToken .brokenString t)
  | none =>
    let (terms, important) := valueTerms value
    if terms.isEmpty then .malformed (Fault.ofToken (.missingValue property) start)
    else .declared ⟨property, terms, important⟩

def readDeclaration (finish : Token) (curly : Bool) (start : Token) (ts : List Token) :
    Entry × List Token :=
  match start.kind with
  | .ident property =>
    match skipBlanks ts with
    | [] => (.malformed (Fault.ofToken .expectedColon finish), [])
    | t :: rest =>
      if t.kind = .colon then
        let value := splitSegment true [] rest
        (readValueOf start property value.1, value.2)
      else
        (.malformed (Fault.ofToken .expectedColon t), (splitSegment curly [] (t :: rest)).2)
  | k =>
    (.malformed (Fault.ofToken .expectedProperty start),
      (splitSegment curly (OpenBrackets.track [] k) ts).2)

theorem readDeclaration_suffix (finish : Token) (curly : Bool) (start : Token)
    (ts : List Token) : (readDeclaration finish curly start ts).2 <:+ ts := by
  unfold readDeclaration
  split
  · split
    · exact List.nil_suffix
    next t rest hr =>
      split
      · exact (splitSegment_suffix _ _ _).trans
          ((List.suffix_cons t rest).trans (hr ▸ skipBlanks_suffix ts))
      · exact (splitSegment_suffix _ _ _).trans (hr ▸ skipBlanks_suffix ts)
  · exact splitSegment_suffix _ _ _

/-- Reads declarations to the end of the text, or with `curly` to the bracket that closes their
block, which is consumed. -/
def readDeclarations (finish : Token) (curly : Bool) : List Token → List Entry × List Token
  | [] => (if curly then [.malformed (Fault.ofToken .unclosedBlock finish)] else [], [])
  | t :: ts =>
    if t.kind.isBlank || t.kind == .semicolon then readDeclarations finish curly ts
    else if curly && t.kind == .closing .curly then ([], ts)
    else
      let first := readDeclaration finish curly t ts
      let rest := readDeclarations finish curly first.2
      (first.1 :: rest.1, rest.2)
termination_by ts => ts.length
decreasing_by
  · simp
  · exact Nat.lt_succ_of_le (readDeclaration_suffix finish curly t ts).length_le

theorem readDeclarations_suffix (finish : Token) (curly : Bool) (ts : List Token) :
    (readDeclarations finish curly ts).2 <:+ ts := by
  fun_induction readDeclarations finish curly ts with
  | case1 => exact List.suffix_refl _
  | case2 t ts _ ih => exact ih.trans (List.suffix_cons _ _)
  | case3 => exact List.suffix_cons _ _
  | case4 t ts _ _ first rest ih =>
    exact (ih.trans (readDeclaration_suffix _ _ _ _)).trans (List.suffix_cons _ _)

inductive Statement
  | ruleset (selectors : SelectorGroup) (entries : List Entry)
  /-- An at-rule, which is skipped with a warning. -/
  | atRule (name : String)
  | malformed (fault : Fault)
  deriving DecidableEq, Repr

namespace Statement

def ruleset? : Statement → Option Ruleset
  | ruleset selectors entries => some ⟨selectors, declarationsOf entries⟩
  | _ => none

def faults : Statement → List Fault
  | ruleset _ entries => faultsOf entries
  | atRule _ => []
  | malformed f => [f]

def notice? : Statement → Option String
  | ruleset _ _ => none
  | atRule name => some ("skipping unsupported at-rule '@" ++ name ++ "'")
  | malformed f => f.cause.notice?

end Statement

/-- Skips to the bracket that closes the first block, or to a closing bracket outside of any. -/
def skipBlock (depth : Nat) : List Token → List Token
  | [] => []
  | t :: ts =>
    if t.kind = .opening .curly then skipBlock (depth + 1) ts
    else if t.kind = .closing .curly then
      if depth ≤ 1 then ts else skipBlock (depth - 1) ts
    else skipBlock depth ts

def skipAtRule : List Token → List Token
  | [] => []
  | t :: ts =>
    if t.kind = .semicolon then ts
    else if t.kind = .opening .curly then skipBlock 0 (t :: ts)
    else skipAtRule ts

theorem skipBlock_suffix (depth : Nat) (ts : List Token) : skipBlock depth ts <:+ ts := by
  induction ts generalizing depth with
  | nil => exact List.suffix_refl _
  | cons t ts ih =>
    unfold skipBlock
    split
    · exact (ih _).trans (List.suffix_cons _ _)
    split
    · split
      · exact List.suffix_cons _ _
      · exact (ih _).trans (List.suffix_cons _ _)
    · exact (ih _).trans (List.suffix_cons _ _)

theorem skipBlock_cons_suffix (depth : Nat) (t : Token) (ts : List Token) :
    skipBlock depth (t :: ts) <:+ ts := by
  unfold skipBlock
  split
  · exact skipBlock_suffix _ _
  split
  · split
    · exact List.suffix_refl _
    · exact skipBlock_suffix _ _
  · exact skipBlock_suffix _ _

theorem skipAtRule_suffix (ts : List Token) : skipAtRule ts <:+ ts := by
  induction ts with
  | nil => exact List.suffix_refl _
  | cons t ts ih =>
    unfold skipAtRule
    split
    · exact List.suffix_cons _ _
    split
    · exact (skipBlock_cons_suffix _ _ _).trans (List.suffix_cons _ _)
    · exact ih.trans (List.suffix_cons _ _)

def readRuleset (finish : Token) (ts : List Token) : Statement × List Token :=
  match SelectorGroup.read ts with
  | .error e => (.malformed (e.fault finish), skipBlock 0 e.rest)
  | .ok (selectors, t :: rest) =>
    if t.kind = .opening .curly then
      let body := readDeclarations finish true rest
      (.ruleset selectors body.1, body.2)
    else (.malformed (Fault.ofToken .expectedBlock t), skipBlock 0 (t :: rest))
  | .ok (_, []) => (.malformed (Fault.ofToken .expectedBlock finish), [])

theorem readRuleset_length_le (finish t : Token) (ts : List Token) :
    (readRuleset finish (t :: ts)).2.length ≤ ts.length := by
  have hw := SelectorGroup.read_within (t :: ts)
  have skip (us : List Token) (h : us <:+ t :: ts) : (skipBlock 0 us).length ≤ ts.length := by
    cases us with
    | nil => exact Nat.zero_le _
    | cons u us =>
      have h1 := (skipBlock_cons_suffix 0 u us).length_le
      have h2 := h.length_le
      simp only [List.length_cons] at h2
      omega
  unfold readRuleset
  split
  next e h =>
    rw [h] at hw
    exact skip _ hw
  next selectors u rest h =>
    rw [h] at hw
    split
    · have h1 := (readDeclarations_suffix finish true rest).length_le
      have h2 : (u :: rest).length ≤ (t :: ts).length := List.IsSuffix.length_le hw
      simp only [List.length_cons] at h2
      dsimp only
      omega
    · exact skip _ hw
  · exact Nat.zero_le _

def readStatements (finish : Token) : List Token → List Statement
  | [] => []
  | t :: ts =>
    match t.kind with
    | .blank | .cdo | .cdc => readStatements finish ts
    | .atKeyword name => .atRule name :: readStatements finish (skipAtRule ts)
    | _ =>
      let first := readRuleset finish (t :: ts)
      first.1 :: readStatements finish first.2
termination_by ts => ts.length
decreasing_by
  · simp
  · exact Nat.lt_succ_of_le (skipAtRule_suffix ts).length_le
  · exact Nat.lt_succ_of_le (readRuleset_length_le finish t ts)

structure ParsedSheet where
  statements : List Statement
  deriving DecidableEq, Repr

namespace ParsedSheet

def stylesheet (p : ParsedSheet) : Stylesheet := ⟨p.statements.filterMap Statement.ruleset?⟩

def faults (p : ParsedSheet) : List Fault := p.statements.flatMap Statement.faults

def notices (p : ParsedSheet) : List String := p.statements.filterMap Statement.notice?

end ParsedSheet

def ParsedSheet.ofText (text : String) : ParsedSheet :=
  ⟨readStatements (endToken text.toList) (significant text.toList)⟩

def parseDeclarations (text : String) : List Entry :=
  (readDeclarations (endToken text.toList) false (significant text.toList)).1

end Styling
