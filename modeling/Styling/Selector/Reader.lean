import Styling.Fault
import Styling.Selector
import Styling.Token.Lexer

/-! # Reading selectors

The readers take the tokens of a text without comments and without its end. Whitespace is a
combinator between two compounds and means nothing elsewhere; inside a compound it ends it. A
reader that fails stops before the token it cannot use.
-/
namespace Styling.Selector

def expectIdent (cause : Cause) (ts : List Token) : Reading String :=
  match ts with
  | [] => .error ⟨cause, ts⟩
  | t :: rest =>
    match t.kind with
    | .ident name => .ok (name, rest)
    | _ => .error ⟨cause, ts⟩

def readPseudoClass (ts : List Token) : Reading Condition :=
  match ts with
  | [] => .error ⟨.expectedPseudoClass, ts⟩
  | t :: rest =>
    match t.kind with
    | .ident name => .ok (.pseudoClass name, rest)
    | .colon => .error ⟨.pseudoElement, ts⟩
    | .function name => .error ⟨.functionalPseudoClass name, ts⟩
    | _ => .error ⟨.expectedPseudoClass, ts⟩

def readValue (ts : List Token) : Reading String :=
  match skipBlanks ts with
  | [] => .error ⟨.expectedAttributeValue, []⟩
  | t :: rest =>
    match t.kind with
    | .ident value => .ok (value, rest)
    | .string value => .ok (value, rest)
    | _ => .error ⟨.expectedAttributeValue, t :: rest⟩

def closeAttribute (c : Condition) (ts : List Token) : Reading Condition :=
  match skipBlanks ts with
  | [] => .error ⟨.unclosedAttribute, []⟩
  | t :: rest =>
    if t.kind = .closing .square then .ok (c, rest) else .error ⟨.unclosedAttribute, t :: rest⟩

def readComparison (name : String) (op : Option MatchOp) (ts : List Token) : Reading Condition :=
  match readValue ts with
  | .error e => .error e
  | .ok (value, rest) => closeAttribute (.attributeTest name op value) rest

def operator? : Kind → Option (Option MatchOp)
  | .delim '=' => some none
  | .attrMatch op => some (some op)
  | _ => none

def readAttribute (ts : List Token) : Reading Condition :=
  match expectIdent .expectedAttributeName (skipBlanks ts) with
  | .error e => .error e
  | .ok (name, after) =>
    match skipBlanks after with
    | [] => .error ⟨.expectedAttributeOperator, []⟩
    | t :: rest =>
      if t.kind = .closing .square then .ok (.hasAttribute name, rest)
      else
        match operator? t.kind with
        | some op => readComparison name op rest
        | none => .error ⟨.expectedAttributeOperator, t :: rest⟩

def readClass (ts : List Token) : Reading Condition :=
  match expectIdent .expectedClassName ts with
  | .error e => .error e
  | .ok (name, rest) => .ok (.styleClass name, rest)

/-- The condition that begins with the token `t`, if one does. A type or `*` can only be the
first of its compound. -/
def readCondition (first : Bool) (t : Token) (ts : List Token) : Option (Reading Condition) :=
  match t.kind with
  | .ident name => if first then some (.ok (.type name, ts)) else none
  | .delim '*' => if first then some (.ok (.universal, ts)) else none
  | .hash value _ => some (.ok (.id value, ts))
  | .delim '.' => some (readClass ts)
  | .colon => some (readPseudoClass ts)
  | .opening .square => some (readAttribute ts)
  | _ => none

theorem expectIdent_within (cause : Cause) (ts : List Token) :
    (expectIdent cause ts).Within ts := by
  unfold expectIdent
  split
  · exact List.suffix_refl _
  · split
    · exact List.suffix_cons _ _
    · exact List.suffix_refl _

theorem readPseudoClass_within (ts : List Token) : (readPseudoClass ts).Within ts := by
  unfold readPseudoClass
  split
  · exact List.suffix_refl _
  · split
    · exact List.suffix_cons _ _
    all_goals exact List.suffix_refl _

theorem readValue_within (ts : List Token) : (readValue ts).Within ts := by
  unfold readValue
  have hs := skipBlanks_suffix ts
  split
  · exact List.nil_suffix
  next t rest hr =>
    rw [hr] at hs
    have hc := (List.suffix_cons t rest).trans hs
    split
    · exact hc
    · exact hc
    · exact hs

theorem closeAttribute_within (c : Condition) (ts : List Token) :
    (closeAttribute c ts).Within ts := by
  unfold closeAttribute
  have hs := skipBlanks_suffix ts
  split
  · exact List.nil_suffix
  next t rest hr =>
    rw [hr] at hs
    split
    · exact (List.suffix_cons t rest).trans hs
    · exact hs

theorem readComparison_within (name : String) (op : Option MatchOp) (ts : List Token) :
    (readComparison name op ts).Within ts := by
  have hv := readValue_within ts
  unfold readComparison
  split
  next h =>
    rw [h] at hv
    exact hv
  next h =>
    rw [h] at hv
    exact (closeAttribute_within _ _).trans hv

theorem readAttribute_within (ts : List Token) : (readAttribute ts).Within ts := by
  have hn := (expectIdent_within .expectedAttributeName (skipBlanks ts)).trans
    (skipBlanks_suffix ts)
  unfold readAttribute
  split
  next h =>
    rw [h] at hn
    exact hn
  next after h =>
    rw [h] at hn
    have hs := (skipBlanks_suffix after).trans hn
    split
    · exact List.nil_suffix
    next t rest hr =>
      rw [hr] at hs
      have hc := (List.suffix_cons t rest).trans hs
      split
      · exact hc
      · split
        · exact (readComparison_within _ _ _).trans hc
        · exact hs

theorem readClass_within (ts : List Token) : (readClass ts).Within ts := by
  have hn := expectIdent_within .expectedClassName ts
  unfold readClass
  split
  next h =>
    rw [h] at hn
    exact hn
  next h =>
    rw [h] at hn
    exact hn

theorem readCondition_within {first : Bool} {t : Token} {ts : List Token} {r : Reading Condition}
    (h : readCondition first t ts = some r) : r.Within ts := by
  unfold readCondition at h
  split at h
  · split at h <;> cases h
    exact List.suffix_refl _
  · split at h <;> cases h
    exact List.suffix_refl _
  · cases h
    exact List.suffix_refl _
  · cases h
    exact readClass_within ts
  · cases h
    exact readPseudoClass_within ts
  · cases h
    exact readAttribute_within ts
  · cases h

def readMore (ts : List Token) : Reading (List Condition) :=
  match ts with
  | [] => .ok ([], [])
  | t :: rest =>
    match _hc : readCondition false t rest with
    | none => .ok ([], ts)
    | some (.error e) => .error e
    | some (.ok (c, after)) =>
      match readMore after with
      | .error e => .error e
      | .ok (more, after) => .ok (c :: more, after)
termination_by ts.length
decreasing_by exact Nat.lt_succ_of_le (readCondition_within _hc : after <:+ rest).length_le

theorem readMore_within (ts : List Token) : (readMore ts).Within ts := by
  fun_induction readMore ts with
  | case1 => exact List.suffix_refl _
  | case2 => exact List.suffix_refl _
  | case3 t ts e hc => exact (readCondition_within hc).trans (List.suffix_cons _ _)
  | case4 t ts c after hc e he ih =>
    rw [he] at ih
    exact ih.trans ((readCondition_within hc : after <:+ ts).trans (List.suffix_cons _ _))
  | case5 t ts c after hc more last hm ih =>
    rw [hm] at ih
    exact ih.trans ((readCondition_within hc : after <:+ ts).trans (List.suffix_cons _ _))

def readCompound (ts : List Token) : Reading Selector :=
  match ts with
  | [] => .error ⟨.expectedSelector, ts⟩
  | t :: rest =>
    match readCondition true t rest with
    | none => .error ⟨.expectedSelector, ts⟩
    | some (.error e) => .error e
    | some (.ok (first, after)) =>
      match readMore after with
      | .error e => .error e
      | .ok (more, last) => .ok (compound first more, last)

/-- A compound takes a token, and a fault in it does not. -/
theorem readCompound_cases (ts : List Token) :
    (∃ e, readCompound ts = .error e ∧ e.rest <:+ ts) ∨
      ∃ s rest, readCompound ts = .ok (s, rest) ∧ rest <:+ ts ∧ rest.length < ts.length := by
  unfold readCompound
  split
  · exact .inl ⟨_, rfl, List.suffix_refl _⟩
  next t rest =>
    have hcons := List.suffix_cons t rest
    split
    · exact .inl ⟨_, rfl, List.suffix_refl _⟩
    next hc => exact .inl ⟨_, rfl, List.IsSuffix.trans (readCondition_within hc) hcons⟩
    next first after hc =>
      have ha : after <:+ rest := readCondition_within hc
      have hm := (readMore_within after).trans ha
      split
      next he =>
        rw [he] at hm
        exact .inl ⟨_, rfl, List.IsSuffix.trans hm hcons⟩
      next last hk =>
        rw [hk] at hm
        exact .inr ⟨_, _, rfl, List.IsSuffix.trans hm hcons,
          Nat.lt_succ_of_le (List.IsSuffix.length_le hm)⟩

theorem readCompound_within (ts : List Token) : (readCompound ts).Within ts := by
  rcases readCompound_cases ts with ⟨e, h, he⟩ | ⟨s, rest, h, hr, -⟩ <;> rw [h]
  · exact he
  · exact hr

theorem readCompound_length_lt {ts rest : List Token} {s : Selector}
    (h : readCompound ts = .ok (s, rest)) : rest.length < ts.length := by
  rcases readCompound_cases ts with ⟨e, he, -⟩ | ⟨s, rest, hs, -, hl⟩
  · rw [he] at h
    cases h
  · rw [hs] at h
    cases h
    exact hl

def combinator? : Kind → Option Combinator
  | .delim '>' => some .child
  | .delim '+' => some .adjacentSibling
  | .delim '~' => some .generalSibling
  | _ => none

def endsSelector : Kind → Bool
  | .comma => true
  | .opening .curly => true
  | _ => false

/-- How the next compound is linked, and where it begins; `none` at the end of the selector. -/
def readLink (ts : List Token) : Except Failure (Option (Combinator × List Token)) :=
  match skipBlanks ts with
  | [] => .ok none
  | t :: rest =>
    match combinator? t.kind with
    | some c => .ok (some (c, skipBlanks rest))
    | none =>
      if endsSelector t.kind then .ok none
      else if rest.length + 1 < ts.length then .ok (some (.descendant, t :: rest))
      else .error ⟨.unexpectedInSelector, t :: rest⟩

theorem readLink_suffix {ts rest : List Token} {c : Combinator}
    (h : readLink ts = .ok (some (c, rest))) : rest <:+ ts := by
  have hs := skipBlanks_suffix ts
  unfold readLink at h
  split at h
  · cases h
  next t r hr =>
    rw [hr] at hs
    split at h
    · cases h
      exact ((skipBlanks_suffix r).trans (List.suffix_cons t r)).trans hs
    · split at h
      · cases h
      · split at h <;> cases h
        exact hs

theorem readLink_error_suffix {ts : List Token} {e : Failure} (h : readLink ts = .error e) :
    e.rest <:+ ts := by
  have hs := skipBlanks_suffix ts
  unfold readLink at h
  split at h
  · cases h
  next t r hr =>
    rw [hr] at hs
    split at h
    · cases h
    · split at h
      · cases h
      · split at h <;> cases h
        exact hs

/-- The links of a selector after its first compound. Blanks at its end belong to it. -/
def readLinks (ts : List Token) : Reading (List (Combinator × Selector)) :=
  match _hl : readLink ts with
  | .error e => .error e
  | .ok none => .ok ([], skipBlanks ts)
  | .ok (some (c, rest)) =>
    match _hc : readCompound rest with
    | .error e => .error e
    | .ok (s, after) =>
      match readLinks after with
      | .error e => .error e
      | .ok (links, after) => .ok ((c, s) :: links, after)
termination_by ts.length
decreasing_by
  exact Nat.lt_of_lt_of_le (readCompound_length_lt _hc) (readLink_suffix _hl).length_le

theorem readLinks_within (ts : List Token) : (readLinks ts).Within ts := by
  fun_induction readLinks ts with
  | case1 ts e hl => exact readLink_error_suffix hl
  | case2 ts => exact skipBlanks_suffix ts
  | case3 ts c mid hl e hc =>
    have hw := readCompound_within mid
    rw [hc] at hw
    exact hw.trans (readLink_suffix hl)
  | case4 ts c mid hl s after hc e hk ih =>
    have hw := readCompound_within mid
    rw [hc] at hw
    rw [hk] at ih
    exact ih.trans (List.IsSuffix.trans hw (readLink_suffix hl))
  | case5 ts c mid hl s after hc links last hk ih =>
    have hw := readCompound_within mid
    rw [hc] at hw
    rw [hk] at ih
    exact ih.trans (List.IsSuffix.trans hw (readLink_suffix hl))

def read (ts : List Token) : Reading Selector :=
  match readCompound (skipBlanks ts) with
  | .error e => .error e
  | .ok (first, after) =>
    match readLinks after with
    | .error e => .error e
    | .ok (links, last) => .ok (chain first links, last)

theorem read_within (ts : List Token) : (read ts).Within ts := by
  have hw := (readCompound_within (skipBlanks ts)).trans (skipBlanks_suffix ts)
  unfold read
  split
  next h =>
    rw [h] at hw
    exact hw
  next first after h =>
    rw [h] at hw
    have hl := (readLinks_within after).trans hw
    split
    next he =>
      rw [he] at hl
      exact hl
    next hk =>
      rw [hk] at hl
      exact hl

theorem read_length_lt {ts rest : List Token} {s : Selector} (h : read ts = .ok (s, rest)) :
    rest.length < ts.length := by
  unfold read at h
  split at h
  · cases h
  next first after hc =>
    have hl := readLinks_within after
    split at h
    · cases h
    next hk =>
      rw [hk] at hl
      cases h
      exact Nat.lt_of_le_of_lt (List.IsSuffix.length_le hl)
        (Nat.lt_of_lt_of_le (readCompound_length_lt hc) (skipBlanks_suffix ts).length_le)

end Selector

namespace SelectorGroup

def read (ts : List Token) : Reading SelectorGroup :=
  match _h : Selector.read ts with
  | .error e => .error e
  | .ok (s, []) => .ok ([s], [])
  | .ok (s, t :: rest) =>
    if t.kind = .comma then
      match read rest with
      | .error e => .error e
      | .ok (g, last) => .ok (s :: g, last)
    else .ok ([s], t :: rest)
termination_by ts.length
decreasing_by
  have := Selector.read_length_lt _h
  simp only [List.length_cons] at this
  omega

theorem read_within (ts : List Token) : (read ts).Within ts := by
  have hw := Selector.read_within ts
  fun_induction read ts with
  | case1 ts e h =>
    rw [h] at hw
    exact hw
  | case2 ts s h => exact List.nil_suffix
  | case3 ts s t rest h ht e he ih =>
    rw [h] at hw
    have ih := ih (Selector.read_within rest)
    rw [he] at ih
    exact ih.trans ((List.suffix_cons t rest).trans hw)
  | case4 ts s t rest h ht g last hk ih =>
    rw [h] at hw
    have ih := ih (Selector.read_within rest)
    rw [hk] at ih
    exact ih.trans ((List.suffix_cons t rest).trans hw)
  | case5 ts s t rest h ht =>
    rw [h] at hw
    exact hw

def readAll (ts : List Token) : Except Failure SelectorGroup :=
  match read ts with
  | .error e => .error e
  | .ok (group, []) => .ok group
  | .ok (_, t :: rest) => .error ⟨.unexpectedAfterSelector, t :: rest⟩

end SelectorGroup

/-- The tokens of a text that are not comments. -/
def significant (cs : List Char) : List Token := (tokens cs).filter (!·.kind.isComment)

def SelectorGroup.parse (text : String) : Except Fault SelectorGroup :=
  (readAll (significant text.toList)).mapError (Failure.fault (endToken text.toList))

end Styling
