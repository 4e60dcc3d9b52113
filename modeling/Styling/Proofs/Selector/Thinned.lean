import Styling.Proofs.Selector.Moved
import Styling.Proofs.Sheet.Segments

/-! # Reading selectors without places

The readers of selectors see the kind of a token, and of a run of blanks only that it is there. So
they read the same if tokens have no places and runs of blanks are cut to one.
-/
namespace Styling
open Grammar (kinds)

def Token.bare (k : Kind) : Token := ⟨k, 0, 0, 0⟩

/-- The tokens without their places, and one blank for every run of blanks; after a blank, none for
a run at the beginning. -/
def thin (after : Bool) (ts : List Token) : List Token :=
  (collapseBlanks after (kinds ts)).map Token.bare

namespace Reading

def thinned {α : Type} : Reading α → Reading α
  | .error e => .error ⟨e.cause, thin false e.rest⟩
  | .ok r => .ok (r.1, thin false r.2)

end Reading

section Thin
variable {t : Token} {ts : List Token}

@[simp] theorem kind_bare (k : Kind) : (Token.bare k).kind = k := rfl

@[simp] theorem thin_nil (after : Bool) : thin after [] = [] := rfl

theorem thin_of_blank (ht : t.kind.isBlank = true) (after : Bool) (ts : List Token) :
    thin after (t :: ts) = if after then thin true ts else Token.bare .blank :: thin true ts := by
  rw [thin, kinds, List.map_cons, eq_blank_of_isBlank ht, collapseBlanks_blank]
  cases after <;> rfl

theorem thin_of_not_blank (ht : t.kind.isBlank = false) (after : Bool) (ts : List Token) :
    thin after (t :: ts) = Token.bare t.kind :: thin false ts := by
  rw [thin, kinds, List.map_cons, collapseBlanks_cons ht]
  rfl

@[simp] theorem thin_cons (t : Token) (ts : List Token) :
    thin false (t :: ts) = Token.bare t.kind :: thin t.kind.isBlank ts := by
  cases ht : t.kind.isBlank with
  | true =>
    rw [thin_of_blank ht, eq_blank_of_isBlank ht]
    rfl
  | false => exact thin_of_not_blank ht false ts

/-- What passes over a blank passes over a run of them. -/
theorem thin_of_passes {α : Type} {f : List Token → α}
    (hf : ∀ u us, u.kind.isBlank = true → f (u :: us) = f us) (ht : t.kind.isBlank = true)
    (after : Bool) (ts : List Token) : f (thin after (t :: ts)) = f (thin true ts) := by
  rw [thin_of_blank ht]
  cases after with
  | true => rfl
  | false => exact hf _ _ rfl

theorem skipBlanks_of_blank (ht : t.kind.isBlank = true) (ts : List Token) :
    skipBlanks (t :: ts) = skipBlanks ts := List.dropWhile_cons_of_pos ht

theorem skipBlanks_thin (after : Bool) (ts : List Token) :
    skipBlanks (thin after ts) = thin false (skipBlanks ts) := by
  induction ts generalizing after with
  | nil => rfl
  | cons t ts ih =>
    cases ht : t.kind.isBlank with
    | true =>
      rw [skipBlanks_of_blank ht, thin_of_passes (fun _ us hu => skipBlanks_of_blank hu us) ht]
      exact ih true
    | false =>
      rw [thin_of_not_blank ht, skipBlanks_cons ht, thin_of_not_blank ht]
      exact skipBlanks_cons (show (Token.bare t.kind).kind.isBlank = false from ht) _

end Thin

namespace Selector

theorem expectIdent_thin (cause : Cause) (ts : List Token) :
    expectIdent cause (thin false ts) = (expectIdent cause ts).thinned := by
  cases ts with
  | nil => rfl
  | cons t ts =>
    simp only [expectIdent, thin_cons, kind_bare]
    split
    next hk =>
      rw [hk]
      rfl
    · simp only [Reading.thinned, thin_cons]

theorem readPseudoClass_thin (ts : List Token) :
    readPseudoClass (thin false ts) = (readPseudoClass ts).thinned := by
  cases ts with
  | nil => rfl
  | cons t ts =>
    simp only [readPseudoClass, thin_cons, kind_bare]
    split
    next hk =>
      rw [hk]
      rfl
    all_goals simp only [Reading.thinned, thin_cons]

theorem readClass_thin (ts : List Token) :
    readClass (thin false ts) = (readClass ts).thinned := by
  unfold readClass
  rw [expectIdent_thin]
  cases expectIdent .expectedClassName ts <;> rfl

theorem readValue_thin (ts : List Token) :
    readValue (thin false ts) = (readValue ts).thinned := by
  unfold readValue
  rw [skipBlanks_thin]
  cases skipBlanks ts with
  | nil => rfl
  | cons t rest =>
    simp only [thin_cons, kind_bare]
    split
    next hk =>
      rw [hk]
      rfl
    next hk =>
      rw [hk]
      rfl
    · simp only [Reading.thinned, thin_cons]

theorem closeAttribute_thin (c : Condition) (ts : List Token) :
    closeAttribute c (thin false ts) = (closeAttribute c ts).thinned := by
  unfold closeAttribute
  rw [skipBlanks_thin]
  cases skipBlanks ts with
  | nil => rfl
  | cons t rest =>
    rw [thin_cons]
    dsimp only
    by_cases hclose : t.kind = .closing .square
    · rw [if_pos hclose, if_pos (show (Token.bare t.kind).kind = _ from hclose), hclose]
      rfl
    · rw [if_neg hclose, if_neg (show (Token.bare t.kind).kind ≠ _ from hclose)]
      simp only [Reading.thinned, thin_cons]

theorem readComparison_thin (name : String) (op : Option MatchOp) (ts : List Token) :
    readComparison name op (thin false ts) = (readComparison name op ts).thinned := by
  unfold readComparison
  rw [readValue_thin]
  cases readValue ts with
  | error e => rfl
  | ok r => exact closeAttribute_thin _ r.2

theorem not_isBlank_of_operator? {k : Kind} {op : Option MatchOp} (h : operator? k = some op) :
    k.isBlank = false := by
  cases k with
  | blank => cases h
  | _ => rfl

theorem readAttribute_thin (ts : List Token) :
    readAttribute (thin false ts) = (readAttribute ts).thinned := by
  unfold readAttribute
  rw [skipBlanks_thin, expectIdent_thin]
  cases expectIdent .expectedAttributeName (skipBlanks ts) with
  | error e => rfl
  | ok r =>
    obtain ⟨name, after⟩ := r
    dsimp only [Reading.thinned]
    rw [skipBlanks_thin]
    cases skipBlanks after with
    | nil => rfl
    | cons t rest =>
      rw [thin_cons]
      dsimp only
      by_cases hclose : t.kind = .closing .square
      · rw [if_pos hclose, if_pos (show (Token.bare t.kind).kind = _ from hclose), hclose]
        rfl
      · rw [if_neg hclose, if_neg (show (Token.bare t.kind).kind ≠ _ from hclose), kind_bare]
        cases hop : operator? t.kind with
        | none => simp only [thin_cons]
        | some op =>
          rw [not_isBlank_of_operator? hop]
          exact readComparison_thin name op rest

/-- Where a condition begins, it is read of the thinned tokens too. -/
theorem readCondition_thin (first : Bool) (t : Token) (ts : List Token) :
    readCondition first (Token.bare t.kind) (thin t.kind.isBlank ts) =
      (readCondition first t ts).map Reading.thinned := by
  unfold readCondition
  simp only [kind_bare]
  split
  next hk =>
    rw [hk]
    split <;> rfl
  next hk =>
    rw [hk]
    split <;> rfl
  next hk =>
    rw [hk]
    rfl
  next hk =>
    rw [hk]
    exact congrArg some (readClass_thin ts)
  next hk =>
    rw [hk]
    exact congrArg some (readPseudoClass_thin ts)
  next hk =>
    rw [hk]
    exact congrArg some (readAttribute_thin ts)
  · rfl

theorem readMore_thin (ts : List Token) :
    readMore (thin false ts) = (readMore ts).thinned := by
  fun_induction readMore ts with
  | case1 => rw [thin_nil, readMore]; rfl
  | case2 t ts hc =>
    rw [thin_cons, readMore_cons, readCondition_thin, hc]
    simp only [Option.map_none, Reading.thinned, thin_cons]
  | case3 t ts e hc =>
    rw [thin_cons, readMore_cons, readCondition_thin, hc]
    rfl
  | case4 t ts c after hc e he ih =>
    rw [he] at ih
    rw [thin_cons, readMore_cons, readCondition_thin, hc]
    dsimp only [Option.map_some, Reading.thinned]
    rw [ih]
    rfl
  | case5 t ts c after hc more last hm ih =>
    rw [hm] at ih
    rw [thin_cons, readMore_cons, readCondition_thin, hc]
    dsimp only [Option.map_some, Reading.thinned]
    rw [ih]
    rfl

theorem readCompound_thin (ts : List Token) :
    readCompound (thin false ts) = (readCompound ts).thinned := by
  cases ts with
  | nil => rfl
  | cons t ts =>
    rw [thin_cons]
    unfold readCompound
    dsimp only
    rw [readCondition_thin]
    cases readCondition true t ts with
    | none => simp only [Option.map_none, Reading.thinned, thin_cons]
    | some r =>
      cases r with
      | error e => rfl
      | ok r =>
        dsimp only [Option.map_some, Reading.thinned]
        rw [readMore_thin]
        cases readMore r.2 <;> rfl

/-- Blanks before a compound are seen from the lengths. -/
theorem length_skipBlanks_lt_iff (ts : List Token) :
    (skipBlanks ts).length < ts.length ↔ ∃ t ∈ ts.head?, t.kind.isBlank = true := by
  cases ts with
  | nil => simp [skipBlanks]
  | cons t ts =>
    cases ht : t.kind.isBlank with
    | true =>
      have hle := (skipBlanks_suffix ts).length_le
      rw [skipBlanks_of_blank ht, List.length_cons]
      exact ⟨fun _ => ⟨t, rfl, ht⟩, fun _ => Nat.lt_succ_of_le hle⟩
    | false => simp [skipBlanks_cons ht, ht]

theorem head?_thin (ts : List Token) :
    (thin false ts).head? = ts.head?.map fun t => Token.bare t.kind := by
  cases ts with
  | nil => rfl
  | cons t ts => rw [thin_cons]; rfl

theorem length_skipBlanks_thin_lt_iff (ts : List Token) :
    (skipBlanks (thin false ts)).length < (thin false ts).length ↔
      (skipBlanks ts).length < ts.length := by
  rw [length_skipBlanks_lt_iff, length_skipBlanks_lt_iff, head?_thin]
  cases ts.head? <;> simp

theorem readLink_thin (ts : List Token) :
    readLink (thin false ts) = match readLink ts with
      | .error e => .error ⟨e.cause, thin false e.rest⟩
      | .ok next => .ok (next.map fun link => (link.1, thin false link.2)) := by
  have hlength := length_skipBlanks_thin_lt_iff ts
  unfold readLink
  rw [skipBlanks_thin] at hlength ⊢
  cases hskip : skipBlanks ts with
  | nil => rfl
  | cons t rest =>
    have ht := not_isBlank_of_ne (Grammar.ne_blank_of_skipBlanks hskip)
    rw [hskip, thin_of_not_blank ht] at hlength
    rw [thin_of_not_blank ht]
    dsimp only [List.length_cons] at hlength ⊢
    rw [kind_bare]
    cases combinator? t.kind with
    | some c =>
      dsimp only
      rw [skipBlanks_thin]
      rfl
    | none =>
      simp only [hlength]
      split
      · rfl
      split
      · simp only [Option.map_some, thin_of_not_blank ht]
      · simp only [thin_of_not_blank ht]

theorem readLinks_thin_next {ts rest after : List Token} {c : Combinator} {s : Selector}
    (hl : readLink ts = .ok (some (c, rest))) (hc : readCompound rest = .ok (s, after)) :
    readLinks (thin false ts) =
      match readLinks (thin false after) with
      | .error e => .error e
      | .ok (links, last) => .ok ((c, s) :: links, last) := by
  have hlink : readLink (thin false ts) = .ok (some (c, thin false rest)) := by
    rw [readLink_thin, hl]
    rfl
  have hcompound : readCompound (thin false rest) = .ok (s, thin false after) := by
    rw [readCompound_thin, hc]
    rfl
  exact readLinks_next hlink hcompound

theorem readLinks_thin (ts : List Token) :
    readLinks (thin false ts) = (readLinks ts).thinned := by
  fun_induction readLinks ts with
  | case1 ts e hl =>
    rw [readLinks_eq, readLink_thin, hl]
    rfl
  | case2 ts hl =>
    rw [readLinks_eq, readLink_thin, hl]
    dsimp only [Option.map_none]
    rw [skipBlanks_thin]
    rfl
  | case3 ts c rest hl e hc =>
    rw [readLinks_eq, readLink_thin, hl]
    dsimp only [Option.map_some]
    rw [readCompound_thin, hc]
    rfl
  | case4 ts c rest hl s after hc e he ih =>
    rw [he] at ih
    rw [readLinks_thin_next hl hc, ih]
    rfl
  | case5 ts c rest hl s after hc links last hk ih =>
    rw [hk] at ih
    rw [readLinks_thin_next hl hc, ih]
    rfl

theorem read_thin (ts : List Token) : read (thin false ts) = (read ts).thinned := by
  unfold read
  rw [skipBlanks_thin, readCompound_thin]
  cases readCompound (skipBlanks ts) with
  | error e => rfl
  | ok r =>
    dsimp only [Reading.thinned]
    rw [readLinks_thin]
    cases readLinks r.2 <;> rfl

end Selector

namespace SelectorGroup

/-- A group is read of the thinned tokens too. -/
theorem read_thin (ts : List Token) : read (thin false ts) = (read ts).thinned := by
  have hmember := Selector.read_thin ts
  fun_induction read ts with
  | case1 ts e hs =>
    rw [read_eq, hmember, hs]
    rfl
  | case2 ts s hs =>
    rw [read_eq, hmember, hs]
    rfl
  | case3 ts s t rest hs ht e he ih =>
    have hrest := ih (Selector.read_thin rest)
    rw [he] at hrest
    have hcomma : Selector.read (thin false ts) = .ok (s, Token.bare .comma :: thin false rest) := by
      rw [hmember, hs]
      dsimp only [Reading.thinned]
      rw [thin_cons, ht]
      rfl
    rw [read_next hcomma (kind_bare _), hrest]
    rfl
  | case4 ts s t rest hs ht g last hk ih =>
    have hrest := ih (Selector.read_thin rest)
    rw [hk] at hrest
    have hcomma : Selector.read (thin false ts) = .ok (s, Token.bare .comma :: thin false rest) := by
      rw [hmember, hs]
      dsimp only [Reading.thinned]
      rw [thin_cons, ht]
      rfl
    rw [read_next hcomma (kind_bare _), hrest]
    rfl
  | case5 ts s t rest hs ht =>
    rw [read_eq, hmember, hs]
    dsimp only [Reading.thinned]
    rw [thin_cons]
    dsimp only
    rw [if_neg (show (Token.bare t.kind).kind ≠ _ from ht)]

theorem mapError_cause_readAll_thin (ts : List Token) :
    (readAll (thin false ts)).mapError Failure.cause = (readAll ts).mapError Failure.cause := by
  unfold readAll
  rw [read_thin]
  cases read ts with
  | error e => rfl
  | ok r =>
    obtain ⟨g, rest⟩ := r
    dsimp only [Reading.thinned]
    cases rest with
    | nil => rfl
    | cons t rest =>
      rw [thin_cons]
      rfl

end SelectorGroup
end Styling
