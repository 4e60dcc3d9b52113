import Styling.Proofs.Selector.Moved
import Styling.Proofs.Sheet.Segments

/-! # Reading sheets elsewhere

Further on in a text, the same declarations, rulesets and statements are read, and their faults
lie further on by as much. A declaration or a ruleset is read in the same way whatever stands
behind it if it does not reach the end of its tokens.
-/
namespace Styling
open Move

def Fault.shift (n l : Nat) (f : Fault) : Fault := ⟨f.cause, f.offset + n, f.line + l⟩

def Entry.shift (n l : Nat) : Entry → Entry
  | declared d => .declared d
  | malformed f => .malformed (f.shift n l)

def Statement.shift (n l : Nat) : Statement → Statement
  | ruleset selectors entries => .ruleset selectors (entries.map (Entry.shift n l))
  | atRule name => .atRule name
  | malformed f => .malformed (f.shift n l)

namespace Move

/-- Nothing stands behind, and the end of the text moves along, if a reader comes to the end. -/
def Carries (m : Move) (finish finish' : Token) (rest : List Token) : Prop :=
  rest = [] → m.behind = [] ∧ finish' = m.token finish

def entry (m : Move) : Entry → Entry := Entry.shift m.chars m.lines

variable {m : Move} {finish finish' : Token} {ts rest : List Token}

theorem Carries.keeps (h : m.Carries finish finish' rest) : m.Keeps rest := fun hnil => (h hnil).1

/-- The fault of a reader that gives up moves with the tokens that are left. -/
theorem fault_move {e : Failure} (h : m.Carries finish finish' e.rest) :
    Failure.fault finish' ⟨e.cause, m.tokens e.rest⟩ =
      (Failure.fault finish e).shift m.chars m.lines := by
  cases hrest : e.rest with
  | nil =>
    obtain ⟨hbehind, rfl⟩ := h hrest
    simp only [Failure.fault, hrest, Move.tokens, hbehind, List.map_nil, List.nil_append]
    rfl
  | cons t rest =>
    simp only [Failure.fault, hrest, tokens_cons, List.headD_cons]
    rfl

theorem splitSegment_move {curly : Bool} {stack : OpenBrackets}
    (h : m.Keeps (splitSegment curly stack ts).2) : splitSegment curly stack (m.tokens ts) =
      ((splitSegment curly stack ts).1.map m.token, m.tokens (splitSegment curly stack ts).2) := by
  induction ts generalizing stack with
  | nil =>
    rw [tokens_nil h]
    exact congrArg (Prod.mk []) (tokens_nil h).symm
  | cons t ts ih =>
    rw [tokens_cons]
    unfold splitSegment at h ⊢
    rw [kind_token]
    split
    · rfl
    next hcuts =>
      rw [if_neg hcuts] at h
      split
      · rfl
      next hends =>
        rw [if_neg hends] at h
        rw [ih h]
        rfl

theorem readValueOf_move (start : Token) (property : String) (value : List Token) :
    readValueOf (m.token start) property (value.map m.token) =
      m.entry (readValueOf start property value) := by
  have hkinds : (value.map m.token).map Token.kind = value.map Token.kind := by
    rw [List.map_map]
    rfl
  have hfind : (value.map m.token).find? (·.kind == .badString) =
      (value.find? (·.kind == .badString)).map m.token := List.find?_map
  unfold readValueOf
  rw [hfind, valueTerms, hkinds, ← valueTerms]
  cases value.find? (·.kind == .badString) with
  | some t => rfl
  | none =>
    dsimp only [Option.map_none]
    split <;> rfl

theorem readDeclaration_move {start : Token}
    (h : m.Carries finish finish' (readDeclaration finish true start ts).2) :
    readDeclaration finish' true (m.token start) (m.tokens ts) =
      (m.entry (readDeclaration finish true start ts).1,
        m.tokens (readDeclaration finish true start ts).2) := by
  unfold readDeclaration at h ⊢
  rw [kind_token]
  split
  next property hk =>
    rw [hk] at h
    dsimp only at h
    have hblanks : m.Carries finish finish' (skipBlanks ts) := fun hnil => h (by rw [hnil])
    rw [skipBlanks_tokens hblanks.keeps]
    cases hskip : skipBlanks ts with
    | nil =>
      obtain ⟨hbehind, rfl⟩ := hblanks hskip
      rw [tokens_nil fun _ => hbehind]
      rfl
    | cons t rest =>
      rw [hskip] at h
      dsimp only [tokens_cons] at h ⊢
      rw [kind_token]
      split
      next hcolon =>
        rw [if_pos hcolon] at h
        rw [splitSegment_move h.keeps, readValueOf_move]
      next hcolon =>
        rw [if_neg hcolon] at h
        have hsplit := splitSegment_move h.keeps
        rw [tokens_cons] at hsplit
        rw [hsplit]
        rfl
  next hk =>
    split at h
    next property hk' => exact (hk property hk').elim
    · rw [splitSegment_move h.keeps]
      rfl

/-- The first segment of a block does not reach over its end. -/
theorem splitBlock_snd_splitSegment (ts : List Token) :
    (splitBlock [] ts).2 = (splitBlock [] (splitSegment true [] ts).2).2 := by
  rcases splitBlock_splitSegment [] ts with ⟨t, -, hblock⟩ | ⟨-, hblock, hhead⟩
  · rw [hblock]
  · rw [hblock, splitBlock_of_head hhead]

/-- A block is read in the same way wherever it stands. -/
theorem readDeclarations_move (h : m.Carries finish finish' (splitBlock [] ts).2) :
    readDeclarations finish' true (m.tokens ts) =
      ((readDeclarations finish true ts).1.map m.entry,
        m.tokens (readDeclarations finish true ts).2) := by
  fun_induction readDeclarations finish true ts with
  | case1 =>
    obtain ⟨hbehind, rfl⟩ := h rfl
    rw [tokens_nil fun _ => hbehind, readDeclarations]
    rfl
  | case2 t ts hskip ih =>
    rw [splitBlock_of_skips hskip] at h
    rw [tokens_cons, readDeclarations, kind_token, if_pos hskip, ih h]
  | case3 t ts hskip hclose =>
    rw [tokens_cons, readDeclarations, kind_token, if_neg hskip, if_pos hclose]
    rfl
  | case4 t ts hskip hclose first rest ih =>
    have hrest : (splitBlock [] (t :: ts)).2 = (splitBlock [] first.2).2 := by
      rw [Bool.or_eq_true, not_or] at hskip
      have hblank : t.kind.isBlank = false := by simpa using hskip.1
      have hcuts : cutsSegment [] t.kind = false := by simpa [cutsSegment] using hskip.2
      have hends : endsSegment true [] t.kind = false := by simpa [endsSegment] using hclose
      rw [splitBlock_snd_splitSegment, ← (readDeclaration_segment finish hblank hcuts hends ts).1]
    rw [hrest] at h
    have hfirst : m.Carries finish finish' first.2 := fun hnil => h (by rw [hnil]; rfl)
    rw [tokens_cons, readDeclarations, kind_token, if_neg hskip, if_neg hclose]
    dsimp only
    rw [readDeclaration_move hfirst, ih h]
    rfl

/-- A ruleset is read in the same way wherever it stands, if what is skipped and the block do not
reach what stands behind. -/
theorem readRuleset_move (hselectors : m.Carries finish finish' (SelectorGroup.read ts).left)
    (hskip : skipBlock 0 (m.tokens (SelectorGroup.read ts).left) =
      m.tokens (skipBlock 0 (SelectorGroup.read ts).left))
    (hblock : ∀ g t rest, SelectorGroup.read ts = .ok (g, t :: rest) →
      m.Carries finish finish' (splitBlock [] rest).2) :
    readRuleset finish' (m.tokens ts) =
      ((readRuleset finish ts).1.shift m.chars m.lines, m.tokens (readRuleset finish ts).2) := by
  have hmove := SelectorGroup.read_move ts hselectors.keeps
  unfold readRuleset
  rw [hmove]
  cases hread : SelectorGroup.read ts with
  | error e =>
    rw [hread] at hselectors hskip
    exact Prod.ext (congrArg Statement.malformed (fault_move hselectors)) hskip
  | ok r =>
    obtain ⟨selectors, rest⟩ := r
    rw [hread] at hselectors hskip
    cases rest with
    | nil =>
      obtain ⟨hbehind, rfl⟩ := hselectors rfl
      dsimp only [reading]
      rw [tokens_nil fun _ => hbehind]
      rfl
    | cons t rest =>
      dsimp only [reading, tokens_cons]
      rw [kind_token]
      split
      · rw [readDeclarations_move (hblock selectors t rest hread)]
        rfl
      · exact Prod.ext rfl hskip

theorem readStatements_ruleset {t : Token} (finish : Token) (hblank : t.kind ≠ .blank)
    (hcdo : t.kind ≠ .cdo) (hcdc : t.kind ≠ .cdc) (hat : ∀ name, t.kind ≠ .atKeyword name)
    (ts : List Token) : readStatements finish (t :: ts) = (readRuleset finish (t :: ts)).1 ::
      readStatements finish (readRuleset finish (t :: ts)).2 := by
  rw [readStatements]
  split
  next hk => exact absurd hk hblank
  next hk => exact absurd hk hcdo
  next hk => exact absurd hk hcdc
  next name hk => exact absurd hk (hat name)
  · rfl

section Shift
variable (hbehind : m.behind = [])
include hbehind

theorem skipBlock_shift (depth : Nat) (ts : List Token) :
    skipBlock depth (m.tokens ts) = m.tokens (skipBlock depth ts) := by
  induction ts generalizing depth with
  | nil =>
    rw [tokens_nil fun _ => hbehind]
    exact (tokens_nil fun _ => hbehind).symm
  | cons t ts ih =>
    rw [tokens_cons]
    unfold skipBlock
    rw [kind_token]
    split
    · exact ih _
    split
    · split
      · rfl
      · exact ih _
    · exact ih _

theorem skipAtRule_shift (ts : List Token) :
    skipAtRule (m.tokens ts) = m.tokens (skipAtRule ts) := by
  induction ts with
  | nil =>
    rw [tokens_nil fun _ => hbehind]
    exact (tokens_nil fun _ => hbehind).symm
  | cons t ts ih =>
    rw [tokens_cons]
    unfold skipAtRule
    rw [kind_token]
    split
    · rfl
    split
    · exact skipBlock_shift hbehind 0 (t :: ts)
    · exact ih

theorem readRuleset_shift (finish : Token) (ts : List Token) :
    readRuleset (m.token finish) (m.tokens ts) =
      ((readRuleset finish ts).1.shift m.chars m.lines, m.tokens (readRuleset finish ts).2) :=
  readRuleset_move (fun _ => ⟨hbehind, rfl⟩) (skipBlock_shift hbehind 0 _)
    fun _ _ _ _ _ => ⟨hbehind, rfl⟩

/-- The statements of a sheet further on, their faults with them. -/
theorem readStatements_shift (finish : Token) (ts : List Token) :
    readStatements (m.token finish) (m.tokens ts) =
      (readStatements finish ts).map (Statement.shift m.chars m.lines) := by
  fun_induction readStatements finish ts with
  | case1 =>
    rw [tokens_nil fun _ => hbehind, readStatements]
    rfl
  | case2 t ts hk ih =>
    rw [tokens_cons, readStatements, kind_token, hk]
    exact ih
  | case3 t ts hk ih =>
    rw [tokens_cons, readStatements, kind_token, hk]
    exact ih
  | case4 t ts hk ih =>
    rw [tokens_cons, readStatements, kind_token, hk]
    exact ih
  | case5 t ts name hk ih =>
    rw [tokens_cons, readStatements, kind_token, hk]
    dsimp only
    rw [skipAtRule_shift hbehind, ih]
    rfl
  | case6 t ts first hblank hcdo hcdc hat ih =>
    have hfirst := readRuleset_shift hbehind finish (t :: ts)
    have hmoved :=
      readStatements_ruleset (t := m.token t) (m.token finish) hblank hcdo hcdc hat (m.tokens ts)
    rw [← tokens_cons, hfirst, ih] at hmoved
    exact hmoved

end Shift
end Move
end Styling
