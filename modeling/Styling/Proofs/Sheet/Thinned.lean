import Styling.Proofs.Selector.Thinned
import Styling.Proofs.Sheet.Moved

/-! # Reading sheets without places

Of the tokens of a text, reading sees their kinds without the comments and without the further
blanks of a run. Two texts that agree in these are read as the same rulesets, declarations and
selectors, with the same errors, wherever these lie.
-/
namespace Styling
open Grammar (kinds)

def Fault.bare (cause : Cause) : Fault := ⟨cause, 0, 0⟩

def Entry.bare : Entry → Entry
  | declared d => .declared d
  | malformed f => .malformed (Fault.bare f.cause)

def Statement.bare : Statement → Statement
  | ruleset selectors entries => .ruleset selectors (entries.map Entry.bare)
  | atRule name => .atRule name
  | malformed f => .malformed (Fault.bare f.cause)

section Readers
variable (finish : Token)

theorem kinds_thin (after : Bool) (ts : List Token) :
    kinds (thin after ts) = collapseBlanks after (kinds ts) := by
  rw [thin, kinds, List.map_map]
  exact List.map_id _

theorem collapseBlanks_true_false (ks : List Kind) :
    collapseBlanks true (collapseBlanks false ks) = collapseBlanks true ks := by
  cases ks with
  | nil => rfl
  | cons k ks =>
    cases hk : k.isBlank with
    | true =>
      obtain rfl := eq_blank_of_isBlank hk
      exact collapseBlanks_collapseBlanks true ks
    | false => rw [collapseBlanks_cons hk, collapseBlanks_cons hk, collapseBlanks_cons hk,
        collapseBlanks_collapseBlanks]

theorem valueTerms_thin (value : List Token) :
    valueTerms (thin false value) = valueTerms value := by
  unfold valueTerms
  rw [show (thin false value).map Token.kind = _ from kinds_thin false value,
    collapseBlanks_true_false]
  rfl

theorem find?_badString_thin (after : Bool) (ts : List Token) :
    (thin after ts).find? (·.kind == .badString) =
      (ts.find? (·.kind == .badString)).map fun t => Token.bare t.kind := by
  have hpass (u : Token) (us : List Token) (hu : u.kind.isBlank = true) :
      (u :: us).find? (·.kind == .badString) = us.find? (·.kind == .badString) := by
    rw [List.find?_cons, eq_blank_of_isBlank hu]
    rfl
  induction ts generalizing after with
  | nil => rfl
  | cons t ts ih =>
    cases ht : t.kind.isBlank with
    | true =>
      rw [hpass t ts ht, thin_of_passes hpass ht]
      exact ih true
    | false =>
      rw [thin_of_not_blank ht, List.find?_cons, List.find?_cons, kind_bare]
      split
      · rfl
      · exact ih false

theorem readValueOf_thin (start : Token) (property : String) (value : List Token) :
    readValueOf (Token.bare start.kind) property (thin false value) =
      (readValueOf start property value).bare := by
  unfold readValueOf
  rw [find?_badString_thin, valueTerms_thin]
  cases value.find? (·.kind == .badString) with
  | some t => rfl
  | none =>
    dsimp only [Option.map_none]
    split <;> rfl

theorem splitSegment_of_blank {t : Token} (ht : t.kind = .blank) (curly : Bool)
    (stack : OpenBrackets) (ts : List Token) : splitSegment curly stack (t :: ts) =
      (t :: (splitSegment curly stack ts).1, (splitSegment curly stack ts).2) := by
  obtain ⟨hcuts, -, htrack⟩ := inert_blank.passes stack
  have hends : endsSegment curly stack .blank = false := by simp [endsSegment]
  rw [splitSegment, ht, hcuts, hends, htrack]
  rfl

theorem splitSegment_thin (curly : Bool) (stack : OpenBrackets) (after : Bool) (ts : List Token) :
    splitSegment curly stack (thin after ts) =
      (thin after (splitSegment curly stack ts).1, thin false (splitSegment curly stack ts).2) := by
  induction ts generalizing stack after with
  | nil => rfl
  | cons t ts ih =>
    cases ht : t.kind.isBlank with
    | true =>
      rw [splitSegment_of_blank (eq_blank_of_isBlank ht), thin_of_blank ht, thin_of_blank ht]
      cases after with
      | true => exact ih stack true
      | false =>
        rw [if_neg Bool.false_ne_true, if_neg Bool.false_ne_true, splitSegment_of_blank rfl, ih]
    | false =>
      rw [thin_of_not_blank ht]
      unfold splitSegment
      rw [kind_bare]
      split
      · rfl
      split
      · rw [thin_of_not_blank ht]
        rfl
      · rw [thin_of_not_blank ht, ih]

theorem readDeclaration_thin (curly : Bool) (start : Token) (ts : List Token) :
    readDeclaration (Token.bare .eof) curly (Token.bare start.kind) (thin false ts) =
      ((readDeclaration finish curly start ts).1.bare,
        thin false (readDeclaration finish curly start ts).2) := by
  unfold readDeclaration
  rw [kind_bare, skipBlanks_thin]
  split
  next property _ =>
    cases hskip : skipBlanks ts with
    | nil => rfl
    | cons t rest =>
      have ht := not_isBlank_of_ne (Grammar.ne_blank_of_skipBlanks hskip)
      have hsplit := splitSegment_thin curly [] false (t :: rest)
      rw [thin_of_not_blank ht] at hsplit ⊢
      dsimp only
      by_cases hcolon : t.kind = .colon
      · rw [if_pos hcolon, if_pos (show (Token.bare t.kind).kind = _ from hcolon),
          splitSegment_thin, readValueOf_thin]
      · rw [if_neg hcolon, if_neg (show (Token.bare t.kind).kind ≠ _ from hcolon), hsplit]
        rfl
  · rw [splitSegment_thin]
    rfl

/-- A block is read of the thinned tokens too. -/
theorem readDeclarations_thin (curly after : Bool) (ts : List Token) :
    readDeclarations (Token.bare .eof) curly (thin after ts) =
      ((readDeclarations finish curly ts).1.map Entry.bare,
        thin false (readDeclarations finish curly ts).2) := by
  fun_induction readDeclarations finish curly ts generalizing after with
  | case1 =>
    rw [thin_nil, readDeclarations]
    cases curly <;> rfl
  | case2 t ts h ih =>
    have hpass (u : Token) (us : List Token) (hu : u.kind.isBlank = true) :
        readDeclarations (Token.bare .eof) curly (u :: us) =
          readDeclarations (Token.bare .eof) curly us := by
      rw [readDeclarations, if_pos (Bool.or_eq_true_iff.mpr (.inl hu))]
    cases ht : t.kind.isBlank with
    | true =>
      rw [thin_of_passes hpass ht]
      exact ih true
    | false =>
      rw [thin_of_not_blank ht, readDeclarations, kind_bare, if_pos h]
      exact ih false
  | case3 t ts h hcloses =>
    have ht : t.kind.isBlank = false := (Bool.or_eq_false_iff.mp (Bool.eq_false_iff.mpr h)).1
    rw [thin_of_not_blank ht, readDeclarations, kind_bare, if_neg h, if_pos hcloses]
    rfl
  | case4 t ts h hcloses first rest ih =>
    have ht : t.kind.isBlank = false := (Bool.or_eq_false_iff.mp (Bool.eq_false_iff.mpr h)).1
    rw [thin_of_not_blank ht, readDeclarations, kind_bare, if_neg h, if_neg hcloses]
    dsimp only
    rw [readDeclaration_thin finish]
    dsimp only
    rw [ih false]
    rfl

theorem skipBlock_thin (depth : Nat) (after : Bool) (ts : List Token) :
    skipBlock depth (thin after ts) = thin false (skipBlock depth ts) := by
  have hpass (depth : Nat) (u : Token) (us : List Token) (hu : u.kind.isBlank = true) :
      skipBlock depth (u :: us) = skipBlock depth us := by
    rw [skipBlock, eq_blank_of_isBlank hu]
    rfl
  induction ts generalizing depth after with
  | nil => rfl
  | cons t ts ih =>
    cases ht : t.kind.isBlank with
    | true =>
      rw [hpass depth t ts ht, thin_of_passes (hpass depth) ht]
      exact ih depth true
    | false =>
      rw [thin_of_not_blank ht]
      unfold skipBlock
      rw [kind_bare]
      split
      · exact ih _ false
      split
      · split
        · rfl
        · exact ih _ false
      · exact ih _ false

theorem skipAtRule_thin (after : Bool) (ts : List Token) :
    skipAtRule (thin after ts) = thin false (skipAtRule ts) := by
  have hpass (u : Token) (us : List Token) (hu : u.kind.isBlank = true) :
      skipAtRule (u :: us) = skipAtRule us := by
    rw [skipAtRule, eq_blank_of_isBlank hu]
    rfl
  induction ts generalizing after with
  | nil => rfl
  | cons t ts ih =>
    cases ht : t.kind.isBlank with
    | true =>
      rw [hpass t ts ht, thin_of_passes hpass ht]
      exact ih true
    | false =>
      have hblock := skipBlock_thin 0 false (t :: ts)
      rw [thin_of_not_blank ht] at hblock ⊢
      unfold skipAtRule
      rw [kind_bare]
      split
      · rfl
      split
      · exact hblock
      · exact ih false

theorem fault_thin (e : Failure) :
    Failure.fault (Token.bare .eof) ⟨e.cause, thin false e.rest⟩ = Fault.bare e.cause := by
  unfold Failure.fault
  cases e.rest with
  | nil => rfl
  | cons t rest =>
    rw [thin_cons]
    rfl

theorem readRuleset_thin (ts : List Token) :
    readRuleset (Token.bare .eof) (thin false ts) =
      ((readRuleset finish ts).1.bare, thin false (readRuleset finish ts).2) := by
  unfold readRuleset
  rw [SelectorGroup.read_thin]
  cases SelectorGroup.read ts with
  | error e =>
    dsimp only [Reading.thinned]
    rw [fault_thin, skipBlock_thin]
    rfl
  | ok r =>
    obtain ⟨selectors, rest⟩ := r
    dsimp only [Reading.thinned]
    cases rest with
    | nil => rfl
    | cons t rest =>
      have hskip := skipBlock_thin 0 false (t :: rest)
      rw [thin_cons] at hskip ⊢
      dsimp only
      by_cases hopen : t.kind = .opening .curly
      · rw [if_pos hopen, if_pos (show (Token.bare t.kind).kind = _ from hopen), hopen]
        have hbody := readDeclarations_thin finish true false rest
        dsimp only
        rw [show thin (Kind.opening Bracket.curly).isBlank rest = thin false rest from rfl, hbody]
        rfl
      · rw [if_neg hopen, if_neg (show (Token.bare t.kind).kind ≠ _ from hopen), hskip]
        rfl

/-- A sheet is read of the thinned tokens too. -/
theorem readStatements_thin (after : Bool) (ts : List Token) :
    readStatements (Token.bare .eof) (thin after ts) =
      (readStatements finish ts).map Statement.bare := by
  fun_induction readStatements finish ts generalizing after with
  | case1 =>
    rw [thin_nil, readStatements]
    rfl
  | case2 t ts hk ih =>
    have hpass (u : Token) (us : List Token) (hu : u.kind.isBlank = true) :
        readStatements (Token.bare .eof) (u :: us) = readStatements (Token.bare .eof) us := by
      rw [readStatements, eq_blank_of_isBlank hu]
    rw [thin_of_passes hpass (by rw [hk]; rfl)]
    exact ih true
  | case3 t ts hk ih =>
    rw [thin_of_not_blank (by rw [hk]; rfl), readStatements, kind_bare, hk]
    exact ih false
  | case4 t ts hk ih =>
    rw [thin_of_not_blank (by rw [hk]; rfl), readStatements, kind_bare, hk]
    exact ih false
  | case5 t ts name hk ih =>
    rw [thin_of_not_blank (by rw [hk]; rfl), readStatements, kind_bare, hk]
    dsimp only
    rw [skipAtRule_thin, ih]
    rfl
  | case6 t ts first hblank hcdo hcdc hat ih =>
    have ht := not_isBlank_of_ne hblank
    have hfirst := readRuleset_thin finish (t :: ts)
    rw [thin_of_not_blank ht] at hfirst ⊢
    rw [Move.readStatements_ruleset (t := Token.bare t.kind) _ hblank hcdo hcdc hat, hfirst, ih]
    rfl

end Readers

section Views

theorem declarationsOf_bare (entries : List Entry) :
    declarationsOf (entries.map Entry.bare) = declarationsOf entries := by
  unfold declarationsOf
  rw [List.filterMap_map]
  refine List.filterMap_congr fun e _ => ?_
  cases e <;> rfl

theorem causes_faultsOf_bare (entries : List Entry) :
    (faultsOf (entries.map Entry.bare)).map Fault.cause = (faultsOf entries).map Fault.cause := by
  unfold faultsOf
  rw [List.filterMap_map, List.map_filterMap, List.map_filterMap]
  refine List.filterMap_congr fun e _ => ?_
  cases e <;> rfl

theorem rulesets_bare (statements : List Statement) :
    (statements.map Statement.bare).filterMap Statement.ruleset? =
      statements.filterMap Statement.ruleset? := by
  rw [List.filterMap_map]
  refine List.filterMap_congr fun s _ => ?_
  cases s with
  | ruleset selectors entries =>
    exact congrArg (fun ds => some (Ruleset.mk selectors ds)) (declarationsOf_bare entries)
  | atRule name => rfl
  | malformed f => rfl

theorem causes_faults_bare (statements : List Statement) :
    ((statements.map Statement.bare).flatMap Statement.faults).map Fault.cause =
      (statements.flatMap Statement.faults).map Fault.cause := by
  rw [List.flatMap_map, List.map_flatMap, List.map_flatMap]
  refine List.flatMap_congr fun s _ => ?_
  cases s with
  | ruleset selectors entries => exact causes_faultsOf_bare entries
  | atRule name => rfl
  | malformed f => rfl

end Views

/-- The kinds of the tokens of a text, without comments, and with one blank for every run of
blanks. -/
def gist (text : String) : List Kind :=
  collapseBlanks false (kinds ((tokenize text).filter (!·.kind.isComment)))

theorem gist_eq (text : String) :
    gist text = collapseBlanks false (kinds (significant text.toList)) ++ [.eof] := by
  rw [gist, tokenize, List.filter_append, Grammar.kinds_append, collapseBlanks_append]
  rfl

theorem thin_eq_of_gist {a b : String} (h : gist a = gist b) :
    thin false (significant a.toList) = thin false (significant b.toList) := by
  rw [gist_eq, gist_eq] at h
  exact congrArg (List.map Token.bare) (List.append_cancel_right h)

section Alike
variable {a b : String}

theorem statements_alike (h : gist a = gist b) :
    (ParsedSheet.ofText a).statements.map Statement.bare =
      (ParsedSheet.ofText b).statements.map Statement.bare := by
  have ha := readStatements_thin (endToken a.toList) false (significant a.toList)
  have hb := readStatements_thin (endToken b.toList) false (significant b.toList)
  exact ha.symm.trans ((congrArg _ (thin_eq_of_gist h)).trans hb)

theorem parseDeclarations_alike (h : gist a = gist b) :
    (parseDeclarations a).map Entry.bare = (parseDeclarations b).map Entry.bare := by
  have ha := readDeclarations_thin (endToken a.toList) false false (significant a.toList)
  have hb := readDeclarations_thin (endToken b.toList) false false (significant b.toList)
  rw [thin_eq_of_gist h] at ha
  exact congrArg Prod.fst (ha.symm.trans hb)

theorem mapError_message_parse (text : String) :
    (SelectorGroup.parse text).mapError (fun f => f.cause.message) =
      ((SelectorGroup.readAll (significant text.toList)).mapError Failure.cause).mapError
        Cause.message := by
  unfold SelectorGroup.parse
  cases SelectorGroup.readAll (significant text.toList) <;> rfl

/-- Texts that differ in comments and in the extent of blanks only are read alike: as sheets, as
declarations and as selectors. -/
theorem read_alike (h : gist a = gist b) :
    ((ParsedSheet.ofText a).stylesheet = (ParsedSheet.ofText b).stylesheet ∧
      (ParsedSheet.ofText a).faults.map (fun f => f.cause.message) =
        (ParsedSheet.ofText b).faults.map (fun f => f.cause.message)) ∧
    (declarationsOf (parseDeclarations a) = declarationsOf (parseDeclarations b) ∧
      (faultsOf (parseDeclarations a)).map (fun f => f.cause.message) =
        (faultsOf (parseDeclarations b)).map (fun f => f.cause.message)) ∧
    (SelectorGroup.parse a).mapError (fun f => f.cause.message) =
      (SelectorGroup.parse b).mapError (fun f => f.cause.message) := by
  have messages (fs gs : List Fault) (hcauses : fs.map Fault.cause = gs.map Fault.cause) :
      fs.map (fun f => f.cause.message) = gs.map (fun f => f.cause.message) := by
    have hmessages := congrArg (List.map Cause.message) hcauses
    rwa [List.map_map, List.map_map] at hmessages
  have hsheet := statements_alike h
  have hlist := parseDeclarations_alike h
  refine ⟨⟨?_, messages _ _ ?_⟩, ⟨?_, messages _ _ ?_⟩, ?_⟩
  · unfold ParsedSheet.stylesheet
    rw [← rulesets_bare, hsheet, rulesets_bare]
  · unfold ParsedSheet.faults
    rw [← causes_faults_bare, hsheet, causes_faults_bare]
  · rw [← declarationsOf_bare, hlist, declarationsOf_bare]
  · rw [← causes_faultsOf_bare, hlist, causes_faultsOf_bare]
  · rw [mapError_message_parse, mapError_message_parse,
      ← SelectorGroup.mapError_cause_readAll_thin, thin_eq_of_gist h,
      SelectorGroup.mapError_cause_readAll_thin]

theorem read_alike_comment :
    gist "a /* b */ c \x7b d \x7d" = gist "a\n\tc \x7b/**/  d \x7d" ∧
      (ParsedSheet.ofText "a /* b */ c \x7b d \x7d").stylesheet =
        (ParsedSheet.ofText "a\n\tc \x7b/**/  d \x7d").stylesheet ∧
      (ParsedSheet.ofText "a /* b */ c \x7b d \x7d").faults.map (fun f => f.cause.message) =
        (ParsedSheet.ofText "a\n\tc \x7b/**/  d \x7d").faults.map (fun f => f.cause.message) := by
  have hgist : gist "a /* b */ c \x7b d \x7d" = gist "a\n\tc \x7b/**/  d \x7d" := by decide +kernel
  obtain ⟨⟨hsheet, hmessages⟩, -⟩ := read_alike hgist
  exact ⟨hgist, hsheet, hmessages⟩

end Alike

end Styling
