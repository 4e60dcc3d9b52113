import Styling.Proofs.Sheet.Formed

/-! # Rounds of the reading loops

A sheet and a list of declarations are read round by round. A round sees the tokens that are left
and either ends the loop or leaves fewer of them, also where what it met was malformed and was
skipped. So a loop ends, after at most one round for each token and one for the end of the text;
unless a curly bracket closes its block it ends there.
-/
namespace Styling

/-- What a round of a loop comes to: results, and the tokens that are left. -/
inductive Round (α : Type)
  | again (results : List α) (rest : List Token)
  | done (results : List α) (rest : List Token)

def sheetRound (finish : Token) : List Token → Round Statement
  | [] => .done [] []
  | t :: ts =>
    match t.kind with
    | .blank | .cdo | .cdc => .again [] ts
    | .atKeyword name => .again [.atRule name] (skipAtRule ts)
    | _ =>
      let first := readRuleset finish (t :: ts)
      .again [first.1] first.2

def listRound (finish : Token) (curly : Bool) : List Token → Round Entry
  | [] => .done (if curly then [.malformed (Fault.ofToken .unclosedBlock finish)] else []) []
  | t :: ts =>
    if t.kind.isBlank || t.kind == .semicolon then .again [] ts
    else if curly && t.kind == .closing .curly then .done [] ts
    else
      let first := readDeclaration finish curly t ts
      .again [first.1] first.2

section Loops
variable {α : Type} {round : List Token → Round α} {n : Nat} {ts rest : List Token} {out : List α}

/-- A loop of `n` rounds, the last of which ends it, with the results of all. -/
inductive Runs (round : List Token → Round α) : Nat → List Token → List α → List Token → Prop
  | done {ts : List Token} {out : List α} {rest : List Token} (h : round ts = .done out rest) :
      Runs round 1 ts out rest
  | again {n : Nat} {ts mid : List Token} {out more : List α} {rest : List Token}
      (h : round ts = .again out mid) (tail : Runs round n mid more rest) :
      Runs round (n + 1) ts (out ++ more) rest

/-- Every round that does not end the loop takes a token, and leaves what stands behind it. -/
def Consumes (round : List Token → Round α) : Prop :=
  ∀ ts out rest, round ts = .again out rest → ∃ taken, taken ≠ [] ∧ ts = taken ++ rest

theorem Consumes.of_suffix (hsuffix : ∀ ts out rest, round ts = .again out rest →
    rest <:+ ts ∧ rest.length < ts.length) : Consumes round := by
  intro ts out rest h
  obtain ⟨⟨taken, rfl⟩, hlength⟩ := hsuffix ts out rest h
  refine ⟨taken, ?_, rfl⟩
  rintro rfl
  exact absurd hlength (Nat.lt_irrefl _)

theorem Consumes.length_lt (h : Consumes round) (hr : round ts = .again out rest) :
    rest.length < ts.length := by
  obtain ⟨taken, hne, rfl⟩ := h ts out rest hr
  have hpos := List.length_pos_iff.mpr hne
  rw [List.length_append]
  omega

/-- A loop has one round for each token at most, and a last one. -/
theorem Consumes.rounds_le (h : Consumes round) (hr : Runs round n ts out rest) :
    n ≤ ts.length + 1 := by
  induction hr with
  | done _ => omega
  | again hround _ ih =>
    have hless := h.length_lt hround
    omega

theorem Consumes.runs (h : Consumes round) (ts : List Token) :
    ∃ n out rest, Runs round n ts out rest := by
  induction hn : ts.length using Nat.strong_induction_on generalizing ts with
  | _ k ih =>
    cases hround : round ts with
    | done out rest => exact ⟨1, out, rest, .done hround⟩
    | again out mid =>
      obtain ⟨n, more, rest, htail⟩ := ih mid.length (hn ▸ h.length_lt hround) mid rfl
      exact ⟨n + 1, out ++ more, rest, .again hround htail⟩

end Loops

theorem consumes_sheetRound (finish : Token) : Consumes (sheetRound finish) := by
  refine Consumes.of_suffix fun ts out rest h => ?_
  cases ts with
  | nil => cases h
  | cons t ts =>
    rw [sheetRound] at h
    split at h
    · cases h
      exact ⟨List.suffix_cons t _, Nat.lt_succ_self _⟩
    · cases h
      exact ⟨List.suffix_cons t _, Nat.lt_succ_self _⟩
    · cases h
      exact ⟨List.suffix_cons t _, Nat.lt_succ_self _⟩
    · cases h
      exact ⟨(skipAtRule_suffix ts).trans (List.suffix_cons t ts),
        Nat.lt_succ_of_le (skipAtRule_suffix ts).length_le⟩
    · cases h
      exact ⟨readRuleset_suffix finish (t :: ts),
        Nat.lt_succ_of_le (readRuleset_length_le finish t ts)⟩

theorem consumes_listRound (finish : Token) (curly : Bool) :
    Consumes (listRound finish curly) := by
  refine Consumes.of_suffix fun ts out rest h => ?_
  cases ts with
  | nil => cases h
  | cons t ts =>
    rw [listRound] at h
    split at h
    · cases h
      exact ⟨List.suffix_cons t _, Nat.lt_succ_self _⟩
    split at h
    · cases h
    · cases h
      have hsuffix := readDeclaration_suffix finish curly t ts
      exact ⟨hsuffix.trans (List.suffix_cons t ts), Nat.lt_succ_of_le hsuffix.length_le⟩

theorem readStatements_of_runs {finish : Token} {n : Nat} {ts rest : List Token}
    {out : List Statement} (h : Runs (sheetRound finish) n ts out rest) :
    out = readStatements finish ts ∧ rest = [] := by
  induction h with
  | @done ts out rest h =>
    cases ts with
    | nil =>
      cases h
      exact ⟨by rw [readStatements], rfl⟩
    | cons t ts =>
      rw [sheetRound] at h
      split at h <;> cases h
  | @again n ts mid out more rest h _ ih =>
    obtain ⟨rfl, rfl⟩ := ih
    refine ⟨?_, rfl⟩
    cases ts with
    | nil => cases h
    | cons t ts =>
      rw [sheetRound] at h
      rw [readStatements]
      split at h
      all_goals
        cases h
        simp [*]

theorem readDeclarations_of_runs {finish : Token} {curly : Bool} {n : Nat} {ts rest : List Token}
    {out : List Entry} (h : Runs (listRound finish curly) n ts out rest) :
    readDeclarations finish curly ts = (out, rest) ∧ (curly = false → rest = []) := by
  induction h with
  | @done ts out rest h =>
    cases ts with
    | nil =>
      cases h
      exact ⟨by rw [readDeclarations], fun _ => rfl⟩
    | cons t ts =>
      rw [listRound] at h
      split at h
      · cases h
      split at h
      next hskip hclose =>
        cases h
        refine ⟨by rw [readDeclarations, if_neg hskip, if_pos hclose], ?_⟩
        rintro rfl
        cases hclose
      · cases h
  | @again n ts mid out more rest h _ ih =>
    obtain ⟨hread, hrest⟩ := ih
    refine ⟨?_, hrest⟩
    cases ts with
    | nil => cases h
    | cons t ts =>
      rw [listRound] at h
      rw [readDeclarations]
      split at h
      next hskip =>
        cases h
        rw [if_pos hskip, hread]
        rfl
      next hskip =>
        split at h
        · cases h
        next hclose =>
          cases h
          rw [if_neg hskip, if_neg hclose]
          dsimp only
          rw [hread]
          rfl

theorem runs_readStatements (finish : Token) (ts : List Token) :
    ∃ n ≤ ts.length + 1, Runs (sheetRound finish) n ts (readStatements finish ts) [] := by
  obtain ⟨n, out, rest, hruns⟩ := (consumes_sheetRound finish).runs ts
  obtain ⟨rfl, rfl⟩ := readStatements_of_runs hruns
  exact ⟨n, (consumes_sheetRound finish).rounds_le hruns, hruns⟩

theorem runs_readDeclarations (finish : Token) (curly : Bool) (ts : List Token) :
    ∃ n ≤ ts.length + 1, Runs (listRound finish curly) n ts (readDeclarations finish curly ts).1
      (readDeclarations finish curly ts).2 ∧
      (curly = false → (readDeclarations finish curly ts).2 = []) := by
  obtain ⟨n, out, rest, hruns⟩ := (consumes_listRound finish curly).runs ts
  obtain ⟨hread, hrest⟩ := readDeclarations_of_runs hruns
  rw [hread]
  exact ⟨n, (consumes_listRound finish curly).rounds_le hruns, hruns, hrest⟩

/-- The end of a text is the one token that is neither a comment nor significant. -/
theorem length_filter_tokenize (text : String) :
    ((tokenize text).filter (!·.kind.isComment)).length = (significant text.toList).length + 1 := by
  rw [tokenize, List.filter_append, List.length_append]
  rfl

/-- Reading always makes progress and drops no tail: whatever tokens are left, a round of either
loop that does not end it takes at least one of them; a whole sheet and a whole list of
declarations are read in no more rounds than their text has tokens that are no comments, and
nothing is left but the end of the text. -/
theorem rounds_consume (text : String) :
    (∀ finish, Consumes (sheetRound finish)) ∧
    (∀ finish curly, Consumes (listRound finish curly)) ∧
    (∃ n ≤ ((tokenize text).filter (!·.kind.isComment)).length,
      Runs (sheetRound (endToken text.toList)) n (significant text.toList)
        (ParsedSheet.ofText text).statements []) ∧
    ∃ n ≤ ((tokenize text).filter (!·.kind.isComment)).length,
      Runs (listRound (endToken text.toList) false) n (significant text.toList)
        (parseDeclarations text) [] := by
  rw [length_filter_tokenize]
  refine ⟨consumes_sheetRound, consumes_listRound, runs_readStatements _ _, ?_⟩
  obtain ⟨n, hn, hruns, hrest⟩ :=
    runs_readDeclarations (endToken text.toList) false (significant text.toList)
  rw [hrest rfl] at hruns
  exact ⟨n, hn, hruns⟩

end Styling
