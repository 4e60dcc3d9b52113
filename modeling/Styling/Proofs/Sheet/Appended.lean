import Styling.Proofs.Sheet.Moved

/-! # Sheets one behind the other

In a sheet whose brackets are properly nested, malformed statements do not reach far: whatever is
skipped ends where no block is open. Between two statements only round and square brackets may be
open, those that a malformed selector has left behind. So if the sheet ends with a block, nothing
of what follows it is lost, and what follows is read as if it stood alone.
-/
namespace Styling
open Grammar (kinds Progress)
open Move

/-- Every closer closes the bracket that was opened last, and no bracket is left open. -/
def Nested : OpenBrackets → List Kind → Prop
  | stack, [] => stack = []
  | stack, k :: ks => (∀ b, k = .closing b → stack.head? = some b) ∧ Nested (stack.track k) ks

/-- Tokens that close the open brackets, the last of them a block. -/
structure Closes (stack : OpenBrackets) (ts : List Token) : Prop where
  nested : Nested stack (kinds ts)
  last : ∀ t ∈ ts.getLast?, t.kind = .closing .curly

/-- Tokens before which no block is open. -/
def Sealed (ts : List Token) : Prop := ∃ stack, Bracket.curly ∉ stack ∧ Closes stack ts

section Brackets
variable {stack outer : OpenBrackets} {t : Token} {ts : List Token}

theorem track_opening (stack : OpenBrackets) (b : Bracket) :
    stack.track (.opening b) = b :: stack := by
  cases stack <;> rfl

theorem opens?_ne_curly {k : Kind} (hopen : k ≠ .opening .curly) : k.opens? ≠ some .curly := by
  intro h
  unfold Kind.opens? at h
  split at h
  · cases h
  next b =>
    cases h
    exact hopen rfl
  · cases h

theorem count_track {k : Kind} (hopen : k ≠ .opening .curly) (hclose : k ≠ .closing .curly)
    (stack : OpenBrackets) : (stack.track k).count .curly = stack.count .curly := by
  have hpush : (stack.push k).count .curly = stack.count .curly := by
    unfold OpenBrackets.push
    split
    next b hb =>
      have hne : b ≠ .curly := fun hcurly => opens?_ne_curly hopen (hcurly ▸ hb)
      exact List.count_cons_of_ne hne
    · rfl
  cases stack with
  | nil => exact hpush
  | cons b stack =>
    rw [OpenBrackets.track]
    split
    next hk =>
      have hne : b ≠ .curly := fun hcurly => hclose (hcurly ▸ hk)
      exact (List.count_cons_of_ne hne).symm
    · exact hpush

theorem push_append (inner outer : OpenBrackets) (k : Kind) :
    OpenBrackets.push (inner ++ outer) k = inner.push k ++ outer := by
  unfold OpenBrackets.push
  split <;> rfl

/-- Within a block, the brackets outside of it make no difference. -/
theorem track_append {inner : OpenBrackets} {k : Kind} (h : endsSegment true inner k = false)
    (outer : OpenBrackets) : OpenBrackets.track (inner ++ .curly :: outer) k =
      inner.track k ++ .curly :: outer := by
  cases inner with
  | nil =>
    have hk : k ≠ .closing .curly := by simpa [endsSegment] using h
    exact (if_neg hk).trans (push_append [] _ k)
  | cons b inner =>
    rw [List.cons_append, OpenBrackets.track, OpenBrackets.track]
    split
    · rfl
    · exact push_append (b :: inner) _ k

theorem Closes.tail (h : Closes stack (t :: ts)) : Closes (stack.track t.kind) ts where
  nested := h.nested.2
  last u hu := by
    refine h.last u ?_
    rw [List.getLast?_cons, Option.mem_def.mp hu]
    rfl

theorem Closes.ne_nil (h : Closes stack (t :: ts)) (ht : t.kind ≠ .closing .curly) : ts ≠ [] := by
  rintro rfl
  exact ht (h.last t rfl)

theorem Closes.closing (h : Closes stack (t :: ts)) (ht : t.kind = .closing .curly) :
    ∃ outer, stack = .curly :: outer ∧ Closes outer ts := by
  obtain ⟨outer, rfl⟩ := List.head?_eq_some_iff.mp (h.nested.1 .curly ht)
  refine ⟨outer, rfl, ?_⟩
  have htail := h.tail
  rwa [OpenBrackets.track, if_pos ht] at htail

/-- Skipping ends when the blocks that are open are closed. -/
theorem skipBlock_closes (h : Closes stack ts) (hne : ts ≠ []) : ∃ rest, Sealed rest ∧
    ∀ more, skipBlock (stack.count .curly) (ts ++ more) = rest ++ more := by
  -- the depth that skipping counts is the number of blocks among the open brackets
  induction ts generalizing stack with
  | nil => exact absurd rfl hne
  | cons t ts ih =>
    by_cases hopen : t.kind = .opening .curly
    · have htail := h.tail
      rw [hopen, track_opening] at htail
      obtain ⟨rest, hrest, hskip⟩ := ih htail (h.ne_nil (by simp [hopen]))
      refine ⟨rest, hrest, fun more => ?_⟩
      rw [List.cons_append, skipBlock, if_pos hopen, ← hskip, List.count_cons_self]
    by_cases hclose : t.kind = .closing .curly
    · obtain ⟨outer, rfl, houter⟩ := h.closing hclose
      rw [List.count_cons_self]
      by_cases hcount : outer.count .curly = 0
      · refine ⟨ts, ⟨outer, List.count_eq_zero.mp hcount, houter⟩, fun more => ?_⟩
        rw [List.cons_append, skipBlock, if_neg hopen, if_pos hclose, if_pos (by omega)]
      · -- a block is still open, so this is not the last token
        have hts : ts ≠ [] := by
          rintro rfl
          rw [show outer = [] from houter.nested] at hcount
          exact hcount rfl
        obtain ⟨rest, hrest, hskip⟩ := ih houter hts
        refine ⟨rest, hrest, fun more => ?_⟩
        rw [List.cons_append, skipBlock, if_neg hopen, if_pos hclose, if_neg (by omega),
          Nat.add_sub_cancel, hskip]
    · obtain ⟨rest, hrest, hskip⟩ := ih h.tail (h.ne_nil hclose)
      refine ⟨rest, hrest, fun more => ?_⟩
      rw [List.cons_append, skipBlock, if_neg hopen, if_neg hclose, ← hskip,
        count_track hopen hclose]

theorem splitBlock_closes {inner : OpenBrackets} (h : Closes (inner ++ .curly :: outer) ts) :
    ∃ t rest, (splitBlock inner ts).2 = t :: rest ∧ Closes outer rest := by
  -- the block has a stack of its own, which begins where the outer brackets end
  induction ts generalizing inner with
  | nil => exact absurd h.nested (by simp [kinds, Nested])
  | cons t ts ih =>
    cases hends : endsSegment true inner t.kind with
    | true =>
      obtain ⟨rfl, ht⟩ := endsSegment_iff.mp hends
      obtain ⟨outer', heq, houter⟩ := h.closing ht
      cases heq
      exact ⟨t, ts, by rw [splitBlock_of_ends hends], houter⟩
    | false =>
      rw [splitBlock_of_not_ends hends]
      exact ih (track_append hends outer ▸ h.tail)

end Brackets

namespace Sealed

variable {t : Token} {ts used rest : List Token}

theorem tail (h : Sealed (t :: ts)) (ht : t.kind ≠ .opening .curly) : Sealed ts ∧ ts ≠ [] := by
  obtain ⟨stack, hstack, hcloses⟩ := h
  have hclose : t.kind ≠ .closing .curly := by
    intro hk
    obtain ⟨outer, rfl, -⟩ := hcloses.closing hk
    exact hstack List.mem_cons_self
  refine ⟨⟨_, ?_, hcloses.tail⟩, hcloses.ne_nil hclose⟩
  rw [← List.count_eq_zero, count_track ht hclose, List.count_eq_zero]
  exact hstack

theorem of_append (h : Sealed (used ++ rest)) (hne : used ++ rest ≠ [])
    (hused : ∀ t ∈ used, t.kind ≠ .opening .curly) : Sealed rest ∧ rest ≠ [] := by
  induction used with
  | nil => exact ⟨h, hne⟩
  | cons t used ih =>
    obtain ⟨ht, hused⟩ := List.forall_mem_cons.mp hused
    obtain ⟨htail, hne'⟩ := h.tail ht
    exact ih htail hne' hused

theorem skipBlock (h : Sealed ts) (hne : ts ≠ []) : Sealed (Styling.skipBlock 0 ts) ∧
    ∀ more, Styling.skipBlock 0 (ts ++ more) = Styling.skipBlock 0 ts ++ more := by
  obtain ⟨stack, hstack, hcloses⟩ := h
  obtain ⟨rest, hrest, hskip⟩ := skipBlock_closes hcloses hne
  rw [List.count_eq_zero.mpr hstack] at hskip
  obtain rfl : Styling.skipBlock 0 ts = rest := by simpa using hskip []
  exact ⟨hrest, hskip⟩

theorem skipAtRule (h : Sealed ts) (hne : ts ≠ []) : Sealed (Styling.skipAtRule ts) ∧
    ∀ more, Styling.skipAtRule (ts ++ more) = Styling.skipAtRule ts ++ more := by
  induction ts with
  | nil => exact absurd rfl hne
  | cons t ts ih =>
    simp only [List.cons_append, Styling.skipAtRule]
    by_cases hopen : t.kind = .opening .curly
    · rw [if_neg (by simp [hopen]), if_pos hopen]
      obtain ⟨hrest, hskip⟩ := h.skipBlock hne
      refine ⟨hrest, fun more => ?_⟩
      rw [if_neg (by simp [hopen]), if_pos hopen]
      exact hskip more
    obtain ⟨htail, hne'⟩ := h.tail hopen
    by_cases hend : t.kind = .semicolon
    · simp only [if_pos hend]
      exact ⟨htail, fun _ => trivial⟩
    · simp only [if_neg hend, if_neg hopen]
      exact ih htail hne'

theorem splitBlock (h : Sealed (t :: ts)) (ht : t.kind = .opening .curly) :
    ∃ u rest, (Styling.splitBlock [] ts).2 = u :: rest ∧ Sealed rest := by
  obtain ⟨stack, hstack, hcloses⟩ := h
  have hblock := hcloses.tail
  rw [ht, track_opening, ← List.nil_append (.curly :: stack)] at hblock
  obtain ⟨u, rest, hsplit, hrest⟩ := splitBlock_closes hblock
  exact ⟨u, rest, hsplit, stack, hstack, hrest⟩

end Sealed

section Joining
variable {ts : List Token} {t : Token}

def Move.before (more : List Token) : Move := ⟨0, 0, more⟩

theorem tokens_before (more ts : List Token) : (Move.before more).tokens ts = ts ++ more := by
  have hmap : ts.map (Move.before more).token = ts := List.map_id ts
  rw [Move.tokens, hmap]
  rfl

theorem shift_before (more : List Token) (s : Statement) :
    s.shift (Move.before more).chars (Move.before more).lines = s := by
  cases s with
  | ruleset selectors entries =>
    have hentry : Entry.shift (Move.before more).chars (Move.before more).lines = id := by
      funext e
      cases e <;> rfl
    rw [Statement.shift, hentry, List.map_id]
  | atRule name => rfl
  | malformed f => rfl

/-- A selector group does not reach into a block. -/
theorem ne_curly_of_run {p q : Progress} {ks : List Kind} (h : p.run ks = some q) :
    ∀ k ∈ ks, k ≠ .opening .curly := by
  induction ks generalizing p with
  | nil => simp
  | cons k ks ih =>
    rw [Progress.run_cons] at h
    obtain ⟨p', hstep, hrun⟩ := Option.bind_eq_some_iff.mp h
    refine List.forall_mem_cons.mpr ⟨?_, ih hrun⟩
    rintro rfl
    rw [p.step_curly] at hstep
    cases hstep

theorem exists_read (ts : List Token) : ∃ used, ts = used ++ (SelectorGroup.read ts).left ∧
    ∀ t ∈ used, t.kind ≠ .opening .curly := by
  have hfollows := Grammar.follows_group [] ts
  cases hread : SelectorGroup.read ts <;>
  · rw [hread] at hfollows
    obtain ⟨used, q, hts, hrun, -⟩ := hfollows
    exact ⟨used, hts, fun t ht => ne_curly_of_run hrun t.kind (List.mem_map_of_mem ht)⟩

/-- Only a block can follow the selectors that are read. -/
theorem opening_of_read {g : SelectorGroup} {rest : List Token}
    (h : SelectorGroup.read ts = .ok (g, t :: rest)) : t.kind = .opening .curly := by
  have hfollows := Grammar.follows_group [] ts
  rw [h] at hfollows
  obtain ⟨used, q, -, -, -, hhead⟩ := hfollows
  exact hhead t rfl

theorem Sealed.left_read (h : Sealed ts) (hne : ts ≠ []) :
    Sealed (SelectorGroup.read ts).left ∧ (SelectorGroup.read ts).left ≠ [] := by
  obtain ⟨used, hts, hused⟩ := exists_read ts
  exact Sealed.of_append (hts ▸ h) (hts ▸ hne) hused

/-- A ruleset is read or skipped, and what is left is sealed. -/
theorem Sealed.readRuleset (h : Sealed ts) (hne : ts ≠ []) (finish : Token) :
    Sealed (Styling.readRuleset finish ts).2 := by
  obtain ⟨hleft, hleft'⟩ := h.left_read hne
  unfold Styling.readRuleset
  cases hread : SelectorGroup.read ts with
  | error e =>
    rw [hread] at hleft hleft'
    exact (hleft.skipBlock hleft').1
  | ok r =>
    obtain ⟨g, left⟩ := r
    rw [hread] at hleft hleft'
    cases left with
    | nil => exact absurd rfl hleft'
    | cons t left =>
      have ht := opening_of_read hread
      obtain ⟨u, after, hsplit, hafter⟩ := hleft.splitBlock ht
      obtain ⟨entries, -, hdeclarations⟩ := readDeclarations_segments finish left
      dsimp only
      rw [if_pos ht, hdeclarations, hsplit]
      exact hafter

/-- What stands behind a ruleset, and where the text ends, makes no difference to it. -/
theorem Sealed.readRuleset_append (h : Sealed ts) (hne : ts ≠ []) (finish finish' : Token)
    (more : List Token) : Styling.readRuleset finish' (ts ++ more) =
      ((Styling.readRuleset finish ts).1, (Styling.readRuleset finish ts).2 ++ more) := by
  obtain ⟨hleft, hleft'⟩ := h.left_read hne
  have hskip := (hleft.skipBlock hleft').2 more
  rw [← tokens_before, ← tokens_before] at hskip
  have hblock (g : SelectorGroup) (t : Token) (left : List Token)
      (hread : SelectorGroup.read ts = .ok (g, t :: left)) :
      (Move.before more).Carries finish finish' (Styling.splitBlock [] left).2 := by
    rw [hread] at hleft
    obtain ⟨u, after, hsplit, -⟩ := hleft.splitBlock (opening_of_read hread)
    rw [hsplit]
    exact nofun
  have hmove := Move.readRuleset_move (fun hnil => absurd hnil hleft') hskip hblock
  rwa [tokens_before, tokens_before, shift_before] at hmove

/-- The statements of a sheet that ends with a block are the same with another sheet behind it. -/
theorem readStatements_append (h : Sealed ts) (finish finish' : Token) (more : List Token) :
    readStatements finish' (ts ++ more) =
      readStatements finish ts ++ readStatements finish' more := by
  fun_induction readStatements finish ts with
  | case1 => rfl
  | case2 t ts hk ih =>
    rw [List.cons_append, readStatements, hk]
    exact ih (h.tail (by simp [hk])).1
  | case3 t ts hk ih =>
    rw [List.cons_append, readStatements, hk]
    exact ih (h.tail (by simp [hk])).1
  | case4 t ts hk ih =>
    rw [List.cons_append, readStatements, hk]
    exact ih (h.tail (by simp [hk])).1
  | case5 t ts name hk ih =>
    obtain ⟨htail, hne⟩ := h.tail (by simp [hk])
    obtain ⟨hrest, hskip⟩ := htail.skipAtRule hne
    rw [List.cons_append, readStatements, hk]
    dsimp only
    rw [hskip, ih hrest]
    rfl
  | case6 t ts first hblank hcdo hcdc hat ih =>
    have hne := List.cons_ne_nil t ts
    rw [List.cons_append, readStatements_ruleset finish' hblank hcdo hcdc hat, ← List.cons_append,
      h.readRuleset_append hne finish finish' more, ih (h.readRuleset hne finish)]
    rfl

end Joining

section Texts

theorem track_comment {k : Kind} (hk : k.isComment = true) (stack : OpenBrackets) :
    stack.track k = stack := by
  cases k with
  | comment text => cases stack <;> rfl
  | _ => cases hk

theorem filter_comments {holds : OpenBrackets → Kind → Prop}
    {all : OpenBrackets → List Kind → Prop}
    (hcons : ∀ stack k ks, all stack (k :: ks) ↔ holds stack k ∧ all (stack.track k) ks)
    {stack : OpenBrackets} {ks : List Kind} (h : all stack ks) :
    all stack (ks.filter (!·.isComment)) := by
  induction ks generalizing stack with
  | nil => exact h
  | cons k ks ih =>
    obtain ⟨hk, hks⟩ := (hcons stack k ks).mp h
    rw [List.filter_cons]
    split
    · exact (hcons stack k _).mpr ⟨hk, ih hks⟩
    next hcomment =>
      rw [track_comment (by simpa using hcomment)] at hks
      exact ih hks

theorem nested_filter {stack : OpenBrackets} {ks : List Kind} (h : Nested stack ks) :
    Nested stack (ks.filter (!·.isComment)) :=
  filter_comments (fun _ _ _ => Iff.rfl) h

/-- The text of a sheet that ends with a block and whose brackets are nested. -/
theorem sealed_significant {cs : List Char}
    (hlast : (kinds (tokens cs)).getLast? = some (.closing .curly))
    (hnested : Nested [] (kinds (tokens cs))) : Sealed (significant cs) := by
  refine ⟨[], by simp, Grammar.kinds_significant cs ▸ nested_filter hnested, fun t ht => ?_⟩
  obtain ⟨front, hfront⟩ := List.getLast?_eq_some_iff.mp hlast
  have hkind := congrArg List.getLast? (Grammar.kinds_significant cs)
  rw [hfront, List.filter_append, List.filter_cons_of_pos (by rfl), List.filter_nil,
    List.getLast?_concat, kinds, List.getLast?_map, Option.mem_def.mp ht] at hkind
  exact Option.some.inj hkind

theorem significant_join {cs : List Char}
    (h : (kinds (tokens cs)).getLast? = some (.closing .curly)) (w : List Char) :
    significant (cs ++ w) =
      significant cs ++ (significant w).map (Token.shift cs.length (cs.count '\n')) := by
  rw [significant, tokens_join h, List.filter_append, List.filter_map]
  rfl

theorem ruleset?_shift (n l : Nat) (s : Statement) : (s.shift n l).ruleset? = s.ruleset? := by
  cases s with
  | ruleset selectors entries =>
    have hentry : Entry.declaration? ∘ Entry.shift n l = Entry.declaration? := by
      funext e
      cases e <;> rfl
    simp only [Statement.shift, Statement.ruleset?, declarationsOf, List.filterMap_map, hentry]
  | atRule name => rfl
  | malformed f => rfl

theorem faults_shift (n l : Nat) (s : Statement) :
    (s.shift n l).faults = s.faults.map (Fault.shift n l) := by
  cases s with
  | ruleset selectors entries =>
    have hentry : Entry.fault? ∘ Entry.shift n l = fun e => e.fault?.map (Fault.shift n l) := by
      funext e
      cases e <;> rfl
    simp only [Statement.shift, Statement.faults, faultsOf, List.filterMap_map, hentry,
      List.map_filterMap]
  | atRule name => rfl
  | malformed f => rfl

namespace ParsedSheet

/-- A sheet behind another one that ends with a block and whose brackets are nested: the
statements of both are those of each, however malformed, and only places in the text move. -/
theorem statements_ofText_append {a b : String}
    (hlast : (kinds (tokens a.toList)).getLast? = some (.closing .curly))
    (hnested : Nested [] (kinds (tokens a.toList))) :
    (ofText (a ++ b)).statements = (ofText a).statements ++
      (ofText b).statements.map (Statement.shift a.length (a.toList.count '\n')) := by
  let m : Move := ⟨a.length, a.toList.count '\n', []⟩
  have htokens : significant (a ++ b).toList =
      significant a.toList ++ m.tokens (significant b.toList) := by
    rw [String.toList_append, significant_join hlast]
    exact congrArg _ (List.append_nil _).symm
  have hend : endToken (a ++ b).toList = m.token (endToken b.toList) := by
    rw [String.toList_append, endToken_join]
    rfl
  unfold ofText
  dsimp only
  rw [htokens, hend, readStatements_append (sealed_significant hlast hnested) (endToken a.toList),
    readStatements_shift rfl]

/-- Rulesets and faults of two sheets, one behind the other. -/
theorem ofText_append {a b : String}
    (hlast : (kinds (tokens a.toList)).getLast? = some (.closing .curly))
    (hnested : Nested [] (kinds (tokens a.toList))) :
    (ofText (a ++ b)).stylesheet.rulesets =
        (ofText a).stylesheet.rulesets ++ (ofText b).stylesheet.rulesets ∧
      (ofText (a ++ b)).faults = (ofText a).faults ++
        (ofText b).faults.map (Fault.shift a.length (a.toList.count '\n')) := by
  have hstatements := statements_ofText_append (b := b) hlast hnested
  constructor
  · have hrulesets : Statement.ruleset? ∘ Statement.shift a.length (a.toList.count '\n') =
        Statement.ruleset? := funext (ruleset?_shift _ _)
    simp only [stylesheet, hstatements, List.filterMap_append, List.filterMap_map, hrulesets]
  · simp only [faults, hstatements, List.flatMap_append, List.flatMap_map, faults_shift,
      List.map_flatMap]

/-- The first block belongs to a malformed ruleset, which leaves its round bracket open. -/
theorem ofText_append_malformed :
    (kinds (tokens "a(\n{} b{c:d} ) {e}".toList)).getLast? = some (.closing .curly) ∧
      Nested [] (kinds (tokens "a(\n{} b{c:d} ) {e}".toList)) ∧
      (ofText ("a(\n{} b{c:d} ) {e}" ++ "x{y:z; w}")).stylesheet.rulesets =
        (ofText "a(\n{} b{c:d} ) {e}").stylesheet.rulesets ++
          (ofText "x{y:z; w}").stylesheet.rulesets ∧
      (ofText ("a(\n{} b{c:d} ) {e}" ++ "x{y:z; w}")).faults =
        (ofText "a(\n{} b{c:d} ) {e}").faults ++
          (ofText "x{y:z; w}").faults.map (Fault.shift 18 1) := by
  have hkinds : kinds (tokens "a(\n{} b{c:d} ) {e}".toList) =
      [.function "a", .blank, .opening .curly, .closing .curly, .blank, .ident "b",
        .opening .curly, .ident "c", .colon, .ident "d", .closing .curly, .blank,
        .closing .round, .blank, .opening .curly, .ident "e", .closing .curly] := by
    decide +kernel
  have hlast : (kinds (tokens "a(\n{} b{c:d} ) {e}".toList)).getLast? = some (.closing .curly) := by
    rw [hkinds]
    rfl
  have hnested : Nested [] (kinds (tokens "a(\n{} b{c:d} ) {e}".toList)) := by
    rw [hkinds]
    simp [Nested, OpenBrackets.track, OpenBrackets.push, Kind.opens?]
  exact ⟨hlast, hnested, ofText_append hlast hnested⟩

end ParsedSheet
end Texts

end Styling
