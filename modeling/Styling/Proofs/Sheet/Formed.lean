import Styling.Proofs.Sheet.Value

/-! # Sheets as they are read

What holds of the declarations and rulesets that a text without faults is read as: selectors
stand for tokens, and values are settled, not empty and free of broken strings.
-/
namespace Styling
open Grammar (kinds)

/-- A declaration as it is read from a block that is closed. -/
structure Declaration.Formed (d : Declaration) : Prop where
  nonempty : d.terms ≠ []
  meaningful : ∀ k ∈ d.terms, k.Meaningful
  settled : Settled d.terms
  plain : d.important = false → splitImportant d.terms = (d.terms, false)

structure Ruleset.Formed (r : Ruleset) : Prop where
  selectors : ∃ ks, Grammar.Group ks r.selectors
  declarations : ∀ d ∈ r.declarations, d.Formed

theorem Condition.meaningful_kinds (c : Condition) : ∀ k ∈ c.kinds, k.Meaningful := by
  cases c <;> simp [kinds, testKinds, idKind, Kind.Meaningful, Kind.isComment]

theorem Selector.meaningful_kinds (s : Selector) : ∀ k ∈ s.kinds, k.Meaningful := by
  induction s with
  | simple c => exact c.meaningful_kinds
  | combined c left right ihleft ihright =>
    have hcombinator : ∀ k ∈ c.kinds, k.Meaningful := by
      cases c <;> simp [Combinator.kinds, Kind.Meaningful, Kind.isComment]
    rw [kinds, List.forall_mem_append, List.forall_mem_append]
    exact ⟨⟨ihleft, hcombinator⟩, ihright⟩

theorem SelectorGroup.meaningful_kinds (g : SelectorGroup) :
    ∀ k ∈ SelectorGroup.kinds g, k.Meaningful := by
  have hcomma : ∀ k ∈ [Kind.comma, .blank], k.Meaningful := by
    simp [Kind.Meaningful, Kind.isComment]
  induction g with
  | nil => simp [kinds]
  | cons s g ih =>
    cases g with
    | nil => simpa [kinds] using s.meaningful_kinds
    | cons s' g =>
      have hkinds : kinds (s :: s' :: g) = s.kinds ++ [.comma, .blank] ++ kinds (s' :: g) :=
        List.intercalate_cons_cons
      rw [hkinds, List.forall_mem_append, List.forall_mem_append]
      exact ⟨⟨s.meaningful_kinds, hcomma⟩, ih⟩

theorem Declaration.Formed.meaningful_kinds {d : Declaration} (hd : d.Formed) :
    ∀ k ∈ d.kinds, k.Meaningful := by
  rw [Declaration.kinds, List.forall_mem_append, List.forall_mem_append]
  refine ⟨⟨?_, hd.meaningful⟩, ?_⟩
  · simp [Kind.Meaningful, Kind.isComment]
  · cases d.important <;> simp [importantKinds, Kind.Meaningful, Kind.isComment]

theorem Ruleset.Formed.meaningful_kinds {r : Ruleset} (hr : r.Formed) :
    ∀ k ∈ r.kinds, k.Meaningful := by
  rw [Ruleset.kinds, List.forall_mem_append, List.forall_mem_append, List.forall_mem_append,
    List.forall_mem_flatMap]
  refine ⟨⟨⟨SelectorGroup.meaningful_kinds _, ?_⟩, fun d hd => ?_⟩, ?_⟩
  · simp [Kind.Meaningful, Kind.isComment]
  · rw [List.forall_mem_append]
    refine ⟨(hr.declarations d hd).meaningful_kinds, ?_⟩
    simp [Kind.Meaningful, Kind.isComment]
  · simp [Kind.Meaningful, Kind.isComment]

theorem Stylesheet.meaningful_kinds {s : Stylesheet} (hs : ∀ r ∈ s.rulesets, r.Formed) :
    ∀ k ∈ s.kinds, k.Meaningful := by
  rw [kinds, List.forall_mem_flatMap]
  intro r hr
  rw [List.forall_mem_append]
  refine ⟨(hs r hr).meaningful_kinds, ?_⟩
  simp [Kind.Meaningful, Kind.isComment]

def Significant (ts : List Token) : Prop := ∀ t ∈ ts, t.kind.isComment = false

theorem Significant.suffix {ts rest : List Token} (h : Significant ts) (hrest : rest <:+ ts) :
    Significant rest := fun t ht => h t (hrest.subset ht)

theorem significant_significant (cs : List Char) : Significant (significant cs) := by
  intro t ht
  obtain ⟨-, hcomment⟩ := List.mem_filter.mp ht
  simpa using hcomment

theorem lexical_of_mem_significant {cs : List Char} {t : Token} (h : t ∈ significant cs) :
    t.kind.Lexical := lexical_of_mem_tokens (List.mem_filter.mp h).1

variable {finish : Token} {ts rest : List Token}

/-- How a declaration comes about. -/
theorem readDeclaration_declared {curly : Bool} {start : Token} {d : Declaration}
    (h : readDeclaration finish curly start ts = (.declared d, rest)) :
    ∃ t after, start.kind = .ident d.property ∧ skipBlanks ts = t :: after ∧ t.kind = .colon ∧
      rest = (splitSegment true [] after).2 ∧
      (∀ u ∈ (splitSegment true [] after).1, u.kind ≠ .badString) ∧
      valueTerms (splitSegment true [] after).1 = (d.terms, d.important) ∧ d.terms ≠ [] := by
  unfold readDeclaration at h
  split at h
  next property hstart =>
    split at h
    · cases h
    next t after hskip =>
      split at h
      next hcolon =>
        injection h with hentry hrest
        unfold readValueOf at hentry
        split at hentry
        · cases hentry
        next hfind =>
          split at hentry
          next terms important hvalue =>
            split at hentry
            · cases hentry
            next hne =>
              injection hentry with hd
              subst hd
              refine ⟨t, after, hstart, hskip, hcolon, hrest.symm, ?_, hvalue, by simpa using hne⟩
              intro u hu
              simpa using List.find?_eq_none.mp hfind u hu
      · cases h
  · cases h

theorem prefix_splitSegment (curly : Bool) (stack : OpenBrackets) (ts : List Token) :
    (splitSegment curly stack ts).1 <+: ts := by
  induction ts generalizing stack with
  | nil => exact List.prefix_refl _
  | cons t ts ih =>
    unfold splitSegment
    split
    · exact List.nil_prefix
    split
    · exact List.nil_prefix
    · exact List.cons_prefix_cons.mpr ⟨rfl, ih _⟩

theorem formed_readDeclaration {curly : Bool} {start : Token} {d : Declaration}
    (hts : Significant (start :: ts)) (h : readDeclaration finish curly start ts = (.declared d, rest)) :
    d.Formed ∨ rest = [] := by
  obtain ⟨t, after, -, hskip, -, hrest, hbad, hvalue, hne⟩ := readDeclaration_declared h
  rcases closed_splitSegment [] after with hclosed | hend
  · have hsettled := settled_valueTerms hclosed
    have hplain := splitImportant_valueTerms (splitSegment true [] after).1
    have hfront := prefix_valueTerms (splitSegment true [] after).1
    rw [hvalue] at hsettled hfront hplain
    have hafter : after <:+ start :: ts :=
      ((List.suffix_cons t after).trans (hskip ▸ skipBlanks_suffix ts)).trans (List.suffix_cons _ _)
    refine .inl ⟨hne, fun k hk => ?_, hsettled, hplain⟩
    have hmem := (collapseBlanks_sublist true _).subset (hfront.subset hk)
    obtain ⟨u, hu, rfl⟩ := List.mem_map.mp hmem
    exact ⟨hts u (hafter.subset ((prefix_splitSegment true [] after).subset hu)), hbad u hu⟩
  · exact .inr (hrest.trans hend)

theorem faultsOf_cons {e : Entry} {es : List Entry} (h : faultsOf (e :: es) = []) :
    (∃ d, e = .declared d) ∧ faultsOf es = [] := by
  cases e with
  | declared d => exact ⟨⟨d, rfl⟩, h⟩
  | malformed f => cases h

/-- The declarations of a block without faults. -/
theorem formed_readDeclarations (hts : Significant ts)
    (hf : faultsOf (readDeclarations finish true ts).1 = []) :
    ∀ d ∈ declarationsOf (readDeclarations finish true ts).1, d.Formed := by
  fun_induction readDeclarations finish true ts with
  | case1 => cases hf
  | case2 t ts _ ih => exact ih (hts.suffix (List.suffix_cons _ _)) hf
  | case3 => simp [declarationsOf]
  | case4 t ts _ _ first rest ih =>
    obtain ⟨⟨d, hd⟩, hrest⟩ := faultsOf_cons hf
    have hsuffix : first.2 <:+ t :: ts :=
      (readDeclaration_suffix finish true t ts).trans (List.suffix_cons _ _)
    have hread : readDeclaration finish true t ts = (.declared d, first.2) := by rw [← hd]
    intro d' hd'
    have hd' : d' = d ∨ d' ∈ declarationsOf rest.1 := by
      simpa [declarationsOf, hd, Entry.declaration?] using hd'
    rcases hd' with rfl | hd'
    · rcases formed_readDeclaration hts hread with hformed | hnil
      · exact hformed
      · rw [show rest = readDeclarations finish true first.2 from rfl, hnil, readDeclarations] at hrest
        cases hrest
    · exact ih (hts.suffix hsuffix) hrest d' hd'

theorem group_of_read {g : SelectorGroup} (h : SelectorGroup.read ts = .ok (g, rest)) :
    ∃ used, ts = used ++ rest ∧ Grammar.Group (kinds used) g := by
  have hfollows := Grammar.follows_group [] ts
  rw [h] at hfollows
  obtain ⟨used, q, hts, hrun, hgroup, -⟩ := hfollows
  exact ⟨used, hts, Grammar.group_iff.mpr ⟨q, hrun, hgroup⟩⟩

/-- How a ruleset comes about. -/
theorem readRuleset_ruleset {g : SelectorGroup} {entries : List Entry}
    (h : readRuleset finish ts = (.ruleset g entries, rest)) :
    ∃ used t after, ts = used ++ t :: after ∧ Grammar.Group (kinds used) g ∧
      t.kind = .opening .curly ∧ readDeclarations finish true after = (entries, rest) := by
  unfold readRuleset at h
  split at h
  · cases h
  next selectors t after hread =>
    split at h
    next ht =>
      obtain ⟨used, hts, hgroup⟩ := group_of_read hread
      cases h
      exact ⟨used, t, after, hts, hgroup, ht, rfl⟩
    · cases h
  · cases h

theorem readRuleset_suffix (finish : Token) (ts : List Token) :
    (readRuleset finish ts).2 <:+ ts := by
  have hwithin := SelectorGroup.read_within ts
  unfold readRuleset
  split
  next e hread =>
    rw [hread] at hwithin
    exact (skipBlock_suffix 0 e.rest).trans hwithin
  next selectors t rest hread =>
    rw [hread] at hwithin
    split
    · exact ((readDeclarations_suffix finish true rest).trans (List.suffix_cons t rest)).trans hwithin
    · exact (skipBlock_suffix 0 (t :: rest)).trans hwithin
  · exact List.nil_suffix

theorem readRuleset_cases (finish : Token) (ts : List Token) :
    (∃ g entries, (readRuleset finish ts).1 = .ruleset g entries) ∨
      ∃ f, (readRuleset finish ts).1 = .malformed f := by
  unfold readRuleset
  split
  · exact .inr ⟨_, rfl⟩
  · split
    · exact .inl ⟨_, _, rfl⟩
    · exact .inr ⟨_, rfl⟩
  · exact .inr ⟨_, rfl⟩

theorem formed_readRuleset {g : SelectorGroup} {entries : List Entry} (hts : Significant ts)
    (h : readRuleset finish ts = (.ruleset g entries, rest)) (hf : faultsOf entries = []) :
    (⟨g, declarationsOf entries⟩ : Ruleset).Formed := by
  obtain ⟨used, t, after, rfl, hgroup, -, hbody⟩ := readRuleset_ruleset h
  constructor
  · exact ⟨kinds used, hgroup⟩
  · have hafter : Significant after :=
      hts.suffix ((List.suffix_cons t after).trans (List.suffix_append used _))
    have hdeclarations : faultsOf (readDeclarations finish true after).1 = [] →
        ∀ d ∈ declarationsOf (readDeclarations finish true after).1, d.Formed :=
      formed_readDeclarations hafter
    rw [hbody] at hdeclarations
    exact hdeclarations hf

theorem exists_readRuleset_of_mem {g : SelectorGroup} {entries : List Entry}
    (h : .ruleset g entries ∈ readStatements finish ts) :
    ∃ us rest, us <:+ ts ∧ readRuleset finish us = (.ruleset g entries, rest) := by
  have mono {us vs : List Token} (hvs : us <:+ vs) :
      (∃ ws rest, ws <:+ us ∧ readRuleset finish ws = (.ruleset g entries, rest)) →
      ∃ ws rest, ws <:+ vs ∧ readRuleset finish ws = (.ruleset g entries, rest) := by
    rintro ⟨ws, rest, hws, hread⟩
    exact ⟨ws, rest, hws.trans hvs, hread⟩
  fun_induction readStatements finish ts with
  | case1 => cases h
  | case2 t ts _ ih => exact mono (List.suffix_cons _ _) (ih h)
  | case3 t ts _ ih => exact mono (List.suffix_cons _ _) (ih h)
  | case4 t ts _ ih => exact mono (List.suffix_cons _ _) (ih h)
  | case5 t ts name _ ih =>
    rcases List.mem_cons.mp h with h | h
    · cases h
    · exact mono ((skipAtRule_suffix ts).trans (List.suffix_cons _ _)) (ih h)
  | case6 t ts first _ _ _ _ ih =>
    rcases List.mem_cons.mp h with h | h
    · refine ⟨t :: ts, first.2, List.suffix_refl _, ?_⟩
      rw [h]
    · exact mono (readRuleset_suffix finish (t :: ts)) (ih h)

theorem ruleset?_eq_some {s : Statement} {r : Ruleset} (h : s.ruleset? = some r) :
    ∃ g entries, s = .ruleset g entries ∧ r = ⟨g, declarationsOf entries⟩ := by
  cases s with
  | ruleset g entries => exact ⟨g, entries, rfl, (Option.some.inj h).symm⟩
  | _ => cases h

/-- The rulesets of a sheet have groups of the grammar, also where something else is malformed. -/
theorem group_of_mem_readStatements (finish : Token) (ts : List Token) :
    ∀ r ∈ (readStatements finish ts).filterMap Statement.ruleset?,
      ∃ ks, Grammar.Group ks r.selectors := by
  intro r hr
  obtain ⟨s, hs, hruleset⟩ := List.mem_filterMap.mp hr
  obtain ⟨g, entries, rfl, rfl⟩ := ruleset?_eq_some hruleset
  obtain ⟨us, rest, -, hread⟩ := exists_readRuleset_of_mem hs
  obtain ⟨used, -, -, -, hgroup, -, -⟩ := readRuleset_ruleset hread
  exact ⟨_, hgroup⟩

theorem formed_readStatements (hts : Significant ts)
    (hf : (readStatements finish ts).flatMap Statement.faults = []) :
    ∀ r ∈ (readStatements finish ts).filterMap Statement.ruleset?, r.Formed := by
  intro r hr
  obtain ⟨s, hs, hruleset⟩ := List.mem_filterMap.mp hr
  obtain ⟨g, entries, rfl, rfl⟩ := ruleset?_eq_some hruleset
  obtain ⟨us, rest, hus, hread⟩ := exists_readRuleset_of_mem hs
  exact formed_readRuleset (hts.suffix hus) hread (List.flatMap_eq_nil_iff.mp hf _ hs)

end Styling
