import Styling.Proofs.Sheet.Formed
import Styling.Proofs.Sheet.Terms

/-! # Declarations in normal form

Every declaration that is read is in normal form, whatever is malformed around it and also where
the text ends inside its brackets: it has a property and a value, the tokens of the value are kept
without comments and with single blanks between them, none of them could have ended the value, and
an annotation of importance is not among them unless another one has been taken off.
-/
namespace Styling
open Grammar (kinds Blanks)

/-- Semicolons and closing curly brackets stand only where a bracket is open. -/
def Enclosed : OpenBrackets → List Kind → Prop
  | _, [] => True
  | stack, k :: ks =>
    (stack = [] → k ≠ .semicolon ∧ k ≠ .closing .curly) ∧ Enclosed (stack.track k) ks

/-- The form of the declarations that are read. -/
structure Declaration.Normal (d : Declaration) : Prop where
  property : d.property ≠ ""
  nonempty : d.terms ≠ []
  kept : ∀ k ∈ d.terms, k.isComment = false ∧ k ≠ .eof ∧ k ≠ .badString
  first : ∀ k ∈ d.terms.head?, k ≠ .blank
  last : ∀ k ∈ d.terms.getLast?, k ≠ .blank
  apart : d.terms.IsChain fun k next => k = .blank → next ≠ .blank
  enclosed : Enclosed [] d.terms
  plain : d.important = false → ¬ Annotated d.terms

section Brackets
variable {stack : OpenBrackets} {k : Kind} {ks ls : List Kind}

theorem enclosed_blank : Enclosed stack (.blank :: ks) ↔ Enclosed stack ks := by
  obtain ⟨-, -, htrack⟩ := inert_blank.passes stack
  simp [Enclosed, htrack]

theorem enclosed_collapseBlanks (after : Bool) (ks : List Kind) :
    Enclosed stack (collapseBlanks after ks) ↔ Enclosed stack ks := by
  induction ks generalizing after stack with
  | nil => rfl
  | cons k ks ih =>
    cases hk : k.isBlank with
    | true =>
      obtain rfl := eq_blank_of_isBlank hk
      rw [enclosed_blank]
      cases after with
      | true => exact ih true
      | false => exact enclosed_blank.trans (ih true)
    | false =>
      rw [collapseBlanks_cons hk]
      simp [Enclosed, ih]

theorem Enclosed.front (h : Enclosed stack ks) (hls : ls <+: ks) : Enclosed stack ls := by
  induction ks generalizing stack ls with
  | nil =>
    rw [List.prefix_nil.mp hls]
    trivial
  | cons k ks ih =>
    cases ls with
    | nil => trivial
    | cons l ls =>
      obtain ⟨rfl, hrest⟩ := List.cons_prefix_cons.mp hls
      exact ⟨h.1, ih h.2 hrest⟩

/-- What would end a segment is not split off with it. -/
theorem enclosed_splitSegment (stack : OpenBrackets) (ts : List Token) :
    Enclosed stack (kinds (splitSegment true stack ts).1) := by
  induction ts generalizing stack with
  | nil => trivial
  | cons t ts ih =>
    unfold splitSegment
    split
    · trivial
    next hcuts =>
      split
      · trivial
      next hends =>
        refine ⟨?_, ih (stack.track t.kind)⟩
        rintro rfl
        constructor
        · intro ht
          exact hcuts (by simp [cutsSegment, ht])
        · intro ht
          exact hends (by simp [endsSegment, ht])

end Brackets

section Values

theorem enclosed_valueTerms {value : List Token} (h : Enclosed [] (kinds value)) :
    Enclosed [] (valueTerms value).1 :=
  ((enclosed_collapseBlanks true (kinds value)).mpr h).front (prefix_valueTerms value)

theorem head?_valueTerms (value : List Token) : ∀ k ∈ (valueTerms value).1.head?, k ≠ .blank := by
  have hcollapsed := collapsed_valueTerms value
  intro k hk
  cases hterms : (valueTerms value).1 with
  | nil =>
    rw [hterms] at hk
    cases hk
  | cons l ls =>
    rw [hterms] at hk hcollapsed
    obtain rfl := Option.some.inj hk
    rintro rfl
    exact collapseBlanks_true_ne ls hcollapsed

/-- A value that is not important is not annotated. -/
theorem not_annotated_valueTerms (value : List Token) (h : (valueTerms value).2 = false) :
    ¬ Annotated (valueTerms value).1 := by
  rintro ⟨front, blanks, name, hterms, hblanks, hname⟩
  have hplain := splitImportant_valueTerms value h
  rw [hterms, splitImportant_annotated hblanks hname] at hplain
  injection hplain with _ himportant
  cases himportant

end Values

section Reading
variable {finish start : Token} {curly : Bool} {ts rest : List Token} {d : Declaration}

theorem normal_readDeclaration (hts : Significant (start :: ts))
    (hlexical : ∀ t ∈ start :: ts, t.kind.Lexical)
    (h : readDeclaration finish curly start ts = (.declared d, rest)) : d.Normal := by
  obtain ⟨colon, after, hstart, hskip, -, -, hbad, hvalue, hne⟩ := readDeclaration_declared h
  have hmem : ∀ k ∈ d.terms, ∃ t ∈ (splitSegment true [] after).1, t.kind = k := by
    intro k hk
    have hfront := prefix_valueTerms (splitSegment true [] after).1
    rw [hvalue] at hfront
    exact List.mem_map.mp ((collapseBlanks_sublist true _).subset (hfront.subset hk))
  have hafter : after <:+ start :: ts :=
    ((List.suffix_cons colon after).trans (hskip ▸ skipBlanks_suffix ts)).trans
      (List.suffix_cons _ _)
  have hcollapsed := collapsed_valueTerms (splitSegment true [] after).1
  have hfirst := head?_valueTerms (splitSegment true [] after).1
  have hlast := getLast?_valueTerms (splitSegment true [] after).1
  have henclosed := enclosed_valueTerms (enclosed_splitSegment [] after)
  have hplain := not_annotated_valueTerms (splitSegment true [] after).1
  rw [hvalue] at hcollapsed hfirst hlast henclosed hplain
  constructor
  · have hname := hlexical start List.mem_cons_self
    rw [hstart] at hname
    exact hname
  · exact hne
  · intro k hk
    obtain ⟨t, ht, rfl⟩ := hmem k hk
    have htext : t ∈ start :: ts :=
      hafter.subset ((prefix_splitSegment true [] after).subset ht)
    refine ⟨hts t htext, ?_, hbad t ht⟩
    intro heof
    have hl := hlexical t htext
    rw [heof] at hl
    exact hl
  · exact hfirst
  · exact hlast
  · exact isChain_of_collapseBlanks hcollapsed
  · exact henclosed
  · exact hplain

theorem exists_readDeclaration_of_mem (h : .declared d ∈ (readDeclarations finish curly ts).1) :
    ∃ start us rest, start :: us <:+ ts ∧
      readDeclaration finish curly start us = (.declared d, rest) := by
  fun_induction readDeclarations finish curly ts with
  | case1 =>
    cases curly <;> simp at h
  | case2 t ts _ ih =>
    obtain ⟨start, us, rest, hus, hread⟩ := ih h
    exact ⟨start, us, rest, hus.trans (List.suffix_cons _ _), hread⟩
  | case3 => cases h
  | case4 t ts _ _ first others ih =>
    rcases List.mem_cons.mp h with h | h
    · refine ⟨t, ts, first.2, List.suffix_refl _, ?_⟩
      rw [h]
    · obtain ⟨start, us, rest, hus, hread⟩ := ih h
      have hfirst : first.2 <:+ t :: ts :=
        (readDeclaration_suffix finish curly t ts).trans (List.suffix_cons _ _)
      exact ⟨start, us, rest, hus.trans hfirst, hread⟩

theorem normal_readDeclarations (hts : Significant ts) (hlexical : ∀ t ∈ ts, t.kind.Lexical)
    (h : d ∈ declarationsOf (readDeclarations finish curly ts).1) : d.Normal := by
  obtain ⟨entry, hentry, hd⟩ := List.mem_filterMap.mp h
  cases entry with
  | malformed f => cases hd
  | declared d' =>
    obtain rfl := Option.some.inj hd
    obtain ⟨start, us, rest, hus, hread⟩ := exists_readDeclaration_of_mem hentry
    exact normal_readDeclaration (hts.suffix hus) (fun t ht => hlexical t (hus.subset ht)) hread

end Reading

/-- The declarations of a list and of the rulesets of a sheet are in normal form. -/
theorem normal_of_declared {text : String} {d : Declaration}
    (h : d ∈ declarationsOf (parseDeclarations text) ∨
      ∃ r ∈ (ParsedSheet.ofText text).stylesheet.rulesets, d ∈ r.declarations) : d.Normal := by
  have hts := significant_significant text.toList
  rcases h with h | ⟨r, hr, h⟩
  · exact normal_readDeclarations hts (fun t ht => lexical_of_mem_significant ht) h
  · obtain ⟨s, hs, hruleset⟩ := List.mem_filterMap.mp hr
    obtain ⟨g, entries, rfl, rfl⟩ := ruleset?_eq_some hruleset
    obtain ⟨us, rest, hus, hread⟩ := exists_readRuleset_of_mem hs
    obtain ⟨used, brace, after, rfl, -, -, hbody⟩ := readRuleset_ruleset hread
    have hafter : after <:+ significant text.toList :=
      ((List.suffix_cons brace after).trans (List.suffix_append used _)).trans hus
    have hentries : entries = (readDeclarations (endToken text.toList) true after).1 := by
      rw [hbody]
    rw [hentries] at h
    exact normal_readDeclarations (hts.suffix hafter)
      (fun t ht => lexical_of_mem_significant (hafter.subset ht)) h

/-- The bracket behind `f` is never closed, so that the value goes on to the end of the text. -/
theorem normal_of_declared_unclosed :
    ⟨"a", [.function "f", .blank, .semicolon, .blank, .closing .curly], true⟩ ∈
        declarationsOf (parseDeclarations "1; a: f( ; \x7d /**/ ! Important") ∧
      Declaration.Normal
        ⟨"a", [.function "f", .blank, .semicolon, .blank, .closing .curly], true⟩ := by
  have hmem : ⟨"a", [.function "f", .blank, .semicolon, .blank, .closing .curly], true⟩ ∈
      declarationsOf (parseDeclarations "1; a: f( ; \x7d /**/ ! Important") := by decide +kernel
  exact ⟨hmem, normal_of_declared (.inl hmem)⟩

end Styling
