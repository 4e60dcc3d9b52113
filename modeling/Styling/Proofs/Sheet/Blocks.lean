import Styling.Proofs.Sheet.Formed

/-! # The texts of blocks are read as their tokens

A declaration is faithful if every token of its value is readable and no two of them clash. A
sheet whose names are legible and whose declarations are faithful is read as the tokens that it
is written as, and so is any sheet up to the first value that is not faithful.
-/
namespace Styling
open Lexer
open Kind (scanned)

/-- A declaration whose text is read as its tokens. -/
structure Declaration.Faithful (d : Declaration) : Prop where
  readable : ∀ k ∈ d.kinds, k.Readable
  apart : d.terms.IsChain fun k next => k.clashes next = false

structure Ruleset.Faithful (r : Ruleset) : Prop where
  legible : ∀ k ∈ SelectorGroup.kinds r.selectors, k.Legible
  declarations : ∀ d ∈ r.declarations, d.Faithful

def Stylesheet.Faithful (s : Stylesheet) : Prop := ∀ r ∈ s.rulesets, r.Faithful

variable {w : List Char}

theorem scanned_blanks {c : Char} {cs : List Char} (hc : isBlank c = true)
    (hcs : ∀ d ∈ cs, isBlank d = true) (hw : ∀ d ∈ w.head?, isBlank d = false) :
    scanned (c :: (cs ++ w)) = .blank :: scanned w := by
  rw [Kind.scanned_of_reads (reads_blank hc hcs hw), if_neg (by simp)]

theorem scanned_space (hw : ∀ d ∈ w.head?, isBlank d = false) :
    scanned (' ' :: w) = .blank :: scanned w := by
  have hblanks : ∀ d ∈ ([] : List Char), isBlank d = true := by simp
  exact scanned_blanks rfl hblanks hw

theorem scanned_colon (w : List Char) : scanned (':' :: w) = .colon :: scanned w := by
  have hcolon : Kind.Lexical .colon ∧ Kind.Readable .colon := ⟨trivial, trivial, trivial⟩
  exact Kind.scanned_chars hcolon.1 hcolon.2 trivial

theorem scanned_semicolon (w : List Char) : scanned (';' :: w) = .semicolon :: scanned w := by
  have hsemicolon : Kind.Lexical .semicolon ∧ Kind.Readable .semicolon := ⟨trivial, trivial, trivial⟩
  exact Kind.scanned_chars hsemicolon.1 hsemicolon.2 trivial

section Declarations
variable {d : Declaration}

theorem Declaration.Formed.head_ne (hd : d.Formed) :
    ∃ k ks, d.terms = k :: ks ∧ k ≠ .blank := by
  have hcollapsed := hd.settled.collapsed
  cases hterms : d.terms with
  | nil => exact absurd hterms hd.nonempty
  | cons k ks =>
    refine ⟨k, ks, rfl, ?_⟩
    rintro rfl
    rw [hterms] at hcollapsed
    exact collapseBlanks_true_ne ks hcollapsed

theorem scanned_property (hd : d.Formed) (hl : ∀ k ∈ d.kinds, k.Lexical)
    (hg : ∀ k ∈ d.kinds, k.Legible) (w : List Char) : scanned (d.chars ++ w) =
      .ident d.property :: .colon :: .blank :: scanned (Kind.listChars d.terms ++
        (Kind.listChars (Declaration.importantKinds d.important) ++ w)) := by
  obtain ⟨k, ks, hterms, hk⟩ := hd.head_ne
  have hmem : k ∈ d.kinds := by simp [Declaration.kinds, hterms]
  have hproperty : Kind.ident d.property ∈ d.kinds := by simp [Declaration.kinds]
  have hname : (Kind.ident d.property).Readable := ⟨hg _ hproperty, trivial⟩
  generalize ht : Kind.listChars (Declaration.importantKinds d.important) ++ w = t
  have hhead : ∀ c ∈ (Kind.listChars d.terms ++ t).head?, isBlank c = false := by
    rw [hterms, Kind.listChars, List.append_assoc]
    exact Kind.not_isBlank_head?_chars hk (hl k hmem) (hg k hmem)
  have hchars : d.chars ++ w = (Kind.ident d.property).chars ++
      ':' :: ' ' :: (Kind.listChars d.terms ++ t) := by
    rw [← ht, Declaration.listChars_importantKinds, Declaration.chars]
    simp only [List.append_assoc]
    rfl
  have hafter : AfterCondition (':' :: ' ' :: (Kind.listChars d.terms ++ t)) :=
    afterCondition_cons (by decide) _
  rw [hchars, Kind.scanned_chars (hl _ hproperty) hname (hafter.clear_ident _), scanned_colon,
    scanned_space hhead]

section Importance
variable {k : Kind} (hl : k.Lexical) (hg : k.Legible) (w : List Char)
include hl hg

theorem clear_semicolon : k.Clear (';' :: w) := by
  have hseparator : k.needsSeparator .semicolon = false := by
    unfold Kind.needsSeparator
    split <;> rfl
  have hclash : k.clashes .semicolon = false := by
    cases k <;> rfl
  have hend : Kind.Clear .semicolon w := trivial
  have hclear : k.Clear (k.charsAfter .semicolon ++ w) :=
    Kind.clear_charsAfter hl hg trivial trivial hend hclash (by simp)
  rwa [Kind.charsAfter, hseparator] at hclear

theorem clear_space (hk : k ≠ .blank) (hw : ∀ c ∈ w.head?, isBlank c = false) :
    k.Clear (' ' :: w) := by
  have hseparator : k.needsSeparator .blank = false := by
    unfold Kind.needsSeparator
    split <;> rfl
  have hclash : k.clashes .blank = false := by
    cases k <;> rfl
  have hend : Kind.Clear .blank w := hw
  have hclear : k.Clear (k.charsAfter .blank ++ w) :=
    Kind.clear_charsAfter hl hg trivial trivial hend hclash fun h => absurd h hk
  rwa [Kind.charsAfter, hseparator] at hclear

end Importance

/-- What stands behind a value does not run into it. -/
theorem clear_importance {k : Kind} (hl : k.Lexical) (hg : k.Legible) (hk : k ≠ .blank)
    (important : Bool) (w : List Char) :
    k.Clear (Kind.listChars (Declaration.importantKinds important) ++ ';' :: w) := by
  cases important with
  | false => exact clear_semicolon hl hg w
  | true =>
    refine clear_space hl hg _ hk ?_
    rintro c ⟨⟩
    decide

theorem sound_importantKinds : ∀ k ∈ Declaration.importantKinds true, k.Lexical ∧ k.Readable := by
  intro k hk
  simp only [Declaration.importantKinds, if_true, List.mem_cons, List.not_mem_nil, or_false] at hk
  rcases hk with rfl | rfl | rfl
  · exact ⟨trivial, trivial, trivial⟩
  · refine ⟨?_, ?_, trivial⟩
    · constructor <;> decide
    · exact show '!' ≠ '\\' by decide
  · refine ⟨?_, ⟨?_, ?_⟩, trivial⟩
    · exact show "important" ≠ "" by decide
    · decide
    · decide

theorem scanned_importance (important : Bool) (w : List Char) :
    scanned (Kind.listChars (Declaration.importantKinds important) ++ ';' :: w) =
      Declaration.importantKinds important ++ .semicolon :: scanned w := by
  cases important with
  | false => exact scanned_semicolon w
  | true =>
    have hsound := sound_importantKinds
    rw [← scanned_semicolon]
    refine Kind.scanned_listChars (fun k hk => (hsound k hk).1) (fun k hk => (hsound k hk).2) ?_ ?_
    · simp [Declaration.importantKinds, Kind.Apart, Kind.clashes]
    · intro k hk
      obtain ⟨hl, hr⟩ := hsound k (List.mem_of_getLast? hk)
      exact clear_semicolon hl hr.1 w

theorem scanned_declaration (hd : d.Formed) (hl : ∀ k ∈ d.kinds, k.Lexical) (hf : d.Faithful)
    (w : List Char) : scanned (d.chars ++ ';' :: w) = d.kinds ++ .semicolon :: scanned w := by
  have hterms : ∀ k ∈ d.terms, k ∈ d.kinds := fun k hk => by simp [Declaration.kinds, hk]
  have hapart : d.terms.IsChain Kind.Apart :=
    Kind.isChain_apart hf.apart (isChain_of_collapseBlanks hd.settled.collapsed)
  rw [scanned_property hd hl (fun k hk => (hf.readable k hk).1), Kind.scanned_listChars
    (fun k hk => hl k (hterms k hk)) (fun k hk => hf.readable k (hterms k hk)) hapart,
    scanned_importance]
  · simp only [Declaration.kinds, List.append_assoc, List.cons_append, List.nil_append]
  · intro k hk
    have hmem := hterms k (List.mem_of_getLast? hk)
    exact clear_importance (hl k hmem) (hf.readable k hmem).1 (hd.settled.trimmed k hk) _ _

/-- A declaration with legible tokens that is not faithful is misread in its value. -/
theorem misread_declaration (hd : d.Formed) (hl : ∀ k ∈ d.kinds, k.Lexical)
    (hg : ∀ k ∈ d.kinds, k.Legible) (hf : ¬ d.Faithful) (w : List Char) :
    Kind.Misread d.terms (Kind.listChars d.terms ++
      (Kind.listChars (Declaration.importantKinds d.important) ++ ';' :: w)) := by
  have hterms : ∀ k ∈ d.terms, k ∈ d.kinds := fun k hk => by simp [Declaration.kinds, hk]
  have hstar : (Kind.listChars (Declaration.importantKinds d.important) ++ ';' :: w).head? ≠
      some '*' := by
    cases d.important <;> exact fun h => by cases h
  rcases Kind.readable_or_misread (fun k hk => hl k (hterms k hk)) (fun k hk => hg k (hterms k hk))
    (isChain_of_collapseBlanks hd.settled.collapsed)
    (fun k hk h => absurd h (hd.settled.trimmed k hk)) hstar with
    ⟨hreadable, hapart⟩ | hmisread
  · refine absurd ⟨fun k hk => ?_, hapart⟩ hf
    simp only [Declaration.kinds, List.mem_append, List.mem_cons, List.not_mem_nil, or_false] at hk
    rcases hk with ((rfl | rfl | rfl) | hk) | hk
    · exact ⟨hg _ (by simp [Declaration.kinds]), trivial⟩
    · exact ⟨trivial, trivial⟩
    · exact ⟨trivial, trivial⟩
    · exact hreadable k hk
    · cases himportant : d.important with
      | false => simp [himportant, Declaration.importantKinds] at hk
      | true =>
        rw [himportant] at hk
        exact (sound_importantKinds k hk).2
  · exact hmisread

end Declarations
section Rulesets

theorem not_isBlank_head?_declaration {d : Declaration} (hl : ∀ k ∈ d.kinds, k.Lexical)
    (hg : ∀ k ∈ d.kinds, k.Legible) (w : List Char) :
    ∀ c ∈ (d.chars ++ w).head?, isBlank c = false := by
  have hproperty : Kind.ident d.property ∈ d.kinds := by simp [Declaration.kinds]
  rw [Declaration.chars]
  simp only [List.append_assoc]
  exact Kind.not_isBlank_head?_chars (by simp) (hl _ hproperty) (hg _ hproperty)

/-- Declarations that are faithful, and the blanks of the next line. -/
theorem scanned_declarations {ds : List Declaration} (hds : ∀ d ∈ ds, d.Formed)
    (hl : ∀ d ∈ ds, ∀ k ∈ d.kinds, k.Lexical) (hf : ∀ d ∈ ds, d.Faithful) {indent : List Char}
    (hindent : ∀ c ∈ indent, isBlank c = true) (hw : ∀ c ∈ w.head?, isBlank c = false) :
    scanned ('\n' :: (ds.flatMap (fun d => [' ', ' '] ++ d.chars ++ [';', '\n']) ++ (indent ++ w))) =
      .blank :: (ds.flatMap (fun d => d.kinds ++ [.semicolon, .blank]) ++ scanned w) := by
  induction ds with
  | nil => exact scanned_blanks rfl hindent hw
  | cons d ds ih =>
    rw [List.forall_mem_cons] at hds hl hf
    have hlegible : ∀ k ∈ d.kinds, k.Legible := fun k hk => (hf.1.readable k hk).1
    have hspaces : ∀ c ∈ [' ', ' '], isBlank c = true := by simp [isBlank]
    have hindented (t : List Char) : scanned ('\n' :: ' ' :: ' ' :: (d.chars ++ t)) =
        .blank :: scanned (d.chars ++ t) :=
      scanned_blanks rfl hspaces (not_isBlank_head?_declaration hl.1 hlegible t)
    have hline := scanned_declaration hds.1 hl.1 hf.1
    have hrest := ih hds.2 hl.2 hf.2
    simp only [List.flatMap_cons, List.append_assoc, List.cons_append, List.nil_append] at hrest ⊢
    rw [hindented, hline, hrest]

theorem Ruleset.mem_kinds_of_selectors {r : Ruleset} {k : Kind}
    (h : k ∈ SelectorGroup.kinds r.selectors) : k ∈ r.kinds := by
  simp [Ruleset.kinds, h]

theorem Ruleset.mem_kinds_of_declaration {r : Ruleset} {d : Declaration} {k : Kind}
    (hd : d ∈ r.declarations) (hk : k ∈ d.kinds) : k ∈ r.kinds := by
  have hmem : k ∈ r.declarations.flatMap fun d => d.kinds ++ [.semicolon, .blank] :=
    List.mem_flatMap.mpr ⟨d, hd, List.mem_append_left _ hk⟩
  rw [Ruleset.kinds]
  exact List.mem_append_left _ (List.mem_append_right _ hmem)

theorem Stylesheet.mem_kinds_of_ruleset {s : Stylesheet} {r : Ruleset} {k : Kind}
    (hr : r ∈ s.rulesets) (hk : k ∈ r.kinds) : k ∈ s.kinds :=
  List.mem_flatMap.mpr ⟨r, hr, List.mem_append_left _ hk⟩

theorem scanned_openKinds {r : Ruleset} (hr : r.Formed)
    (hl : ∀ k ∈ SelectorGroup.kinds r.selectors, k.Lexical)
    (hg : ∀ k ∈ SelectorGroup.kinds r.selectors, k.Legible) (w : List Char) :
    scanned (SelectorGroup.chars r.selectors ++ ' ' :: '\x7b' :: w) = r.openKinds ++ scanned w := by
  obtain ⟨ks, hgroup⟩ := hr.selectors
  have hafter : AfterCondition (' ' :: '\x7b' :: w) := afterCondition_cons (by decide) _
  have hbracket : scanned ('\x7b' :: w) = .opening .curly :: scanned w :=
    have hopening : Kind.Lexical (.opening .curly) ∧ Kind.Readable (.opening .curly) :=
      ⟨trivial, trivial, trivial⟩
    Kind.scanned_chars hopening.1 hopening.2 trivial
  have hspace : scanned (' ' :: '\x7b' :: w) = .blank :: scanned ('\x7b' :: w) := by
    refine scanned_space ?_
    rintro c ⟨⟩
    decide
  rw [scanned_group hgroup hl hg hafter, hspace, hbracket, Ruleset.openKinds, List.append_assoc]
  rfl

theorem not_isBlank_head?_ruleset {r : Ruleset} (hr : r.Formed)
    (hl : ∀ k ∈ SelectorGroup.kinds r.selectors, k.Lexical)
    (hg : ∀ k ∈ SelectorGroup.kinds r.selectors, k.Legible) (w : List Char) :
    ∀ c ∈ (r.chars ++ w).head?, isBlank c = false := by
  obtain ⟨ks, hgroup⟩ := hr.selectors
  rw [Ruleset.chars]
  simp only [List.append_assoc]
  exact not_isBlank_head?_group hgroup hl hg _

/-- A faithful ruleset is read as its tokens. -/
theorem scanned_ruleset {r : Ruleset} (hr : r.Formed) (hl : ∀ k ∈ r.kinds, k.Lexical)
    (hf : r.Faithful) (hw : ∀ c ∈ w.head?, isBlank c = false) :
    scanned (r.chars ++ '\n' :: w) = r.kinds ++ .blank :: scanned w := by
  have hselectors : ∀ k ∈ SelectorGroup.kinds r.selectors, k.Lexical := fun k hk =>
    hl k (Ruleset.mem_kinds_of_selectors hk)
  have hdeclarations : ∀ d ∈ r.declarations, ∀ k ∈ d.kinds, k.Lexical := fun d hd k hk =>
    hl k (Ruleset.mem_kinds_of_declaration hd hk)
  have hclosing : Kind.Lexical (.closing .curly) ∧ Kind.Readable (.closing .curly) :=
    ⟨trivial, trivial, trivial⟩
  have hbracket : scanned ('\x7d' :: '\n' :: w) = .closing .curly :: scanned ('\n' :: w) :=
    Kind.scanned_chars hclosing.1 hclosing.2 trivial
  have hblank : scanned ('\n' :: w) = .blank :: scanned w := by
    have hblanks : ∀ c ∈ ([] : List Char), isBlank c = true := by simp
    exact scanned_blanks rfl hblanks hw
  have hnone : ∀ c ∈ ([] : List Char), isBlank c = true := by simp
  have hhead : ∀ c ∈ ('\x7d' :: '\n' :: w).head?, isBlank c = false := by
    rintro c ⟨⟩
    decide
  have hbody := scanned_declarations hr.declarations hdeclarations hf.declarations hnone hhead
  rw [Ruleset.kinds_eq, Ruleset.chars]
  simp only [List.append_assoc, List.cons_append, List.nil_append] at hbody ⊢
  rw [scanned_openKinds hr hselectors hf.legible, hbody, hbracket, hblank]

theorem scanned_rulesets {rs : List Ruleset} (hrs : ∀ r ∈ rs, r.Formed)
    (hl : ∀ r ∈ rs, ∀ k ∈ r.kinds, k.Lexical) (hf : ∀ r ∈ rs, r.Faithful)
    (hw : ∀ c ∈ w.head?, isBlank c = false) :
    scanned (rs.flatMap (fun r => r.chars ++ ['\n']) ++ w) =
      rs.flatMap (·.kinds ++ [.blank]) ++ scanned w ∧
      ∀ c ∈ (rs.flatMap (fun r => r.chars ++ ['\n']) ++ w).head?, isBlank c = false := by
  induction rs with
  | nil => exact ⟨rfl, hw⟩
  | cons r rs ih =>
    rw [List.forall_mem_cons] at hrs hl hf
    obtain ⟨hread, hhead⟩ := ih hrs.2 hl.2 hf.2
    have hselectors : ∀ k ∈ SelectorGroup.kinds r.selectors, k.Lexical := fun k hk =>
      hl.1 k (Ruleset.mem_kinds_of_selectors hk)
    have hfirst := scanned_ruleset hrs.1 hl.1 hf.1 hhead
    simp only [List.flatMap_cons, List.append_assoc, List.cons_append, List.nil_append] at hfirst ⊢
    rw [hfirst, hread]
    exact ⟨rfl, not_isBlank_head?_ruleset hrs.1 hselectors hf.1.legible _⟩

/-- The text of a faithful sheet is read as its tokens. -/
theorem scanned_stylesheet {s : Stylesheet} (hs : ∀ r ∈ s.rulesets, r.Formed)
    (hl : ∀ k ∈ s.kinds, k.Lexical) (hf : s.Faithful) : scanned s.chars = s.kinds := by
  have hlexical : ∀ r ∈ s.rulesets, ∀ k ∈ r.kinds, k.Lexical := fun r hr k hk =>
    hl k (Stylesheet.mem_kinds_of_ruleset hr hk)
  have hend : ∀ c ∈ ([] : List Char).head?, isBlank c = false := by simp
  have hread := (scanned_rulesets hs hlexical hf hend).1
  rw [List.append_nil, Kind.scanned_nil, List.append_nil] at hread
  exact hread

theorem exists_first {α : Type} {P : α → Prop} {xs : List α} (h : ¬ ∀ x ∈ xs, P x) :
    ∃ front x rest, xs = front ++ x :: rest ∧ (∀ y ∈ front, P y) ∧ ¬ P x := by
  induction xs with
  | nil => exact absurd (by simp) h
  | cons x xs ih =>
    by_cases hx : P x
    · rw [List.forall_mem_cons] at h
      obtain ⟨front, y, rest, heq, hfront, hy⟩ := ih fun hxs => h ⟨hx, hxs⟩
      exact ⟨x :: front, y, rest, by rw [heq]; rfl, List.forall_mem_cons.mpr ⟨hx, hfront⟩, hy⟩
    · exact ⟨[], x, xs, rfl, by simp, hx⟩

/-- The first value that is not faithful is where a sheet with legible tokens is misread. -/
theorem misread_stylesheet {s : Stylesheet} (hs : ∀ r ∈ s.rulesets, r.Formed)
    (hl : ∀ k ∈ s.kinds, k.Lexical) (hg : ∀ k ∈ s.kinds, k.Legible) (hf : ¬ s.Faithful) :
    ∃ rs r rs' ds d ds' text, s.rulesets = rs ++ r :: rs' ∧ r.declarations = ds ++ d :: ds' ∧
      scanned s.chars = kindsBefore rs r ds d.property ++ scanned text ∧
      Kind.Misread d.terms text := by
  obtain ⟨rs, r, rs', hrulesets, hfront, hr⟩ := exists_first hf
  have hmem : ∀ r' ∈ rs, r' ∈ s.rulesets := fun r' h => by simp [hrulesets, h]
  have hmemr : r ∈ s.rulesets := by simp [hrulesets]
  have hkinds {k : Kind} (hk : k ∈ SelectorGroup.kinds r.selectors) : k ∈ s.kinds :=
    Stylesheet.mem_kinds_of_ruleset hmemr (Ruleset.mem_kinds_of_selectors hk)
  have hselectors : ∀ k ∈ SelectorGroup.kinds r.selectors, k.Lexical := fun k hk => hl k (hkinds hk)
  have hlegible : ∀ k ∈ SelectorGroup.kinds r.selectors, k.Legible := fun k hk => hg k (hkinds hk)
  obtain ⟨ds, d, ds', hdeclarations, hbefore, hd⟩ := exists_first fun h => hr ⟨hlegible, h⟩
  have hkindsd {d' : Declaration} (hd' : d' ∈ r.declarations) {k : Kind} (hk : k ∈ d'.kinds) :
      k ∈ s.kinds := Stylesheet.mem_kinds_of_ruleset hmemr (Ruleset.mem_kinds_of_declaration hd' hk)
  have hmemds : ∀ d' ∈ ds, d' ∈ r.declarations := fun d' h => by simp [hdeclarations, h]
  have hmemd : d ∈ r.declarations := by simp [hdeclarations]
  have hformed := (hs r hmemr).declarations
  have hlexicald : ∀ k ∈ d.kinds, k.Lexical := fun k hk => hl k (hkindsd hmemd hk)
  have hlegibled : ∀ k ∈ d.kinds, k.Legible := fun k hk => hg k (hkindsd hmemd hk)
  have hspaces : ∀ c ∈ [' ', ' '], isBlank c = true := by simp [isBlank]
  obtain ⟨more, hchars⟩ : ∃ more, s.chars = rs.flatMap (fun r => r.chars ++ ['\n']) ++
      (r.chars ++ '\n' :: more) := by
    refine ⟨rs'.flatMap fun r => r.chars ++ ['\n'], ?_⟩
    simp [Stylesheet.chars, hrulesets]
  obtain ⟨w, hruleset⟩ : ∃ w, r.chars ++ '\n' :: more = SelectorGroup.chars r.selectors ++
      ' ' :: '\x7b' :: '\n' :: (ds.flatMap (fun d => [' ', ' '] ++ d.chars ++ [';', '\n']) ++
        ([' ', ' '] ++ (d.chars ++ ';' :: w))) := by
    refine ⟨'\n' :: (ds'.flatMap (fun d => [' ', ' '] ++ d.chars ++ [';', '\n']) ++
      '\x7d' :: '\n' :: more), ?_⟩
    simp [Ruleset.chars, hdeclarations]
  refine ⟨rs, r, rs', ds, d, ds', _, hrulesets, hdeclarations, ?_,
    misread_declaration (hformed d hmemd) hlexicald hlegibled hd w⟩
  have hhead := not_isBlank_head?_ruleset (hs r hmemr) hselectors hlegible ('\n' :: more)
  rw [hchars, (scanned_rulesets (fun r' h => hs r' (hmem r' h)) (fun r' h k hk =>
    hl k (Stylesheet.mem_kinds_of_ruleset (hmem r' h) hk)) hfront hhead).1, hruleset,
    scanned_openKinds (hs r hmemr) hselectors hlegible,
    scanned_declarations (fun d' h => hformed d' (hmemds d' h)) (fun d' h k hk =>
      hl k (hkindsd (hmemds d' h) hk)) hbefore hspaces
      (not_isBlank_head?_declaration hlexicald hlegibled _),
    scanned_property (hformed d hmemd) hlexicald hlegibled, kindsBefore]
  simp only [List.append_assoc, List.cons_append, List.nil_append]

end Rulesets
end Styling
