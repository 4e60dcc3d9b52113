import Styling.Proofs.Sheet.Blocks
import Styling.Proofs.Sheet.Pieces
import Styling.Proofs.Sheet.Reread

/-! # Reading the text of a sheet again

The text of a sheet that was read without faults gives the same sheet again, without faults, just
if the sheet is faithful. A faithful sheet is read as its own tokens. Of any other, the text
stands for too little: a name or a value is lost, or the first value that runs together holds
another token where the sheet had its own.
-/
namespace Styling
open Lexer
open Grammar (kinds)
open Kind (scanned)
open scoped List

section Tokens

theorem kinds_significant (cs : List Char) :
    kinds (significant cs) = (allKinds cs).filter (!·.isComment) := by
  have hkinds : kinds (tokens cs) = allKinds cs := map_kind_place 0 1 (lexemes cs)
  rw [Grammar.kinds_significant, hkinds]

/-- The separators are comments. -/
theorem filter_scanned (cs : List Char) :
    (scanned cs).filter (!·.isComment) = kinds (significant cs) := by
  rw [kinds_significant, show scanned cs = (allKinds cs).filter (· ≠ .comment "") from rfl,
    List.filter_filter]
  refine List.filter_congr fun k _ => ?_
  cases hk : k.isComment with
  | true => rfl
  | false =>
    have hne : k ≠ .comment "" := by
      rintro rfl
      cases hk
    simp [hne]

theorem lexical_of_mem_allKinds {cs : List Char} {k : Kind} (h : k ∈ allKinds cs) : k.Lexical := by
  obtain ⟨l, hl, rfl⟩ := List.mem_map.mp h
  exact lexical_of_mem_lexemes hl

theorem kinds_significant_of_scanned {cs : List Char} {front after : List Kind} {k : Kind}
    (hfront : ∀ k ∈ front, k.isComment = false) (hk : k.isComment = false)
    (h : scanned cs = front ++ k :: after) :
    kinds (significant cs) = front ++ k :: after.filter (!·.isComment) := by
  have hkept : front.filter (!·.isComment) = front := by
    rw [List.filter_eq_self]
    intro k hk
    simp [hfront k hk]
  rw [← filter_scanned, h, List.filter_append, hkept, List.filter_cons_of_pos (by simp [hk])]

/-- What is misread in a text is read as another token there, unless a comment that begins with
an equality mark swallows it. -/
theorem kinds_of_misread {cs text : List Char} {front ks : List Kind}
    (hks : ∀ k ∈ front ++ ks, k.isComment = false)
    (hcomments : ∀ t, .comment t ∈ allKinds cs → t.toList.head? ≠ some '=')
    (hscanned : scanned cs = front ++ scanned text) (h : Kind.Misread ks text) :
    ∃ p k q k' after, ks = p ++ k :: q ∧ k' ≠ k ∧ k' ≠ .blank ∧
      kinds (significant cs) = front ++ (p ++ k' :: after) := by
  obtain ⟨p, k, q, k', after, rfl, htext, hne, hblank, hcomment⟩ := h
  rw [htext, ← List.append_assoc] at hscanned
  have hk' : k'.isComment = false := by
    cases k' with
    | comment t =>
      have hmem : .comment t ∈ scanned cs := by simp [hscanned]
      exact absurd (hcomment t rfl) (hcomments t (List.mem_filter.mp hmem).1)
    | _ => rfl
  have hfront : ∀ x ∈ front ++ p, x.isComment = false := by
    intro x hx
    apply hks
    rw [← List.append_assoc]
    exact List.mem_append_left _ hx
  refine ⟨p, k, q, k', after.filter (!·.isComment), rfl, hne, hblank, ?_⟩
  rw [kinds_significant_of_scanned hfront hk' hscanned, List.append_assoc]

end Tokens
section Rereading
variable {s : Stylesheet} {text : String}

theorem faultsOf_map_declared (ds : List Declaration) : faultsOf (ds.map .declared) = [] := by
  simp [faultsOf, Entry.fault?]

theorem declarationsOf_map_declared (ds : List Declaration) :
    declarationsOf (ds.map .declared) = ds := by
  simp [declarationsOf, Entry.declaration?, Function.comp_def]

theorem filterMap_ruleset? (rs : List Ruleset) :
    (rs.map fun r => Statement.ruleset r.selectors (r.declarations.map .declared)).filterMap
      Statement.ruleset? = rs := by
  have hruleset : (Statement.ruleset? ∘ fun r : Ruleset =>
      Statement.ruleset r.selectors (r.declarations.map .declared)) = some := by
    funext r
    simp [Statement.ruleset?, declarationsOf_map_declared]
  rw [List.filterMap_map, hruleset, List.filterMap_some]

/-- A text that has the tokens of a sheet is read as that sheet. -/
theorem ofText_of_kinds (hs : ∀ r ∈ s.rulesets, r.Formed)
    (htext : kinds (significant text.toList) = s.kinds) :
    (ParsedSheet.ofText text).faults = [] ∧ (ParsedSheet.ofText text).stylesheet = s := by
  have hread := readStatements_stylesheet (endToken text.toList) hs htext
  constructor
  · rw [ParsedSheet.faults, ParsedSheet.ofText, hread, List.flatMap_map, List.flatMap_eq_nil_iff]
    intro r _
    exact faultsOf_map_declared r.declarations
  · obtain ⟨rs⟩ := s
    rw [ParsedSheet.stylesheet, ParsedSheet.ofText, hread, filterMap_ruleset?]

theorem Stylesheet.Faithful.legible (hf : s.Faithful) : ∀ k ∈ s.kinds, k.Legible := by
  intro k hk
  obtain ⟨r, hr, hk⟩ := List.mem_flatMap.mp hk
  rcases List.mem_append.mp hk with hk | hk
  · simp only [Ruleset.kinds, List.mem_append, List.mem_cons, List.not_mem_nil, or_false] at hk
    rcases hk with ((hk | rfl | rfl | rfl) | hk) | rfl
    · exact (hf r hr).legible k hk
    · trivial
    · trivial
    · trivial
    · obtain ⟨d, hd, hk⟩ := List.mem_flatMap.mp hk
      simp only [List.mem_append, List.mem_cons, List.not_mem_nil, or_false] at hk
      rcases hk with hk | rfl | rfl
      · exact (((hf r hr).declarations d hd).readable k hk).1
      · trivial
      · trivial
    · trivial
  · obtain rfl := List.mem_singleton.mp hk
    trivial

theorem Kind.Legible.isComment {k : Kind} (h : k.Legible) : k.isComment = false := by
  cases k with
  | comment text => exact h.elim
  | _ => rfl

/-- The text of a faithful sheet is read as this sheet. -/
theorem ofText_of_faithful (hs : ∀ r ∈ s.rulesets, r.Formed) (hl : ∀ k ∈ s.kinds, k.Lexical)
    (hf : s.Faithful) :
    (ParsedSheet.ofText s.text).faults = [] ∧ (ParsedSheet.ofText s.text).stylesheet = s := by
  refine ofText_of_kinds hs ?_
  rw [Stylesheet.text, String.toList_ofList, ← filter_scanned, scanned_stylesheet hs hl hf,
    List.filter_eq_self]
  intro k hk
  simp [(hf.legible k hk).isComment]

end Rereading
section Counts
variable {ks : List Kind} {c : Char}

theorem weight_payload (c : Char) (ks : List Kind) :
    weight (fun k => k.payload.count c) ks = (ks.flatMap Kind.payload).count c := by
  induction ks with
  | nil => rfl
  | cons k ks ih => rw [weight_cons, ih, List.flatMap_cons, List.count_append]

theorem weight_filter_add (φ : Kind → Nat) (p : Kind → Bool) (ks : List Kind) :
    weight φ (ks.filter p) + weight φ (ks.filter (!p ·)) = weight φ ks := by
  induction ks with
  | nil => rfl
  | cons k ks ih =>
    cases hk : p k with
    | true =>
      rw [List.filter_cons_of_pos hk, List.filter_cons_of_neg (by simp [hk]), weight_cons,
        weight_cons]
      omega
    | false =>
      rw [List.filter_cons_of_neg (by simp [hk]), List.filter_cons_of_pos (by simp [hk]),
        weight_cons, weight_cons]
      omega

theorem count_delim_le (c : Char) (ks : List Kind) :
    ks.count (.delim c) ≤ (ks.flatMap Kind.payload).count c := by
  induction ks with
  | nil => exact le_refl _
  | cons k ks ih =>
    rw [List.flatMap_cons, List.count_append, List.count_cons]
    by_cases hk : k = .delim c
    · subst hk
      simp only [Kind.payload, List.count_singleton, BEq.rfl, if_true]
      omega
    · rw [if_neg (by simpa using hk)]
      omega

theorem not_mem_payload (h : (ks.flatMap Kind.payload).count c ≤ ks.count (.delim c)) {k : Kind}
    (hk : k ∈ ks) (hne : k ≠ .delim c) : c ∉ k.payload := by
  obtain ⟨front, rest, rfl⟩ := List.append_of_mem hk
  have hfront := count_delim_le c front
  have hrest := count_delim_le c rest
  rw [← List.count_eq_zero]
  rw [List.flatMap_append, List.flatMap_cons, List.count_append, List.count_append,
    List.count_append, List.count_cons, if_neg (by simpa using hne)] at h
  omega

end Counts
section Losses
variable {cs : List Char} {ks : List Kind}
  (hle : ∀ φ, Lenient φ → weight φ ks ≤ weight φ (kinds (significant cs)))
include hle

/-- Tokens that nothing counts more of than a text have what all tokens of the text have. -/
theorem Inherited.of_reread {P : Kind → Prop} (h : Inherited P) (hP : ∀ k ∈ allKinds cs, P k) :
    ∀ k ∈ ks, P k := by
  refine h.of_weight_le hle fun k hk => ?_
  rw [kinds_significant] at hk
  exact hP k (List.mem_filter.mp hk).1

variable (hm : ∀ k ∈ ks, k.Meaningful)
include hm

/-- No lone backslash is read from a text without broken escapes. -/
theorem written_of_reread (hsteady : Steady cs) : ∀ k ∈ ks, k.Written := by
  have hback := inherited_ne_backslash.of_reread hle fun k hk =>
    ne_backslash_of_mem_allKinds hk hsteady.unbroken
  exact fun k hk => ⟨hm k hk, hback k hk⟩

variable (hl : ∀ k ∈ ks, k.Lexical)
include hl

/-- Tokens that are read again from the text they are written as are all legible, and no comment
of the text begins with an equality mark: there is nothing left that such a comment could hold. -/
theorem legible_of_reread (hsteady : Steady cs)
    (hspells : (∀ k ∈ ks, k.Lexical ∧ k.Written) → Spells cs ks) :
    (∀ k ∈ ks, k.Legible) ∧ ∀ t, .comment t ∈ allKinds cs → t.toList.head? ≠ some '=' := by
  have hwritten := written_of_reread hle hm hsteady
  obtain ⟨held, ⟨us, hunits, hheld, hhyphen⟩, hequal, hzero⟩ :=
    hspells fun k hk => ⟨hl k hk, hwritten k hk⟩
  obtain ⟨us', hunits', hcovers⟩ := covers_allKinds cs
  have hus : units cs = us := by simpa [units_nil] using hunits []
  obtain rfl : us' = us := by rw [← hus, hunits', units_nil, List.append_nil]
  rw [hheld] at hcovers
  -- the weight of the tokens that are kept, and of the comments, together
  have hbound (c : Char) (hc : c ≠ '\\') :
      weight (fun k => k.payload.count c) (kinds (significant cs)) +
        weight (fun k => k.payload.count c) ((allKinds cs).filter (!!·.isComment)) ≤
      held.count c := by
    rw [kinds_significant, weight_filter_add, weight_payload]
    exact hcovers c hc
  constructor
  · have hname := inherited_name.of_reread hle fun k hk =>
      name?_ne_of_mem_allKinds hk (hus ▸ hhyphen)
    have hcount : (ks.flatMap Kind.payload).count '\x00' ≤ ks.count (.delim '\x00') := by
      have hpayload := hle _ (lenient_payload '\x00' (by decide))
      have hzero' := hbound '\x00' (by decide)
      rw [weight_payload] at hpayload
      omega
    intro k hk
    exact (hwritten k hk).legible (hl k hk) (hname k hk) (not_mem_payload hcount hk)
  · intro t ht hhead
    have hpayload := hle _ (lenient_payload '=' (by decide))
    have hequal' := hbound '=' (by decide)
    rw [weight_payload] at hpayload
    have hnone : weight (fun k => k.payload.count '=')
        ((allKinds cs).filter (!!·.isComment)) = 0 := by omega
    rw [weight_eq_zero] at hnone
    have hcomment := hnone (.comment t) (List.mem_filter.mpr ⟨ht, rfl⟩)
    simp [Kind.payload, hhead] at hcomment

end Losses
section Misreading
variable {p q after : List Kind} {k k' : Kind}

/-- A value in which another token stands is not read as the value that was written. -/
theorem terms_ne_of_misread {terms : List Kind} {value : List Token}
    (hcollapsed : collapseBlanks true terms = terms) (hterms : terms = p ++ k :: q) (hne : k' ≠ k)
    (hblank : k' ≠ .blank) (hvalue : kinds value = .blank :: (p ++ k' :: after)) :
    (valueTerms (splitSegment true [] value).1).1 ≠ terms := by
  intro heq
  have hbegins := prefix_valueTerms (splitSegment true [] value).1
  have hsegment : kinds (splitSegment true [] value).1 <+: kinds value :=
    (prefix_splitSegment true [] value).map Token.kind
  obtain ⟨rest, hrest⟩ := hsegment
  have hwhole : collapseBlanks true (kinds (splitSegment true [] value).1) <+:
      collapseBlanks true (kinds value) := by
    rw [← hrest, collapseBlanks_append]
    exact List.prefix_append _ _
  have hfront : collapseBlanks true p = p :=
    collapseBlanks_prefix hcollapsed ⟨k :: q, hterms.symm⟩
  have hk' : k'.isBlank = false := by
    cases hb : k'.isBlank with
    | false => rfl
    | true => exact absurd (eq_blank_of_isBlank hb) hblank
  rw [heq] at hbegins
  have hread := hbegins.trans hwhole
  rw [hvalue, collapseBlanks_blank, if_pos rfl, collapseBlanks_append, hfront,
    collapseBlanks_cons hk', hterms, List.prefix_append_right_inj, List.cons_prefix_cons] at hread
  exact hne hread.1.symm

theorem readDeclaration_ne_of_misread (finish start : Token) {rest : List Token} {d : Declaration}
    (hd : d.Formed) (hterms : d.terms = p ++ k :: q) (hne : k' ≠ k) (hblank : k' ≠ .blank)
    (hrest : kinds rest = .colon :: .blank :: (p ++ k' :: after)) :
    (readDeclaration finish true start rest).1 ≠ .declared d := by
  intro heq
  have hread : readDeclaration finish true start rest =
      (.declared d, (readDeclaration finish true start rest).2) := by
    rw [← heq]
  obtain ⟨colon, value, rfl, hcolon, hvalue⟩ := kinds_eq_cons hrest
  obtain ⟨t, value', -, hskip, -, -, -, hterms', -⟩ := readDeclaration_declared hread
  have hskip' : skipBlanks (colon :: value) = colon :: value :=
    List.dropWhile_cons_of_neg (by simp [hcolon, Kind.isBlank])
  rw [hskip'] at hskip
  obtain ⟨rfl, rfl⟩ := List.cons.inj hskip
  exact terms_ne_of_misread hd.settled.collapsed hterms hne hblank hvalue
    (congrArg Prod.fst hterms')

/-- The entry in which a sheet without faults has a declaration is this declaration. -/
theorem eq_declared_of_statements {rs rs' : List Ruleset} {r : Ruleset}
    {ds ds' : List Declaration} {d : Declaration} {entry : Entry} {entries : List Entry}
    {front statements : List Statement} (hfront : front.filterMap Statement.ruleset? = rs)
    (hfaults : (front ++ .ruleset r.selectors (ds.map .declared ++ entry :: entries) ::
      statements).flatMap Statement.faults = [])
    (hsheet : (front ++ .ruleset r.selectors (ds.map .declared ++ entry :: entries) ::
      statements).filterMap Statement.ruleset? = rs ++ r :: rs')
    (hdeclarations : r.declarations = ds ++ d :: ds') : entry = .declared d := by
  rw [List.flatMap_append, List.flatMap_cons, List.append_eq_nil_iff, List.append_eq_nil_iff,
    Statement.faults, faultsOf, List.filterMap_append, List.append_eq_nil_iff] at hfaults
  rw [List.filterMap_append, hfront, List.append_cancel_left_eq, List.filterMap_cons,
    Statement.ruleset?] at hsheet
  obtain ⟨d', rfl⟩ : ∃ d', entry = .declared d' := (faultsOf_cons hfaults.2.1.2).1
  have hruleset := congrArg Ruleset.declarations (List.cons.inj hsheet).1
  have hentries : declarationsOf (ds.map .declared ++ .declared d' :: entries) =
      ds ++ d' :: declarationsOf entries := by
    rw [declarationsOf, List.filterMap_append]
    exact congrArg (· ++ _) (declarationsOf_map_declared ds)
  rw [hdeclarations, hentries] at hruleset
  rw [(List.cons.inj (List.append_cancel_left hruleset)).1]

variable {s : Stylesheet}

theorem readStatements_of_reread (hread : (ParsedSheet.ofText s.text).stylesheet = s) :
    (⟨(readStatements (endToken s.chars) (significant s.chars)).filterMap Statement.ruleset?⟩ :
      Stylesheet) = s := by
  rwa [ParsedSheet.ofText, Stylesheet.text, String.toList_ofList] at hread

theorem weight_of_reread (hread : (ParsedSheet.ofText s.text).stylesheet = s) {φ : Kind → Nat}
    (h : Lenient φ) : weight φ s.kinds ≤ weight φ (kinds (significant s.chars)) := by
  have hle := weight_readStatements h (endToken s.chars) (significant s.chars)
  rwa [readStatements_of_reread hread] at hle

/-- If the text of a sheet is read as the sheet, the sheet is faithful. -/
theorem faithful_of_reread (hs : ∀ r ∈ s.rulesets, r.Formed) (hl : ∀ k ∈ s.kinds, k.Lexical)
    (hfaults : (ParsedSheet.ofText s.text).faults = [])
    (hread : (ParsedSheet.ofText s.text).stylesheet = s) : s.Faithful := by
  by_contra hf
  have hm := Stylesheet.meaningful_kinds hs
  have hsteady := pieces_steady.stylesheet fun k hk => ⟨hl k hk, hm k hk⟩
  obtain ⟨hlegible, hcomments⟩ := legible_of_reread (fun _ h => weight_of_reread hread h) hm hl
    hsteady pieces_spells.stylesheet
  obtain ⟨rs, r, rs', ds, d, ds', text, hrulesets, hdeclarations, hscanned, hmisread⟩ :=
    misread_stylesheet hs hl hlegible hf
  have hrs : ∀ r' ∈ rs, r'.Formed := fun r' h => hs r' (by simp [hrulesets, h])
  have hr : r.Formed := hs r (by simp [hrulesets])
  have hds : ∀ d' ∈ ds, d'.Formed := fun d' h => hr.declarations d' (by simp [hdeclarations, h])
  have hd : d.Formed := hr.declarations d (by simp [hdeclarations])
  have hfront : ∀ k ∈ kindsBefore rs r ds d.property ++ d.terms, k.isComment = false :=
    fun k hk => (hm k ((prefix_kindsBefore hrulesets hdeclarations).subset hk)).1
  -- the tokens before the one that is misread are those of the sheet
  obtain ⟨p, k, q, k', after, hterms, hne, hblank, hkinds⟩ :=
    kinds_of_misread hfront hcomments hscanned hmisread
  obtain ⟨start, rest, entries, statements, hrest, hstatements⟩ :=
    readStatements_kindsBefore (endToken s.chars) hrs hr hds hkinds
  refine readDeclaration_ne_of_misread (endToken s.chars) start hd hterms hne hblank hrest ?_
  rw [ParsedSheet.faults, ParsedSheet.ofText, Stylesheet.text, String.toList_ofList,
    hstatements] at hfaults
  have hsheet := congrArg Stylesheet.rulesets (readStatements_of_reread hread)
  rw [hstatements, hrulesets] at hsheet
  exact eq_declared_of_statements (filterMap_ruleset? rs) hfaults hsheet hdeclarations

end Misreading

theorem lexical_stylesheet (text : String) :
    ∀ k ∈ (ParsedSheet.ofText text).stylesheet.kinds, k.Lexical := by
  refine inherited_lexical.kinds_stylesheet (endToken text.toList) fun k hk => ?_
  rw [kinds_significant] at hk
  exact lexical_of_mem_allKinds (List.mem_filter.mp hk).1

/-- A sheet that was read without faults is read again from its text, just if it is faithful. -/
theorem ParsedSheet.reread_iff_faithful (text : String)
    (h : (ParsedSheet.ofText text).faults = []) :
    (ParsedSheet.ofText (ParsedSheet.ofText text).stylesheet.text).faults = [] ∧
      (ParsedSheet.ofText (ParsedSheet.ofText text).stylesheet.text).stylesheet =
        (ParsedSheet.ofText text).stylesheet ↔
    (ParsedSheet.ofText text).stylesheet.Faithful := by
  have hformed : ∀ r ∈ (ParsedSheet.ofText text).stylesheet.rulesets, r.Formed :=
    formed_readStatements (significant_significant _) h
  have hlexical := lexical_stylesheet text
  constructor
  · rintro ⟨hfaults, hread⟩
    exact faithful_of_reread hformed hlexical hfaults hread
  · intro hf
    exact ofText_of_faithful hformed hlexical hf

section Sheets

theorem formed_type (name : String) {ds : List Declaration} (hds : ∀ d ∈ ds, d.Formed) :
    (⟨[.simple (.type name)], ds⟩ : Ruleset).Formed := by
  have hchain := Grammar.Chain.first .nil (.head (.type name))
  exact ⟨⟨_, .one ⟨_, [], rfl, hchain, .nil⟩⟩, hds⟩

def marginSheet : Stylesheet :=
  ⟨[⟨[.simple (.type "p")], [⟨"margin", [.number "0", .blank, .ident "auto"], true⟩]⟩]⟩

theorem formed_marginSheet : ∀ r ∈ marginSheet.rulesets, r.Formed := by
  intro r hr
  obtain rfl := List.mem_singleton.mp hr
  refine formed_type "p" fun d hd => ?_
  obtain rfl := List.mem_singleton.mp hd
  refine ⟨by simp, ?_, ⟨rfl, by simp, ?_⟩, fun h => by cases h⟩
  · simp [Kind.Meaningful, Kind.isComment]
  · exact ⟨rfl, rfl, rfl, rfl, rfl, rfl, rfl⟩

theorem faithful_marginSheet : marginSheet.Faithful := by
  intro r hr
  obtain rfl := List.mem_singleton.mp hr
  refine ⟨?_, fun d hd => ?_⟩
  · simp [SelectorGroup.kinds, Selector.kinds, Condition.kinds, Kind.Legible]
  · obtain rfl := List.mem_singleton.mp hd
    constructor
    · simp [Declaration.kinds, Declaration.importantKinds, Kind.Readable, Kind.Legible]
    · simp [Kind.clashes]

theorem ParsedSheet.reread_margin :
    (ParsedSheet.ofText "p { margin: 0 auto !important; }\n").faults = [] ∧
      (ParsedSheet.ofText (ParsedSheet.ofText
        "p { margin: 0 auto !important; }\n").stylesheet.text).faults = [] ∧
      (ParsedSheet.ofText (ParsedSheet.ofText
        "p { margin: 0 auto !important; }\n").stylesheet.text).stylesheet =
        (ParsedSheet.ofText "p { margin: 0 auto !important; }\n").stylesheet := by
  have htext : kinds (significant "p { margin: 0 auto !important; }\n".toList) =
      marginSheet.kinds := by
    decide +kernel
  obtain ⟨hfaults, hsheet⟩ := ofText_of_kinds formed_marginSheet htext
  refine ⟨hfaults, (ParsedSheet.reread_iff_faithful _ hfaults).mpr ?_⟩
  rw [hsheet]
  exact faithful_marginSheet

def hyphenSheet : Stylesheet := ⟨[⟨[.simple (.type "-")], [⟨"a", [.ident "b"], false⟩]⟩]⟩

theorem formed_hyphenSheet : ∀ r ∈ hyphenSheet.rulesets, r.Formed := by
  intro r hr
  obtain rfl := List.mem_singleton.mp hr
  refine formed_type "-" fun d hd => ?_
  obtain rfl := List.mem_singleton.mp hd
  refine ⟨by simp, ?_, ⟨rfl, by simp, ?_⟩, fun _ => rfl⟩
  · simp [Kind.Meaningful, Kind.isComment]
  · exact ⟨rfl, rfl, rfl⟩

theorem not_faithful_hyphenSheet : ¬ hyphenSheet.Faithful := by
  intro hf
  exact (hf.legible (.ident "-") (by decide)).1 rfl

/-- Not every sheet that was read without faults is read again from its text. -/
theorem ParsedSheet.not_reread_hyphen :
    ¬ ∀ text, (ParsedSheet.ofText text).faults = [] →
      (ParsedSheet.ofText (ParsedSheet.ofText text).stylesheet.text).faults = [] ∧
        (ParsedSheet.ofText (ParsedSheet.ofText text).stylesheet.text).stylesheet =
          (ParsedSheet.ofText text).stylesheet := by
  intro h
  have htext : kinds (significant "\\- { a: b; }\n".toList) = hyphenSheet.kinds := by
    decide +kernel
  obtain ⟨hfaults, hsheet⟩ := ofText_of_kinds formed_hyphenSheet htext
  have hreread := h _ hfaults
  have hlexical := lexical_stylesheet "\\- { a: b; }\n"
  rw [hsheet] at hreread hlexical
  exact not_faithful_hyphenSheet
    (faithful_of_reread formed_hyphenSheet hlexical hreread.1 hreread.2)

end Sheets
end Styling
