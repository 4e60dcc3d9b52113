import Styling.Proofs.Selector.Grammar
import Styling.Proofs.Token.Spelled
import Styling.Sheet

/-! # The tokens that a style sheet is written as

The text of a selector, a declaration, a ruleset and a sheet is meant to be read as certain
kinds of tokens. Text and reader meet there: the text of a selector with legible names is read
as its kinds, and so is a sheet whose values are read back.
-/
namespace Styling
open Lexer
open scoped List

/-- The hash that the text of a selector holds is one that could stand alone, but for a lone
hyphen. -/
def idKind (value : String) : Kind :=
  .hash value (if value = "-" then .unrestricted else .id)

namespace Condition

def testKinds (name : String) (op : Kind) (value : String) : List Kind :=
  [.opening .square, .ident name, op, .string value, .closing .square]

def kinds : Condition → List Kind
  | universal => [.delim '*']
  | type name => [.ident name]
  | id value => [idKind value]
  | styleClass name => [.delim '.', .ident name]
  | pseudoClass name => [.colon, .ident name]
  | hasAttribute name => [.opening .square, .ident name, .closing .square]
  | attributeIs name value => testKinds name (.delim '=') value
  | attributeMatches name op value => testKinds name (.attrMatch op) value

end Condition

def Combinator.kinds : Combinator → List Kind
  | and => []
  | descendant => [.blank]
  | child => [.blank, .delim '>', .blank]
  | adjacentSibling => [.blank, .delim '+', .blank]
  | generalSibling => [.blank, .delim '~', .blank]

def Selector.kinds : Selector → List Kind
  | simple c => c.kinds
  | combined c left right => left.kinds ++ c.kinds ++ right.kinds

def SelectorGroup.kinds (g : SelectorGroup) : List Kind :=
  [.comma, .blank].intercalate (g.map Selector.kinds)

namespace Declaration

def importantKinds (important : Bool) : List Kind :=
  if important then [.blank, .delim '!', .ident "important"] else []

def kinds (d : Declaration) : List Kind :=
  [.ident d.property, .colon, .blank] ++ d.terms ++ importantKinds d.important

end Declaration

def Ruleset.kinds (r : Ruleset) : List Kind :=
  SelectorGroup.kinds r.selectors ++ [.blank, .opening .curly, .blank] ++
    r.declarations.flatMap (fun d => d.kinds ++ [.semicolon, .blank]) ++ [.closing .curly]

def Ruleset.openKinds (r : Ruleset) : List Kind :=
  SelectorGroup.kinds r.selectors ++ [.blank, .opening .curly]

theorem Ruleset.kinds_eq (r : Ruleset) : r.kinds = r.openKinds ++ ([.blank] ++
    (r.declarations.flatMap (fun d => d.kinds ++ [.semicolon, .blank]) ++ [.closing .curly])) := by
  simp [Ruleset.kinds, Ruleset.openKinds]

def Stylesheet.kinds (s : Stylesheet) : List Kind := s.rulesets.flatMap (·.kinds ++ [.blank])

def kindsBefore (rs : List Ruleset) (r : Ruleset) (ds : List Declaration) (property : String) :
    List Kind :=
  rs.flatMap (·.kinds ++ [.blank]) ++
    (r.openKinds ++ .blank :: ds.flatMap fun d => d.kinds ++ [.semicolon, .blank]) ++
    [.ident property, .colon, .blank]

theorem prefix_kindsBefore {s : Stylesheet} {rs rs' : List Ruleset} {r : Ruleset}
    {ds ds' : List Declaration} {d : Declaration} (hrulesets : s.rulesets = rs ++ r :: rs')
    (hdeclarations : r.declarations = ds ++ d :: ds') :
    kindsBefore rs r ds d.property ++ d.terms <+: s.kinds := by
  refine ⟨Declaration.importantKinds d.important ++ [.semicolon, .blank] ++
    ds'.flatMap (fun d => d.kinds ++ [.semicolon, .blank]) ++ [.closing .curly, .blank] ++
    rs'.flatMap (·.kinds ++ [.blank]), ?_⟩
  rw [Stylesheet.kinds, hrulesets]
  simp [kindsBefore, Ruleset.kinds_eq, hdeclarations, Declaration.kinds]

section Texts

theorem Condition.chars_eq_listChars {c : Condition} (h : ∀ value, c ≠ .id value) :
    c.chars = Kind.listChars c.kinds := by
  cases c with
  | id value => exact absurd rfl (h value)
  | universal => rfl
  | type name => exact (List.append_nil _).symm
  | styleClass name | pseudoClass name =>
    simp only [kinds, Kind.listChars, Kind.listCharsAfter, List.append_nil]
    rfl
  | hasAttribute name =>
    simp only [kinds, Kind.listChars, Kind.listCharsAfter, List.append_nil]
    rfl
  | attributeIs name value =>
    simp only [kinds, testKinds, Kind.listChars, Kind.listCharsAfter, List.append_nil]
    simp [chars, attributeTestChars, Kind.charsAfter, Kind.needsSeparator, Kind.chars,
      Bracket.openText, Bracket.closeText, Kind.isIdentLike, Kind.isNumeric]
  | attributeMatches name op value =>
    simp only [kinds, testKinds, Kind.listChars, Kind.listCharsAfter, List.append_nil]
    simp [chars, attributeTestChars, Kind.charsAfter, Kind.needsSeparator, Kind.chars,
      Bracket.openText, Bracket.closeText, Kind.isIdentLike, Kind.isNumeric]

theorem Combinator.chars_eq_listChars (c : Combinator) : c.chars = Kind.listChars c.kinds := by
  cases c <;> rfl

theorem Declaration.listChars_importantKinds (important : Bool) :
    Kind.listChars (importantKinds important) =
      if important then " !important".toList else [] := by
  cases important <;> rfl

end Texts

section Selectors
variable {w : List Char}

theorem reads_idKind {value : String} (hne : value ≠ "") (hzero : '\x00' ∉ value.toList)
    (hw : NameEnds w) :
    Reads ('#' :: identifierText value.toList ++ w) (idKind value) w := by
  by_cases hv : value = "-"
  · subst hv
    exact reads_hash (show ['-'] ≠ [] by decide) hw
  · have hstarts := startsName_identifierText (toList_ne hne) (toList_ne hv) w
    have hcontinues := continues_of_startsName hstarts
    have hscan : scan '#' (identifierText value.toList ++ w) = _ :=
      scan_of_mark (by decide) (by decide) rfl rfl
    refine ⟨'#', identifierText value.toList ++ w, rfl, hscan.trans ?_⟩
    rw [marked]
    simp only [hcontinues, hstarts, if_true, name_identifierText, name_of_nameEnds hw,
      map_legible hzero, List.append_nil, String.ofList_toList, idKind, hv, if_false]

/-- What can stand behind a condition: another condition, a blank, a comma or nothing. -/
def AfterCondition (w : List Char) : Prop := ∀ c ∈ w.head?, c ∈ ['#', '.', ':', '[', ' ', ',']

theorem afterCondition_cons {c : Char} (hc : c ∈ ['#', '.', ':', '[', ' ', ',']) (w : List Char) :
    AfterCondition (c :: w) := by
  intro d hd
  obtain rfl := Option.some.inj hd
  exact hc

theorem AfterCondition.nameEnds (hw : AfterCondition w) : NameEnds w := by
  intro d hd
  have hc := hw d hd
  simp only [List.mem_cons, List.not_mem_nil, or_false] at hc
  rcases hc with rfl | rfl | rfl | rfl | rfl | rfl <;> decide

theorem AfterCondition.head?_ne (hw : AfterCondition w) {c : Char}
    (hc : c ∉ ['#', '.', ':', '[', ' ', ',']) : w.head? ≠ some c := fun heq => hc (hw c heq)

theorem AfterCondition.clear_ident (hw : AfterCondition w) (name : String) :
    (Kind.ident name).Clear w :=
  ⟨hw.nameEnds, hw.head?_ne (by decide), fun _ => hw.head?_ne (by decide)⟩

namespace Condition

theorem clear_afterCondition {c : Condition} {k : Kind} (hw : AfterCondition w)
    (hk : k ∈ c.kinds.getLast?) (hid : ∀ value, c ≠ .id value) : k.Clear w := by
  cases c with
  | id value => exact absurd rfl (hid value)
  | universal =>
    obtain rfl := Option.some.inj hk
    refine Kind.clear_delim ?_ (by decide) (by simp) (by simp) (by simp) (by simp) (by simp)
      fun _ => hw.head?_ne (by decide)
    constructor <;> decide
  | type name | styleClass name | pseudoClass name =>
    obtain rfl := Option.some.inj hk
    exact hw.clear_ident name
  | _ =>
    obtain rfl := Option.some.inj hk
    trivial

theorem readable_kinds {c : Condition} {k : Kind} (hk : k ∈ c.kinds) (hg : k.Legible)
    (hid : ∀ value, c ≠ .id value) : k.Readable := by
  refine ⟨hg, ?_⟩
  cases c with
  | id value => exact absurd rfl (hid value)
  | _ =>
    simp only [kinds, testKinds, List.mem_cons, List.not_mem_nil, or_false] at hk
    rcases hk with rfl | rfl | rfl | rfl | rfl <;> trivial

theorem isChain_kinds (c : Condition) : c.kinds.IsChain Kind.Apart := by
  cases c <;> simp [kinds, testKinds, Kind.Apart, Kind.clashes]

/-- The text of a condition with legible names is read as its kinds. -/
theorem scanned_chars {c : Condition} (hl : ∀ k ∈ c.kinds, k.Lexical)
    (hg : ∀ k ∈ c.kinds, k.Legible) (hw : AfterCondition w) :
    Kind.scanned (c.chars ++ w) = c.kinds ++ Kind.scanned w := by
  by_cases hid : ∃ value, c = .id value
  · obtain ⟨value, rfl⟩ := hid
    have hmem : idKind value ∈ kinds (.id value) := List.mem_cons_self
    have hread := reads_idKind (hl _ hmem).1 (hg _ hmem) hw.nameEnds
    have hscanned := Kind.scanned_of_reads hread
    rw [if_neg ((hg _ hmem).ne_comment _)] at hscanned
    exact hscanned
  · have hid : ∀ value, c ≠ .id value := fun value h => hid ⟨value, h⟩
    rw [chars_eq_listChars hid]
    exact Kind.scanned_listChars hl (fun k hk => readable_kinds hk (hg k hk) hid)
      (isChain_kinds c) fun k hk => clear_afterCondition hw hk hid

end Condition
section Derivations
open Grammar
variable {ks : List Kind} {s : Selector}

theorem chars_part {c : Condition} (h : Part ks c) :
    ∃ d cs, c.chars = d :: cs ∧ d ∈ ['#', '.', ':', '['] := by
  cases h with
  | id value kind => exact ⟨'#', _, rfl, by decide⟩
  | styleClass name => exact ⟨'.', _, rfl, by decide⟩
  | pseudoClass name => exact ⟨':', _, rfl, by decide⟩
  | attributeTest h =>
    cases h with
    | has name => exact ⟨'[', _, rfl, by decide⟩
    | @compares _ _ _ _ _ _ op value name =>
      cases op with
      | none => exact ⟨'[', _, rfl, by decide⟩
      | some op => exact ⟨'[', _, rfl, by decide⟩

theorem afterCondition_part {c : Condition} (h : Part ks c) (w : List Char) :
    AfterCondition (c.chars ++ w) := by
  obtain ⟨d, cs, heq, hd⟩ := chars_part h
  have hafter : d ∈ ['#', '.', ':', '[', ' ', ','] := by
    simp only [List.mem_cons, List.not_mem_nil, or_false] at hd ⊢
    rcases hd with rfl | rfl | rfl | rfl <;> simp
  rw [heq]
  exact afterCondition_cons hafter (cs ++ w)

theorem afterCondition_link {c : Combinator} (h : Link ks c) (w : List Char) :
    AfterCondition (c.chars ++ w) := by
  cases h with
  | descendant => exact afterCondition_cons (by decide) _
  | mark _ hm _ => cases hm <;> exact afterCondition_cons (by decide) _

theorem not_isBlank_head?_compound (h : Compound ks s) (hl : ∀ k ∈ s.kinds, k.Lexical)
    (hg : ∀ k ∈ s.kinds, k.Legible) (w : List Char) :
    ∀ c ∈ (s.chars ++ w).head?, isBlank c = false := by
  induction h generalizing w with
  | more _ _ ih =>
    rw [Selector.chars, List.append_assoc, List.append_assoc]
    refine ih (fun k hk => hl k ?_) (fun k hk => hg k ?_) _
    · exact List.mem_append_left _ (List.mem_append_left _ hk)
    · exact List.mem_append_left _ (List.mem_append_left _ hk)
  | head h =>
    cases h with
    | type name =>
      have hmem : Kind.ident name ∈ (Selector.simple (.type name)).kinds := List.mem_cons_self
      exact Kind.not_isBlank_head?_chars (by simp) (hl _ hmem) (hg _ hmem)
    | universal =>
      intro c hc
      obtain rfl := Option.some.inj hc
      decide
    | part h =>
      obtain ⟨d, cs, heq, hd⟩ := chars_part h
      intro c hc
      rw [Selector.chars, heq] at hc
      obtain rfl := Option.some.inj hc
      simp only [List.mem_cons, List.not_mem_nil, or_false] at hd
      rcases hd with rfl | rfl | rfl | rfl <;> decide

theorem scanned_compound (h : Compound ks s) (hl : ∀ k ∈ s.kinds, k.Lexical)
    (hg : ∀ k ∈ s.kinds, k.Legible) {w : List Char} (hw : AfterCondition w) :
    Kind.scanned (s.chars ++ w) = s.kinds ++ Kind.scanned w := by
  induction h generalizing w with
  | head h => exact Condition.scanned_chars hl hg hw
  | @more _ _ left c _ hc ih =>
    have hl' : (∀ k ∈ left.kinds, k.Lexical) ∧ ∀ k ∈ c.kinds, k.Lexical := by
      simpa [Selector.kinds, Combinator.kinds, or_imp, forall_and] using hl
    have hg' : (∀ k ∈ left.kinds, k.Legible) ∧ ∀ k ∈ c.kinds, k.Legible := by
      simpa [Selector.kinds, Combinator.kinds, or_imp, forall_and] using hg
    have hright := Condition.scanned_chars hl'.2 hg'.2 hw
    have hleft := ih hl'.1 hg'.1 (afterCondition_part hc w)
    simp only [Selector.chars, Selector.kinds, Combinator.chars, Combinator.kinds, List.append_nil,
      List.append_assoc]
    rw [hleft, hright]

theorem scanned_combinator {c : Combinator} {w : List Char}
    (hw : ∀ d ∈ w.head?, isBlank d = false) :
    Kind.scanned (c.chars ++ w) = c.kinds ++ Kind.scanned w := by
  rw [c.chars_eq_listChars]
  refine Kind.scanned_listChars ?_ ?_ ?_ ?_
  · intro k hk
    cases c <;> simp only [Combinator.kinds, List.mem_cons, List.not_mem_nil, or_false] at hk
    · rw [hk]
      trivial
    all_goals
      rcases hk with rfl | rfl | rfl
      · trivial
      · constructor <;> decide
      · trivial
  · cases c <;> simp [Combinator.kinds, Kind.Readable, Kind.Legible]
  · cases c <;> simp [Combinator.kinds, Kind.Apart, Kind.clashes]
  · intro k hk
    cases c with
    | and => cases hk
    | _ =>
      obtain rfl := Option.some.inj hk
      exact hw

theorem scanned_chain (h : Chain ks s) (hl : ∀ k ∈ s.kinds, k.Lexical)
    (hg : ∀ k ∈ s.kinds, k.Legible) {w : List Char} (hw : AfterCondition w) :
    Kind.scanned (s.chars ++ w) = s.kinds ++ Kind.scanned w := by
  induction h generalizing w with
  | first _ hc => exact scanned_compound hc hl hg hw
  | @next _ _ _ left right c _ hlink hright ih =>
    have hl' : (∀ k ∈ left.kinds, k.Lexical) ∧ ∀ k ∈ right.kinds, k.Lexical := by
      constructor <;> intro k hk <;> apply hl <;> simp [Selector.kinds, hk]
    have hg' : (∀ k ∈ left.kinds, k.Legible) ∧ ∀ k ∈ right.kinds, k.Legible := by
      constructor <;> intro k hk <;> apply hg <;> simp [Selector.kinds, hk]
    have hnear := scanned_compound hright hl'.2 hg'.2 hw
    have hmark := scanned_combinator (c := c) (not_isBlank_head?_compound hright hl'.2 hg'.2 w)
    have hfar := ih hl'.1 hg'.1 (afterCondition_link hlink (right.chars ++ w))
    simp only [Selector.chars, Selector.kinds, List.append_assoc]
    rw [hfar, hmark, hnear]

theorem not_isBlank_head?_chain (h : Chain ks s) (hl : ∀ k ∈ s.kinds, k.Lexical)
    (hg : ∀ k ∈ s.kinds, k.Legible) (w : List Char) :
    ∀ c ∈ (s.chars ++ w).head?, isBlank c = false := by
  induction h generalizing w with
  | first _ hc => exact not_isBlank_head?_compound hc hl hg w
  | next _ _ _ ih =>
    rw [Selector.chars, List.append_assoc, List.append_assoc]
    refine ih (fun k hk => hl k ?_) (fun k hk => hg k ?_) _
    · exact List.mem_append_left _ (List.mem_append_left _ hk)
    · exact List.mem_append_left _ (List.mem_append_left _ hk)

theorem intercalate_concat {α : Type} {sep x : List α} {xs : List (List α)} (h : xs ≠ []) :
    sep.intercalate (xs ++ [x]) = sep.intercalate xs ++ sep ++ x := by
  induction xs with
  | nil => exact absurd rfl h
  | cons y xs ih =>
    cases xs with
    | nil => simp
    | cons z xs =>
      rw [List.cons_append, List.cons_append, List.intercalate_cons_cons,
        List.intercalate_cons_cons, ← List.cons_append, ih (List.cons_ne_nil _ _)]
      simp only [List.append_assoc]

theorem SelectorGroup.chars_concat {g : SelectorGroup} (h : g ≠ []) (s : Selector) :
    SelectorGroup.chars (g ++ [s]) = SelectorGroup.chars g ++ [',', ' '] ++ s.chars := by
  rw [SelectorGroup.chars, List.map_append]
  exact intercalate_concat (by simpa using h)

theorem SelectorGroup.kinds_concat {g : SelectorGroup} (h : g ≠ []) (s : Selector) :
    SelectorGroup.kinds (g ++ [s]) = SelectorGroup.kinds g ++ [.comma, .blank] ++ s.kinds := by
  rw [SelectorGroup.kinds, List.map_append]
  exact intercalate_concat (by simpa using h)

theorem Grammar.Group.ne_nil {g : SelectorGroup} (h : Group ks g) : g ≠ [] := by
  cases h with
  | one _ => exact List.cons_ne_nil _ _
  | more _ _ => simp

theorem not_isBlank_head?_group {g : SelectorGroup} (h : Group ks g)
    (hl : ∀ k ∈ SelectorGroup.kinds g, k.Lexical) (hg : ∀ k ∈ SelectorGroup.kinds g, k.Legible)
    (w : List Char) : ∀ c ∈ (SelectorGroup.chars g ++ w).head?, isBlank c = false := by
  induction h generalizing w with
  | one hm =>
    obtain ⟨front, back, -, hchain, -⟩ := hm
    simp only [SelectorGroup.kinds, SelectorGroup.chars, List.map_singleton,
      List.intercalate_singleton] at hl hg ⊢
    exact not_isBlank_head?_chain hchain hl hg w
  | more hgroup _ ih =>
    rw [SelectorGroup.kinds_concat hgroup.ne_nil] at hl hg
    rw [SelectorGroup.chars_concat hgroup.ne_nil]
    simp only [List.append_assoc]
    refine ih (fun k hk => hl k ?_) (fun k hk => hg k ?_) _
    · exact List.mem_append_left _ (List.mem_append_left _ hk)
    · exact List.mem_append_left _ (List.mem_append_left _ hk)

/-- The text of a group with legible names is read as its kinds. -/
theorem scanned_group {g : SelectorGroup} (h : Group ks g)
    (hl : ∀ k ∈ SelectorGroup.kinds g, k.Lexical) (hg : ∀ k ∈ SelectorGroup.kinds g, k.Legible)
    {w : List Char} (hw : AfterCondition w) :
    Kind.scanned (SelectorGroup.chars g ++ w) = SelectorGroup.kinds g ++ Kind.scanned w := by
  induction h generalizing w with
  | one hm =>
    obtain ⟨front, back, -, hchain, -⟩ := hm
    simp only [SelectorGroup.kinds, SelectorGroup.chars, List.map_singleton,
      List.intercalate_singleton] at hl hg ⊢
    exact scanned_chain hchain hl hg hw
  | @more _ _ g s hgroup hm ih =>
    obtain ⟨front, back, -, hchain, -⟩ := hm
    have hne : g ≠ [] := hgroup.ne_nil
    rw [SelectorGroup.kinds_concat hne] at hl hg ⊢
    rw [SelectorGroup.chars_concat hne]
    have hl' : ∀ k ∈ s.kinds, k.Lexical := fun k hk => hl k (List.mem_append_right _ hk)
    have hg' : ∀ k ∈ s.kinds, k.Legible := fun k hk => hg k (List.mem_append_right _ hk)
    have hlast := scanned_chain hchain hl' hg' hw
    have hcomma : Kind.scanned ([',', ' '] ++ (s.chars ++ w)) =
        [.comma, .blank] ++ Kind.scanned (s.chars ++ w) := by
      have hcomma : Kind.Lexical .comma ∧ Kind.Readable .comma := ⟨trivial, trivial, trivial⟩
      have hspace : Kind.Lexical .blank ∧ Kind.Readable .blank := ⟨trivial, trivial, trivial⟩
      have hblank := not_isBlank_head?_chain hchain hl' hg' w
      exact (Kind.scanned_chars hcomma.1 hcomma.2 trivial).trans
        (congrArg _ (Kind.scanned_chars hspace.1 hspace.2 hblank))
    have hfirst := ih (fun k hk => hl k (by simp [hk])) (fun k hk => hg k (by simp [hk]))
      (w := [',', ' '] ++ (s.chars ++ w)) (afterCondition_cons (by decide) _)
    simp only [List.append_assoc] at hfirst ⊢
    rw [hfirst, hcomma, hlast]

end Derivations
end Selectors
end Styling
