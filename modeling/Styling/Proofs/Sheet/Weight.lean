import Styling.Proofs.Sheet.Formed

/-! # What a sheet holds of its text

A sheet holds no more than the tokens it is read from. Whatever is counted, the tokens that a
sheet is written as count no more than those of the text, provided that what the writer adds
counts nothing and what it rewrites no more than before.
-/
namespace Styling
open Grammar (kinds Part AttributeTest Head Compound Link Chain Group)
open scoped List

def weight (φ : Kind → Nat) : List Kind → Nat
  | [] => 0
  | k :: ks => φ k + weight φ ks

/-- What the writer adds: blanks, brackets, separators and marks of importance. -/
def layoutKinds : List Kind :=
  [.blank, .comma, .colon, .semicolon, .opening .curly, .closing .curly, .delim '!',
    .ident "important"]

/-- A measure that the writer does not raise when it quotes the values of attributes and
restores the kinds of hashes. -/
structure Lenient (φ : Kind → Nat) : Prop where
  layout : ∀ k ∈ layoutKinds, φ k = 0
  string : ∀ value, φ (.string value) ≤ φ (.ident value)
  hash : ∀ value kind, φ (idKind value) ≤ φ (.hash value kind)

section Lists
variable (φ : Kind → Nat) {ks ls : List Kind}

@[simp] theorem weight_nil : weight φ [] = 0 := rfl

@[simp] theorem weight_cons (k : Kind) (ks : List Kind) :
    weight φ (k :: ks) = φ k + weight φ ks := rfl

@[simp] theorem weight_append (ks ls : List Kind) :
    weight φ (ks ++ ls) = weight φ ks + weight φ ls := by
  induction ks with
  | nil => simp
  | cons k ks ih =>
    rw [List.cons_append, weight_cons, weight_cons, ih]
    omega

theorem weight_sublist (h : ks <+ ls) : weight φ ks ≤ weight φ ls := by
  induction h with
  | slnil => exact le_refl _
  | cons k _ ih =>
    rw [weight_cons]
    omega
  | cons_cons k _ ih =>
    rw [weight_cons, weight_cons]
    omega

theorem weight_suffix {ts rest : List Token} (h : rest <:+ ts) :
    weight φ (kinds rest) ≤ weight φ (kinds ts) := weight_sublist φ (h.sublist.map Token.kind)

variable {φ}

theorem weight_eq_zero : weight φ ks = 0 ↔ ∀ k ∈ ks, φ k = 0 := by
  induction ks with
  | nil => simp
  | cons k ks ih => simp [ih]

end Lists
section Measures
variable {φ : Kind → Nat} (hφ : Lenient φ)
include hφ

theorem Lenient.blank : φ .blank = 0 := hφ.layout _ (by simp [layoutKinds])

section Selectors
variable {ks : List Kind} {s : Selector}

theorem weight_attributeTest {c : Condition} (h : AttributeTest ks c) :
    weight φ c.kinds ≤ weight φ ks := by
  cases h with
  | has name _ _ =>
    simp only [Condition.kinds, weight_append, weight_cons, weight_nil]
    omega
  | @compares _ _ _ _ _ v _ value name _ _ ho _ hv _ =>
    have hvalue : φ (.string value) ≤ φ v := by
      cases hv with
      | ident => exact hφ.string value
      | string => exact le_refl _
    cases ho <;>
      simp only [Condition.attributeTest, Condition.kinds, Condition.testKinds, weight_append,
        weight_cons, weight_nil] <;>
      omega

theorem weight_part {c : Condition} (h : Part ks c) : weight φ c.kinds ≤ weight φ ks := by
  cases h with
  | id value kind =>
    have hhash := hφ.hash value kind
    simp only [Condition.kinds, weight_cons, weight_nil]
    omega
  | styleClass name => exact le_refl _
  | pseudoClass name => exact le_refl _
  | attributeTest h => exact weight_attributeTest hφ h

theorem weight_compound (h : Compound ks s) : weight φ s.kinds ≤ weight φ ks := by
  induction h with
  | head h =>
    cases h with
    | type name => exact le_refl _
    | universal => exact le_refl _
    | part h => exact weight_part hφ h
  | more _ hc ih =>
    have hpart := weight_part hφ hc
    simp only [Selector.kinds, Combinator.kinds, weight_append, weight_nil]
    omega

theorem weight_link {c : Combinator} (h : Link ks c) : weight φ c.kinds ≤ weight φ ks := by
  have hblank := hφ.blank
  cases h with
  | descendant =>
    simp only [Combinator.kinds, weight_cons, weight_nil]
    omega
  | mark _ hm _ =>
    cases hm <;> simp only [Combinator.kinds, weight_append, weight_cons, weight_nil] <;> omega

theorem weight_chain (h : Chain ks s) : weight φ s.kinds ≤ weight φ ks := by
  induction h with
  | first _ hc =>
    have hcompound := weight_compound hφ hc
    rw [weight_append]
    omega
  | next _ hl hc ih =>
    have hlink := weight_link hφ hl
    have hcompound := weight_compound hφ hc
    simp only [Selector.kinds, weight_append]
    omega

theorem weight_group {g : SelectorGroup} (h : Group ks g) :
    weight φ (SelectorGroup.kinds g) ≤ weight φ ks := by
  have hblank := hφ.blank
  induction h with
  | @one _ s hm =>
    obtain ⟨front, back, rfl, hchain, -⟩ := hm
    have hweight := weight_chain hφ hchain
    rw [show SelectorGroup.kinds [s] = s.kinds from List.intercalate_singleton, weight_append]
    omega
  | more hgroup hm ih =>
    obtain ⟨front, back, rfl, hchain, -⟩ := hm
    have hweight := weight_chain hφ hchain
    rw [SelectorGroup.kinds_concat hgroup.ne_nil]
    simp only [weight_append, weight_cons, weight_nil]
    omega

end Selectors
section Sheets
variable {finish : Token} {ts rest : List Token}

omit hφ in
theorem weight_splitSegment (φ : Kind → Nat) (curly : Bool) (stack : OpenBrackets)
    (ts : List Token) : weight φ (kinds (splitSegment curly stack ts).1) +
      weight φ (kinds (splitSegment curly stack ts).2) ≤ weight φ (kinds ts) := by
  induction ts generalizing stack with
  | nil => exact le_refl _
  | cons t ts ih =>
    have hrest := ih (stack.track t.kind)
    unfold splitSegment
    split
    · simp [kinds]
    split
    · simp [kinds]
    · simp only [kinds, List.map_cons, weight_cons] at hrest ⊢
      omega

omit hφ in
theorem weight_valueTerms (φ : Kind → Nat) (value : List Token) :
    weight φ (valueTerms value).1 ≤ weight φ (kinds value) :=
  weight_sublist φ ((prefix_valueTerms value).sublist.trans (collapseBlanks_sublist true _))

theorem weight_readDeclaration {curly : Bool} {start : Token} {d : Declaration}
    (h : readDeclaration finish curly start ts = (.declared d, rest)) :
    weight φ d.kinds + weight φ (kinds rest) ≤ weight φ (kinds (start :: ts)) := by
  obtain ⟨t, after, hstart, hskip, hcolon, rfl, -, hvalue, -⟩ := readDeclaration_declared h
  have hsplit := weight_splitSegment φ true [] after
  have hterms := weight_valueTerms φ (splitSegment true [] after).1
  rw [hvalue] at hterms
  have hafter := weight_suffix φ (skipBlanks_suffix ts)
  rw [hskip] at hafter
  have himportant : weight φ (Declaration.importantKinds d.important) = 0 := by
    rw [weight_eq_zero]
    intro k hk
    apply hφ.layout
    cases hi : d.important with
    | false => simp [hi, Declaration.importantKinds] at hk
    | true =>
      simp only [hi, Declaration.importantKinds, if_true, List.mem_cons, List.not_mem_nil,
        or_false] at hk
      rcases hk with rfl | rfl | rfl <;> simp [layoutKinds]
  have hblank := hφ.blank
  simp only [kinds, List.map_cons, weight_cons, Declaration.kinds, weight_append, weight_nil,
    hstart, hcolon] at hafter hsplit hterms ⊢
  omega

theorem weight_readDeclarations (finish : Token) (ts : List Token) :
    weight φ ((declarationsOf (readDeclarations finish true ts).1).flatMap
        fun d => d.kinds ++ [.semicolon, .blank]) +
      weight φ (kinds (readDeclarations finish true ts).2) ≤ weight φ (kinds ts) := by
  have hlayout : weight φ [.semicolon, .blank] = 0 := by
    have hsubset : [.semicolon, .blank] ⊆ layoutKinds := by simp [layoutKinds]
    exact weight_eq_zero.mpr fun k hk => hφ.layout k (hsubset hk)
  fun_induction readDeclarations finish true ts with
  | case1 => exact le_refl _
  | case2 t ts _ ih => exact ih.trans (weight_suffix φ (List.suffix_cons t ts))
  | case3 t ts =>
    have hrest := weight_suffix φ (List.suffix_cons t ts)
    simpa [declarationsOf] using hrest
  | case4 t ts _ _ first rest ih =>
    cases hfirst : first.1 with
    | declared d =>
      have hread : readDeclaration finish true t ts = (.declared d, first.2) := by rw [← hfirst]
      have hweight := weight_readDeclaration hφ hread
      have ih : weight φ ((declarationsOf rest.1).flatMap fun d => d.kinds ++ [.semicolon, .blank]) +
        weight φ (kinds rest.2) ≤ weight φ (kinds first.2) := ih
      simp only [declarationsOf, List.filterMap_cons, Entry.declaration?, List.flatMap_cons,
        weight_append] at ih hlayout ⊢
      omega
    | malformed f =>
      have hsuffix := weight_suffix φ
        ((readDeclaration_suffix finish true t ts).trans (List.suffix_cons t ts))
      simp only [declarationsOf, List.filterMap_cons, Entry.declaration?] at ih ⊢
      exact ih.trans hsuffix

theorem weight_readRuleset {g : SelectorGroup} {entries : List Entry}
    (h : readRuleset finish ts = (.ruleset g entries, rest)) :
    weight φ (Ruleset.kinds ⟨g, declarationsOf entries⟩) + weight φ (kinds rest) ≤
      weight φ (kinds ts) := by
  obtain ⟨used, t, after, rfl, hgroup, ht, hbody⟩ := readRuleset_ruleset h
  have hselectors := weight_group hφ hgroup
  have hdeclarations := weight_readDeclarations hφ finish after
  rw [hbody] at hdeclarations
  have hopen : φ (.opening .curly) = 0 := hφ.layout _ (by simp [layoutKinds])
  have hclose : φ (.closing .curly) = 0 := hφ.layout _ (by simp [layoutKinds])
  have hblank := hφ.blank
  simp only [Ruleset.kinds, kinds, List.map_append, List.map_cons, weight_append, weight_cons,
    weight_nil] at hselectors hdeclarations ⊢
  omega

/-- A sheet counts no more than the tokens it is read from. -/
theorem weight_readStatements (finish : Token) (ts : List Token) :
    weight φ (Stylesheet.kinds ⟨(readStatements finish ts).filterMap Statement.ruleset?⟩) ≤
      weight φ (kinds ts) := by
  have hblank := hφ.blank
  fun_induction readStatements finish ts with
  | case1 => exact le_refl _
  | case2 t ts _ ih => exact ih.trans (weight_suffix φ (List.suffix_cons t ts))
  | case3 t ts _ ih => exact ih.trans (weight_suffix φ (List.suffix_cons t ts))
  | case4 t ts _ ih => exact ih.trans (weight_suffix φ (List.suffix_cons t ts))
  | case5 t ts name _ ih =>
    exact ih.trans (weight_suffix φ ((skipAtRule_suffix ts).trans (List.suffix_cons t ts)))
  | case6 t ts first _ _ _ _ ih =>
    rcases readRuleset_cases finish (t :: ts) with ⟨g, entries, hfirst⟩ | ⟨f, hfirst⟩
    · have hread : readRuleset finish (t :: ts) = (.ruleset g entries, first.2) := by rw [← hfirst]
      have hweight := weight_readRuleset hφ hread
      rw [show first.1 = .ruleset g entries from hfirst]
      simp only [Stylesheet.kinds, List.filterMap_cons, Statement.ruleset?, List.flatMap_cons,
        weight_append, weight_cons, weight_nil] at ih ⊢
      omega
    · rw [show first.1 = .malformed f from hfirst]
      exact ih.trans (weight_suffix φ (readRuleset_suffix finish (t :: ts)))

end Sheets
end Measures

/-- A property of tokens that the writer keeps. -/
structure Inherited (P : Kind → Prop) : Prop where
  layout : ∀ k ∈ layoutKinds, P k
  string : ∀ value, P (.ident value) → P (.string value)
  hash : ∀ value kind, P (.hash value kind) → P (idKind value)

namespace Inherited
variable {P : Kind → Prop} {ts : List Token}

open scoped Classical in
theorem lenient (h : Inherited P) : Lenient fun k => if P k then 0 else 1 := by
  have hle {k l : Kind} (hkl : P k → P l) :
      (if P l then 0 else 1) ≤ (if P k then 0 else 1 : Nat) := by
    by_cases hk : P k
    · rw [if_pos (hkl hk)]
      exact Nat.zero_le _
    · rw [if_neg hk]
      split <;> omega
  constructor
  · intro k hk
    exact if_pos (h.layout k hk)
  · intro value
    exact hle (h.string value)
  · intro value kind
    exact hle (h.hash value kind)

theorem of_weight_le {ks ls : List Kind} (h : Inherited P)
    (hle : ∀ φ, Lenient φ → weight φ ks ≤ weight φ ls) (hls : ∀ k ∈ ls, P k) : ∀ k ∈ ks, P k := by
  classical
  have hzero : weight (fun k => if P k then 0 else 1) ls = 0 := by
    rw [weight_eq_zero]
    intro k hk
    exact if_pos (hls k hk)
  have hle := hle _ h.lenient
  rw [hzero, Nat.le_zero, weight_eq_zero] at hle
  intro k hk
  by_contra hne
  have hk := hle k hk
  rw [if_neg hne] at hk
  cases hk

/-- What holds of all tokens of a text holds of those that its sheet is written as. -/
theorem kinds_stylesheet (h : Inherited P) (finish : Token) (hts : ∀ k ∈ kinds ts, P k) :
    ∀ k ∈ Stylesheet.kinds ⟨(readStatements finish ts).filterMap Statement.ruleset?⟩, P k :=
  h.of_weight_le (fun _ hφ => weight_readStatements hφ finish ts) hts

/-- What holds of all tokens of a group holds of those that it is written as. -/
theorem kinds_group {g : SelectorGroup} {ks : List Kind} (h : Inherited P) (hgroup : Group ks g)
    (hks : ∀ k ∈ ks, P k) : ∀ k ∈ SelectorGroup.kinds g, P k :=
  h.of_weight_le (fun _ hφ => weight_group hφ hgroup) hks

end Inherited

theorem inherited_lexical : Inherited Kind.Lexical := by
  constructor
  · intro k hk
    simp only [layoutKinds, List.mem_cons, List.not_mem_nil, or_false] at hk
    rcases hk with rfl | rfl | rfl | rfl | rfl | rfl | rfl | rfl <;> try trivial
    · constructor <;> decide
    · exact show "important" ≠ "" by decide
  · intro value _
    trivial
  · rintro value kind ⟨hne, -⟩
    refine ⟨hne, ?_⟩
    split
    next h =>
      rw [h]
      intro _
      decide
    · intro h
      cases h

theorem inherited_ne_backslash : Inherited (· ≠ .delim '\\') := by
  constructor
  · simp [layoutKinds]
  · simp
  · simp [idKind]

theorem inherited_name : Inherited (·.name? ≠ some "-") := by
  constructor
  · simp [layoutKinds, Kind.name?]
  · simp [Kind.name?]
  · simp [idKind, Kind.name?]

theorem lenient_payload (c : Char) (hc : c ≠ '!' ∧ c ∉ "important".toList) :
    Lenient fun k => k.payload.count c := by
  constructor
  · intro k hk
    rw [List.count_eq_zero]
    simp only [layoutKinds, List.mem_cons, List.not_mem_nil, or_false] at hk
    rcases hk with rfl | rfl | rfl | rfl | rfl | rfl | rfl | rfl
    case inr.inr.inr.inr.inr.inr.inl => simpa [Kind.payload] using hc.1
    case inr.inr.inr.inr.inr.inr.inr => exact hc.2
    all_goals simp [Kind.payload]
  · intro value
    exact le_refl _
  · intro value kind
    exact le_refl _

end Styling
