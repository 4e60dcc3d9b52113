import Styling.Proofs.Sheet.Formed

/-! # Sheets are read from the tokens they are written as

The tokens of a written selector are a derivation of it, those of a written value are its terms,
and so the tokens of rulesets are read as these rulesets, whatever comes after them.
-/
namespace Styling
open Grammar (kinds Blanks Group)

namespace Grammar
variable {ks : List Kind} {s : Selector}

theorem AttributeTest.kinds {c : Condition} (h : AttributeTest ks c) :
    AttributeTest c.kinds c := by
  cases h with
  | has name => exact .has name .nil .nil
  | compares name _ _ ho _ _ _ =>
    cases ho with
    | equality => exact .compares name .nil .nil .equality .nil (.string _) .nil
    | comparison op => exact .compares name .nil .nil (.comparison op) .nil (.string _) .nil

theorem Part.kinds {c : Condition} (h : Part ks c) : Part c.kinds c := by
  cases h with
  | id value kind => exact .id value _
  | styleClass name => exact .styleClass name
  | pseudoClass name => exact .pseudoClass name
  | attributeTest h => exact .attributeTest h.kinds

theorem Head.kinds {c : Condition} (h : Head ks c) : Head c.kinds c := by
  cases h with
  | type name => exact .type name
  | universal => exact .universal
  | part h => exact .part h.kinds

theorem Compound.kinds (h : Compound ks s) : Compound s.kinds s := by
  induction h with
  | head h => exact .head h.kinds
  | more _ hc ih =>
    have hmore := Compound.more ih hc.kinds
    simpa [Selector.kinds, Combinator.kinds] using hmore

theorem Link.kinds {c : Combinator} (h : Link ks c) : Link c.kinds c := by
  cases h with
  | descendant => exact .descendant .blank (List.cons_ne_nil _ _)
  | mark _ hm _ =>
    cases hm with
    | child => exact .mark .blank .child .blank
    | adjacentSibling => exact .mark .blank .adjacentSibling .blank
    | generalSibling => exact .mark .blank .generalSibling .blank

theorem Chain.kinds (h : Chain ks s) : Chain s.kinds s := by
  induction h with
  | first _ hc => exact .first .nil hc.kinds
  | next _ hl hc ih => exact .next ih hl.kinds hc.kinds

theorem Chain.blank (h : Chain ks s) : Chain (.blank :: ks) s := by
  induction h with
  | @first b _ _ hb hc => exact .first (Blanks.blank.append hb) hc
  | next _ hl hc ih => exact .next ih hl hc

/-- The kinds that a group is written as stand for it, with a blank behind them too. -/
theorem Group.kinds {g : SelectorGroup} (h : Group ks g) :
    Group (SelectorGroup.kinds g) g ∧ Group (SelectorGroup.kinds g ++ [.blank]) g := by
  induction h with
  | @one _ s hm =>
    obtain ⟨front, back, -, hchain, -⟩ := hm
    constructor
    · exact .one ⟨s.kinds, [], by simp [SelectorGroup.kinds], hchain.kinds, .nil⟩
    · exact .one ⟨s.kinds, [.blank], by simp [SelectorGroup.kinds], hchain.kinds, .blank⟩
  | @more _ _ g s hgroup hm ih =>
    obtain ⟨front, back, -, hchain, -⟩ := hm
    have hkinds : SelectorGroup.kinds (g ++ [s]) =
        SelectorGroup.kinds g ++ [.comma] ++ (.blank :: s.kinds) := by
      rw [SelectorGroup.kinds_concat hgroup.ne_nil]
      simp
    rw [hkinds]
    constructor
    · exact .more ih.1 ⟨.blank :: s.kinds, [], by simp, hchain.kinds.blank, .nil⟩
    · rw [List.append_assoc]
      exact .more ih.1 ⟨.blank :: s.kinds, [.blank], rfl, hchain.kinds.blank, .blank⟩

end Grammar
variable (finish : Token) {us : List Token} (rest : List Token)

theorem kinds_eq_append {ks ls : List Kind} (h : kinds us = ks ++ ls) :
    ∃ vs ws, us = vs ++ ws ∧ kinds vs = ks ∧ kinds ws = ls := List.map_eq_append_iff.mp h

theorem kinds_eq_cons {k : Kind} {ls : List Kind} (h : kinds us = k :: ls) :
    ∃ v ws, us = v :: ws ∧ v.kind = k ∧ kinds ws = ls := List.map_eq_cons_iff.mp h

theorem readValueOf_kinds {d : Declaration} (hd : d.Formed) {start : Token} {value : List Token}
    (hvalue : kinds value = .blank :: (d.terms ++ Declaration.importantKinds d.important)) :
    readValueOf start d.property value = .declared d := by
  have hterms := valueTerms_eq hd.settled hd.nonempty hd.plain hvalue
  have hfind : value.find? (·.kind == .badString) = none := by
    rw [List.find?_eq_none]
    intro u hu hbad
    have hmem : u.kind ∈ kinds value := List.mem_map_of_mem hu
    rw [hvalue, show u.kind = .badString by simpa using hbad] at hmem
    have hterms : Kind.badString ∈ d.terms := by
      cases himportant : d.important <;>
        simpa [himportant, Declaration.importantKinds] using hmem
    exact (hd.meaningful _ hterms).2 rfl
  rw [readValueOf, hfind]
  simp only [hterms]
  rw [if_neg (by simpa using hd.nonempty)]

theorem readDeclaration_kinds {d : Declaration} (hd : d.Formed) (hus : kinds us = d.kinds)
    {t : Token} (ht : t.kind = .semicolon) : ∃ start more, us = start :: more ∧
      start.kind = .ident d.property ∧
      readDeclaration finish true start (more ++ t :: rest) = (.declared d, rest) := by
  obtain ⟨start, more, rfl, hstart, hmore⟩ := kinds_eq_cons hus
  obtain ⟨colon, value, rfl, hcolon, hvalue⟩ := kinds_eq_cons hmore
  have hclosed : Closed [] (kinds value) := by
    rw [show kinds value = .blank :: (d.terms ++ Declaration.importantKinds d.important) from hvalue,
      closed_cons_of_inert inert_blank, closed_append_of_inert]
    · exact hd.settled.closed
    · intro k hk
      cases himportant : d.important with
      | false => simp [himportant, Declaration.importantKinds] at hk
      | true =>
        simp only [himportant, Declaration.importantKinds, if_true, List.mem_cons,
          List.not_mem_nil, or_false] at hk
        rcases hk with rfl | rfl | rfl <;> trivial
  refine ⟨start, colon :: value, rfl, hstart, ?_⟩
  have hskip : skipBlanks (colon :: value ++ t :: rest) = colon :: (value ++ t :: rest) :=
    List.dropWhile_cons_of_neg (by simp [hcolon, Kind.isBlank])
  unfold readDeclaration
  rw [hstart]
  simp only [hskip, hcolon, if_true]
  rw [splitSegment_closed hclosed ht, readValueOf_kinds hd hvalue]

theorem readDeclarations_blank {t : Token} {ts : List Token} (ht : t.kind = .blank) :
    readDeclarations finish true (t :: ts) = readDeclarations finish true ts := by
  rw [readDeclarations, if_pos (by simp [ht, Kind.isBlank])]

theorem readDeclarations_ident {start : Token} {ts : List Token} {name : String}
    (hstart : start.kind = .ident name) : readDeclarations finish true (start :: ts) =
      ((readDeclaration finish true start ts).1 ::
        (readDeclarations finish true (readDeclaration finish true start ts).2).1,
        (readDeclarations finish true (readDeclaration finish true start ts).2).2) := by
  rw [readDeclarations, if_neg (by simp [hstart, Kind.isBlank]), if_neg (by simp [hstart])]

/-- Declarations that are written one after the other are read as these, whatever follows. -/
theorem readDeclarations_kinds {ds : List Declaration} (hds : ∀ d ∈ ds, d.Formed)
    (hus : kinds us = ds.flatMap fun d => d.kinds ++ [.semicolon, .blank]) :
    readDeclarations finish true (us ++ rest) =
      (ds.map .declared ++ (readDeclarations finish true rest).1,
        (readDeclarations finish true rest).2) := by
  induction ds generalizing us with
  | nil =>
    obtain rfl : us = [] := List.map_eq_nil_iff.mp hus
    rfl
  | cons d ds ih =>
    rw [List.forall_mem_cons] at hds
    rw [List.flatMap_cons, List.append_assoc] at hus
    obtain ⟨vs, ws, rfl, hvs, hws⟩ := kinds_eq_append hus
    obtain ⟨t, ws, rfl, ht, hws⟩ := kinds_eq_cons hws
    obtain ⟨b, ws, rfl, hb, hws⟩ := kinds_eq_cons hws
    obtain ⟨start, more, rfl, hstart, hread⟩ :=
      readDeclaration_kinds finish (b :: ws ++ rest) hds.1 hvs ht
    have hrest := ih hds.2 hws
    rw [List.cons_append, List.cons_append, readDeclarations_ident finish hstart, List.append_assoc]
    simp only [List.cons_append] at hread ⊢
    rw [hread]
    dsimp only
    rw [readDeclarations_blank finish hb, hrest]
    rfl

/-- No selector begins like anything else at the top of a sheet. -/
def StartsRuleset (k : Kind) : Prop :=
  k ≠ .blank ∧ k ≠ .cdo ∧ k ≠ .cdc ∧ ∀ name, k ≠ .atKeyword name

theorem startsRuleset_compound {s : Selector} {ks : List Kind} (h : Grammar.Compound ks s) :
    ∃ k more, ks = k :: more ∧ StartsRuleset k := by
  induction h with
  | head h =>
    cases h with
    | type name => exact ⟨_, _, rfl, by simp [StartsRuleset]⟩
    | universal => exact ⟨_, _, rfl, by simp [StartsRuleset]⟩
    | part h =>
      cases h with
      | attributeTest h => cases h <;> exact ⟨_, _, rfl, by simp [StartsRuleset]⟩
      | _ => exact ⟨_, _, rfl, by simp [StartsRuleset]⟩
  | more _ _ ih =>
    obtain ⟨k, more, rfl, hk⟩ := ih
    exact ⟨k, _, rfl, hk⟩

theorem startsRuleset_chain {s : Selector} {ks : List Kind} (h : Grammar.Chain ks s) :
    ∃ k more, s.kinds = k :: more ∧ StartsRuleset k := by
  induction h with
  | first _ hc => exact startsRuleset_compound hc.kinds
  | next _ _ _ ih =>
    obtain ⟨k, more, heq, hk⟩ := ih
    exact ⟨k, _, by rw [Selector.kinds, heq]; rfl, hk⟩

theorem startsRuleset_group {g : SelectorGroup} {ks : List Kind} (h : Group ks g) :
    ∃ k more, SelectorGroup.kinds g = k :: more ∧ StartsRuleset k := by
  induction h with
  | one hm =>
    obtain ⟨front, back, -, hchain, -⟩ := hm
    simpa [SelectorGroup.kinds] using startsRuleset_chain hchain
  | more hgroup _ ih =>
    obtain ⟨k, more, heq, hk⟩ := ih
    exact ⟨k, _, by rw [SelectorGroup.kinds_concat hgroup.ne_nil, heq]; rfl, hk⟩

/-- Where a selector group stands, a ruleset is read, whatever its block holds. -/
theorem readRuleset_kinds {g : SelectorGroup} {ks : List Kind} (hg : Group ks g)
    (hus : kinds us = SelectorGroup.kinds g ++ [.blank, .opening .curly]) :
    readRuleset finish (us ++ rest) =
      (.ruleset g (readDeclarations finish true rest).1, (readDeclarations finish true rest).2) := by
  obtain ⟨vs, ws, rfl, hvs, hws⟩ := kinds_eq_append
    (show kinds us = (SelectorGroup.kinds g ++ [.blank]) ++ [.opening .curly] by simpa using hus)
  obtain ⟨t, ws, rfl, ht, hws⟩ := kinds_eq_cons hws
  obtain rfl : ws = [] := List.map_eq_nil_iff.mp hws
  have hgroup : Group (kinds vs) g := hvs ▸ hg.kinds.2
  have hread : SelectorGroup.read (vs ++ t :: rest) = .ok (g, t :: rest) :=
    Grammar.read_group_eq hgroup ht
  rw [List.append_assoc, List.singleton_append]
  unfold readRuleset
  rw [hread]
  simp only [ht, if_true]

theorem readStatements_kinds {g : SelectorGroup} {ks : List Kind} (hg : Group ks g)
    (hus : kinds us = SelectorGroup.kinds g ++ [.blank, .opening .curly]) :
    readStatements finish (us ++ rest) =
      .ruleset g (readDeclarations finish true rest).1 ::
        readStatements finish (readDeclarations finish true rest).2 := by
  obtain ⟨k, more, heq, hblank, hcdo, hcdc, hat⟩ := startsRuleset_group hg
  have hread := readRuleset_kinds finish rest hg hus
  rw [heq] at hus
  obtain ⟨t, ts, rfl, ht, -⟩ := kinds_eq_cons hus
  subst ht
  rw [List.cons_append] at hread ⊢
  rw [readStatements]
  split
  · exact absurd ‹_› hblank
  · exact absurd ‹_› hcdo
  · exact absurd ‹_› hcdc
  next hk => exact absurd hk (hat _)
  · rw [hread]

theorem readStatements_blank {t : Token} {ts : List Token} (ht : t.kind = .blank) :
    readStatements finish (t :: ts) = readStatements finish ts := by
  rw [readStatements, ht]

theorem readStatements_block {r : Ruleset} (hr : r.Formed) {ds : List Declaration}
    (hds : ∀ d ∈ ds, d.Formed) (hus : kinds us = r.openKinds ++
      .blank :: ds.flatMap fun d => d.kinds ++ [.semicolon, .blank]) :
    readStatements finish (us ++ rest) =
      .ruleset r.selectors (ds.map .declared ++ (readDeclarations finish true rest).1) ::
        readStatements finish (readDeclarations finish true rest).2 := by
  obtain ⟨ks, hg⟩ := hr.selectors
  obtain ⟨opened, ws, rfl, hopened, hws⟩ := kinds_eq_append hus
  obtain ⟨b, block, rfl, hb, hblock⟩ := kinds_eq_cons hws
  have hread := readStatements_kinds finish (b :: (block ++ rest)) hg hopened
  rw [readDeclarations_blank finish hb, readDeclarations_kinds finish rest hds hblock] at hread
  rw [List.append_assoc, List.cons_append, hread]

/-- Rulesets that are written one after the other are read as these, whatever follows. -/
theorem readStatements_rulesets {rs : List Ruleset} (hrs : ∀ r ∈ rs, r.Formed)
    (hus : kinds us = rs.flatMap (·.kinds ++ [.blank])) :
    readStatements finish (us ++ rest) =
      rs.map (fun r => .ruleset r.selectors (r.declarations.map .declared)) ++
        readStatements finish rest := by
  induction rs generalizing us with
  | nil =>
    obtain rfl : us = [] := List.map_eq_nil_iff.mp hus
    rfl
  | cons r rs ih =>
    rw [List.forall_mem_cons] at hrs
    have hsplit : kinds us = (r.openKinds ++ .blank :: r.declarations.flatMap fun d =>
        d.kinds ++ [.semicolon, .blank]) ++
        .closing .curly :: .blank :: rs.flatMap (·.kinds ++ [.blank]) := by
      simpa [Ruleset.kinds_eq] using hus
    obtain ⟨block, ws, rfl, hblock, hws⟩ := kinds_eq_append hsplit
    obtain ⟨close, ws, rfl, hclose, hws⟩ := kinds_eq_cons hws
    obtain ⟨b, ws, rfl, hb, hws⟩ := kinds_eq_cons hws
    have hend : readDeclarations finish true (close :: b :: (ws ++ rest)) = ([], b :: (ws ++ rest)) := by
      rw [readDeclarations, if_neg (by simp [hclose, Kind.isBlank]), if_pos (by simp [hclose])]
    have hread := readStatements_block finish (close :: b :: (ws ++ rest)) hrs.1 hrs.1.declarations
      hblock
    rw [hend] at hread
    rw [List.append_assoc, List.cons_append, List.cons_append, hread, List.append_nil,
      readStatements_blank finish hb, ih hrs.2 hws]
    rfl

theorem readStatements_kindsBefore {rs : List Ruleset} (hrs : ∀ r ∈ rs, r.Formed) {r : Ruleset}
    (hr : r.Formed) {ds : List Declaration} (hds : ∀ d ∈ ds, d.Formed) {name : String}
    {more : List Kind} (hus : kinds us = kindsBefore rs r ds name ++ more) :
    ∃ start rest entries statements, kinds rest = .colon :: .blank :: more ∧
      readStatements finish us =
        rs.map (fun r => .ruleset r.selectors (r.declarations.map .declared)) ++
          .ruleset r.selectors
            (ds.map .declared ++ (readDeclaration finish true start rest).1 :: entries) ::
            statements := by
  rw [kindsBefore, List.append_assoc] at hus
  obtain ⟨front, ws, rfl, hfront, hws⟩ := kinds_eq_append hus
  obtain ⟨before, block, rfl, hbefore, hblock⟩ := kinds_eq_append hfront
  obtain ⟨start, rest, rfl, hstart, hrest⟩ := kinds_eq_cons hws
  have hread := readStatements_rulesets finish (block ++ start :: rest) hrs hbefore
  rw [readStatements_block finish (start :: rest) hr hds hblock,
    readDeclarations_ident finish hstart, ← List.append_assoc] at hread
  exact ⟨start, rest, _, _, hrest, hread⟩

/-- A sheet without faults is read from the tokens it is written as. -/
theorem readStatements_stylesheet {s : Stylesheet} (hs : ∀ r ∈ s.rulesets, r.Formed)
    (hus : kinds us = s.kinds) : readStatements finish us =
      s.rulesets.map fun r => .ruleset r.selectors (r.declarations.map .declared) := by
  have hread := readStatements_rulesets finish [] hs hus
  rw [List.append_nil, readStatements, List.append_nil] at hread
  exact hread

end Styling
