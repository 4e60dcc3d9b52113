import Styling.Proofs.Cascade.Agreement
import Styling.Proofs.Document.Reached
import Styling.Proofs.Sheet.Formed

/-! # Nodes that are no elements

The root of a document is no element, and further such nodes may be allocated. They have no data,
and where elements are only appended they have no parent and no earlier sibling, so nearly every
selector fails on them. Not so the universal one, which asks for nothing, and pseudo-classes that
are turned on for such a node: through these the rulesets of a sheet reach the root.
-/
namespace Styling
open Grammar (Part Head Compound Link Chain Group)

/-- Whether a condition holds of a node that has no data, but for a time some pseudo-classes. -/
def Condition.admitsBare (given : String → Bool) : Condition → Bool
  | universal => true
  | pseudoClass name => given name
  | _ => false

def Selector.admitsBare (given : String → Bool) : Selector → Bool
  | simple c => c.admitsBare given
  | combined .and left right => left.admitsBare given && right.admitsBare given
  | combined _ _ _ => false

def SelectorGroup.admitsBare (given : String → Bool) (g : SelectorGroup) : Bool :=
  g.any (Selector.admitsBare given)

namespace Grammar
variable {ks : List Kind} {c : Condition} {s : Selector} {g : SelectorGroup}

theorem Part.admitsBare_eq_false (h : Part ks c) : c.admitsBare (fun _ => false) = false := by
  cases h with
  | id | styleClass | pseudoClass => rfl
  | attributeTest htest =>
    cases htest with
    | has => rfl
    | @compares _ _ _ _ _ _ op => cases op <;> rfl

theorem Compound.admitsBare_iff (h : Compound ks s) :
    s.admitsBare (fun _ => false) = true ↔ s = .simple .universal := by
  cases h with
  | head hhead =>
    cases hhead with
    | type => simp [Selector.admitsBare, Condition.admitsBare]
    | universal => simp [Selector.admitsBare, Condition.admitsBare]
    | part hpart =>
      rw [Selector.admitsBare, hpart.admitsBare_eq_false]
      refine iff_of_false Bool.false_ne_true ?_
      rintro ⟨⟩
      cases hpart.admitsBare_eq_false
  | more _ hpart =>
    rw [Selector.admitsBare, Selector.admitsBare, hpart.admitsBare_eq_false, Bool.and_false]
    exact iff_of_false Bool.false_ne_true nofun

/-- Without given pseudo-classes only the universal selector itself matches a node that has
nothing. -/
theorem Chain.admitsBare_iff (h : Chain ks s) :
    s.admitsBare (fun _ => false) = true ↔ s = .simple .universal := by
  cases h with
  | first _ hcompound => exact hcompound.admitsBare_iff
  | next _ hlink _ =>
    refine iff_of_false ?_ nofun
    cases hlink with
    | descendant => exact Bool.false_ne_true
    | mark _ hmark _ => cases hmark <;> exact Bool.false_ne_true

theorem Group.admitsBare_iff (h : Group ks g) :
    g.admitsBare (fun _ => false) = true ↔ .simple .universal ∈ g := by
  rw [SelectorGroup.admitsBare, List.any_eq_true]
  constructor
  · rintro ⟨s, hs, hadmits⟩
    obtain ⟨front, hchain⟩ := h.chain_of_mem s hs
    exact hchain.admitsBare_iff.mp hadmits ▸ hs
  · intro hs
    exact ⟨_, hs, rfl⟩

end Grammar

namespace Document
variable {d : Document} {id : Nat}

structure Bare (d : Document) (id : Nat) : Prop where
  element : d.element? id = none
  parent : d.parent? id = none
  previous : d.previous? id = none

namespace Bare

theorem attribute?_eq_none (h : d.Bare id) (name : String) : d.model.attribute? id name = none := by
  simp only [model, h.element, Option.bind_none]

theorem holds_overlay (h : d.Bare id) (o : Overrides Nat) (c : Condition) :
    c.holds (d.model.overlay o) id = c.admitsBare (o.gives id) := by
  rw [c.holds_overlay]
  cases c with
  | attributeMatches name op value =>
    cases op <;> simp [Condition.holds, Condition.admitsBare, model, h.element]
  | _ => simp [Condition.holds, Condition.admitsBare, model, h.element]

theorem related_eq_nil (h : d.Bare id) {c : Combinator} (hc : c ≠ .and) :
    c.related d.model id = [] := by
  have hparent : d.model.parent? id = none := by
    simp only [model, h.parent, Option.filter_none]
  cases c with
  | and => exact absurd rfl hc
  | descendant => exact follow_eq_nil hparent _
  | child => exact congrArg Option.toList hparent
  | adjacentSibling => exact congrArg Option.toList h.previous
  | generalSibling => exact follow_eq_nil h.previous _

/-- The two operands of a compound are asked of the node, and any other left operand of nothing. -/
theorem match?_overlay (h : d.Bare id) (o : Overrides Nat) (s : Selector) :
    s.match? (d.model.overlay o) id = if s.admitsBare (o.gives id) then some id else none := by
  induction s with
  | simple c => rw [Selector.match?, h.holds_overlay, Selector.admitsBare]
  | combined c left right ihl ihr =>
    rw [Selector.match?, ihr]
    by_cases hc : c = .and
    · subst hc
      cases hright : right.admitsBare (o.gives id) with
      | false => simp [Selector.admitsBare, hright]
      | true =>
        cases hleft : left.admitsBare (o.gives id) <;>
          simp [Selector.admitsBare, Combinator.related, ihl, hleft, hright]
    · have hrelated : c.related (d.model.overlay o) id = [] := by
        rw [c.related_overlay, h.related_eq_nil hc]
      have hnot : (Selector.combined c left right).admitsBare (o.gives id) = false := by
        cases c with
        | and => exact absurd rfl hc
        | _ => rfl
      rw [hnot]
      cases right.admitsBare (o.gives id) <;> simp [hrelated]

theorem match?_group (h : d.Bare id) (o : Overrides Nat) (g : SelectorGroup) :
    g.match? (d.model.overlay o) id = if g.admitsBare (o.gives id) then some id else none := by
  induction g with
  | nil => rfl
  | cons s g ih =>
    rw [SelectorGroup.match?, List.findSome?_cons, h.match?_overlay, ← SelectorGroup.match?, ih,
      SelectorGroup.admitsBare, SelectorGroup.admitsBare, List.any_cons]
    cases s.admitsBare (o.gives id) <;> rfl

theorem accepts_eq (h : d.Bare id) (o : Overrides Nat) (g : SelectorGroup) :
    g.accepts (d.model.overlay o) id = g.admitsBare (o.gives id) := by
  rw [SelectorGroup.accepts, h.match?_group]
  cases SelectorGroup.admitsBare (o.gives id) g <;> rfl

end Bare
end Document

namespace Manager
variable {d : Document} {id : Nat}

def reachingBare (m : Manager) (given : String → Bool) : List MatchedRuleset :=
  m.rulesets.filter fun r => SelectorGroup.admitsBare given r.ruleset.selectors

theorem matching_of_bare (h : d.Bare id) (m : Manager) (o : Overrides Nat) :
    m.matching d.model o id = m.reachingBare (o.gives id) := by
  simp only [matching_eq_filter, h.accepts_eq, reachingBare]

theorem apply_of_bare (h : d.Bare id) (m : Manager) (o : Overrides Nat) :
    m.apply d.model o id = ((m.reachingBare (o.gives id)).flatMap fun r =>
      r.ruleset.declarations.map fun dc => ⟨r.origin, dc⟩).foldl AppliedStyles.set .empty := by
  have hreaching : m.reaching d.model o id = (m.reachingBare (o.gives id)).flatMap fun r =>
      r.ruleset.declarations.map fun dc => ⟨r.origin, dc⟩ := by
    rw [reaching, matching_of_bare h]
    cases m.settings.styleAttribute with
    | none => exact List.append_nil _
    | some name =>
      dsimp only
      rw [h.attribute?_eq_none]
      exact List.append_nil _
  rw [apply_eq_foldl, hreaching]

end Manager

namespace Document
variable {d d' : Document} {id : Nat}

/-- Built from the document that has only its root, by allocating nodes and appending elements. -/
inductive Assembled : Document → Prop
  | empty : Assembled empty
  | allocate {d : Document} (element : Option Element) : Assembled d →
      Assembled (d.allocate element)
  | append {d d' : Document} {p : Nat} {e : Element} : Assembled d → p < d.size →
      d.appendElement? p e = some d' → Assembled d'

namespace Assembled

theorem reached (h : Assembled d) : Reached d := by
  induction h with
  | empty => exact .empty
  | allocate element _ ih => exact .edit (x := .allocate element) ih trivial rfl
  | append _ hp happ ih => exact .edit (x := .appendElement _ _) ih hp happ

/-- Only elements are appended, so only elements have a parent. -/
theorem element_of_parent (h : Assembled d) {c p : Nat} (hp : d.parent? c = some p) :
    (d.element? c).isSome := by
  induction h with
  | empty => cases c <;> simp [Document.empty, parent?, get?, Node.detached] at hp
  | @allocate d element h ih =>
    rw [parent?_allocate] at hp
    have hne : c ≠ d.size := Nat.ne_of_lt (lt_size_of_parent hp)
    rw [element?_allocate, if_neg hne]
    exact ih hp
  | append _ _ happ ih =>
    rw [parent?_appendElement happ] at hp
    rw [element?_appendElement happ]
    split
    · rfl
    next hne =>
      rw [if_neg hne] at hp
      exact ih hp

theorem bare (h : Assembled d) (hid : d.element? id = none) : d.Bare id := by
  have hparent : d.parent? id = none := by
    by_contra hne
    obtain ⟨p, hp⟩ := Option.ne_none_iff_exists'.mp hne
    have helement := h.element_of_parent hp
    rw [hid] at helement
    cases helement
  exact ⟨hid, hparent, h.reached.linked.previous?_eq_none hparent⟩

/-- A node that is no element is matched by the groups, and by the rulesets of sheets, that have
the universal selector as a member, and by no others. With overrides a manager gives it just the
rulesets that match a node without data, and their declarations are its styles. -/
theorem matches_as_bare (h : Assembled d) (hid : d.element? id = none) :
    (∀ text g, SelectorGroup.parse text = .ok g →
      g.match? d.model id = if .simple .universal ∈ g then some id else none) ∧
    (∀ text, ∀ r ∈ (ParsedSheet.ofText text).stylesheet.rulesets,
      SelectorGroup.accepts d.model r.selectors id = true ↔ .simple .universal ∈ r.selectors) ∧
    ∀ (m : Manager) (o : Overrides Nat),
      m.matching d.model o id = m.reachingBare (o.gives id) ∧
      m.apply d.model o id = ((m.reachingBare (o.gives id)).flatMap fun r =>
        r.ruleset.declarations.map fun dc => ⟨r.origin, dc⟩).foldl AppliedStyles.set .empty := by
  have hbare := h.bare hid
  refine ⟨fun text g hg => ?_, fun text r hr => ?_, fun m o =>
    ⟨m.matching_of_bare hbare o, m.apply_of_bare hbare o⟩⟩
  · have hgroup := ((Grammar.parse_iff_group text).1 g).mp hg
    have hmatch : g.match? d.model id =
        if g.admitsBare (fun _ => false) then some id else none := hbare.match?_group [] g
    simp only [hmatch, hgroup.admitsBare_iff]
  · obtain ⟨ks, hgroup⟩ := group_of_mem_readStatements _ _ r hr
    have haccepts : SelectorGroup.accepts d.model r.selectors id =
        SelectorGroup.admitsBare (fun _ => false) r.selectors := hbare.accepts_eq [] r.selectors
    rw [haccepts, hgroup.admitsBare_iff]

/-- A second node that is no element is matched by `rect, *`, but not by `rect *`. -/
theorem matches_as_bare_allocated :
    Assembled (Document.empty.allocate none) ∧ (Document.empty.allocate none).element? 1 = none ∧
    (∃ g, SelectorGroup.parse "rect, *" = .ok g ∧
      g.match? (Document.empty.allocate none).model 1 = some 1) ∧
    ∃ g, SelectorGroup.parse "rect *" = .ok g ∧
      g.match? (Document.empty.allocate none).model 1 = none := by
  have h : Assembled (Document.empty.allocate none) := .allocate none .empty
  have hid : (Document.empty.allocate none).element? 1 = none := rfl
  obtain ⟨hparsed, -⟩ := h.matches_as_bare hid
  have huniversal : SelectorGroup.parse "rect, *" =
      .ok [.simple (.type "rect"), .simple .universal] := by decide +kernel
  have hbelow : SelectorGroup.parse "rect *" =
      .ok [.combined .descendant (.simple (.type "rect")) (.simple .universal)] := by decide +kernel
  refine ⟨h, hid, ⟨_, huniversal, ?_⟩, ⟨_, hbelow, ?_⟩⟩
  · rw [hparsed _ _ huniversal]
    decide
  · rw [hparsed _ _ hbelow]
    decide

/-- The universal selector matches the root of the empty document. -/
theorem not_unmatched_universal : ¬ ∀ d, Assembled d → ∀ text g,
    SelectorGroup.parse text = .ok g → g ≠ [] → ∀ id < d.size, d.element? id = none →
      g.match? d.model id = none := by
  intro h
  have hparse : SelectorGroup.parse "*" = .ok [.simple .universal] := by decide +kernel
  have hnone := h Document.empty .empty "*" _ hparse (List.cons_ne_nil _ _) root (by decide) rfl
  cases hnone

end Assembled
end Document
end Styling
