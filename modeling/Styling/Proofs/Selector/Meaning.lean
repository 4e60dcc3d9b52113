import Mathlib.Data.List.Infix
import Styling.Proofs.Document.Growth
import Styling.Proofs.Document.Walks
import Styling.Selector.Matching

/-! # What selectors select

The meaning of a selector is a relation between documents and nodes: a condition speaks of an
element's own data, and a combinator of the nodes above or before it. In a grown document
matching computes this relation: it gives the tested element or nothing, and no walk is cut short
by the bound of the model.
-/
namespace Styling
open Relation
open scoped List

/-- The comparison that an operator stands for, between the text of a test and a value. -/
def MatchOp.Fits (op : MatchOp) (text value : List Char) : Prop :=
  match op with
  | word => text ∈ wordChars value
  | dash => value = text ∨ text ++ ['-'] <+: value
  | beginning => text ≠ [] ∧ text <+: value
  | ending => text ≠ [] ∧ text <:+ value
  | substring => text <:+: value

/-- A condition, read off the data of an element. -/
def Condition.On (c : Condition) (e : Element) : Prop :=
  match c with
  | universal => True
  | type name => e.typeName = name
  | id value => e.attribute? "id" = some value
  | styleClass name => name ∈ words ((e.attribute? "class").getD "")
  | pseudoClass name => name ∈ e.pseudoClasses
  | hasAttribute name => ∃ v, e.attribute? name = some v
  | attributeIs name value => e.attribute? name = some value
  | attributeMatches name op value =>
    ∃ v, e.attribute? name = some v ∧ op.Fits value.toList v.toList

/-- The nodes that a selector selects in a document. -/
def Selector.Selects (d : Document) : Selector → Nat → Prop
  | simple c, id => ∃ e, d.element? id = some e ∧ c.On e
  | combined .and left right, id => right.Selects d id ∧ left.Selects d id
  | combined .descendant left right, id =>
    right.Selects d id ∧ ∃ a, d.Above a id ∧ (d.element? a).isSome ∧ left.Selects d a
  | combined .child left right, id =>
    right.Selects d id ∧
      ∃ p, d.parent? id = some p ∧ (d.element? p).isSome ∧ left.Selects d p
  | combined .adjacentSibling left right, id =>
    right.Selects d id ∧
      ∃ p s, d.parent? id = some p ∧ [s, id] <:+: d.children p ∧ left.Selects d s
  | combined .generalSibling left right, id =>
    right.Selects d id ∧
      ∃ p s, d.parent? id = some p ∧ [s, id] <+ d.children p ∧ left.Selects d s

def Model.within {ε : Type} (m : Model ε) (bound : Nat) : Model ε := { m with reach := bound }

theorem occursIn_iff {part text : List Char} : occursIn part text = true ↔ part <:+: text := by
  induction text with
  | nil => simp [occursIn]
  | cons c cs ih => simp [occursIn, ih, List.infix_cons_iff]

theorem MatchOp.holds_iff (op : MatchOp) (text value : List Char) :
    op.holds text value = true ↔ op.Fits text value := by
  cases op with
  | word => simp [holds, Fits]
  | dash =>
    simp only [holds, Fits, Bool.and_eq_true, List.isPrefixOf_iff_prefix]
    constructor
    · rintro ⟨⟨rest, rfl⟩, hr⟩
      cases rest with
      | nil => simp
      | cons c rest =>
        obtain rfl : c = '-' := by simpa using hr
        exact .inr ⟨rest, by simp⟩
    · rintro (rfl | ⟨rest, rfl⟩) <;> simp
  | beginning => simp [holds, Fits]
  | ending => simp [holds, Fits]
  | substring => exact occursIn_iff

/-- Only pseudo-classes depend on the overrides. -/
theorem Condition.holds_overlay {ε : Type} [BEq ε] (m : Model ε) (o : Overrides ε) (e : ε)
    (c : Condition) : c.holds (m.overlay o) e = match c with
      | .pseudoClass name => o.gives e name || m.hasPseudoClass e name
      | c => c.holds m e := by
  cases c with
  | attributeMatches name op value => cases op <;> rfl
  | _ => rfl

section Conditions
variable {d : Document} {id : Nat} {e : Element}

theorem Condition.holds_model_congr {d d' : Document} {id : Nat}
    (h : d.element? id = d'.element? id) (c : Condition) :
    c.holds d.model id = c.holds d'.model id := by
  cases c with
  | attributeMatches name op value => cases op <;> simp only [holds, Document.model, h]
  | _ => simp only [holds, Document.model, h]

theorem Condition.holds_model_iff (he : d.element? id = some e) (bound : Nat) (c : Condition) :
    c.holds (d.model.within bound) id = true ↔ c.On e := by
  cases c with
  | universal => simp [holds, On]
  | type name => simp [holds, On, Model.within, Document.model, he]
  | id value => simp [holds, On, Model.within, Document.model, he, Element.id?]
  | styleClass name => simp [holds, On, Model.within, Document.model, he, Element.classes]
  | pseudoClass name => simp [holds, On, Model.within, Document.model, he]
  | hasAttribute name => simp [holds, On, Model.within, Document.model, he, Option.isSome_iff_exists]
  | attributeIs name value => simp [holds, On, Model.within, Document.model, he]
  | attributeMatches name op value =>
    have hop := op.holds_iff value.toList
    cases op with
    | substring =>
      simp [holds, On, Model.within, Document.model, he, Option.any_eq_true, MatchOp.Fits,
        occursIn_iff]
    | _ => simp [holds, On, Model.within, Document.model, he, Option.any_eq_true, hop]

end Conditions

namespace Document
variable {d : Document} {bound id : Nat}

theorem model_parent?_eq_some {x y : Nat} :
    d.model.parent? x = some y ↔ d.parent? x = some y ∧ (d.element? y).isSome := by
  simp [model, Option.filter_eq_some_iff]

theorem Grown.transGen_model_parent (h : Grown d) {a : Nat} :
    TransGen (fun x y => d.model.parent? x = some y) id a ↔
      d.Above a id ∧ (d.element? a).isSome := by
  constructor
  · intro ht
    obtain ⟨b, -, hb⟩ := TransGen.tail'_iff.mp ht
    exact ⟨TransGen.mono (fun _ _ hs => (model_parent?_eq_some.mp hs).1) _ _ ht,
      (model_parent?_eq_some.mp hb).2⟩
  · rintro ⟨ht, ha⟩
    induction ht with
    | single hs => exact .single (model_parent?_eq_some.mpr ⟨hs, ha⟩)
    | tail _ hs ih => exact (ih (h.element_of_parent hs)).tail (model_parent?_eq_some.mpr ⟨hs, ha⟩)

theorem Grown.length_follow_parent (h : Grown d) (bound : Nat) (hid : id < d.size) :
    (follow d.model.parent? bound id).length < d.size := by
  apply length_follow_lt _ _ bound hid
  · intro x y hs
    exact h.linked.parent_lt_size (model_parent?_eq_some.mp hs).1
  · intro x ht
    exact h.linked.acyclic x (h.transGen_model_parent.mp ht).1

theorem Grown.mem_follow_parent (h : Grown d) (hb : d.size ≤ bound) (hid : id < d.size) (a : Nat) :
    a ∈ follow d.model.parent? bound id ↔ d.Above a id ∧ (d.element? a).isSome := by
  have hl := (h.length_follow_parent bound hid).trans_le hb
  rw [← h.transGen_model_parent]
  exact ⟨transGen_of_mem_follow, mem_follow_of_transGen hl⟩

end Document

/-- Matching gives back the element it was asked about, or nothing. -/
theorem Selector.match?_eq_self {ε : Type} {m : Model ε} {s : Selector} {e x : ε}
    (h : s.match? m e = some x) : x = e := by
  induction s generalizing e x with
  | simple c =>
    simp only [match?] at h
    split at h <;> cases h
    rfl
  | combined c left right _ ihr =>
    simp only [match?] at h
    split at h
    · cases h
    next subject hr =>
      obtain rfl := ihr hr
      split at h <;> cases h
      rfl

/-- A combination matches where its right operand does and one of the related elements matches
its left operand. -/
theorem Selector.match?_combined {ε : Type} {m : Model ε} {c : Combinator} {left right : Selector}
    {e : ε} : (combined c left right).match? m e = some e ↔
      right.match? m e = some e ∧ ∃ a ∈ c.related m e, left.match? m a = some a := by
  have hself (a : ε) : (left.match? m a).isSome ↔ left.match? m a = some a := by
    constructor
    · intro h
      obtain ⟨x, hx⟩ := Option.isSome_iff_exists.mp h
      exact match?_eq_self hx ▸ hx
    · intro h
      simp [h]
  cases hr : right.match? m e with
  | none => simp [match?, hr]
  | some subject =>
    obtain rfl := match?_eq_self hr
    simp [match?, hr, List.any_eq_true, hself]

/-- A combinator stays where the links to parents and to earlier siblings lead. -/
theorem Combinator.related_closed {m : Model Nat} {inside : Nat → Prop}
    (hparent : ∀ x y, m.parent? x = some y → inside y)
    (hprevious : ∀ x y, m.previous? x = some y → inside y) (c : Combinator) {e a : Nat}
    (he : inside e) (ha : a ∈ c.related m e) : inside a := by
  cases c with
  | and => exact List.mem_singleton.mp ha ▸ he
  | descendant =>
    obtain ⟨b, -, hb⟩ := TransGen.tail'_iff.mp (transGen_of_mem_follow ha)
    exact hparent b a hb
  | child => exact hparent e a (Option.mem_toList.mp ha)
  | adjacentSibling => exact hprevious e a (Option.mem_toList.mp ha)
  | generalSibling =>
    obtain ⟨b, -, hb⟩ := TransGen.tail'_iff.mp (transGen_of_mem_follow ha)
    exact hprevious b a hb

section Grown
open Document
variable {d : Document} {bound : Nat}

/-- The elements among which a combinator seeks are elements. -/
theorem Document.Grown.related_isSome (h : Grown d) {c : Combinator} {id a : Nat}
    (hid : (d.element? id).isSome) (ha : a ∈ c.related (d.model.within bound) id) :
    (d.element? a).isSome := by
  refine c.related_closed (m := d.model.within bound)
    (fun _ _ hs => (model_parent?_eq_some.mp hs).2) (fun x y hs => ?_) hid ha
  obtain ⟨p, hp⟩ := (h.linked.previous_iff y x).mp hs
  exact h.element_of_parent ((h.linked.child_iff p y).mp (adjacent_mem hp).1)

theorem Document.Grown.match?_iff_selects (h : Grown d) (hb : d.size ≤ bound) (s : Selector)
    {id : Nat} (hid : (d.element? id).isSome) :
    s.match? (d.model.within bound) id = some id ↔ s.Selects d id := by
  induction s generalizing id with
  | simple c =>
    obtain ⟨e, he⟩ := Option.isSome_iff_exists.mp hid
    simp [Selector.match?, Selector.Selects, he, c.holds_model_iff he]
  | combined c left right ihl ihr =>
    have hlt := ((h.element_iff id).mp hid).1
    rw [Selector.match?_combined, ihr hid]
    have hleft : (∃ a ∈ c.related (d.model.within bound) id,
        left.match? (d.model.within bound) a = some a) ↔
        ∃ a ∈ c.related (d.model.within bound) id, left.Selects d a := by
      constructor
      · rintro ⟨a, ha, hm⟩
        exact ⟨a, ha, (ihl (h.related_isSome hid ha)).mp hm⟩
      · rintro ⟨a, ha, hm⟩
        exact ⟨a, ha, (ihl (h.related_isSome hid ha)).mpr hm⟩
    rw [hleft]
    cases c with
    | and => simp [Combinator.related, Selector.Selects]
    | descendant =>
      simp only [Combinator.related, Selector.Selects, Model.within,
        h.mem_follow_parent hb hlt, and_assoc]
    | child =>
      simp only [Combinator.related, Selector.Selects, Model.within, Option.mem_toList,
        model_parent?_eq_some, and_assoc]
    | adjacentSibling =>
      have hrel (a : Nat) : d.model.previous? id = some a ↔
          ∃ p, d.parent? id = some p ∧ [a, id] <:+: d.children p := by
        refine (h.linked.previous_iff a id).trans (exists_congr fun p => ?_)
        exact ⟨fun hp => ⟨(h.linked.child_iff p id).mp (adjacent_mem hp).2, hp⟩, fun hp => hp.2⟩
      simp only [Combinator.related, Selector.Selects, Model.within, Option.mem_toList, hrel]
      grind
    | generalSibling =>
      have hrel (a : Nat) : a ∈ follow d.model.previous? bound id ↔
          ∃ p, d.parent? id = some p ∧ [a, id] <+ d.children p :=
        h.linked.mem_follow_previous hb hlt a
      simp only [Combinator.related, Selector.Selects, Model.within, hrel]
      grind

/-- In a grown document every walk from an element ends by itself, and matching a selector or a
group gives the element exactly if it is selected. -/
theorem Document.Grown.match?_computes_selects (h : Grown d) (hb : d.size ≤ bound) {id : Nat}
    (hid : (d.element? id).isSome) :
    ((follow d.model.parent? bound id).length < d.size ∧
      (follow d.model.previous? bound id).length < d.size) ∧
    (∀ s : Selector, (s.Selects d id → s.match? (d.model.within bound) id = some id) ∧
      (¬ s.Selects d id → s.match? (d.model.within bound) id = none)) ∧
    ∀ g : SelectorGroup,
      ((∃ s ∈ g, s.Selects d id) → g.match? (d.model.within bound) id = some id) ∧
      ((∀ s ∈ g, ¬ s.Selects d id) → g.match? (d.model.within bound) id = none) := by
  have hlt := ((h.element_iff id).mp hid).1
  have hnone (s : Selector) (hs : ¬ s.Selects d id) :
      s.match? (d.model.within bound) id = none := by
    rw [Option.eq_none_iff_forall_ne_some]
    intro x hx
    obtain rfl := Selector.match?_eq_self hx
    exact hs ((h.match?_iff_selects hb s hid).mp hx)
  refine ⟨⟨h.length_follow_parent bound hlt, h.linked.length_follow_previous bound hlt⟩,
    fun s => ⟨(h.match?_iff_selects hb s hid).mpr, hnone s⟩, fun g => ⟨?_, ?_⟩⟩
  · rintro ⟨s, hs, hsel⟩
    have hsome : (g.match? (d.model.within bound) id).isSome := by
      refine List.findSome?_isSome_iff.mpr ⟨s, hs, ?_⟩
      rw [(h.match?_iff_selects hb s hid).mpr hsel]
      rfl
    obtain ⟨x, hx⟩ := Option.isSome_iff_exists.mp hsome
    obtain ⟨t, -, ht⟩ := List.exists_of_findSome?_eq_some hx
    exact Selector.match?_eq_self ht ▸ hx
  · intro hg
    exact List.findSome?_eq_none_iff.mpr fun s hs => hnone s (hg s hs)

end Grown

def drawing : Document :=
  ⟨[⟨none, none, [1], none, none⟩, ⟨some (.ofType "layer"), some 0, [2, 3], none, none⟩,
    ⟨some (.ofType "rect"), some 1, [], some 3, none⟩,
    ⟨some (.ofType "text"), some 1, [], none, some 2⟩]⟩

theorem grown_drawing : drawing.Grown :=
  .append (.append (.append .empty (p := 0) (by decide) rfl) (p := 1) (by decide) rfl) (p := 1)
    (by decide) (e := .ofType "text") rfl

theorem match?_drawing_text : drawing.Grown ∧ drawing.size ≤ 9 ∧ (drawing.element? 3).isSome ∧
    (Selector.combined .child (.simple (.type "layer"))
      (.combined .generalSibling (.simple (.type "rect")) (.simple (.type "text")))).match?
        (drawing.model.within 9) 3 = some 3 := by
  refine ⟨grown_drawing, by decide, by decide,
    ((grown_drawing.match?_computes_selects (by decide) (by decide)).2.1 _).1 ?_⟩
  refine ⟨⟨⟨_, rfl, rfl⟩, 1, 2, rfl, by decide, _, rfl, rfl⟩, 1, rfl, by decide, _, rfl, rfl⟩

end Styling
