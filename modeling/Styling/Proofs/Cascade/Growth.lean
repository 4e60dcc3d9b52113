import Mathlib.Logic.Relation
import Styling.Proofs.Cascade.Agreement

/-! # Growing does not restyle

Appending an element changes the children of its parent and what the last of them names as its
next sibling. No selector asks for either: from a node on, the links to parents and to earlier
siblings stay among the nodes that were there before. So the nodes that a document has keep, while
it grows, what matches them and what styles they get.
-/
namespace Styling
open Relation

namespace Document
variable {d d' : Document} {id : Nat}

/-- No combinator leads to a node that does not exist. -/
theorem Linked.related_lt_size (h : Linked d) (c : Combinator) (hid : id < d.size) {a : Nat}
    (ha : a ∈ c.related d.model id) : a < d.size :=
  c.related_closed (fun _ _ hs => h.parent_lt_size (model_parent?_eq_some.mp hs).1)
    (fun _ _ => h.previous_lt_size) hid ha

section Append
variable {p : Nat} {e : Element}

theorem element?_appendElement_of_lt (happ : d.appendElement? p e = some d') (hid : id < d.size) :
    d'.element? id = d.element? id := by
  rw [element?_appendElement happ, if_neg (Nat.ne_of_lt hid)]

theorem Linked.model_parent?_appendElement (h : Linked d)
    (happ : d.appendElement? p e = some d') (hid : id < d.size) :
    d.model.parent? id = d'.model.parent? id := by
  have hparent : d'.parent? id = d.parent? id := by
    rw [parent?_appendElement happ, if_neg (Nat.ne_of_lt hid)]
  simp only [model, hparent]
  cases hp : d.parent? id with
  | none => rfl
  | some q =>
    have helement := element?_appendElement_of_lt happ (h.parent_lt_size hp)
    simp only [Option.filter_some, helement]

/-- The models of a document before and after an append agree on the nodes that were there
before, although the walks of the second one have a longer bound. -/
theorem Grown.agreeOn_appendElement (h : Grown d) (happ : d.appendElement? p e = some d') :
    d.model.AgreeOn (· < d.size) d'.model := by
  have hlinked := h.linked
  have hparent (x : Nat) (hx : x < d.size) : d.model.parent? x = d'.model.parent? x :=
    hlinked.model_parent?_appendElement happ hx
  have hprevious (x : Nat) (hx : x < d.size) : d.previous? x = d'.previous? x :=
    (previous?_appendElement happ hx).symm
  have hbound : d.size ≤ d'.size := by
    rw [size_appendElement happ]
    exact Nat.le_succ d.size
  refine ⟨fun c x hx => ?_, fun c x hx => ?_, fun c x a hx => hlinked.related_lt_size c hx⟩
  · exact c.holds_model_congr (element?_appendElement_of_lt happ hx).symm
  · cases c with
    | and => rfl
    | descendant =>
      exact follow_extend hparent
        (fun _ _ hs => hlinked.parent_lt_size (model_parent?_eq_some.mp hs).1)
        (h.length_follow_parent d.size hx) hbound hx
    | child => exact congrArg Option.toList (hparent x hx)
    | adjacentSibling => exact congrArg Option.toList (hprevious x hx)
    | generalSibling =>
      exact follow_extend hprevious (fun _ _ => hlinked.previous_lt_size)
        (hlinked.length_follow_previous d.size hx) hbound hx

end Append

def Appended (d d' : Document) : Prop := ∃ p e, p < d.size ∧ d.appendElement? p e = some d'

def GrowsTo : Document → Document → Prop := ReflTransGen Appended

theorem Grown.of_appended (h : Grown d) (happ : d.Appended d') : Grown d' := by
  obtain ⟨p, e, hp, happ⟩ := happ
  exact h.append hp happ

theorem Grown.of_growsTo (h : Grown d) (hgrow : d.GrowsTo d') : Grown d' := by
  induction hgrow with
  | refl => exact h
  | tail _ happ ih => exact ih.of_appended happ

theorem GrowsTo.size_le (hgrow : d.GrowsTo d') : d.size ≤ d'.size := by
  induction hgrow with
  | refl => exact Nat.le_refl d.size
  | tail _ happ ih =>
    obtain ⟨p, e, -, happ⟩ := happ
    rw [size_appendElement happ]
    exact Nat.le_succ_of_le ih

/-- By induction on the appends, each of which keeps what the nodes of the document see. -/
theorem Grown.agreeOn_of_growsTo (h : Grown d) (hgrow : d.GrowsTo d') :
    d.model.AgreeOn (· < d.size) d'.model := by
  induction hgrow with
  | refl =>
    exact ⟨fun _ _ _ => rfl, fun _ _ _ => rfl, fun c _ _ hx => h.linked.related_lt_size c hx⟩
  | tail hgrow happ ih =>
    obtain ⟨p, e, -, happ⟩ := happ
    have hstep := (h.of_growsTo hgrow).agreeOn_appendElement happ
    exact ih.trans hstep fun x hx => Nat.lt_of_lt_of_le hx (GrowsTo.size_le hgrow)

/-- An element can be appended to every node of a grown document, and however the document grows,
its nodes keep what every selector gives for them, also with overrides, and the rulesets and
styles they get from every manager. -/
theorem Grown.keeps_styles (h : Grown d) :
    (∀ p e, p < d.size → ∃ d', d.appendElement? p e = some d' ∧ d.GrowsTo d') ∧
    ∀ d', d.GrowsTo d' → ∀ id < d.size,
      (∀ s : Selector, s.match? d'.model id = s.match? d.model id ∧
        ∀ o, s.match? (d'.model.overlay o) id = s.match? (d.model.overlay o) id) ∧
      ∀ (m : Manager) (o : Overrides Nat),
        m.apply d'.model o id = m.apply d.model o id ∧
        m.matching d'.model o id = m.matching d.model o id := by
  refine ⟨fun p e hp => ?_, fun d' hgrow id hid => ?_⟩
  · obtain ⟨d', happ⟩ := appendElement?_isSome hp e
    exact ⟨d', happ, .single ⟨p, e, hp, happ⟩⟩
  · have hagree := h.agreeOn_of_growsTo hgrow
    refine ⟨fun s => ⟨(hagree.match?_eq s hid).symm, fun o => ?_⟩, fun m o => ⟨?_, ?_⟩⟩
    · exact ((hagree.overlay o).match?_eq s hid).symm
    · exact (m.apply_eq_of_agreeOn hagree hid o).symm
    · exact (m.matching_eq_of_agreeOn hagree hid o).symm

theorem keeps_styles_drawing : ∃ d', drawing.appendElement? 1 (.ofType "rect") = some d' ∧
    drawing.next? 3 = none ∧ d'.next? 3 = some 4 ∧
    (∀ s : Selector, s.match? d'.model 3 = s.match? drawing.model 3) ∧
    ∀ (m : Manager) (o : Overrides Nat), m.apply d'.model o 3 = m.apply drawing.model o 3 := by
  obtain ⟨happend, hkeeps⟩ := grown_drawing.keeps_styles
  obtain ⟨d', happ, hgrow⟩ := happend 1 (.ofType "rect") (by decide)
  obtain ⟨hmatch, hstyles⟩ := hkeeps d' hgrow 3 (by decide)
  refine ⟨d', happ, by decide, ?_, fun s => (hmatch s).1, fun m o => (hstyles m o).1⟩
  cases happ
  rfl

end Document
end Styling
