import Styling.Proofs.Document.Links

/-! # Documents grown by appending elements

A document that starts with its root and gets elements appended to nodes it has is linked, and
only its root is no element. Its nodes are numbered from the root downwards.
-/
namespace Styling.Document
open Relation

/-- Grown from the document that has only its root, each element appended to a node that is
there. -/
inductive Grown : Document → Prop
  | empty : Grown empty
  | append {d d' : Document} {p : Nat} {e : Element} : Grown d → p < d.size →
      d.appendElement? p e = some d' → Grown d'

section Append
variable {d d' : Document} {p : Nat} {e : Element}

theorem size_appendElement (h : d.appendElement? p e = some d') : d'.size = d.size + 1 := by
  simpa using size_appendChild h

theorem element?_appendElement (h : d.appendElement? p e = some d') (id : Nat) :
    d'.element? id = if id = d.size then some e else d.element? id :=
  (element?_appendChild h id).trans (element?_allocate d (some e) id)

theorem parent?_appendElement (h : d.appendElement? p e = some d') (id : Nat) :
    d'.parent? id = if id = d.size then some p else d.parent? id := by
  simpa [fresh] using parent?_appendChild h id

theorem previous?_appendElement (h : d.appendElement? p e = some d') {id : Nat}
    (hid : id < d.size) : d'.previous? id = d.previous? id := by
  simpa [fresh, Nat.ne_of_lt hid] using previous?_appendChild h id

theorem parent?_fresh (d : Document) : d.parent? d.size = none := by
  simp [parent?, get?_eq_none_of_size_le]

theorem Linked.not_above_fresh (h : Linked d) (id : Nat) : ¬ d.Above d.size id := by
  intro ha
  obtain ⟨b, -, hb⟩ := TransGen.tail'_iff.mp ha
  exact Nat.lt_irrefl _ (h.parent_lt_size hb)

theorem Linked.appendElement (h : Linked d) (hp : p < d.size)
    (ha : d.appendElement? p e = some d') : Linked d' := by
  refine (h.allocate (some e)).appendChild ?_ (Nat.ne_of_gt hp) ?_ ha
  · simpa [fresh] using parent?_fresh d
  · simpa [Above, fresh] using h.not_above_fresh p

end Append

theorem appendElement?_isSome {d : Document} {p : Nat} (hp : p < d.size) (e : Element) :
    ∃ d', d.appendElement? p e = some d' :=
  appendChild?_isSome (by simp; omega) (by simp [fresh])

namespace Grown
variable {d : Document}

theorem linked (h : Grown d) : Linked d := by
  induction h with
  | empty => exact linked_empty
  | append _ hp ha ih => exact ih.appendElement hp ha

/-- The root has no parent, and every other node is an element. -/
theorem element_iff (h : Grown d) (id : Nat) :
    (d.element? id).isSome ↔ id < d.size ∧ id ≠ root := by
  induction h with
  | empty =>
    cases id <;> simp [Document.empty, element?, get?, size, root, Node.detached]
  | append _ hp ha ih =>
    rw [element?_appendElement ha, size_appendElement ha]
    split
    · simp [root]
      omega
    · rw [ih]
      omega

theorem parent_lt (h : Grown d) {c p : Nat} (hp : d.parent? c = some p) : p < c := by
  induction h with
  | empty => cases c <;> simp [Document.empty, parent?, get?, Node.detached] at hp
  | append hd hlt ha ih =>
    rw [parent?_appendElement ha] at hp
    split at hp
    next hc =>
      cases hp
      exact hc ▸ hlt
    · exact ih hp

theorem element_of_parent (h : Grown d) {c p : Nat} (hp : d.parent? c = some p) :
    (d.element? c).isSome := by
  have hlt := h.parent_lt hp
  refine (h.element_iff c).mpr ⟨lt_size_of_parent hp, ?_⟩
  simp only [root]
  omega

end Grown
end Styling.Document
