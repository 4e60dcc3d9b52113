import Styling.Proofs.Document.Walks
import Styling.Proofs.Selector.Meaning

/-! # Nodes that are appended again

Appending links a node to its new parent and to the last child there, and takes nothing back. So
it moves no node that has a parent already: the former parent keeps it as a child, the former
neighbours keep naming it, and a node that was the last child of the new parent before becomes a
neighbour of itself.
-/
namespace Styling.Document

/-- A node has been moved: the links mirror each other, it is the last child of its new parent and
a child of no other node, and its former neighbours are linked to each other. -/
structure Moved (d d' : Document) (p c : Nat) : Prop where
  linked : Linked d'
  last : (d'.children p).getLast? = some c
  only : ∀ q, c ∈ d'.children q → q = p
  closed : ∀ a b, d.previous? c = some a → d.next? c = some b →
    d'.next? a = some b ∧ d'.previous? b = some a

/-- A node has been appended to `p`, and the links to its place below `q` are still there. -/
structure LeftBehind (d d' : Document) (q p c : Nat) : Prop where
  children : ∀ x, c ∈ d'.children x ↔ x = p ∨ x = q
  before : ∀ a, d.previous? c = some a → d'.next? a = some c
  after : ∀ b, d.next? c = some b → d'.previous? b = some c

section Append
variable {d d' : Document} {p q c : Nat}

theorem getLast?_children_appendChild (happ : d.appendChild? p c = some d') :
    (d'.children p).getLast? = some c := by
  rw [children_appendChild happ, if_pos rfl]
  exact List.getLast?_concat

/-- The last child of the new parent becomes its own neighbour. -/
theorem neighbours_appendChild_last (happ : d.appendChild? p c = some d')
    (hlast : (d.children p).getLast? = some c) :
    d'.next? c = some c ∧ d'.previous? c = some c := by
  obtain ⟨-, hc, -⟩ := appendChild?_eq happ
  rw [next?_appendChild happ, previous?_appendChild happ, if_pos ⟨hlast, hc⟩, if_pos rfl, hlast]
  exact ⟨rfl, rfl⟩

namespace Linked

theorem adjacent_ne (h : Linked d) {a b : Nat} (hab : d.Adjacent a b) : a ≠ b := by
  obtain ⟨r, hr⟩ := hab
  have hnodup : [a, b].Nodup := hr.sublist.nodup (h.nodup r)
  simpa using hnodup

/-- Below another parent the node is a child of two, and below the same one a child twice. -/
theorem not_linked_appendChild (h : Linked d) (hq : d.parent? c = some q)
    (happ : d.appendChild? p c = some d') : ¬ Linked d' := by
  intro h'
  have hchild : c ∈ d.children q := (h.child_iff q c).mpr hq
  by_cases hqp : q = p
  · subst hqp
    have hnodup := h'.nodup q
    rw [children_appendChild happ, if_pos rfl] at hnodup
    exact (List.nodup_append.mp hnodup).2.2 c hchild c List.mem_cons_self rfl
  · have hkept : c ∈ d'.children q := by rwa [children_appendChild happ, if_neg hqp]
    have hparent := (h'.child_iff q c).mp hkept
    rw [parent?_appendChild happ, if_pos rfl] at hparent
    exact hqp (Option.some.inj hparent).symm

theorem leftBehind (h : Linked d) (hq : d.parent? c = some q)
    (happ : d.appendChild? p c = some d') : LeftBehind d d' q p c where
  children x := by
    rw [children_appendChild happ]
    by_cases hx : x = p
    · simp [hx]
    · rw [if_neg hx, h.child_iff, hq, Option.some_inj, eq_comm]
      simp [hx]
  before a ha := by
    have hnext : d.next? a = some c := (h.next_iff a c).mpr ((h.previous_iff a c).mp ha)
    rw [next?_appendChild happ, hnext, ite_self]
  after b hb := by
    have hadj : d.Adjacent c b := (h.next_iff c b).mp hb
    rw [previous?_appendChild happ, if_neg (h.adjacent_ne hadj).symm]
    exact (h.previous_iff c b).mpr hadj

theorem moved_appendChild (h : Linked d) (hc : d.parent? c = none) (hne : c ≠ p)
    (hab : ¬ d.Above c p) (happ : d.appendChild? p c = some d') : Moved d d' p c where
  linked := h.appendChild hc hne hab happ
  last := getLast?_children_appendChild happ
  only q hq := by
    by_contra hqp
    rw [children_appendChild happ, if_neg hqp, h.child_iff, hc] at hq
    cases hq
  closed a b ha _ := by
    rw [h.previous?_eq_none hc] at ha
    cases ha

/-- A node that is neither the new parent nor above it is appended as the last child, without a
cycle. This moves it just if it had no parent. Otherwise the links of its former place remain and
no longer mirror each other. -/
theorem appendChild_moved_iff (h : Linked d) (hp : p < d.size) (hc : c < d.size) (hne : c ≠ p)
    (hab : ¬ d.Above c p) : ∃ d', d.appendChild? p c = some d' ∧
      d'.parent? c = some p ∧ (d'.children p).getLast? = some c ∧ (∀ x, ¬ d'.Above x x) ∧
      (Moved d d' p c ↔ d.parent? c = none) ∧
      ∀ q, d.parent? c = some q → ¬ Linked d' ∧ LeftBehind d d' q p c ∧
        ((d.children p).getLast? = some c → d'.next? c = some c ∧ d'.previous? c = some c) := by
  obtain ⟨d', happ⟩ := appendChild?_isSome hp hc
  have hparent : d'.parent? c = some p := by rw [parent?_appendChild happ, if_pos rfl]
  refine ⟨d', happ, hparent, getLast?_children_appendChild happ,
    h.acyclic_appendChild hne hab happ, ⟨fun hmoved => ?_, fun hdetached => ?_⟩, fun q hq => ?_⟩
  · by_contra hattached
    obtain ⟨q, hq⟩ := Option.ne_none_iff_exists'.mp hattached
    exact h.not_linked_appendChild hq happ hmoved.linked
  · exact h.moved_appendChild hdetached hne hab happ
  · exact ⟨h.not_linked_appendChild hq happ, h.leftBehind hq happ,
      neighbours_appendChild_last happ⟩

end Linked
end Append

theorem appendChild_moved_drawing : ∃ d', drawing.appendChild? root 2 = some d' ∧
    ¬ Moved drawing d' root 2 ∧ ¬ Linked d' ∧ 2 ∈ d'.children 1 ∧ d'.previous? 3 = some 2 := by
  obtain ⟨d', happ, -, -, -, hmoved, hleft⟩ := grown_drawing.linked.appendChild_moved_iff
    (p := root) (c := 2) (by decide) (by decide) (by decide) (not_above_of_detached rfl 2)
  obtain ⟨hlinked, hbehind, -⟩ := hleft 1 rfl
  refine ⟨d', happ, fun h => ?_, hlinked, (hbehind.children 1).mpr (.inr rfl),
    hbehind.after 3 rfl⟩
  have hdetached := hmoved.mp h
  cases hdetached

/-- Appending the rectangle of the drawing to the root does not move it there. -/
theorem not_moved_drawing : ¬ ∀ d d' p c, Linked d → (d.parent? c).isSome → p < d.size → c ≠ p →
    ¬ d.Above c p → d.appendChild? p c = some d' → Moved d d' p c := by
  intro h
  have hmoved := h drawing _ root 2 grown_drawing.linked rfl (by decide) (by decide)
    (not_above_of_detached rfl 2) rfl
  have honly := hmoved.only 1 (by decide)
  cases honly

end Styling.Document
