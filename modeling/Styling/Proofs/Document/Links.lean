import Mathlib.Data.List.Infix
import Mathlib.Data.List.Nodup
import Mathlib.Logic.Relation
import Styling.Document

/-! # Links between nodes

The links of a document mirror each other: a node is among the children of its parent, its
neighbours there are the ones it names, and no chain of parents closes. Allocating a node changes
no link, and appending a detached node keeps the links mirrored.
-/
namespace Styling
open Relation

namespace Document

theorem get?_update (d : Document) (i j : Nat) (f : Node → Node) :
    (d.update i f).get? j = if i = j then (d.get? j).map f else d.get? j := by
  simp only [update, get?, List.getElem?_modify]
  split <;> simp

@[simp] theorem size_update (d : Document) (i : Nat) (f : Node → Node) :
    (d.update i f).size = d.size := by
  simp [update, size]

theorem get?_allocate (d : Document) (e : Option Element) (id : Nat) :
    (d.allocate e).get? id = if id = d.size then some (Node.detached e) else d.get? id := by
  simp only [allocate, get?, size, List.getElem?_append, List.getElem?_singleton]
  grind

theorem get?_eq_none_of_size_le {d : Document} {id : Nat} (h : d.size ≤ id) : d.get? id = none :=
  List.getElem?_eq_none h

theorem lt_size_of_get? {d : Document} {id : Nat} {n : Node} (h : d.get? id = some n) :
    id < d.size := by
  by_contra hge
  rw [get?_eq_none_of_size_le (Nat.not_lt.mp hge)] at h
  cases h

@[simp] theorem size_allocate (d : Document) (e : Option Element) :
    (d.allocate e).size = d.size + 1 := by
  simp [allocate, size]

@[simp] theorem children_allocate (d : Document) (e : Option Element) (id : Nat) :
    (d.allocate e).children id = d.children id := by
  by_cases h : id = d.size
  · simp [children, get?_allocate, h, get?_eq_none_of_size_le, Node.detached]
  · simp [children, get?_allocate, h]

@[simp] theorem parent?_allocate (d : Document) (e : Option Element) (id : Nat) :
    (d.allocate e).parent? id = d.parent? id := by
  by_cases h : id = d.size
  · simp [parent?, get?_allocate, h, get?_eq_none_of_size_le, Node.detached]
  · simp [parent?, get?_allocate, h]

@[simp] theorem next?_allocate (d : Document) (e : Option Element) (id : Nat) :
    (d.allocate e).next? id = d.next? id := by
  by_cases h : id = d.size
  · simp [next?, get?_allocate, h, get?_eq_none_of_size_le, Node.detached]
  · simp [next?, get?_allocate, h]

@[simp] theorem previous?_allocate (d : Document) (e : Option Element) (id : Nat) :
    (d.allocate e).previous? id = d.previous? id := by
  by_cases h : id = d.size
  · simp [previous?, get?_allocate, h, get?_eq_none_of_size_le, Node.detached]
  · simp [previous?, get?_allocate, h]

theorem element?_allocate (d : Document) (e : Option Element) (id : Nat) :
    (d.allocate e).element? id = if id = d.size then e else d.element? id := by
  by_cases h : id = d.size
  · simp [element?, get?_allocate, h, Node.detached]
  · simp [element?, get?_allocate, h]

section Append
variable {d d' : Document} {p c : Nat}

/-- What appending changes: the new parent's children, the child's parent, and one pair of
neighbours if the parent had children. -/
theorem appendChild?_eq (h : d.appendChild? p c = some d') :
    p < d.size ∧ c < d.size ∧ d' =
      match (d.children p).getLast? with
      | some last => ((d.update p fun n => { n with children := n.children ++ [c] }).update c
          fun n => { n with parent := some p }).linkSiblings last c
      | none => (d.update p fun n => { n with children := n.children ++ [c] }).update c
          fun n => { n with parent := some p } := by
  unfold appendChild? at h
  split at h
  next n m hp hc =>
    cases h
    refine ⟨lt_size_of_get? hp, lt_size_of_get? hc, ?_⟩
    have hchildren : d.children p = n.children := by simp [children, hp]
    exact hchildren ▸ rfl
  · cases h

theorem appendChild?_isSome (hp : p < d.size) (hc : c < d.size) :
    ∃ d', d.appendChild? p c = some d' := by
  unfold appendChild?
  rw [show d.get? p = some d.nodes[p] from List.getElem?_eq_getElem hp,
    show d.get? c = some d.nodes[c] from List.getElem?_eq_getElem hc]
  exact ⟨_, rfl⟩

theorem size_appendChild (h : d.appendChild? p c = some d') : d'.size = d.size := by
  obtain ⟨-, -, rfl⟩ := appendChild?_eq h
  split <;> simp [linkSiblings]

theorem element?_appendChild (h : d.appendChild? p c = some d') (id : Nat) :
    d'.element? id = d.element? id := by
  obtain ⟨-, -, rfl⟩ := appendChild?_eq h
  split <;> simp only [linkSiblings, element?, get?_update] <;> cases d.get? id <;> grind

theorem children_appendChild (h : d.appendChild? p c = some d') (id : Nat) :
    d'.children id = if id = p then d.children p ++ [c] else d.children id := by
  obtain ⟨hp, -, rfl⟩ := appendChild?_eq h
  have hget : d.get? p = some d.nodes[p] := List.getElem?_eq_getElem hp
  by_cases hid : id = p
  · subst hid
    split <;> simp only [linkSiblings, children, get?_update, hget] <;> grind
  · rw [if_neg hid]
    split <;> simp only [linkSiblings, children, get?_update] <;> cases d.get? id <;> grind

theorem parent?_appendChild (h : d.appendChild? p c = some d') (id : Nat) :
    d'.parent? id = if id = c then some p else d.parent? id := by
  obtain ⟨-, hc, rfl⟩ := appendChild?_eq h
  have hget : d.get? c = some d.nodes[c] := List.getElem?_eq_getElem hc
  by_cases hid : id = c
  · subst hid
    split <;> simp only [linkSiblings, parent?, get?_update, hget] <;> grind
  · rw [if_neg hid]
    split <;> simp only [linkSiblings, parent?, get?_update] <;> cases d.get? id <;> grind

theorem next?_appendChild (h : d.appendChild? p c = some d') (id : Nat) :
    d'.next? id =
      if (d.children p).getLast? = some id ∧ id < d.size then some c else d.next? id := by
  obtain ⟨-, -, rfl⟩ := appendChild?_eq h
  cases hl : (d.children p).getLast? with
  | none => simp only [next?, get?_update]; cases d.get? id <;> grind
  | some last =>
    simp only [linkSiblings, next?, get?_update]
    by_cases hid : last = id
    · subst hid
      cases hg : d.get? last with
      | none =>
        have := List.getElem?_eq_none_iff.mp hg
        grind [size]
      | some n =>
        have := lt_size_of_get? hg
        grind
    · cases d.get? id <;> grind

theorem previous?_appendChild (h : d.appendChild? p c = some d') (id : Nat) :
    d'.previous? id =
      if id = c then (d.children p).getLast?.or (d.previous? c) else d.previous? id := by
  obtain ⟨-, hc, rfl⟩ := appendChild?_eq h
  have hget : d.get? c = some d.nodes[c] := List.getElem?_eq_getElem hc
  cases hl : (d.children p).getLast? with
  | none =>
    simp only [previous?, get?_update]
    by_cases hid : id = c
    · subst hid
      simp only [hget]
      grind
    · cases d.get? id <;> grind
  | some last =>
    simp only [linkSiblings, previous?, get?_update]
    by_cases hid : id = c
    · subst hid
      simp only [hget]
      grind
    · cases d.get? id <;> grind

end Append

/-- The node `a` lies above a node: it is its parent, or lies above its parent. -/
def Above (d : Document) (a id : Nat) : Prop := TransGen (fun x y => d.parent? x = some y) id a

theorem not_above_of_detached {d : Document} {id : Nat} (h : d.parent? id = none) (a : Nat) :
    ¬ d.Above a id := by
  intro habove
  obtain ⟨b, hb, -⟩ := TransGen.head'_iff.mp habove
  rw [h] at hb
  cases hb

def Adjacent (d : Document) (a b : Nat) : Prop := ∃ p, [a, b] <:+: d.children p

/-- The links of the nodes mirror each other, and no chain of parents closes. -/
structure Linked (d : Document) : Prop where
  child_iff : ∀ p c, c ∈ d.children p ↔ d.parent? c = some p
  nodup : ∀ p, (d.children p).Nodup
  next_iff : ∀ a b, d.next? a = some b ↔ d.Adjacent a b
  previous_iff : ∀ a b, d.previous? b = some a ↔ d.Adjacent a b
  acyclic : ∀ id, ¬ d.Above id id

theorem adjacent_mem {d : Document} {p a b : Nat} (h : [a, b] <:+: d.children p) :
    a ∈ d.children p ∧ b ∈ d.children p :=
  ⟨h.subset (by simp), h.subset (by simp)⟩

theorem linked_empty : Linked empty := by
  have hget (id : Nat) : empty.get? id = if id = 0 then some (Node.detached none) else none := by
    cases id <;> simp [empty, get?]
  have hchildren (id : Nat) : empty.children id = [] := by
    simp only [children, hget]
    split <;> rfl
  have hparent (id : Nat) : empty.parent? id = none := by
    simp only [parent?, hget]
    split <;> rfl
  have hnext (id : Nat) : empty.next? id = none := by
    simp only [next?, hget]
    split <;> rfl
  have hprevious (id : Nat) : empty.previous? id = none := by
    simp only [previous?, hget]
    split <;> rfl
  constructor
  · simp [hchildren, hparent]
  · simp [hchildren]
  · simp [hnext, Adjacent, hchildren]
  · simp [hprevious, Adjacent, hchildren]
  · exact fun id => not_above_of_detached (hparent id) id

theorem lt_size_of_parent {d : Document} {p c : Nat} (hp : d.parent? c = some p) : c < d.size := by
  by_contra hge
  simp [parent?, get?_eq_none_of_size_le (Nat.not_lt.mp hge)] at hp

theorem infix_pair_concat {l : List Nat} {a b x : Nat} :
    [a, b] <:+: l ++ [x] ↔ [a, b] <:+: l ∨ b = x ∧ l.getLast? = some a := by
  rw [List.infix_concat_iff]
  constructor
  · rintro (h | h)
    · obtain h | ⟨t, ht, hs⟩ := List.suffix_concat_iff.mp h
      · cases h
      · obtain ⟨ht, hx⟩ := List.append_inj' (show [a] ++ [b] = t ++ [x] from ht) rfl
        obtain ⟨front, rfl⟩ := ht ▸ hs
        exact .inr ⟨List.singleton_inj.mp hx, List.getLast?_concat⟩
    · exact .inl h
  · rintro (h | ⟨rfl, h⟩)
    · exact .inr h
    · obtain ⟨front, rfl⟩ := List.getLast?_eq_some_iff.mp h
      exact .inl ⟨front, by simp⟩

/-- Nothing follows the last member of a list without repetitions. -/
theorem not_infix_getLast {l : List Nat} {a b : Nat} (hnd : l.Nodup) (hl : l.getLast? = some a) :
    ¬ [a, b] <:+: l := by
  rintro ⟨front, back, rfl⟩
  have hm : a ∈ b :: back := by
    apply List.mem_of_getLast?
    simpa using hl
  have hnd := (List.nodup_append.mp (List.append_assoc .. ▸ hnd)).2.1
  exact (List.nodup_cons.mp hnd).1 hm

/-- After an append the last child and the new one are neighbours as well. -/
theorem adjacent_appendChild {d d' : Document} {p c : Nat} (happ : d.appendChild? p c = some d')
    {a b : Nat} :
    d'.Adjacent a b ↔ d.Adjacent a b ∨ b = c ∧ (d.children p).getLast? = some a := by
  unfold Adjacent
  constructor
  · rintro ⟨q, hq⟩
    rw [children_appendChild happ] at hq
    split at hq
    · exact (infix_pair_concat.mp hq).imp (fun hq => ⟨p, hq⟩) id
    · exact .inl ⟨q, hq⟩
  · rintro (⟨q, hq⟩ | hl)
    · refine ⟨q, ?_⟩
      rw [children_appendChild happ]
      split
      next hqp => exact infix_pair_concat.mpr (.inl (hqp ▸ hq))
      · exact hq
    · refine ⟨p, ?_⟩
      rw [children_appendChild happ, if_pos rfl]
      exact infix_pair_concat.mpr (.inr hl)

namespace Linked
variable {d d' : Document} {p c : Nat}

theorem parent_lt_size (h : Linked d) (hp : d.parent? c = some p) : p < d.size := by
  have hc := (h.child_iff p c).mpr hp
  by_contra hge
  simp [children, get?_eq_none_of_size_le (Nat.not_lt.mp hge)] at hc

theorem allocate (h : Linked d) (e : Option Element) : Linked (d.allocate e) := by
  constructor
  · simpa using h.child_iff
  · simpa using h.nodup
  · simpa [Adjacent] using h.next_iff
  · simpa [Adjacent] using h.previous_iff
  · simpa [Above] using h.acyclic

theorem previous?_eq_none (h : Linked d) (hc : d.parent? c = none) : d.previous? c = none := by
  by_contra hne
  obtain ⟨a, ha⟩ := Option.ne_none_iff_exists'.mp hne
  obtain ⟨q, hq⟩ := (h.previous_iff a c).mp ha
  rw [(h.child_iff q c).mp (adjacent_mem hq).2] at hc
  cases hc

theorem next?_eq_none (h : Linked d) (hc : d.parent? c = none) : d.next? c = none := by
  by_contra hne
  obtain ⟨b, hb⟩ := Option.ne_none_iff_exists'.mp hne
  obtain ⟨q, hq⟩ := (h.next_iff c b).mp hb
  rw [(h.child_iff q c).mp (adjacent_mem hq).1] at hc
  cases hc

/-- A chain of parents after an append either was one before or passes the new link. -/
theorem above_appendChild (happ : d.appendChild? p c = some d') {a x : Nat}
    (h : d'.Above a x) : d.Above a x ∨
      ReflTransGen (fun x y => d.parent? x = some y) x c ∧
        ReflTransGen (fun x y => d.parent? x = some y) p a := by
  induction h with
  | single hs =>
    rw [parent?_appendChild happ] at hs
    split at hs
    next hx =>
      cases hs
      exact .inr ⟨hx ▸ .refl, .refl⟩
    · exact .inl (.single hs)
  | tail _ hs ih =>
    rw [parent?_appendChild happ] at hs
    split at hs
    next hy =>
      cases hs
      rcases ih with ih | ⟨hx, -⟩
      · exact .inr ⟨hy ▸ ih.to_reflTransGen, .refl⟩
      · exact .inr ⟨hx, .refl⟩
    · rcases ih with ih | ⟨hx, hp⟩
      · exact .inl (ih.tail hs)
      · exact .inr ⟨hx, hp.tail hs⟩

/-- The new link closes no chain if the child is not the new parent and does not lie above it. -/
theorem acyclic_appendChild (h : Linked d) (hne : c ≠ p) (hab : ¬ d.Above c p)
    (happ : d.appendChild? p c = some d') (x : Nat) : ¬ d'.Above x x := by
  intro hx
  rcases above_appendChild happ hx with hx | ⟨hxc, hpx⟩
  · exact h.acyclic x hx
  · rcases reflTransGen_iff_eq_or_transGen.mp (hpx.trans hxc) with he | ha
    · exact hne he
    · exact hab ha

theorem not_mem_children (h : Linked d) (hc : d.parent? c = none) (q : Nat) :
    c ∉ d.children q := by
  intro hm
  rw [(h.child_iff q c).mp hm] at hc
  cases hc

theorem next?_getLast (h : Linked d) {a : Nat} (hl : (d.children p).getLast? = some a) :
    d.next? a = none := by
  by_contra hne
  obtain ⟨b, hb⟩ := Option.ne_none_iff_exists'.mp hne
  obtain ⟨q, hq⟩ := (h.next_iff a b).mp hb
  have hp : d.parent? a = some p := (h.child_iff p a).mp (List.mem_of_getLast? hl)
  have hqp : d.parent? a = some q := (h.child_iff q a).mp (adjacent_mem hq).1
  obtain rfl : q = p := Option.some.inj (hqp.symm.trans hp)
  exact not_infix_getLast (h.nodup q) hl hq

theorem child_iff_appendChild (h : Linked d) (hc : d.parent? c = none)
    (happ : d.appendChild? p c = some d') (q x : Nat) :
    x ∈ d'.children q ↔ d'.parent? x = some q := by
  rw [children_appendChild happ, parent?_appendChild happ]
  by_cases hq : q = p
  · subst hq
    by_cases hx : x = c
    · simp [hx]
    · simp [hx, h.child_iff]
  · by_cases hx : x = c
    · simpa [hx, hq, Ne.symm hq] using h.not_mem_children hc q
    · simp [hx, hq, h.child_iff]

theorem nodup_appendChild (h : Linked d) (hc : d.parent? c = none)
    (happ : d.appendChild? p c = some d') (q : Nat) : (d'.children q).Nodup := by
  rw [children_appendChild happ]
  split
  · rw [← List.concat_eq_append]
    exact (h.nodup p).concat (h.not_mem_children hc p)
  · exact h.nodup q

/-- Appending a node that has no parent, is not its new parent and does not lie above it. -/
theorem appendChild (h : Linked d) (hc : d.parent? c = none) (hne : c ≠ p)
    (hab : ¬ d.Above c p) (happ : d.appendChild? p c = some d') : Linked d' := by
  refine ⟨h.child_iff_appendChild hc happ, h.nodup_appendChild hc happ, fun a b => ?_,
    fun a b => ?_, h.acyclic_appendChild hne hab happ⟩
  · rw [next?_appendChild happ, adjacent_appendChild happ, ← h.next_iff]
    by_cases hl : (d.children p).getLast? = some a
    · have ha : a < d.size :=
        lt_size_of_parent ((h.child_iff p a).mp (List.mem_of_getLast? hl))
      simp [hl, ha, h.next?_getLast hl, eq_comm]
    · simp [hl]
  · rw [previous?_appendChild happ, adjacent_appendChild happ, ← h.previous_iff]
    by_cases hb : b = c
    · subst hb
      simp [h.previous?_eq_none hc]
    · simp [hb]

end Linked

end Document
end Styling
