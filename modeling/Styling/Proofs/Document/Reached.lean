import Styling.Proofs.Document.Growth
import Styling.Proofs.Document.Walks

/-! # Documents reached by edits

Nodes are allocated, elements appended, and nodes that were built on their own appended later,
with everything below them. As long as no node is appended twice or below itself, the links stay
mirrored, and the ancestors of a node end at a node without a parent.
-/
namespace Styling
open Relation

/-- What is met by following a link from a node on, if there is one, until it leads nowhere. -/
inductive Walk (step : Nat → Option Nat) : Option Nat → List Nat → Prop
  | done : Walk step none []
  | visit {id : Nat} {rest : List Nat} : Walk step (step id) rest → Walk step (some id) (id :: rest)

namespace Walk
variable {step : Nat → Option Nat}

theorem unique {start : Option Nat} {ids ids' : List Nat} (h : Walk step start ids)
    (h' : Walk step start ids') : ids = ids' := by
  induction h generalizing ids' with
  | done =>
    cases h'
    rfl
  | visit _ ih =>
    cases h' with
    | visit h' => rw [ih h']

/-- A walk with a bound that it did not reach is a whole walk. -/
theorem of_length_follow_lt {bound e : Nat} (hl : (follow step bound e).length < bound) :
    Walk step (step e) (follow step bound e) := by
  induction bound generalizing e with
  | zero => simp at hl
  | succ bound ih =>
    cases hs : step e with
    | none =>
      rw [follow, hs]
      exact .done
    | some a =>
      rw [follow, hs, List.length_cons, Nat.add_lt_add_iff_right] at hl
      rw [follow, hs]
      exact .visit (ih hl)

end Walk

namespace Document

theorem infix_pair_iff {l : List Nat} {a b : Nat} :
    [a, b] <:+: l ↔ ∃ i, l[i]? = some a ∧ l[i + 1]? = some b := by
  constructor
  · rintro ⟨front, back, rfl⟩
    exact ⟨front.length, by simp, by simp⟩
  · rintro ⟨i, ha, hb⟩
    obtain ⟨hi, rfl⟩ := List.getElem?_eq_some_iff.mp ha
    obtain ⟨hi', rfl⟩ := List.getElem?_eq_some_iff.mp hb
    refine ⟨l.take i, l.drop (i + 2), ?_⟩
    rw [List.append_assoc, List.cons_append, List.cons_append, List.nil_append,
      List.getElem_cons_drop, List.getElem_cons_drop, List.take_append_drop]

namespace Linked
variable {d : Document}

theorem adjacent_iff (h : Linked d) {p a b : Nat} (hp : a ∈ d.children p ∨ b ∈ d.children p) :
    d.Adjacent a b ↔ [a, b] <:+: d.children p := by
  constructor
  · rintro ⟨q, hq⟩
    obtain ⟨ha, hb⟩ := adjacent_mem hq
    obtain rfl : p = q := by
      rcases hp with hp | hp
      · exact h.parent_unique hp ha
      · exact h.parent_unique hp hb
    exact hq
  · intro hinfix
    exact ⟨p, hinfix⟩

/-- A child has one position among the children. -/
theorem position_unique (h : Linked d) {p c i j : Nat} (hi : (d.children p)[i]? = some c)
    (hj : (d.children p)[j]? = some c) : i = j :=
  (List.getElem?_inj (List.getElem?_eq_some_iff.mp hi).1 (h.nodup p)).mp (hi.trans hj.symm)

theorem next?_eq (h : Linked d) {p i c : Nat} (hc : (d.children p)[i]? = some c) :
    d.next? c = (d.children p)[i + 1]? := by
  apply Option.ext
  intro b
  rw [h.next_iff, h.adjacent_iff (.inl (List.mem_of_getElem? hc)), infix_pair_iff]
  constructor
  · rintro ⟨j, hj, hb⟩
    rwa [h.position_unique hc hj]
  · intro hb
    exact ⟨i, hc, hb⟩

theorem previous?_eq (h : Linked d) {p i c : Nat} (hc : (d.children p)[i]? = some c) :
    d.previous? c = if i = 0 then none else (d.children p)[i - 1]? := by
  apply Option.ext
  intro a
  rw [h.previous_iff, h.adjacent_iff (.inr (List.mem_of_getElem? hc)), infix_pair_iff]
  constructor
  · rintro ⟨j, ha, hj⟩
    obtain rfl := h.position_unique hc hj
    rwa [if_neg (Nat.succ_ne_zero j)]
  · intro ha
    split at ha
    next => cases ha
    next hi =>
      have hsucc : i - 1 + 1 = i := by omega
      exact ⟨i - 1, ha, by rwa [hsucc]⟩

/-- The ancestors are the whole walk along the parents, whose bound is never reached. -/
theorem walk_ancestors (h : Linked d) (id : Nat) :
    Walk d.parent? (d.parent? id) (d.ancestors id) := by
  by_cases hid : id < d.size
  · exact .of_length_follow_lt
      (length_follow_lt (fun _ _ => h.parent_lt_size) h.acyclic d.size hid)
  · -- a node that is not there has no ancestors
    have hnone : d.parent? id = none := by
      simp [parent?, get?_eq_none_of_size_le (Nat.not_lt.mp hid)]
    rw [hnone, ancestors, follow_eq_nil hnone]
    exact .done

end Linked

inductive Edit
  | allocate (element : Option Element)
  | appendElement (parent : Nat) (element : Element)
  | appendChild (parent child : Nat)

/-- Nodes are appended to nodes that are there. A node that is there already is appended if it is
not the root, is detached, and is neither the new parent nor above it. -/
def Edit.Allowed (d : Document) : Edit → Prop
  | allocate _ => True
  | appendElement p _ => p < d.size
  | appendChild p c => p < d.size ∧ c < d.size ∧ c ≠ root ∧ d.parent? c = none ∧ c ≠ p ∧
      ¬ d.Above c p

def edit? (d : Document) : Edit → Option Document
  | .allocate element => some (d.allocate element)
  | .appendElement p e => d.appendElement? p e
  | .appendChild p c => d.appendChild? p c

/-- Reached from the document that has only its root, by edits that are allowed. -/
inductive Reached : Document → Prop
  | empty : Reached empty
  | edit {d d' : Document} {x : Edit} : Reached d → x.Allowed d → d.edit? x = some d' → Reached d'

section Edit
variable {d d' : Document} {x : Edit}

theorem edit?_isSome (hx : x.Allowed d) : ∃ d', d.edit? x = some d' := by
  cases x with
  | allocate element => exact ⟨_, rfl⟩
  | appendElement p e => exact appendElement?_isSome hx e
  | appendChild p c => exact appendChild?_isSome hx.1 hx.2.1

theorem Linked.edit (h : Linked d) (hx : x.Allowed d) (he : d.edit? x = some d') : Linked d' := by
  cases x with
  | allocate element =>
    cases he
    exact h.allocate element
  | appendElement p e => exact h.appendElement hx he
  | appendChild p c =>
    obtain ⟨-, -, -, hdetached, hne, habove⟩ := hx
    exact h.appendChild hdetached hne habove he

theorem parent?_root_edit (h : d.parent? root = none) (hx : x.Allowed d)
    (he : d.edit? x = some d') : d'.parent? root = none := by
  cases x with
  | allocate element =>
    cases he
    rwa [parent?_allocate]
  | appendElement p e =>
    have hroot : root ≠ d.size := Nat.ne_of_lt (Nat.zero_lt_of_lt hx)
    rwa [parent?_appendElement he, if_neg hroot]
  | appendChild p c =>
    obtain ⟨-, -, hroot, -⟩ := hx
    rwa [parent?_appendChild he, if_neg hroot.symm]

end Edit

namespace Reached
variable {d : Document}

theorem linked (h : Reached d) : Linked d := by
  induction h with
  | empty => exact linked_empty
  | edit _ hx he ih => exact ih.edit hx he

theorem parent?_root (h : Reached d) : d.parent? root = none := by
  induction h with
  | empty => rfl
  | edit _ hx he ih => exact parent?_root_edit ih hx he

/-- Every edit that is allowed is done, and in every document that is reached the links agree: the
children of a node are the nodes it is the parent of, each of them once, the siblings of a child
are those next to it, a node without a parent has none, and the ancestors of a node are all that
is met by following parents. -/
theorem links_agree (h : Reached d) :
    (∀ x : Edit, x.Allowed d → ∃ d', d.edit? x = some d') ∧
    (∀ p c, c ∈ d.children p ↔ d.parent? c = some p) ∧ d.parent? root = none ∧
    (∀ p, (d.children p).Nodup) ∧
    (∀ p i c, (d.children p)[i]? = some c → d.next? c = (d.children p)[i + 1]? ∧
      d.previous? c = if i = 0 then none else (d.children p)[i - 1]?) ∧
    (∀ c, d.parent? c = none → d.next? c = none ∧ d.previous? c = none) ∧
    ∀ id ids, Walk d.parent? (d.parent? id) ids ↔ ids = d.ancestors id := by
  have hlinked := h.linked
  refine ⟨fun x => edit?_isSome, hlinked.child_iff, h.parent?_root, hlinked.nodup,
    fun p i c hc => ⟨hlinked.next?_eq hc, hlinked.previous?_eq hc⟩,
    fun c hc => ⟨hlinked.next?_eq_none hc, hlinked.previous?_eq_none hc⟩, fun id ids => ?_⟩
  have hwalk := hlinked.walk_ancestors id
  constructor
  · intro h
    exact h.unique hwalk
  · rintro rfl
    exact hwalk

/-- A node gets a child while it is detached, and is then appended beside another one. -/
theorem links_of_subtree :
    ∃ d, Reached d ∧ d.children root = [1, 2] ∧ d.next? 1 = some 2 ∧ d.next? 2 = none ∧
      ∀ ids, Walk d.parent? (d.parent? 3) ids ↔ ids = [2, 0] := by
  have beside := Reached.edit (x := .appendElement root (.ofType "a")) .empty
    (show 0 < 1 by decide) rfl
  have alone := Reached.edit (x := .allocate none) beside trivial rfl
  have built := Reached.edit (x := .appendElement 2 (.ofType "b")) alone
    (show 2 < 3 by decide) rfl
  have whole := Reached.edit (x := .appendChild root 2) built
    ⟨by decide, by decide, by decide, rfl, by decide, not_above_of_detached built.parent?_root 2⟩ rfl
  obtain ⟨-, -, -, -, -, -, hwalk⟩ := whole.links_agree
  exact ⟨_, whole, rfl, rfl, rfl, hwalk 3⟩

end Reached
end Document
end Styling
