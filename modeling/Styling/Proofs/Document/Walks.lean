import Mathlib.Data.List.Perm.Subperm
import Styling.Document.Traversal
import Styling.Proofs.Document.Links

/-! # Walks along links

A walk that never returns to a node takes fewer steps than there are nodes, so it ends by itself
and a longer bound changes nothing. In a linked document the walk along parents meets exactly the
nodes above a node, and the walk along earlier siblings exactly the children before it.
-/
namespace Styling
open Relation
open scoped List

section Walks
variable {step : Nat → Option Nat}

theorem follow_eq_nil {e : Nat} (h : step e = none) (bound : Nat) : follow step bound e = [] := by
  cases bound with
  | zero => rfl
  | succ bound => rw [follow, h]

theorem transGen_of_mem_follow {bound e a : Nat} (h : a ∈ follow step bound e) :
    TransGen (fun x y => step x = some y) e a := by
  induction bound generalizing e with
  | zero => simp [follow] at h
  | succ bound ih =>
    cases hs : step e with
    | none => simp [follow, hs] at h
    | some b =>
      simp only [follow, hs, List.mem_cons] at h
      rcases h with rfl | h
      · exact .single hs
      · exact .head hs (ih h)

/-- A walk that stops early has met everything that can be reached. -/
theorem mem_follow_of_transGen {bound e a : Nat} (hl : (follow step bound e).length < bound)
    (h : TransGen (fun x y => step x = some y) e a) : a ∈ follow step bound e := by
  induction bound generalizing e with
  | zero => simp at hl
  | succ bound ih =>
    obtain ⟨b, hs, hb⟩ := TransGen.head'_iff.mp h
    simp only [follow, hs, List.length_cons, Nat.add_lt_add_iff_right] at hl
    simp only [follow, hs, List.mem_cons]
    rcases reflTransGen_iff_eq_or_transGen.mp hb with rfl | hb
    · exact .inl rfl
    · exact .inr (ih hl hb)

/-- Letting a walk go on after it has stopped changes nothing. -/
theorem follow_stable {bound more e : Nat} (hl : (follow step bound e).length < bound)
    (hm : bound ≤ more) : follow step more e = follow step bound e := by
  induction bound generalizing e more with
  | zero => simp at hl
  | succ bound ih =>
    obtain ⟨more, rfl⟩ := Nat.exists_eq_add_of_lt hm
    cases hs : step e with
    | none => simp [follow, hs]
    | some b =>
      simp only [follow, hs, List.length_cons, Nat.add_lt_add_iff_right] at hl ⊢
      rw [ih hl (by omega)]

/-- Steps that agree on a set which they do not leave give the same walks in it. -/
theorem follow_congr {step' : Nat → Option Nat} {inside : Nat → Prop}
    (hsame : ∀ e, inside e → step e = step' e)
    (hclosed : ∀ e a, inside e → step e = some a → inside a) (bound : Nat) {e : Nat}
    (he : inside e) : follow step bound e = follow step' bound e := by
  induction bound generalizing e with
  | zero => rfl
  | succ bound ih =>
    rw [follow, follow, ← hsame e he]
    cases hs : step e with
    | none => rfl
    | some a =>
      dsimp only
      rw [ih (hclosed e a he hs)]

/-- A walk below `size` is the same with another step that agrees with it there, and goes on no
longer with a longer bound. -/
theorem follow_extend {step' : Nat → Option Nat} {size more e : Nat}
    (hsame : ∀ x, x < size → step x = step' x) (inside : ∀ x y, step x = some y → y < size)
    (hl : (follow step size e).length < size) (hm : size ≤ more) (he : e < size) :
    follow step size e = follow step' more e := by
  rw [← follow_stable hl hm]
  exact follow_congr hsame (fun x y _ => inside x y) more he

theorem nodup_follow (acyclic : ∀ x, ¬ TransGen (fun x y => step x = some y) x x)
    (bound e : Nat) : (e :: follow step bound e).Nodup := by
  induction bound generalizing e with
  | zero => simp [follow]
  | succ bound ih =>
    refine List.nodup_cons.mpr ⟨fun h => acyclic e (transGen_of_mem_follow h), ?_⟩
    cases hs : step e with
    | none => simp [follow, hs]
    | some b => simpa only [follow, hs] using ih b

/-- A walk that never returns to a node and stays below `size` takes fewer steps than that. -/
theorem length_follow_lt {size : Nat} (inside : ∀ x y, step x = some y → y < size)
    (acyclic : ∀ x, ¬ TransGen (fun x y => step x = some y) x x) (bound : Nat) {e : Nat}
    (he : e < size) : (follow step bound e).length < size := by
  have hsub : e :: follow step bound e ⊆ List.range size := by
    intro a ha
    rcases List.mem_cons.mp ha with rfl | ha
    · exact List.mem_range.mpr he
    · obtain ⟨b, -, hb⟩ := TransGen.tail'_iff.mp (transGen_of_mem_follow ha)
      exact List.mem_range.mpr (inside b a hb)
  have hle := ((nodup_follow acyclic bound e).subperm hsub).length_le
  rw [List.length_cons, List.length_range] at hle
  exact hle

end Walks

namespace Document

theorem split_unique {l u u' v v' : List Nat} {b : Nat} (hnd : l.Nodup) (h : l = u ++ b :: v)
    (h' : l = u' ++ b :: v') : u = u' ∧ v = v' := by
  subst h
  induction u generalizing u' with
  | nil =>
    cases u' with
    | nil => simpa using h'
    | cons x u' =>
      obtain ⟨rfl, rfl⟩ := List.cons_eq_cons.mp h'
      simp at hnd
  | cons x u ih =>
    cases u' with
    | nil =>
      obtain ⟨rfl, rfl⟩ := List.cons_eq_cons.mp h'
      simp at hnd
    | cons y u' =>
      obtain ⟨rfl, htail⟩ := List.cons_eq_cons.mp h'
      obtain ⟨rfl, rfl⟩ := ih (List.nodup_cons.mp hnd).2 htail
      exact ⟨rfl, rfl⟩

theorem sublist_pair_iff {l : List Nat} {a b : Nat} :
    [a, b] <+ l ↔ ∃ w, a :: w ++ [b] <:+: l := by
  constructor
  · intro h
    obtain ⟨r₁, r₂, rfl, ha, hb⟩ := List.cons_sublist_iff.mp h
    obtain ⟨x, y, rfl⟩ := List.append_of_mem ha
    obtain ⟨z, t, rfl⟩ := List.append_of_mem (List.singleton_sublist.mp hb)
    exact ⟨y ++ z, x, t, by simp⟩
  · rintro ⟨w, hw⟩
    exact (List.cons_sublist_cons.mpr (List.sublist_append_right w [b])).trans hw.sublist

namespace Linked
variable {d : Document}

theorem parent_unique (h : Linked d) {p q c : Nat} (hp : c ∈ d.children p)
    (hq : c ∈ d.children q) : p = q := by
  have h1 := (h.child_iff p c).mp hp
  rw [(h.child_iff q c).mp hq] at h1
  exact (Option.some.inj h1).symm

theorem previous_of_infix (h : Linked d) {p a b : Nat} {w : List Nat}
    (hw : a :: w ++ [b] <:+: d.children p) :
    TransGen (fun x y => d.previous? x = some y) b a := by
  induction w generalizing a with
  | nil => exact .single ((h.previous_iff a b).mpr ⟨p, hw⟩)
  | cons x w ih =>
    have hx : x :: w ++ [b] <:+: d.children p := (List.suffix_cons a _).isInfix.trans hw
    have hax : [a, x] <:+: d.children p :=
      List.IsInfix.trans ⟨[], w ++ [b], by simp⟩ hw
    exact (ih hx).tail ((h.previous_iff a x).mpr ⟨p, hax⟩)

theorem infix_of_previous (h : Linked d) {a b : Nat}
    (ht : TransGen (fun x y => d.previous? x = some y) b a) :
    ∃ p w, a :: w ++ [b] <:+: d.children p := by
  induction ht with
  | single hs =>
    obtain ⟨p, hp⟩ := (h.previous_iff _ _).mp hs
    exact ⟨p, [], hp⟩
  | @tail x y _ hs ih =>
    obtain ⟨p, w, front, back, hw⟩ := ih
    obtain ⟨q, front', back', hq⟩ := (h.previous_iff y x).mp hs
    have hxp : x ∈ d.children p := by simp [← hw]
    have hxq : x ∈ d.children q := by simp [← hq]
    obtain rfl := h.parent_unique hxp hxq
    obtain ⟨rfl, rfl⟩ := split_unique (h.nodup p)
      (show d.children p = front ++ x :: (w ++ [b] ++ back) by simp [← hw])
      (show d.children p = (front' ++ [y]) ++ x :: back' by simp [← hq])
    exact ⟨p, x :: w, front', back, by simp [← hw]⟩

/-- The siblings met by walking backwards are those before a node. -/
theorem previous_transGen_iff (h : Linked d) {a b : Nat} :
    TransGen (fun x y => d.previous? x = some y) b a ↔
      ∃ p, d.parent? b = some p ∧ [a, b] <+ d.children p := by
  constructor
  · intro ht
    obtain ⟨p, w, hw⟩ := h.infix_of_previous ht
    exact ⟨p, (h.child_iff p b).mp (hw.subset (by simp)), sublist_pair_iff.mpr ⟨w, hw⟩⟩
  · rintro ⟨p, -, hs⟩
    obtain ⟨w, hw⟩ := sublist_pair_iff.mp hs
    exact h.previous_of_infix hw

theorem previous_acyclic (h : Linked d) (id : Nat) :
    ¬ TransGen (fun x y => d.previous? x = some y) id id := by
  intro ht
  obtain ⟨p, w, hw⟩ := h.infix_of_previous ht
  have hnd := hw.sublist.nodup (h.nodup p)
  simp at hnd

theorem previous_lt_size (h : Linked d) {a b : Nat} (hs : d.previous? b = some a) :
    a < d.size := by
  obtain ⟨p, hp⟩ := (h.previous_iff a b).mp hs
  exact lt_size_of_parent ((h.child_iff p a).mp (adjacent_mem hp).1)

theorem length_follow_previous (h : Linked d) (bound : Nat) {id : Nat} (hid : id < d.size) :
    (follow d.previous? bound id).length < d.size :=
  length_follow_lt (fun _ _ => h.previous_lt_size) h.previous_acyclic bound hid

/-- Walking backwards meets the siblings before a node, whatever the bound. -/
theorem mem_follow_previous (h : Linked d) {bound id : Nat} (hb : d.size ≤ bound)
    (hid : id < d.size) (a : Nat) : a ∈ follow d.previous? bound id ↔
      ∃ p, d.parent? id = some p ∧ [a, id] <+ d.children p := by
  have hl := (h.length_follow_previous bound hid).trans_le hb
  rw [← h.previous_transGen_iff]
  exact ⟨transGen_of_mem_follow, mem_follow_of_transGen hl⟩

end Linked
end Document
end Styling
