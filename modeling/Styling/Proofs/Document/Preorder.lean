import Mathlib.Algebra.Order.BigOperators.Group.List
import Mathlib.Algebra.Order.Ring.Nat
import Mathlib.Data.List.Nodup
import Styling.Proofs.Document.Reached

/-! # Nodes in document order

The nodes below a node are found with a stack. While the node on top is replaced by its children,
what is left to be visited is the preorder of each node of the stack, one after the other. A node
has at most as many ancestors as there are other nodes, so a preorder that may go that deep leaves
nothing out, and since children are children of one node only it meets no node twice.
-/
namespace Styling.Document
open Relation

/-- The nodes that are visited from a stack on, until it is empty: the one on top is visited and
replaced by its children. -/
inductive Visits (d : Document) : List Nat → List Nat → Prop
  | done : Visits d [] []
  | visit {id : Nat} {stack ids : List Nat} : Visits d (d.children id ++ stack) ids →
      Visits d (id :: stack) (id :: ids)

/-- A preorder to this depth reaches every node that is below a node. -/
def Deep (d : Document) (depth id : Nat) : Prop := d.size ≤ depth + (d.ancestors id).length

section Visits
variable {d : Document} {stack ids ids' : List Nat}

theorem Visits.unique (h : Visits d stack ids) (h' : Visits d stack ids') : ids = ids' := by
  induction h generalizing ids' with
  | done =>
    cases h'
    rfl
  | visit _ ih =>
    cases h' with
    | visit h' => rw [ih h']

/-- A bound that is not below the number of visits changes nothing. -/
theorem Visits.visit_eq (h : Visits d stack ids) {bound : Nat} (hb : ids.length ≤ bound) :
    d.visit bound stack = ids := by
  induction h generalizing bound with
  | done => cases bound <;> rfl
  | visit _ ih =>
    cases bound with
    | zero => simp at hb
    | succ bound =>
      rw [List.length_cons, Nat.add_le_add_iff_right] at hb
      rw [Document.visit, ih hb]

/-- If each of some nodes can be visited before what is left on the stack, so can all of them. -/
theorem Visits.append {f : Nat → List Nat} {nodes : List Nat}
    (hf : ∀ c ∈ nodes, ∀ stack ids, Visits d stack ids → Visits d (c :: stack) (f c ++ ids))
    (h : Visits d stack ids) : Visits d (nodes ++ stack) (nodes.flatMap f ++ ids) := by
  induction nodes with
  | nil => exact h
  | cons c nodes ih =>
    rw [List.flatMap_cons, List.append_assoc]
    exact hf c List.mem_cons_self _ _ (ih fun c hc => hf c (List.mem_cons_of_mem _ hc))

end Visits

section Bound

theorem foldl_add_eq_sum {α : Type} (f : α → Nat) (l : List α) (start : Nat) :
    l.foldl (fun total a => total + f a) start = start + (l.map f).sum := by
  induction l generalizing start with
  | nil => rfl
  | cons a l ih => rw [List.foldl_cons, ih, List.map_cons, List.sum_cons, Nat.add_assoc]

/-- The base of the bound is above the number of children of every node. -/
theorem length_children_lt (d : Document) (id : Nat) :
    (d.children id).length < d.nodes.foldl (fun links n => links + n.children.length) 1 := by
  rw [foldl_add_eq_sum]
  cases hn : d.get? id with
  | none =>
    rw [children, hn]
    exact Nat.lt_of_lt_of_le Nat.one_pos (Nat.le_add_right 1 _)
  | some n =>
    have hmem : n.children.length ∈ d.nodes.map fun n => n.children.length :=
      List.mem_map_of_mem (List.mem_of_getElem? hn)
    have hle := List.le_sum_of_mem hmem
    rw [children, hn, Option.map_some, Option.getD_some]
    omega

theorem length_preorder_le (d : Document) (depth id : Nat) : (d.preorder depth id).length ≤
    (d.nodes.foldl (fun links n => links + n.children.length) 1) ^ depth := by
  have hchildren := d.length_children_lt
  generalize d.nodes.foldl (fun links n => links + n.children.length) 1 = base at hchildren ⊢
  induction depth generalizing id with
  | zero => exact Nat.le_refl 1
  | succ depth ih =>
    have hsum : ((d.children id).map fun c => (d.preorder depth c).length).sum ≤
        (d.children id).length * base ^ depth := by
      simpa using List.sum_le_card_nsmul ((d.children id).map fun c => (d.preorder depth c).length)
        (base ^ depth) (by simpa using fun c _ => ih c)
    have hbase : 0 < base ^ depth := Nat.pow_pos (Nat.zero_lt_of_lt (hchildren id))
    rw [preorder, List.length_cons, List.length_flatMap]
    calc _ ≤ (d.children id).length * base ^ depth + base ^ depth := by omega
      _ = ((d.children id).length + 1) * base ^ depth := (Nat.succ_mul _ _).symm
      _ ≤ base * base ^ depth := Nat.mul_le_mul_right _ (hchildren id)
      _ = base ^ (depth + 1) := (Nat.pow_succ').symm

end Bound

namespace Linked
variable {d : Document} {id n c depth : Nat}

theorem ancestors_eq_cons {p : Nat} (h : Linked d) (hp : d.parent? c = some p) :
    d.ancestors c = p :: d.ancestors p := by
  have hwalk := h.walk_ancestors c
  rw [hp] at hwalk
  exact hwalk.unique (.visit (h.walk_ancestors p))

theorem length_ancestors_lt (h : Linked d) (hid : id < d.size) :
    (d.ancestors id).length < d.size :=
  length_follow_lt (fun _ _ => h.parent_lt_size) h.acyclic d.size hid

theorem mem_ancestors (h : Linked d) : id ∈ d.ancestors n ↔ d.Above id n := by
  constructor
  · exact transGen_of_mem_follow
  · intro habove
    induction habove using TransGen.head_induction_on with
    | single hp =>
      rw [h.ancestors_eq_cons hp]
      exact List.mem_cons_self
    | head hp _ ih =>
      rw [h.ancestors_eq_cons hp]
      exact List.mem_cons_of_mem _ ih

theorem deep_of_size_le (hd : d.size ≤ depth) : d.Deep depth id :=
  Nat.le_add_right_of_le hd

theorem deep_children (h : Linked d) (hd : d.Deep (depth + 1) id) (hc : c ∈ d.children id) :
    d.Deep depth c := by
  have hancestors := h.ancestors_eq_cons ((h.child_iff id c).mp hc)
  rw [Deep, hancestors, List.length_cons]
  rw [Deep] at hd
  omega

theorem not_deep_zero (h : Linked d) (hid : id < d.size) : ¬ d.Deep 0 id := by
  have hlt := h.length_ancestors_lt hid
  rw [Deep]
  omega

theorem lt_size_of_mem_children (hlinked : Linked d) (hc : c ∈ d.children id) : c < d.size :=
  lt_size_of_parent ((hlinked.child_iff id c).mp hc)

/-- A node on top of the stack is visited with everything below it before the rest. -/
theorem visits_preorder (h : Linked d) (hid : id < d.size) (hd : d.Deep depth id)
    {stack ids : List Nat} (hrest : Visits d stack ids) :
    Visits d (id :: stack) (d.preorder depth id ++ ids) := by
  induction depth generalizing id stack ids with
  | zero => exact absurd hd (h.not_deep_zero hid)
  | succ depth ih =>
    rw [preorder, List.cons_append]
    refine .visit (.append (fun c hc stack ids hrest => ?_) hrest)
    exact ih (h.lt_size_of_mem_children hc) (h.deep_children hd hc) hrest

/-- The preorder has the node itself and the nodes below it. -/
theorem mem_preorder (h : Linked d) (hid : id < d.size) (hd : d.Deep depth id) :
    n ∈ d.preorder depth id ↔ ReflTransGen (fun x y => d.parent? x = some y) n id := by
  induction depth generalizing id with
  | zero => exact absurd hd (h.not_deep_zero hid)
  | succ depth ih =>
    have hbelow (c : Nat) (hc : c ∈ d.children id) : n ∈ d.preorder depth c ↔
        ReflTransGen (fun x y => d.parent? x = some y) n c :=
      ih (h.lt_size_of_mem_children hc) (h.deep_children hd hc)
    rw [preorder, List.mem_cons, List.mem_flatMap]
    constructor
    · rintro (rfl | ⟨c, hc, hn⟩)
      · exact .refl
      · exact ((hbelow c hc).mp hn).tail ((h.child_iff id c).mp hc)
    · intro hn
      rcases hn.cases_tail with rfl | ⟨c, hnc, hp⟩
      · exact .inl rfl
      · have hc : c ∈ d.children id := (h.child_iff id c).mpr hp
        exact .inr ⟨c, hc, (hbelow c hc).mpr hnc⟩

/-- No child of a node lies below another one. -/
theorem not_below_sibling (h : Linked d) {c' : Nat} (hc : c ∈ d.children id)
    (hc' : c' ∈ d.children id) (hne : c ≠ c') :
    ¬ ReflTransGen (fun x y => d.parent? x = some y) c c' := by
  intro hbelow
  rcases hbelow.cases_head with rfl | ⟨p, hp, hup⟩
  · exact hne rfl
  · rw [(h.child_iff id c).mp hc] at hp
    cases hp
    exact h.acyclic id (.tail' hup ((h.child_iff id c').mp hc'))

theorem nodup_preorder (h : Linked d) (hid : id < d.size) (hd : d.Deep depth id) :
    (d.preorder depth id).Nodup := by
  induction depth generalizing id with
  | zero => exact absurd hd (h.not_deep_zero hid)
  | succ depth ih =>
    have hlt (c : Nat) (hc : c ∈ d.children id) : c < d.size := h.lt_size_of_mem_children hc
    have hdeep (c : Nat) (hc : c ∈ d.children id) : d.Deep depth c := h.deep_children hd hc
    rw [preorder, List.nodup_cons, List.nodup_flatMap]
    refine ⟨fun hmem => ?_, fun c hc => ih (hlt c hc) (hdeep c hc), ?_⟩
    · obtain ⟨c, hc, hn⟩ := List.mem_flatMap.mp hmem
      have hup := (h.mem_preorder (hlt c hc) (hdeep c hc)).mp hn
      exact h.acyclic id (.tail' hup ((h.child_iff id c).mp hc))
    · -- a node below two children would have one of them below the other
      refine (h.nodup id).imp_of_mem fun {c c'} hc hc' hne n hn hn' => ?_
      have hup := (h.mem_preorder (hlt c hc) (hdeep c hc)).mp hn
      have hup' := (h.mem_preorder (hlt c' hc') (hdeep c' hc')).mp hn'
      have hunique : Relator.RightUnique fun x y => d.parent? x = some y := fun _ _ _ hy hz =>
        Option.some.inj (hy.symm.trans hz)
      rcases ReflTransGen.total_of_right_unique hunique hup hup' with hbelow | hbelow
      · exact h.not_below_sibling hc hc' hne hbelow
      · exact h.not_below_sibling hc' hc hne.symm hbelow

/-- All that is visited below a node is its preorder, whatever its depth. -/
theorem preorder_eq_descendants (h : Linked d) (hid : id < d.size) (hd : d.Deep depth id) :
    d.preorder depth id = d.descendants id ∧ Visits d [id] (d.descendants id) := by
  have hvisits : Visits d [id] (d.preorder (d.size + 1) id) := by
    simpa using h.visits_preorder hid (deep_of_size_le (Nat.le_succ d.size)) .done
  have hdescendants : d.descendants id = d.preorder (d.size + 1) id :=
    hvisits.visit_eq (d.length_preorder_le (d.size + 1) id)
  have hdepth : Visits d [id] (d.preorder depth id) := by
    simpa using h.visits_preorder hid hd .done
  rw [hdescendants]
  exact ⟨hdepth.unique hvisits, hvisits⟩

end Linked

/-- In a document that is reached by edits, visiting the nodes from a node on comes to an end, and
visits them in document order: the node, and then what is visited from each of its children. This
is the preorder, and each node that has the node among itself and its ancestors is met once, and no
other one. -/
theorem Reached.descendants_preorder {d : Document} (h : Reached d) {id : Nat} (hid : id < d.size) :
    (∀ ids, Visits d [id] ids ↔ ids = d.descendants id) ∧
    d.descendants id = id :: (d.children id).flatMap d.descendants ∧
    (∀ depth, d.size ≤ depth → d.descendants id = d.preorder depth id) ∧
    ∀ n, (d.descendants id).count n = if id ∈ n :: d.ancestors n then 1 else 0 := by
  have hlinked := h.linked
  have hdeep : d.Deep (d.size + 1) id := Linked.deep_of_size_le (Nat.le_succ d.size)
  obtain ⟨hpreorder, hvisits⟩ := hlinked.preorder_eq_descendants hid hdeep
  refine ⟨fun ids => ⟨fun hids => hids.unique hvisits, fun heq => heq ▸ hvisits⟩, ?_,
    fun depth hdepth => ?_, fun n => ?_⟩
  · rw [← hpreorder, preorder]
    refine congrArg (id :: ·) (List.flatMap_congr fun c hc => ?_)
    exact (hlinked.preorder_eq_descendants (hlinked.lt_size_of_mem_children hc)
      (hlinked.deep_children hdeep hc)).1
  · exact (hlinked.preorder_eq_descendants hid (Linked.deep_of_size_le hdepth)).1.symm
  · have hmem : n ∈ d.preorder (d.size + 1) id ↔ id ∈ n :: d.ancestors n := by
      rw [hlinked.mem_preorder hid hdeep, reflTransGen_iff_eq_or_transGen, List.mem_cons,
        hlinked.mem_ancestors]
      rfl
    rw [← hpreorder, (hlinked.nodup_preorder hid hdeep).count]
    simp only [hmem]

/-- An element is built on its own, with a child, and appended to the root behind another one: what
was added last is not visited last. -/
theorem Reached.descendants_preorder_subtree : ∃ d, Reached d ∧ root < d.size ∧
    (∀ ids, Visits d [root] ids ↔ ids = [0, 2, 1, 3]) ∧ (d.descendants 1).count 2 = 0 := by
  have alone := Reached.edit (x := .allocate (some (.ofType "a"))) .empty trivial rfl
  have beside := Reached.edit (x := .appendElement root (.ofType "b")) alone
    (show 0 < 2 by decide) rfl
  have built := Reached.edit (x := .appendElement 1 (.ofType "c")) beside
    (show 1 < 3 by decide) rfl
  have whole := Reached.edit (x := .appendChild root 1) built
    ⟨by decide, by decide, by decide, rfl, by decide, not_above_of_detached built.parent?_root 1⟩ rfl
  obtain ⟨hvisits, -⟩ := whole.descendants_preorder (show root < 4 by decide)
  obtain ⟨-, -, -, hcount⟩ := whole.descendants_preorder (show 1 < 4 by decide)
  exact ⟨_, whole, by decide, hvisits, hcount 2⟩

end Styling.Document
