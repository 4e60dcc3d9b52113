import Styling.Proofs.ElementPath.Chains

/-! # Paths that are accepted

A path is turned down in three places: where it is read, where it is cut into compounds, and where
a compound is described. Together they accept just the chains of children whose compounds begin
with a type and go on with conditions that one element can be made to meet. What is built of such a
path is a chain of elements, one for each compound, and nothing beside it.
-/
namespace Styling
open Grammar (Compound Chain Link)

namespace Selector

def combinators : Selector → List Combinator
  | simple _ => []
  | combined c left right => left.combinators ++ c :: right.combinators

/-- The conditions of each compound of a selector, from left to right. Compounds are what `and` puts
together. -/
def compounds : Selector → List (List Condition)
  | simple c => [[c]]
  | combined .and left right => [left.conditions ++ right.conditions]
  | combined _ left right => left.compounds ++ right.compounds

/-- A chain of children, each with its type and conditions that an element can be made to meet. -/
structure IsPath (s : Selector) : Prop where
  combinators : ∀ c ∈ s.combinators, c = .child ∨ c = .and
  compounds : ∀ cs ∈ s.compounds, ∃ name rest, cs = .type name :: rest ∧ ∀ c ∈ rest, c.Concrete

end Selector

namespace ElementPath
open Document

/-- A chain of elements below the root, one for each of some compounds, the last of them the
target, and the pseudo-classes that the compounds ask for. -/
structure Pictures (compounds : List (List Condition)) (p : PathTarget) : Prop where
  size : p.document.size = compounds.length + 1
  root : p.document.element? root = none ∧ p.document.parent? root = none
  element : ∀ i cs, compounds[i]? = some cs → ∃ e, p.document.element? (i + 1) = some e ∧
    cs.head? = some (.type e.typeName) ∧ ∀ name, e.attribute? name = lastValue (writes cs) name
  parent : ∀ i < compounds.length, p.document.parent? (i + 1) = some i
  children : ∀ i ≤ compounds.length,
    p.document.children i = if i < compounds.length then [i + 1] else []
  target : p.target = compounds.length
  keys : (p.overrides.map Prod.fst).Nodup
  overridden : ∀ k, k ∈ p.overrides.map Prod.fst ↔
    ∃ i cs, k = i + 1 ∧ compounds[i]? = some cs ∧ ∃ name, .pseudoClass name ∈ cs
  names : ∀ i cs names, compounds[i]? = some cs → (i + 1, names) ∈ p.overrides →
    names.Nodup ∧ ∀ name, name ∈ names ↔ .pseudoClass name ∈ cs

section Steps
variable {ks : List Kind} {s : Selector} {ss : List Selector}

theorem conditions_eq (s : Selector) : conditions s = s.conditions := by
  induction s with
  | simple c => rfl
  | combined c left right ihl ihr => rw [conditions, Selector.conditions, ihl, ihr]

theorem eq_and_of_compound (h : Compound ks s) : ∀ c ∈ s.combinators, c = .and := by
  induction h with
  | head => simp [Selector.combinators]
  | more _ _ ih =>
    intro c hc
    rw [Selector.combinators, List.mem_append, Selector.combinators, List.mem_singleton] at hc
    exact hc.elim (ih c) id

theorem compounds_of_compound (h : Compound ks s) : s.compounds = [conditions s] := by
  cases h with
  | head => rfl
  | more _ _ =>
    rw [Selector.compounds, conditions_eq]
    rfl

/-- A chain is cut into its compounds if no other combinator than those for children is met. -/
theorem steps_isOk_iff (h : Chain ks s) :
    (∃ ss, steps s = .ok ss) ↔ ∀ c ∈ s.combinators, c = .child ∨ c = .and := by
  induction h with
  | first _ hcompound =>
    exact iff_of_true ⟨_, steps_compound hcompound⟩
      fun c hc => .inr (eq_and_of_compound hcompound c hc)
  | @next _ _ _ left right c hchain hlink hcompound ih =>
    have hright : ∀ c' ∈ right.combinators, c' = .child ∨ c' = .and :=
      fun c' hc' => .inr (eq_and_of_compound hcompound c' hc')
    rw [Selector.combinators, List.forall_mem_append, List.forall_mem_cons, ← ih]
    cases c with
    | child =>
      rw [steps]
      cases steps left with
      | error e => simp
      | ok outer => simpa using hright
    | and =>
      cases hlink with
      | mark _ hmark _ => cases hmark
    | descendant | adjacentSibling | generalSibling => simp [steps]

theorem map_conditions_steps (h : Chain ks s) (hsteps : steps s = .ok ss) :
    ss.map conditions = s.compounds := by
  induction h generalizing ss with
  | first _ hcompound =>
    rw [steps_compound hcompound] at hsteps
    cases hsteps
    rw [compounds_of_compound hcompound]
    rfl
  | @next _ _ _ left right c hchain hlink hcompound ih =>
    cases c with
    | child =>
      obtain ⟨outer, houter, rfl⟩ := steps_child hsteps
      rw [List.map_append, ih houter, Selector.compounds, compounds_of_compound hcompound]
      · rfl
      · nofun
    | and =>
      cases hlink with
      | mark _ hmark _ => cases hmark
    | _ => cases hsteps

end Steps

section Describing
variable {cs : List Condition} {d d' : Draft} {c : Condition}

theorem add_isOk (hc : c.Concrete) (d : Draft) : ∃ d', d.add c = .ok d' := by
  cases c with
  | universal | type | attributeMatches => exact hc.elim
  | _ => exact ⟨_, rfl⟩

theorem addAll_isOk (h : ∀ c ∈ cs, c.Concrete) (d : Draft) : ∃ d', d.addAll cs = .ok d' := by
  induction cs generalizing d with
  | nil => exact ⟨d, rfl⟩
  | cons c cs ih =>
    obtain ⟨hfirst, hrest⟩ := List.forall_mem_cons.mp h
    obtain ⟨d', hadd⟩ := add_isOk hfirst d
    rw [Draft.addAll, hadd]
    exact ih hrest d'

/-- A compound describes an element just if it begins with a type and goes on with concrete
conditions. -/
theorem describe_isOk_iff : (∃ described, describe cs = .ok described) ↔
    ∃ name rest, cs = .type name :: rest ∧ ∀ c ∈ rest, c.Concrete := by
  constructor
  · rintro ⟨described, h⟩
    exact ⟨_, (describes_of_describe h).conditions⟩
  · rintro ⟨name, rest, rfl, hrest⟩
    obtain ⟨d, hadd⟩ := addAll_isOk hrest ⟨Element.ofType name, [], []⟩
    rw [describe, hadd]
    exact ⟨_, rfl⟩

theorem nodup_add (h : d.pseudoClasses.Nodup) (hadd : d.add c = .ok d') :
    d'.pseudoClasses.Nodup := by
  cases c with
  | pseudoClass name =>
    cases hadd
    dsimp only
    split
    · exact h
    next hnew =>
      rw [← List.concat_eq_append]
      exact h.concat (by simpa using hnew)
  | universal | type | attributeMatches => cases hadd
  | _ =>
    cases hadd
    exact h

theorem nodup_addAll (h : d.pseudoClasses.Nodup) (hadd : d.addAll cs = .ok d') :
    d'.pseudoClasses.Nodup := by
  induction cs generalizing d with
  | nil =>
    cases hadd
    exact h
  | cons c cs ih =>
    rw [Draft.addAll] at hadd
    split at hadd
    · cases hadd
    next d₁ hfirst => exact ih (nodup_add h hfirst) hadd

theorem nodup_of_describe {described : Element × List String} (h : describe cs = .ok described) :
    described.2.Nodup := by
  unfold describe at h
  split at h
  · split at h
    · cases h
    next d hadd =>
      cases h
      exact nodup_addAll List.nodup_nil hadd
  · cases h
  · cases h

end Describing

section IsPath
variable {ks : List Kind} {s : Selector}

theorem exists_forall₂_iff {α β : Type} {R : α → β → Prop} {as : List α} :
    (∃ bs, List.Forall₂ R as bs) ↔ ∀ a ∈ as, ∃ b, R a b := by
  induction as with
  | nil => simp
  | cons a as ih =>
    rw [List.forall_mem_cons, ← ih]
    constructor
    · rintro ⟨_, h⟩
      cases h with
      | cons hfirst hrest => exact ⟨⟨_, hfirst⟩, _, hrest⟩
    · rintro ⟨⟨b, hfirst⟩, bs, hrest⟩
      exact ⟨b :: bs, .cons hfirst hrest⟩

theorem isPath_iff (h : Chain ks s) : s.IsPath ↔ ∃ ss ds, steps s = .ok ss ∧
    List.Forall₂ (fun s d => describe (conditions s) = .ok d) ss ds := by
  have hcompounds (ss : List Selector) (hsteps : steps s = .ok ss) :
      (∃ ds, List.Forall₂ (fun s d => describe (conditions s) = .ok d) ss ds) ↔
        ∀ cs ∈ s.compounds, ∃ name rest, cs = .type name :: rest ∧ ∀ c ∈ rest, c.Concrete := by
    rw [exists_forall₂_iff, ← map_conditions_steps h hsteps, List.forall_mem_map]
    simp only [describe_isOk_iff]
  constructor
  · rintro ⟨hcombinators, hconcrete⟩
    obtain ⟨ss, hsteps⟩ := (steps_isOk_iff h).mpr hcombinators
    obtain ⟨ds, hds⟩ := (hcompounds ss hsteps).mpr hconcrete
    exact ⟨ss, ds, hsteps, hds⟩
  · rintro ⟨ss, ds, hsteps, hds⟩
    exact ⟨(steps_isOk_iff h).mp ⟨ss, hsteps⟩, (hcompounds ss hsteps).mp ⟨ds, hds⟩⟩

end IsPath

section Pictures
variable {p : PathTarget} {described : List (Element × List String)} {ss : List Selector}

theorem eq_singleton_of_nodup {l : List Nat} {k : Nat} (h : l.Nodup) (hmem : ∀ n, n ∈ l ↔ n = k) :
    l = [k] := by
  have hperm := (List.perm_ext_iff_of_nodup h (List.nodup_singleton k)).mpr
    fun n => (hmem n).trans List.mem_singleton.symm
  exact List.perm_singleton.mp hperm

theorem Chained.children_eq (h : Chained p described) {i : Nat} (hi : i ≤ described.length) :
    p.document.children i = if i < described.length then [i + 1] else [] := by
  have hlinked := h.grown.linked
  have hmem (c : Nat) : c ∈ p.document.children i ↔ c = i + 1 ∧ i < described.length := by
    rw [hlinked.child_iff]
    constructor
    · intro hp
      have hlt : i < c := h.grown.parent_lt hp
      have hsize : c < described.length + 1 := h.size ▸ lt_size_of_parent hp
      have hparent := h.parent (c - 1) (by omega)
      rw [Nat.sub_add_cancel (by omega), hp, Option.some_inj] at hparent
      omega
    · rintro ⟨rfl, hlt⟩
      exact h.parent i hlt
  split
  next hlt =>
    exact eq_singleton_of_nodup (hlinked.nodup i) fun c => (hmem c).trans (and_iff_left hlt)
  next hge =>
    refine List.eq_nil_iff_forall_not_mem.mpr fun c hc => ?_
    exact hge ((hmem c).mp hc).2

theorem nodup_keys_overridesOf (described : List (Element × List String)) :
    ((overridesOf described).map Prod.fst).Nodup := by
  have hkeys : ((overridesOf described).map Prod.fst).Sublist ((described.zipIdx 1).map Prod.snd) := by
    rw [overridesOf, List.map_map]
    exact List.filter_sublist.map Prod.snd
  rw [List.zipIdx_map_snd] at hkeys
  exact hkeys.nodup List.nodup_range'

/-- The elements that something is overridden for are those whose compounds name a
pseudo-class. -/
theorem mem_keys_overridesOf {compounds : List (List Condition)}
    (hdescribe : List.Forall₂ (fun cs d => describe cs = .ok d) compounds described) (k : Nat) :
    k ∈ (overridesOf described).map Prod.fst ↔
      ∃ i cs, k = i + 1 ∧ compounds[i]? = some cs ∧ ∃ name, .pseudoClass name ∈ cs := by
  rw [List.mem_map]
  constructor
  · rintro ⟨x, hx, rfl⟩
    obtain ⟨i, d, hd, hsome, rfl⟩ := mem_overridesOf.mp hx
    obtain ⟨cs, hcs, hdescribed⟩ := getElem?_of_forall₂ hdescribe.flip hd
    obtain ⟨name, hname⟩ := List.exists_mem_of_ne_nil d.2 hsome
    exact ⟨i, cs, rfl, hcs, name, ((describes_of_describe hdescribed).pseudoClasses name).mp hname⟩
  · rintro ⟨i, cs, rfl, hcs, name, hname⟩
    obtain ⟨d, hd, hdescribed⟩ := getElem?_of_forall₂ hdescribe hcs
    have hmem : name ∈ d.2 := ((describes_of_describe hdescribed).pseudoClasses name).mpr hname
    exact ⟨_, mem_overridesOf.mpr ⟨i, d, hd, List.ne_nil_of_mem hmem, rfl⟩, rfl⟩

theorem Chained.root_isRoot (h : Chained p described) :
    p.document.element? root = none ∧ p.document.parent? root = none := by
  refine ⟨Option.eq_none_iff_forall_ne_some.mpr fun e he => ?_,
    Option.eq_none_iff_forall_ne_some.mpr fun q hq => ?_⟩
  · exact ((h.grown.element_iff root).mp (by rw [he]; rfl)).2 rfl
  · exact Nat.not_lt_zero q (h.grown.parent_lt hq)

/-- A chain of elements that some compounds describe pictures these compounds. -/
theorem Chained.pictures (h : Chained p described)
    (hdescribe : List.Forall₂ (fun s d => describe (conditions s) = .ok d) ss described) :
    Pictures (ss.map conditions) p := by
  have hdescribe : List.Forall₂ (fun cs d => describe cs = .ok d) (ss.map conditions) described :=
    List.forall₂_map_left_iff.mpr hdescribe
  have hlength := hdescribe.length_eq
  constructor
  · rw [h.size, hlength]
  · exact h.root_isRoot
  · intro i cs hi
    obtain ⟨d, hd, hdescribed⟩ := getElem?_of_forall₂ hdescribe hi
    have hdescribes := describes_of_describe hdescribed
    obtain ⟨rest, hcs, -⟩ := hdescribes.conditions
    refine ⟨d.1, ?_, ?_, hdescribes.attributes⟩
    · rw [h.element, hd, Option.map_some]
    · rw [hcs, List.head?_cons]
  · intro i hi
    exact h.parent i (hlength ▸ hi)
  · intro i hi
    rw [hlength] at hi ⊢
    exact h.children_eq hi
  · rw [h.target, hlength]
  · rw [h.overrides]
    exact nodup_keys_overridesOf described
  · rw [h.overrides]
    exact mem_keys_overridesOf hdescribe
  · intro i cs names hi hmem
    obtain ⟨d, hd, hdescribed⟩ := getElem?_of_forall₂ hdescribe hi
    rw [h.overrides] at hmem
    obtain ⟨j, d', hd', -, heq⟩ := mem_overridesOf.mp hmem
    cases heq
    rw [hd] at hd'
    cases hd'
    exact ⟨nodup_of_describe hdescribed, (describes_of_describe hdescribed).pseudoClasses⟩

end Pictures

/-- A path is accepted just if it is read as one chain of children, each compound of which begins
with a type and goes on with conditions that an element can be made to meet. Then it is built as
the chain of elements that pictures its compounds. -/
theorem build_iff_isPath (path : String) :
    ((∃ p, build path = .ok p) ↔ ∃ s, SelectorGroup.parse path = .ok [s] ∧ s.IsPath) ∧
    ∀ p, build path = .ok p →
      ∃ s, SelectorGroup.parse path = .ok [s] ∧ Pictures s.compounds p := by
  refine ⟨⟨?_, ?_⟩, ?_⟩
  · rintro ⟨p, hbuild⟩
    obtain ⟨s, ss, ds, hparse, hsteps, hds, -⟩ := build_eq_ok_iff.mp hbuild
    obtain ⟨ks, hchain⟩ := chain_of_parse hparse
    exact ⟨s, hparse, (isPath_iff hchain).mpr ⟨ss, ds, hsteps, hds⟩⟩
  · rintro ⟨s, hparse, hpath⟩
    obtain ⟨ks, hchain⟩ := chain_of_parse hparse
    obtain ⟨ss, ds, hsteps, hds⟩ := (isPath_iff hchain).mp hpath
    exact ⟨_, build_eq_ok_iff.mpr ⟨s, ss, ds, hparse, hsteps, hds, rfl⟩⟩
  · intro p hbuild
    obtain ⟨s, ss, ds, hparse, hsteps, hds, rfl⟩ := build_eq_ok_iff.mp hbuild
    obtain ⟨ks, hchain⟩ := chain_of_parse hparse
    refine ⟨s, hparse, ?_⟩
    rw [← map_conditions_steps hchain hsteps]
    exact (chained_empty.foldl_extend ds).pictures hds

/-- The path of an opened layer with a rectangle in it is accepted, and the layer is overridden. -/
theorem build_iff_isPath_opened : ∃ p, build "layer:open > rect#r1" = .ok p ∧
    p.document.size = 3 ∧ p.document.children 1 = [2] ∧ p.target = 2 ∧
    p.overrides.map Prod.fst = [1] := by
  have hparse : SelectorGroup.parse "layer:open > rect#r1" =
      .ok [.combined .child (.compound (.type "layer") [.pseudoClass "open"])
        (.compound (.type "rect") [.id "r1"])] := by decide +kernel
  obtain ⟨hiff, hpictures⟩ := build_iff_isPath "layer:open > rect#r1"
  have hpath : (Selector.combined .child (.compound (.type "layer") [.pseudoClass "open"])
      (.compound (.type "rect") [.id "r1"])).IsPath := by
    refine ⟨by decide, ?_⟩
    rintro cs hcs
    simp only [Selector.compounds, Selector.compound, List.foldl_cons, List.foldl_nil,
      Selector.conditions, List.cons_append, List.nil_append, List.mem_cons, List.not_mem_nil,
      or_false] at hcs
    rcases hcs with rfl | rfl
    · exact ⟨_, _, rfl, List.forall_mem_singleton.mpr trivial⟩
    · exact ⟨_, _, rfl, List.forall_mem_singleton.mpr trivial⟩
  obtain ⟨p, hbuild⟩ := hiff.mpr ⟨_, hparse, hpath⟩
  obtain ⟨s, hs, hpicture⟩ := hpictures p hbuild
  rw [hparse] at hs
  cases hs
  have hkeys (k : Nat) : k ∈ p.overrides.map Prod.fst ↔ k = 1 := by
    rw [hpicture.overridden]
    constructor
    · rintro ⟨i, cs, rfl, hcs, name, hname⟩
      obtain _ | _ | i := i
      · rfl
      · cases hcs
        simp [Selector.conditions] at hname
      · cases hcs
    · rintro rfl
      exact ⟨0, _, rfl, rfl, "open", by decide⟩
  exact ⟨p, hbuild, hpicture.size, hpicture.children 1 (by decide), hpicture.target,
    eq_singleton_of_nodup hpicture.keys hkeys⟩

end ElementPath
end Styling
