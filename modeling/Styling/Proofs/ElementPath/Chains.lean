import Mathlib.Data.List.Forall2
import Styling.Proofs.ElementPath.Described
import Styling.Proofs.Selector.RoundTrip

/-! # Chains of elements described by a path

Each compound of a path adds one element, the child of the one before it, so the elements are
numbered like the compounds. The selector that the path is asks of each element what its compound
says, and so it matches the last one just if no compound loses a condition on the way.
-/
namespace Styling.ElementPath
open Document

/-- The pseudo-classes that are turned on for described elements, which are numbered from 1. -/
def overridesOf (described : List (Element × List String)) : Overrides Nat :=
  ((described.zipIdx 1).filter (!·.1.2.isEmpty)).map fun d => (d.2, d.1.2)

/-- A chain of children that carries what is described, from the root downwards. -/
structure Chained (p : PathTarget) (described : List (Element × List String)) : Prop where
  grown : p.document.Grown
  size : p.document.size = described.length + 1
  target : p.target = described.length
  element : ∀ i, p.document.element? (i + 1) = (described[i]?).map Prod.fst
  parent : ∀ i < described.length, p.document.parent? (i + 1) = some i
  overrides : p.overrides = overridesOf described

section Building
variable {p q : PathTarget} {described : List (Element × List String)} {ss : List Selector}

theorem chained_empty : Chained ⟨Document.empty, root, []⟩ [] where
  grown := .empty
  size := rfl
  target := rfl
  element _ := rfl
  parent i hi := absurd hi (Nat.not_lt_zero i)
  overrides := rfl

theorem overridesOf_concat (described : List (Element × List String)) (d : Element × List String) :
    overridesOf (described ++ [d]) =
      if d.2.isEmpty then overridesOf described
      else overridesOf described ++ [(described.length + 1, d.2)] := by
  rw [overridesOf, List.zipIdx_append, List.filter_append, List.map_append, ← overridesOf,
    List.zipIdx_singleton, Nat.add_comm]
  cases h : d.2.isEmpty with
  | true =>
    rw [List.filter_cons_of_neg (by simp [h])]
    simp
  | false =>
    rw [List.filter_cons_of_pos (by simp [h])]
    rfl

theorem Chained.extend (h : Chained p described) (d : Element × List String) :
    Chained (extend p d) (described ++ [d]) := by
  have htarget : p.target < p.document.size := by
    rw [h.target, h.size]
    exact Nat.lt_succ_self _
  obtain ⟨document, hadd⟩ := appendElement?_isSome htarget d.1
  have hfresh : p.document.fresh = described.length + 1 := h.size
  have hextend : ElementPath.extend p d = ⟨document, described.length + 1,
      overridesOf (described ++ [d])⟩ := by
    rw [overridesOf_concat, ElementPath.extend, hadd, ← h.overrides, ← hfresh]
  rw [hextend]
  constructor
  · exact h.grown.append htarget hadd
  · rw [size_appendElement hadd, h.size, List.length_append]
    rfl
  · rw [List.length_append]
    rfl
  · intro i
    rw [element?_appendElement hadd, h.size, h.element]
    by_cases hi : i = described.length
    · simp [hi]
    · rw [if_neg (by omega)]
      rcases Nat.lt_or_gt_of_ne hi with hlt | hgt
      · rw [List.getElem?_append_left hlt]
      · rw [List.getElem?_eq_none hgt.le, List.getElem?_eq_none (by simp; omega)]
  · intro i hi
    rw [List.length_append, List.length_singleton] at hi
    rw [parent?_appendElement hadd, h.size, h.target]
    split
    next heq => rw [Nat.add_right_cancel heq]
    next hne => exact h.parent i (by omega)
  · rfl

theorem extendAll_eq_ok_iff : extendAll p ss = .ok q ↔
    ∃ ds, List.Forall₂ (fun s d => describe (conditions s) = .ok d) ss ds ∧
      ds.foldl ElementPath.extend p = q := by
  induction ss generalizing p with
  | nil => simp [ElementPath.extendAll]
  | cons s ss ih =>
    rw [ElementPath.extendAll]
    cases hd : describe (conditions s) with
    | error e =>
      refine iff_of_false nofun ?_
      rintro ⟨ds, hds, -⟩
      cases hds with
      | cons hfirst _ =>
        rw [hd] at hfirst
        cases hfirst
    | ok d =>
      dsimp only
      rw [ih]
      constructor
      · rintro ⟨ds, hds, hq⟩
        exact ⟨d :: ds, .cons hd hds, hq⟩
      · rintro ⟨ds, hds, hq⟩
        cases hds with
        | cons hfirst hrest =>
          rw [hd] at hfirst
          cases hfirst
          exact ⟨_, hrest, hq⟩

theorem Chained.foldl_extend (h : Chained p described) (more : List (Element × List String)) :
    Chained (more.foldl ElementPath.extend p) (described ++ more) := by
  induction more generalizing p described with
  | nil => rwa [List.append_nil]
  | cons d more ih =>
    rw [List.append_cons]
    exact ih (h.extend d)

/-- What is turned on for a chain: the pseudo-classes of each element that has some. -/
theorem mem_overridesOf {x : Nat × List String} : x ∈ overridesOf described ↔
    ∃ i d, described[i]? = some d ∧ d.2 ≠ [] ∧ x = (i + 1, d.2) := by
  rw [overridesOf, List.mem_map]
  constructor
  · rintro ⟨⟨d, k⟩, hmem, rfl⟩
    obtain ⟨hzip, hsome⟩ := List.mem_filter.mp hmem
    obtain ⟨hk, hd⟩ := List.mem_zipIdx_iff_le_and_getElem?_sub.mp hzip
    exact ⟨k - 1, d, hd, by simpa using hsome, by rw [Nat.sub_add_cancel hk]⟩
  · rintro ⟨i, d, hd, hsome, rfl⟩
    refine ⟨(d, i + 1), List.mem_filter.mpr ⟨?_, by simpa using hsome⟩, rfl⟩
    exact List.mem_zipIdx_iff_le_and_getElem?_sub.mpr ⟨Nat.le_add_left _ _, by simpa using hd⟩

/-- A described element has its own pseudo-classes turned on, and no others. -/
theorem gives_overridesOf {i : Nat} {d : Element × List String} (h : described[i]? = some d)
    (name : String) : (overridesOf described).gives (i + 1) name = true ↔ name ∈ d.2 := by
  rw [Overrides.gives, List.any_eq_true]
  constructor
  · rintro ⟨entry, hentry, hgives⟩
    obtain ⟨j, d', hd', -, rfl⟩ := mem_overridesOf.mp hentry
    obtain ⟨hkey, hname⟩ := Bool.and_eq_true_iff.mp hgives
    obtain rfl : j = i := Nat.succ_injective (eq_of_beq hkey)
    rw [h] at hd'
    cases hd'
    simpa using hname
  · intro hname
    exact ⟨_, mem_overridesOf.mpr ⟨i, d, h, List.ne_nil_of_mem hname, rfl⟩, by simpa using hname⟩

end Building

section Matching
variable {m : Model Nat} {ks : List Kind} {s left right : Selector} {ss : List Selector}

theorem steps_child (h : steps (.combined .child left right) = .ok ss) :
    ∃ outer, steps left = .ok outer ∧ ss = outer ++ [right] := by
  rw [steps] at h
  split at h
  next => cases h
  next outer hleft =>
    cases h
    exact ⟨outer, hleft, rfl⟩

theorem steps_ne_nil (h : steps s = .ok ss) : ss ≠ [] := by
  unfold steps at h
  split at h
  next left right =>
    have hchild : steps (.combined .child left right) = .ok ss := by
      rw [steps]
      exact h
    obtain ⟨outer, -, rfl⟩ := steps_child hchild
    simp
  next =>
    cases h
    simp
  next =>
    cases h
    simp
  next => cases h

theorem steps_compound (h : Grammar.Compound ks s) : steps s = .ok [s] := by
  cases h <;> rfl

theorem match?_compound_iff (h : Grammar.Compound ks s) (e : Nat) :
    s.match? m e = some e ↔ ∀ c ∈ conditions s, c.holds m e = true := by
  induction h with
  | head => simp [Selector.match?, conditions]
  | more _ _ ih =>
    rw [Selector.match?_combined, conditions, List.forall_mem_append, ← ih, and_comm]
    simp [Combinator.related, Selector.match?, conditions]

theorem forall_getElem?_concat {α : Type} {P : Nat → α → Prop} (as : List α) (a : α) :
    (∀ i x, (as ++ [a])[i]? = some x → P i x) ↔
      (∀ i x, as[i]? = some x → P i x) ∧ P as.length a := by
  constructor
  · intro h
    refine ⟨fun i x hx => h i x ?_, h as.length a (by simp)⟩
    rw [List.getElem?_append_left (List.getElem?_eq_some_iff.mp hx).1, hx]
  · rintro ⟨hinit, hlast⟩ i x hx
    rcases Nat.lt_or_ge i as.length with hi | hi
    · rw [List.getElem?_append_left hi] at hx
      exact hinit i x hx
    · have hlt := (List.getElem?_eq_some_iff.mp hx).1
      rw [List.length_append, List.length_singleton] at hlt
      obtain rfl : i = as.length := by omega
      rw [List.getElem?_concat_length] at hx
      exact Option.some.inj hx ▸ hlast

/-- Where elements are numbered along a chain of children, the selector of a chain asks each of
them for the conditions of its compound. -/
theorem match?_chain_iff (h : Grammar.Chain ks s) (hsteps : steps s = .ok ss)
    (hparent : ∀ i, i + 1 < ss.length → m.parent? (i + 2) = some (i + 1)) :
    s.match? m ss.length = some ss.length ↔
      ∀ i compound, ss[i]? = some compound → ∀ c ∈ conditions compound, c.holds m (i + 1) = true := by
  induction h generalizing ss with
  | @first _ _ right _ hcompound =>
    rw [steps_compound hcompound] at hsteps
    cases hsteps
    rw [← List.nil_append [right], forall_getElem?_concat]
    simp [match?_compound_iff hcompound]
  | @next _ _ _ left right c hchain hlink hcompound ih =>
    cases c with
    | child =>
      obtain ⟨outer, houter, rfl⟩ := steps_child hsteps
      have hlength : 0 < outer.length := List.length_pos_iff.mpr (steps_ne_nil houter)
      rw [List.length_append, List.length_singleton] at hparent ⊢
      have hlast : m.parent? (outer.length + 1) = some outer.length := by
        have hlast := hparent (outer.length - 1) (by omega)
        rwa [show outer.length - 1 + 2 = outer.length + 1 by omega,
          Nat.sub_add_cancel hlength] at hlast
      -- the last compound is asked of the last element, the others of the chain that ends above it
      rw [forall_getElem?_concat, ← ih houter fun i hi => hparent i (by omega),
        ← match?_compound_iff hcompound, Selector.match?_combined, and_comm]
      simp [Combinator.related, hlast]
    | and =>
      cases hlink with
      | mark _ hmark _ => cases hmark
    | _ => cases hsteps

end Matching

variable {path : String} {p : PathTarget} {described : List (Element × List String)}

theorem getElem?_of_forall₂ {α β : Type} {R : α → β → Prop} {as : List α} {bs : List β}
    (h : List.Forall₂ R as bs) {i : Nat} {a : α} (hi : as[i]? = some a) :
    ∃ b, bs[i]? = some b ∧ R a b := by
  induction h generalizing i with
  | nil => cases hi
  | cons hfirst _ ih =>
    cases i with
    | zero =>
      cases hi
      exact ⟨_, rfl, hfirst⟩
    | succ i => exact ih hi

theorem Chained.model_parent (h : Chained p described) (i : Nat) (hi : i + 1 < described.length) :
    (p.document.model.overlay p.overrides).parent? (i + 2) = some (i + 1) := by
  refine model_parent?_eq_some.mpr ⟨h.parent (i + 1) hi, ?_⟩
  rw [h.element, List.getElem?_eq_getElem (by omega)]
  rfl

/-- In the chain that it is built as, the selector of a path matches the last element just if each
of its compounds is concordant. -/
theorem Chained.match?_iff {ks : List Kind} {s : Selector} {ss : List Selector}
    (h : Chained p described) (hchain : Grammar.Chain ks s) (hsteps : steps s = .ok ss)
    (hdescribes : List.Forall₂ (fun s d => Describes (conditions s) d) ss described) :
    s.match? (p.document.model.overlay p.overrides) p.target = some p.target ↔
      ∀ compound ∈ ss, Concordant (conditions compound) := by
  have hlength := hdescribes.length_eq
  rw [h.target, ← hlength, match?_chain_iff hchain hsteps
    fun i hi => h.model_parent i (hlength ▸ hi)]
  have hholds (i : Nat) (compound : Selector) (hi : ss[i]? = some compound) :
      (∀ c ∈ conditions compound, c.holds (p.document.model.overlay p.overrides) (i + 1) = true) ↔
        Concordant (conditions compound) := by
    obtain ⟨d, hd, hdescribes⟩ := getElem?_of_forall₂ hdescribes hi
    have helement : p.document.element? (i + 1) = some d.1 := by rw [h.element, hd]; rfl
    refine forall₂_congr fun c hc => hdescribes.holds_iff helement (fun name => ?_) hc
    rw [h.overrides]
    exact gives_overridesOf hd name
  constructor
  · intro hall compound hmem
    obtain ⟨i, hi⟩ := List.mem_iff_getElem?.mp hmem
    exact (hholds i compound hi).mp (hall i compound hi)
  · intro hall i compound hi
    exact (hholds i compound hi).mpr (hall compound (List.mem_of_getElem? hi))

theorem chain_of_parse {s : Selector} (h : SelectorGroup.parse path = .ok [s]) :
    ∃ ks, Grammar.Chain ks s :=
  (SelectorGroup.parse_eq_ok_iff.mp h).chain_of_mem s List.mem_cons_self

theorem build_eq_ok_iff : build path = .ok p ↔ ∃ s compounds ds,
    SelectorGroup.parse path = .ok [s] ∧ steps s = .ok compounds ∧
      List.Forall₂ (fun s d => describe (conditions s) = .ok d) compounds ds ∧
      ds.foldl extend ⟨Document.empty, root, []⟩ = p := by
  constructor
  · intro h
    unfold build at h
    split at h
    next => cases h
    next s hparse =>
      unfold ofSelector at h
      split at h
      next => cases h
      next compounds hsteps =>
        obtain ⟨ds, hds, hp⟩ := extendAll_eq_ok_iff.mp h
        exact ⟨s, compounds, ds, hparse, hsteps, hds, hp⟩
    next => cases h
  · rintro ⟨s, compounds, ds, hparse, hsteps, hds, hp⟩
    simp only [build, hparse, ofSelector, hsteps]
    exact extendAll_eq_ok_iff.mpr ⟨ds, hds, hp⟩

/-- What is built of a path: a chain that carries what the compounds of its one selector
describe. -/
theorem build_eq_ok (h : build path = .ok p) : ∃ s compounds described ks,
    SelectorGroup.parse path = .ok [s] ∧ Grammar.Chain ks s ∧ steps s = .ok compounds ∧
      List.Forall₂ (fun s d => Describes (conditions s) d) compounds described ∧
      Chained p described := by
  obtain ⟨s, compounds, described, hparse, hsteps, hdescribe, rfl⟩ := build_eq_ok_iff.mp h
  obtain ⟨ks, hchain⟩ := chain_of_parse hparse
  exact ⟨s, compounds, described, ks, hparse, hchain, hsteps,
    hdescribe.imp fun _ _ => describes_of_describe, chained_empty.foldl_extend described⟩

/-- A path matches the element that it describes just if each of its compounds is concordant. -/
theorem build_matches_iff (h : build path = .ok p) : ∃ s compounds,
    SelectorGroup.parse path = .ok [s] ∧ steps s = .ok compounds ∧
      (SelectorGroup.match? (p.document.model.overlay p.overrides) [s] p.target = some p.target ↔
        ∀ compound ∈ compounds, Concordant (conditions compound)) := by
  obtain ⟨s, compounds, described, ks, hparse, hchain, hsteps, hdescribes, hchained⟩ := build_eq_ok h
  refine ⟨s, compounds, hparse, hsteps, ?_⟩
  rw [← hchained.match?_iff hchain hsteps hdescribes, SelectorGroup.match?, List.findSome?_singleton]

/-- The two classes are words, and nothing is set twice. -/
theorem build_matches_warning :
    ∃ p, build "layer > rect.warning.big#r1[kind=note]:selected" = .ok p ∧ ∃ s,
      SelectorGroup.parse "layer > rect.warning.big#r1[kind=note]:selected" = .ok [s] ∧
        SelectorGroup.match? (p.document.model.overlay p.overrides) [s] p.target = some p.target := by
  have hok : (build "layer > rect.warning.big#r1[kind=note]:selected").toOption.isSome := by
    decide +kernel
  cases hbuild : build "layer > rect.warning.big#r1[kind=note]:selected" with
  | error e =>
    rw [hbuild] at hok
    cases hok
  | ok p =>
    obtain ⟨s, compounds, hparse, hsteps, hmatches⟩ := build_matches_iff hbuild
    have hpath : (SelectorGroup.parse "layer > rect.warning.big#r1[kind=note]:selected").toOption =
        some [.combined .child (.simple (.type "layer"))
          (.compound (.type "rect") [.styleClass "warning", .styleClass "big", .id "r1",
            .attributeIs "kind" "note", .pseudoClass "selected"])] := by
      decide +kernel
    rw [hparse] at hpath
    cases hpath
    cases hsteps
    exact ⟨p, rfl, _, hparse, hmatches.mpr (by decide +kernel)⟩

/-- The test for the attribute replaces the value that stands before it. -/
theorem not_build_matches_kind : ¬ ∀ path p, build path = .ok p → ∃ g,
    SelectorGroup.parse path = .ok g ∧
      SelectorGroup.match? (p.document.model.overlay p.overrides) g p.target = some p.target := by
  intro h
  have hbuild : build "rect[kind=note][kind]" = .ok ⟨⟨[⟨none, none, [1], none, none⟩,
      ⟨some ⟨"rect", [("kind", "")], []⟩, some 0, [], none, none⟩]⟩, 1, []⟩ := by
    decide +kernel
  have hparse : SelectorGroup.parse "rect[kind=note][kind]" =
      .ok [.compound (.type "rect") [.attributeIs "kind" "note", .hasAttribute "kind"]] := by
    decide +kernel
  obtain ⟨g, hg, hmatch⟩ := h _ _ hbuild
  rw [hparse] at hg
  cases hg
  exact absurd hmatch (by decide +kernel)

end Styling.ElementPath
