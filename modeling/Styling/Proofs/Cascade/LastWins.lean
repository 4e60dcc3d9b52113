import Mathlib.Data.List.Basic
import Styling.Cascade.Manager
import Styling.Proofs.Text.ByteOrder

/-! # The last declaration wins

What reaches an element is the declarations of its matching rulesets, in the order of their
places, and then its own. Applying the styles of a manager keeps, for each property, the last
declaration that reaches the element, and hands the winners over in the order of the bytes of
their properties.
-/
namespace Styling

namespace AppliedStyles

/-- The properties increase, and each winner stands under its own property. -/
structure Ordered (s : AppliedStyles) : Prop where
  increasing : s.entries.Pairwise fun x y => x.1 < y.1
  keyed : ∀ x ∈ s.entries, x.2.declaration.property = x.1

theorem lookup_cons_eq (p n : String) (b : AppliedDeclaration)
    (rest : List (String × AppliedDeclaration)) :
    ((n, b) :: rest).lookup p = if p = n then some b else rest.lookup p := by
  rw [List.lookup_cons]
  by_cases h : p = n
  · simp [h]
  · simp [h, beq_false_of_ne h]

theorem lookup_insert (name p : String) (a : AppliedDeclaration)
    (entries : List (String × AppliedDeclaration)) :
    (insert name a entries).lookup p = if p = name then some a else entries.lookup p := by
  induction entries with
  | nil => exact lookup_cons_eq ..
  | cons x rest ih =>
    obtain ⟨n, b⟩ := x
    simp only [insert]
    split
    · exact lookup_cons_eq ..
    · split
      next heq =>
        simp only [lookup_cons_eq, heq]
        split <;> rfl
      next hne =>
        rw [lookup_cons_eq, lookup_cons_eq, ih]
        by_cases hp : p = n
        · simp [hp, hne]
        · simp [hp]

theorem mem_insert {name : String} {a : AppliedDeclaration} {x : String × AppliedDeclaration}
    {entries : List (String × AppliedDeclaration)} (h : x ∈ insert name a entries) :
    x = (name, a) ∨ x ∈ entries := by
  induction entries with
  | nil => exact .inl (List.mem_singleton.mp h)
  | cons y rest ih =>
    obtain ⟨n, b⟩ := y
    simp only [insert] at h
    split_ifs at h with hlt heq
    · exact List.mem_cons.mp h
    · exact (List.mem_cons.mp h).imp_right (List.mem_cons_of_mem _)
    · rcases List.mem_cons.mp h with rfl | h
      · exact .inr List.mem_cons_self
      · exact (ih h).imp_right (List.mem_cons_of_mem _)

theorem ordered_empty : empty.Ordered := ⟨.nil, by simp [empty]⟩

theorem Ordered.set {s : AppliedStyles} (h : s.Ordered) (a : AppliedDeclaration) :
    (s.set a).Ordered := by
  obtain ⟨entries⟩ := s
  obtain ⟨hinc, hkey⟩ := h
  constructor
  · simp only [AppliedStyles.set]
    induction entries with
    | nil => exact List.pairwise_singleton _ _
    | cons x rest ih =>
      obtain ⟨n, b⟩ := x
      obtain ⟨hfirst, hrest⟩ := List.pairwise_cons.mp hinc
      simp only [insert]
      split_ifs with hlt heq
      · refine List.pairwise_cons.mpr ⟨fun y hy => ?_, hinc⟩
        rcases List.mem_cons.mp hy with rfl | hy
        · exact hlt
        · exact String.lt_trans hlt (hfirst y hy)
      · exact List.pairwise_cons.mpr ⟨fun y hy => heq ▸ hfirst y hy, hrest⟩
      · refine List.pairwise_cons.mpr
          ⟨fun y hy => ?_, ih hrest fun y hy => hkey y (List.mem_cons_of_mem _ hy)⟩
        rcases mem_insert hy with rfl | hy
        · by_contra hn
          exact heq (String.le_antisymm (String.not_lt.mp hlt) (String.not_lt.mp hn))
        · exact hfirst y hy
  · intro x hx
    rcases mem_insert hx with rfl | hx
    · rfl
    · exact hkey x hx

theorem find?_set (s : AppliedStyles) (a : AppliedDeclaration) (p : String) :
    (s.set a).find? p = if p = a.declaration.property then some a else s.find? p :=
  lookup_insert ..

/-- Setting declarations one after the other keeps the last one of each property. -/
theorem find?_foldl_set (as : List AppliedDeclaration) (s : AppliedStyles) (p : String) :
    (as.foldl set s).find? p =
      ((as.filter (·.declaration.property = p)).getLast?).or (s.find? p) := by
  induction as generalizing s with
  | nil => rfl
  | cons a rest ih =>
    rw [List.foldl_cons, ih, find?_set]
    by_cases h : p = a.declaration.property
    · subst h
      cases hl : (rest.filter (·.declaration.property = a.declaration.property)).getLast? with
      | none => simp [List.getLast?_cons, hl]
      | some b => simp [List.getLast?_cons, hl]
    · simp [h, Ne.symm h]

theorem ordered_foldl_set {s : AppliedStyles} (h : s.Ordered) (as : List AppliedDeclaration) :
    (as.foldl set s).Ordered := by
  induction as generalizing s with
  | nil => exact h
  | cons a rest ih => exact ih (h.set a)

/-- The winners are what is found under their properties. -/
theorem Ordered.mem_winners {s : AppliedStyles} (h : s.Ordered) (a : AppliedDeclaration) :
    a ∈ s.winners ↔ s.find? a.declaration.property = some a := by
  obtain ⟨entries⟩ := s
  obtain ⟨hinc, hkey⟩ := h
  simp only [winners, find?]
  induction entries with
  | nil => simp
  | cons x rest ih =>
    obtain ⟨n, b⟩ := x
    obtain ⟨hfirst, hrest⟩ := List.pairwise_cons.mp hinc
    have hb : b.declaration.property = n := hkey _ List.mem_cons_self
    have hih := ih hrest fun y hy => hkey y (List.mem_cons_of_mem _ hy)
    rw [List.map_cons, List.mem_cons, hih, lookup_cons_eq]
    by_cases hn : a.declaration.property = n
    · -- The other entries have greater properties.
      have hnone : rest.lookup n = none := by
        refine List.lookup_eq_none_iff.mpr fun y hy => ?_
        simpa using String.ne_of_lt (hfirst y hy)
      simp only [hn, hnone, if_true, Option.some.injEq, reduceCtorEq, or_false]
      exact eq_comm
    · have hne : a ≠ b := by
        rintro rfl
        exact hn hb
      simp [hn, hne]

theorem Ordered.pairwise_winners {s : AppliedStyles} (h : s.Ordered) :
    s.winners.Pairwise fun a b => Utf8.encode a.declaration.property.toList <
      Utf8.encode b.declaration.property.toList := by
  refine List.pairwise_map.mpr (h.increasing.imp_of_mem fun {x y} hx hy hlt => ?_)
  rw [h.keyed x hx, h.keyed y hy]
  exact Utf8.encode_lt_encode hlt

end AppliedStyles

/-- What is put together from all origins is in order if it is so for each origin, and the origins
come one after the other. -/
theorem Origin.pairwise_flatMap_all {α : Type} {R : α → α → Prop} {f : Origin → List α}
    (hsame : ∀ o, (f o).Pairwise R)
    (hrank : ∀ o o', o.rank < o'.rank → ∀ x ∈ f o, ∀ y ∈ f o', R x y) :
    (all.flatMap f).Pairwise R := by
  have hall : all.Pairwise fun o o' => o.rank < o'.rank := by decide
  refine List.pairwise_flatMap.mpr ⟨fun o _ => hsame o, ?_⟩
  apply hall.imp
  intro o o' h
  exact hrank o o' h

structure Place where
  origin : Origin
  sheet : Nat
  ruleset : Nat

/-- By origin, then by the order of the sheets, then by the order of the text. -/
def Place.Before (p q : Place) : Prop :=
  p.origin.rank < q.origin.rank ∨ p.origin = q.origin ∧
    (p.sheet < q.sheet ∨ p.sheet = q.sheet ∧ p.ruleset < q.ruleset)

namespace Manager

def rulesets (m : Manager) : List MatchedRuleset :=
  m.entries.flatMap fun (o, e) => (rulesetsOf e).map fun r => ⟨o, e.key, r⟩

theorem matching_eq_filter {ε : Type} [BEq ε] (m : Manager) (model : Model ε) (o : Overrides ε)
    (e : ε) : m.matching model o e =
      m.rulesets.filter fun r => SelectorGroup.accepts (model.overlay o) r.ruleset.selectors e := by
  simp only [matching, rulesets, List.filter_flatMap, List.filter_map]
  rfl

variable {ε : Type} [BEq ε] (m : Manager) (model : Model ε) (overrides : Overrides ε) (element : ε)

def rulesetAt? (p : Place) : Option MatchedRuleset :=
  match (m.bucket p.origin)[p.sheet]? with
  | some ⟨key, .ok sheet⟩ =>
    sheet.stylesheet.rulesets[p.ruleset]?.map fun r => ⟨p.origin, key, r⟩
  | _ => none

theorem rulesetAt?_eq (p : Place) : m.rulesetAt? p = (m.bucket p.origin)[p.sheet]?.bind fun e =>
    (rulesetsOf e)[p.ruleset]?.map fun r => ⟨p.origin, e.key, r⟩ := by
  unfold rulesetAt?
  cases (m.bucket p.origin)[p.sheet]? with
  | none => rfl
  | some e =>
    obtain ⟨key, outcome⟩ := e
    cases outcome <;> simp [rulesetsOf]

/-- What reaches an element, in order: the declarations of the rulesets that match it, and those
of its style attribute. -/
def reaching : List AppliedDeclaration :=
  (m.matching model overrides element).flatMap
    (fun r => r.ruleset.declarations.map fun d => ⟨r.origin, d⟩) ++
  match m.settings.styleAttribute with
  | none => []
  | some name =>
    match model.attribute? element name with
    | none => []
    | some text => (declarationsOf (parseDeclarations text)).map fun d => ⟨.inline, d⟩

/-- Whether a ruleset accepts an element in one pass. -/
def reaches (r : Ruleset) : Bool :=
  SelectorGroup.accepts (model.overlay overrides) r.selectors element

def places : List Place :=
  Origin.all.flatMap fun o => (m.bucket o).zipIdx.flatMap fun x =>
    ((rulesetsOf x.1).zipIdx.filter fun y => reaches model overrides element y.1).map
      fun y => ⟨o, x.2, y.2⟩

theorem pairwise_zipIdx {α : Type} (l : List α) : l.zipIdx.Pairwise fun x y => x.2 < y.2 := by
  have h : (l.zipIdx.map Prod.snd).Pairwise (· < ·) := by
    rw [List.zipIdx_map_snd]
    exact List.pairwise_lt_range'
  exact List.pairwise_map.mp h

theorem pairwise_places : (m.places model overrides element).Pairwise Place.Before := by
  apply Origin.pairwise_flatMap_all
  · intro o
    refine List.pairwise_flatMap.mpr ⟨fun x _ => ?_, ?_⟩
    · refine List.pairwise_map.mpr (((pairwise_zipIdx _).filter _).imp fun h => ?_)
      exact .inr ⟨rfl, .inr ⟨rfl, h⟩⟩
    · refine (pairwise_zipIdx _).imp fun {x x'} h p hp q hq => ?_
      obtain ⟨y, -, rfl⟩ := List.mem_map.mp hp
      obtain ⟨y', -, rfl⟩ := List.mem_map.mp hq
      exact .inr ⟨rfl, .inl h⟩
  · intro o o' h p hp q hq
    obtain ⟨x, -, hx⟩ := List.mem_flatMap.mp hp
    obtain ⟨x', -, hx'⟩ := List.mem_flatMap.mp hq
    obtain ⟨y, -, rfl⟩ := List.mem_map.mp hx
    obtain ⟨y', -, rfl⟩ := List.mem_map.mp hx'
    exact .inl h

theorem mem_places (p : Place) : p ∈ m.places model overrides element ↔
    ∃ r, m.rulesetAt? p = some r ∧ reaches model overrides element r.ruleset = true := by
  simp only [places, List.mem_flatMap, List.mem_map, List.mem_filter, rulesetAt?_eq]
  constructor
  · rintro ⟨o, -, ⟨e, i⟩, he, ⟨r, j⟩, ⟨hr, hacc⟩, rfl⟩
    rw [List.mem_zipIdx_iff_getElem?] at he hr
    exact ⟨⟨o, e.key, r⟩, by simp [he, hr], hacc⟩
  · rintro ⟨found, hfound, hacc⟩
    obtain ⟨e, he, hfound⟩ := Option.bind_eq_some_iff.mp hfound
    obtain ⟨r, hr, rfl⟩ := Option.map_eq_some_iff.mp hfound
    exact ⟨p.origin, p.origin.mem_all, (e, p.sheet), List.mem_zipIdx_iff_getElem?.mpr he,
      (r, p.ruleset), ⟨List.mem_zipIdx_iff_getElem?.mpr hr, hacc⟩, rfl⟩

theorem matching_eq_filterMap_places :
    m.matching model overrides element =
      (m.places model overrides element).filterMap m.rulesetAt? := by
  have hsheet (o : Origin) {x : SheetEntry × Nat} (hx : x ∈ (m.bucket o).zipIdx) :
      ((rulesetsOf x.1).filter (reaches model overrides element)).map
          (fun r => (⟨o, x.1.key, r⟩ : MatchedRuleset)) =
        (((rulesetsOf x.1).zipIdx.filter fun y => reaches model overrides element y.1).map
          fun y => ⟨o, x.2, y.2⟩).filterMap m.rulesetAt? := by
    conv_lhs => rw [← List.zipIdx_map_fst 0 (rulesetsOf x.1), List.filter_map, List.map_map]
    rw [List.filterMap_map, ← List.filterMap_eq_map]
    refine List.filterMap_congr fun y hy => ?_
    have hy' := List.mem_zipIdx_iff_getElem?.mp (List.mem_of_mem_filter hy)
    simp [rulesetAt?_eq, List.mem_zipIdx_iff_getElem?.mp hx, hy']
  simp only [matching, entries, places, List.filterMap_flatMap, List.flatMap_assoc,
    List.flatMap_map]
  refine List.flatMap_congr fun o _ => ?_
  conv_lhs => rw [← List.zipIdx_map_fst 0 (m.bucket o), List.flatMap_map]
  exact List.flatMap_congr fun x hx => hsheet o hx

/-- Applying styles sets what reaches the element, one declaration after the other. -/
theorem apply_eq_foldl : m.apply model overrides element =
    (m.reaching model overrides element).foldl AppliedStyles.set .empty := by
  have hsheets : m.entries.foldl (applySheet (model.overlay overrides) element) .empty =
      ((m.matching model overrides element).flatMap
        fun r => r.ruleset.declarations.map fun d => ⟨r.origin, d⟩).foldl
          AppliedStyles.set .empty := by
    simp only [matching, List.flatMap_assoc, List.flatMap_map, List.foldl_flatMap,
      List.foldl_filter, List.foldl_map]
    rfl
  unfold apply reaching ownDeclarations
  rw [List.foldl_append, hsheets]
  cases m.settings.styleAttribute with
  | none => rfl
  | some name =>
    cases h : model.attribute? element name with
    | none => simp [h]
    | some text => simp [h, List.foldl_map]

theorem find?_apply (p : String) : (m.apply model overrides element).find? p =
    ((m.reaching model overrides element).filter (·.declaration.property = p)).getLast? := by
  rw [apply_eq_foldl, AppliedStyles.find?_foldl_set]
  exact Option.or_none

theorem isSome_find?_apply (p : String) : ((m.apply model overrides element).find? p).isSome ↔
    ∃ a ∈ m.reaching model overrides element, a.declaration.property = p := by
  simp [find?_apply]

theorem applyInto_eq_foldl {σ : Type} (give : σ → AppliedDeclaration → σ) (sink : σ) :
    m.applyInto model overrides element give sink =
      (m.apply model overrides element).winners.foldl give sink := by
  rw [applyInto, AppliedStyles.winners, List.foldl_map]

/-- The styles of an element are, for each property, the last declaration that reaches it; the
rulesets among these stand in the order of their places. A sink gets the winners, each once, in
the order of the bytes of their properties. -/
theorem apply_keeps_last :
    (∀ p, ((m.apply model overrides element).find? p).isSome ↔
      ∃ a ∈ m.reaching model overrides element, a.declaration.property = p) ∧
    (∀ p, (m.apply model overrides element).get? p =
        (((m.reaching model overrides element).filter
          (·.declaration.property = p)).getLast?).map AppliedDeclaration.declaration ∧
      (m.apply model overrides element).originOf? p =
        (((m.reaching model overrides element).filter
          (·.declaration.property = p)).getLast?).map AppliedDeclaration.origin) ∧
    (∃ places : List Place, places.Pairwise Place.Before ∧
      (∀ q, q ∈ places ↔ ∃ r, m.rulesetAt? q = some r ∧
        SelectorGroup.accepts (model.overlay overrides) r.ruleset.selectors element = true) ∧
      m.matching model overrides element = places.filterMap m.rulesetAt?) ∧
    ((m.apply model overrides element).winners.Pairwise fun a b =>
      Utf8.encode a.declaration.property.toList < Utf8.encode b.declaration.property.toList) ∧
    (∀ a, a ∈ (m.apply model overrides element).winners ↔
      (m.apply model overrides element).find? a.declaration.property = some a) ∧
    ∀ {σ : Type} (give : σ → AppliedDeclaration → σ) (sink : σ),
      m.applyInto model overrides element give sink =
        (m.apply model overrides element).winners.foldl give sink := by
  have hfind := m.find?_apply model overrides element
  have hordered : (m.apply model overrides element).Ordered := by
    rw [apply_eq_foldl]
    exact AppliedStyles.ordered_foldl_set AppliedStyles.ordered_empty _
  refine ⟨m.isSome_find?_apply model overrides element, fun p => ?_, ?_,
    hordered.pairwise_winners, hordered.mem_winners, m.applyInto_eq_foldl model overrides element⟩
  · simp only [AppliedStyles.get?, AppliedStyles.originOf?, hfind, and_self]
  · exact ⟨m.places model overrides element, m.pairwise_places model overrides element,
      m.mem_places model overrides element, m.matching_eq_filterMap_places model overrides element⟩

end Manager
end Styling
