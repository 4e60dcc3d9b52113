import Styling.Proofs.Sheet.RoundTrip

/-! # Reading the text of a selector group again

The text of a group is read as the group itself, unless one of its names is a lone hyphen or one
of its names and values holds U+0000: these are lost when they are written.
-/
namespace Styling
open Grammar (kinds Group)
open Kind (scanned)

namespace Condition

/-- The name that a condition asks for, of a type, a class, a pseudo-class or an attribute. -/
def name? : Condition → Option String
  | universal | id _ => none
  | type name | styleClass name | pseudoClass name | hasAttribute name => some name
  | attributeIs name _ | attributeMatches name _ _ => some name

def strings : Condition → List String
  | universal => []
  | id value => [value]
  | type name | styleClass name | pseudoClass name | hasAttribute name => [name]
  | attributeIs name value | attributeMatches name _ value => [name, value]

/-- Nothing of the condition is lost when it is written: a lone hyphen is no name, and U+0000 is
read as another character. -/
structure Legible (c : Condition) : Prop where
  name : c.name? ≠ some "-"
  strings : ∀ value ∈ c.strings, '\x00' ∉ value.toList

end Condition

def Selector.conditions : Selector → List Condition
  | simple c => [c]
  | combined _ left right => left.conditions ++ right.conditions

def SelectorGroup.conditions (g : SelectorGroup) : List Condition := g.flatMap Selector.conditions

section Kinds

theorem Condition.legible_kinds_iff (c : Condition) : (∀ k ∈ c.kinds, k.Legible) ↔ c.Legible := by
  have hiff : c.Legible ↔ c.name? ≠ some "-" ∧ ∀ value ∈ c.strings, '\x00' ∉ value.toList :=
    ⟨fun h => ⟨h.name, h.strings⟩, fun h => ⟨h.1, h.2⟩⟩
  rw [hiff]
  cases c <;> simp [kinds, testKinds, idKind, Kind.Legible, name?, strings, and_assoc]

theorem Selector.legible_kinds_iff (s : Selector) :
    (∀ k ∈ s.kinds, k.Legible) ↔ ∀ c ∈ s.conditions, c.Legible := by
  induction s with
  | simple c => simp [kinds, conditions, c.legible_kinds_iff]
  | combined c left right ihleft ihright =>
    have hcombinator : ∀ k ∈ c.kinds, k.Legible := by
      cases c <;> simp [Combinator.kinds, Kind.Legible]
    rw [kinds, conditions, List.forall_mem_append, List.forall_mem_append, List.forall_mem_append,
      ihleft, ihright]
    exact ⟨fun h => ⟨h.1.1, h.2⟩, fun h => ⟨⟨h.1, hcombinator⟩, h.2⟩⟩

/-- A group is written as legible tokens just if its conditions are legible. -/
theorem SelectorGroup.legible_kinds_iff (g : SelectorGroup) :
    (∀ k ∈ SelectorGroup.kinds g, k.Legible) ↔ ∀ c ∈ SelectorGroup.conditions g, c.Legible := by
  induction g with
  | nil => simp [kinds, conditions]
  | cons s g ih =>
    cases g with
    | nil => simpa [kinds, conditions] using s.legible_kinds_iff
    | cons s' g =>
      have hkinds : kinds (s :: s' :: g) = s.kinds ++ [.comma, .blank] ++ kinds (s' :: g) :=
        List.intercalate_cons_cons
      have hcomma : ∀ k ∈ [Kind.comma, .blank], k.Legible := by simp [Kind.Legible]
      have hconditions : conditions (s :: s' :: g) = s.conditions ++ conditions (s' :: g) :=
        List.flatMap_cons
      rw [hkinds, hconditions, List.forall_mem_append, List.forall_mem_append,
        List.forall_mem_append, s.legible_kinds_iff, ih]
      exact ⟨fun h => ⟨h.1.1, h.2⟩, fun h => ⟨⟨h.1, hcomma⟩, h.2⟩⟩

end Kinds

namespace SelectorGroup
variable {text : String} {g : SelectorGroup}

theorem readAll_eq_ok_iff {ts : List Token} : readAll ts = .ok g ↔ Group (Grammar.kinds ts) g := by
  have hall := Grammar.follows_readAll ts
  constructor
  · intro h
    rw [h] at hall
    exact Grammar.group_iff.mpr hall
  · intro h
    obtain ⟨q, hrun, hg⟩ := Grammar.group_iff.mp h
    cases hread : readAll ts with
    | ok g' =>
      rw [hread] at hall
      obtain ⟨q', hrun', hg'⟩ := hall
      rw [hrun] at hrun'
      cases hrun'
      rw [hg] at hg'
      cases hg'
      rfl
    | error e =>
      rw [hread] at hall
      obtain ⟨used, q', rfl, hrun', hblocked⟩ := hall
      rw [Grammar.kinds_append, Grammar.Progress.run_append, hrun', Option.bind_some] at hrun
      cases hrest : e.rest with
      | nil =>
        rw [hrest] at hrun hblocked
        cases hrun
        rw [show q.group? = none from hblocked] at hg
        cases hg
      | cons t rest =>
        rw [hrest] at hrun hblocked
        rw [Grammar.kinds, List.map_cons, Grammar.Progress.run_cons,
          show q'.step t.kind = none from hblocked] at hrun
        cases hrun

theorem parse_eq_ok_iff :
    parse text = .ok g ↔ Group (Grammar.kinds (significant text.toList)) g := by
  rw [← readAll_eq_ok_iff, parse]
  cases readAll (significant text.toList) <;> simp [Except.mapError]

/-- Of a group with legible names and values, the text has the tokens. -/
theorem kinds_significant_chars {ks : List Kind} (h : Group ks g)
    (hl : ∀ k ∈ kinds g, k.Lexical) (hg : ∀ k ∈ kinds g, k.Legible) :
    Grammar.kinds (significant (chars g)) = kinds g := by
  have hscanned := scanned_group h hl hg (w := []) (by simp [AfterCondition])
  rw [List.append_nil] at hscanned
  rw [← filter_scanned, hscanned, Kind.scanned_nil, List.append_nil,
    List.filter_eq_self]
  intro k hk
  simp [(hg k hk).isComment]

theorem lexical_of_parse (h : parse text = .ok g) : ∀ k ∈ kinds g, k.Lexical := by
  refine inherited_lexical.kinds_group (parse_eq_ok_iff.mp h) fun k hk => ?_
  rw [kinds_significant] at hk
  exact lexical_of_mem_allKinds (List.mem_filter.mp hk).1

/-- A group that was read is read again from its text, just if none of its names is a lone hyphen
and no name or value holds U+0000. -/
theorem reread_iff_legible (h : parse text = .ok g) :
    parse (SelectorGroup.text g) = .ok g ↔ ∀ c ∈ conditions g, c.Legible := by
  have hgroup := parse_eq_ok_iff.mp h
  have hl := lexical_of_parse h
  have hm := SelectorGroup.meaningful_kinds g
  rw [parse_eq_ok_iff, SelectorGroup.text, String.toList_ofList, ← legible_kinds_iff]
  constructor
  · intro hreread
    have hsteady := pieces_steady.group fun k hk => ⟨hl k hk, hm k hk⟩
    exact (legible_of_reread (fun _ hφ => weight_group hφ hreread) hm hl hsteady
      pieces_spells.group).1
  · intro hlegible
    rw [kinds_significant_chars hgroup hl hlegible]
    exact hgroup.kinds.1

def quotedGroup : SelectorGroup :=
  [.combined .child (.simple (.styleClass "1a")) (.simple (.attributeIs "b" "\"c"))]

theorem reread_quoted : parse ".\\31 a > [b='\"c']" = .ok quotedGroup ∧
    parse (SelectorGroup.text quotedGroup) = .ok quotedGroup := by
  have hparse : parse ".\\31 a > [b='\"c']" = .ok quotedGroup := by decide +kernel
  refine ⟨hparse, (reread_iff_legible hparse).mpr fun c hc => ?_⟩
  have hconditions : c = .styleClass "1a" ∨ c = .attributeIs "b" "\"c" := by
    simpa [conditions, quotedGroup, Selector.conditions] using hc
  rcases hconditions with rfl | rfl
  · exact ⟨by decide, by decide⟩
  · exact ⟨by decide, by decide⟩

/-- A name that is a lone hyphen is written as this hyphen, which is no selector. -/
example : (parse (SelectorGroup.text [.simple (.type "-")])).mapError Fault.cause =
    .error .expectedSelector := by decide +kernel

end SelectorGroup
end Styling
