import Mathlib.Data.List.Basic
import Styling.ElementPath
import Styling.Proofs.Selector.Meaning
import Styling.Proofs.Text.Words

/-! # The element that a compound describes

A compound sets the attributes that its conditions name, one after the other, and the classes at
the end, so of each attribute the last value is kept. The described element meets a condition just
if the condition agrees with what is kept: a name that must only be there always is, but the value
of another condition, or a class, may be lost.
-/
namespace Styling

/-- What a condition sets an attribute to. -/
def Condition.write? : Condition → Option (String × String)
  | id value => some ("id", value)
  | hasAttribute name => some (name, "")
  | attributeIs name value => some (name, value)
  | _ => none

def Condition.class? : Condition → Option String
  | styleClass name => some name
  | _ => none

/-- The conditions that an element is made to meet, behind its type. -/
def Condition.Concrete : Condition → Prop
  | id _ | styleClass _ | pseudoClass _ | hasAttribute _ | attributeIs _ _ => True
  | universal | type _ | attributeMatches _ _ _ => False

namespace ElementPath

def writes (cs : List Condition) : List (String × String) :=
  cs.filterMap Condition.write? ++
    if cs.filterMap Condition.class? = [] then []
    else [("class", " ".intercalate (cs.filterMap Condition.class?))]

/-- The value that a name is set to last. -/
def lastValue (ws : List (String × String)) (name : String) : Option String :=
  ((ws.filter (·.1 = name)).getLast?).map Prod.snd

/-- A condition agrees with what is set: its value is the one that is kept, its class one word. -/
def Agrees (ws : List (String × String)) : Condition → Prop
  | .id value => lastValue ws "id" = some value
  | .attributeIs name value => lastValue ws name = some value
  | .styleClass name => IsWord name
  | _ => True

/-- No condition of a compound loses its value to a later one, and each class is one word. -/
def Concordant (cs : List Condition) : Prop := ∀ c ∈ cs, Agrees (writes cs) c

instance (ws : List (String × String)) : DecidablePred (Agrees ws)
  | .id value => inferInstanceAs (Decidable (lastValue ws "id" = some value))
  | .attributeIs name value => inferInstanceAs (Decidable (lastValue ws name = some value))
  | .styleClass name => inferInstanceAs (Decidable (IsWord name))
  | .universal | .type _ | .pseudoClass _ | .hasAttribute _ | .attributeMatches _ _ _ => .isTrue trivial

instance : DecidablePred Concordant :=
  fun cs => inferInstanceAs (Decidable (∀ c ∈ cs, Agrees (writes cs) c))

section LastValue
variable {name : String} {ws : List (String × String)}

theorem lastValue_append (ws more : List (String × String)) (name : String) :
    lastValue (ws ++ more) name = (lastValue more name).or (lastValue ws name) := by
  rw [lastValue, List.filter_append, List.getLast?_append]
  cases h : (more.filter (·.1 = name)).getLast? with
  | none => simp [lastValue, h]
  | some w => simp [lastValue, h]

theorem lastValue_singleton (name value n : String) :
    lastValue [(name, value)] n = if n = name then some value else none := by
  by_cases h : n = name
  · simp [lastValue, h]
  · simp [lastValue, h, Ne.symm h]

theorem lastValue_isSome {value : String} (h : (name, value) ∈ ws) : (lastValue ws name).isSome := by
  have hmem : (name, value) ∈ ws.filter (·.1 = name) := List.mem_filter.mpr ⟨h, by simp⟩
  rw [lastValue, Option.isSome_map, List.getLast?_isSome]
  exact List.ne_nil_of_mem hmem

theorem lookup_put (name value n : String) (attributes : List (String × String)) :
    (Element.put name value attributes).lookup n =
      if n = name then some value else attributes.lookup n := by
  induction attributes with
  | nil =>
    by_cases h : n = name
    · simp [Element.put, h]
    · simp [Element.put, List.lookup_cons, h, beq_false_of_ne h]
  | cons a rest ih =>
    obtain ⟨m, v⟩ := a
    rw [Element.put]
    split
    next hm =>
      subst hm
      by_cases h : n = m
      · simp [h]
      · simp [List.lookup_cons, h, beq_false_of_ne h]
    next hm =>
      rw [List.lookup_cons, List.lookup_cons, ih]
      by_cases h : n = m
      · simp [h, hm]
      · simp [beq_false_of_ne h]

theorem attribute?_withAttribute (e : Element) (name value n : String) :
    (e.withAttribute name value).attribute? n =
      (lastValue [(name, value)] n).or (e.attribute? n) := by
  rw [Element.attribute?, Element.withAttribute, lookup_put, lastValue_singleton]
  by_cases h : n = name <;> simp [h, Element.attribute?]

end LastValue
section Drafts
variable {d d' : Draft} {c : Condition} {cs : List Condition} {typeName : String}

structure Carries (d : Draft) (typeName : String) (cs : List Condition) : Prop where
  typeName : d.element.typeName = typeName
  attributes : ∀ n, d.element.attribute? n = lastValue (cs.filterMap Condition.write?) n
  classes : d.classes = cs.filterMap Condition.class?
  pseudoClasses : ∀ n, n ∈ d.pseudoClasses ↔ .pseudoClass n ∈ cs
  concrete : ∀ c ∈ cs, c.Concrete

theorem add_eq_ok (h : d.add c = .ok d') : d'.element.typeName = d.element.typeName ∧
    (∀ n, d'.element.attribute? n = (lastValue c.write?.toList n).or (d.element.attribute? n)) ∧
    d'.classes = d.classes ++ c.class?.toList ∧
    (∀ n, n ∈ d'.pseudoClasses ↔ n ∈ d.pseudoClasses ∨ c = .pseudoClass n) ∧ c.Concrete := by
  cases c with
  | id value =>
    cases h
    exact ⟨rfl, attribute?_withAttribute _ _ _, (List.append_nil _).symm, by simp, trivial⟩
  | hasAttribute name =>
    cases h
    exact ⟨rfl, attribute?_withAttribute _ _ _, (List.append_nil _).symm, by simp, trivial⟩
  | attributeIs name value =>
    cases h
    exact ⟨rfl, attribute?_withAttribute _ _ _, (List.append_nil _).symm, by simp, trivial⟩
  | styleClass name =>
    cases h
    exact ⟨rfl, fun n => rfl, rfl, by simp, trivial⟩
  | pseudoClass name =>
    cases h
    refine ⟨rfl, fun n => rfl, (List.append_nil _).symm, fun n => ?_, trivial⟩
    dsimp only
    -- a name that is there already is not added again
    split
    next hmem =>
      have hmem : name ∈ d.pseudoClasses := by simpa using hmem
      constructor
      · exact .inl
      · rintro (hn | heq)
        · exact hn
        · exact Condition.pseudoClass.inj heq ▸ hmem
    next => simp [eq_comm]
  | universal => cases h
  | type name => cases h
  | attributeMatches name op value => cases h

theorem Carries.add (h : Carries d typeName cs) (hadd : d.add c = .ok d') :
    Carries d' typeName (cs ++ [c]) := by
  obtain ⟨htype, hattributes, hclasses, hpseudo, hconcrete⟩ := add_eq_ok hadd
  constructor
  · rw [htype, h.typeName]
  · intro n
    rw [hattributes, h.attributes, List.filterMap_append, lastValue_append,
      List.filterMap_eq_flatMap_toList _ [c], List.flatMap_singleton]
  · rw [hclasses, h.classes, List.filterMap_append, List.filterMap_eq_flatMap_toList _ [c],
      List.flatMap_singleton]
  · intro n
    rw [hpseudo, h.pseudoClasses, List.mem_append, List.mem_singleton, eq_comm (a := c)]
  · exact List.forall_mem_append.mpr ⟨h.concrete, List.forall_mem_singleton.mpr hconcrete⟩

theorem Carries.addAll {more : List Condition} (h : Carries d typeName cs)
    (hadd : d.addAll more = .ok d') : Carries d' typeName (cs ++ more) := by
  induction more generalizing d cs with
  | nil =>
    cases hadd
    rwa [List.append_nil]
  | cons c more ih =>
    rw [Draft.addAll] at hadd
    split at hadd
    next => cases hadd
    next d₁ hfirst =>
      rw [List.append_cons]
      exact ih (h.add hfirst) hadd

theorem carries_ofType (typeName : String) : Carries ⟨Element.ofType typeName, [], []⟩ typeName [] :=
  ⟨rfl, fun _ => rfl, rfl, by simp, by simp⟩

/-- The classes are set last. -/
theorem Carries.attribute?_finish (h : Carries d typeName cs) (n : String) :
    d.finish.attribute? n = lastValue (writes cs) n := by
  rw [Draft.finish, writes, ← h.classes]
  by_cases hclasses : d.classes = []
  · rw [hclasses]
    simp [h.attributes]
  · rw [if_neg (by simpa using hclasses), if_neg hclasses, lastValue_append,
      Element.withClasses, attribute?_withAttribute, h.attributes]

theorem typeName_finish (d : Draft) : d.finish.typeName = d.element.typeName := by
  rw [Draft.finish]
  split <;> rfl

end Drafts

/-- An element with its pseudo-classes carries what the conditions of a compound set. -/
structure Describes (cs : List Condition) (described : Element × List String) : Prop where
  conditions : ∃ rest, cs = .type described.1.typeName :: rest ∧ ∀ c ∈ rest, c.Concrete
  attributes : ∀ n, described.1.attribute? n = lastValue (writes cs) n
  pseudoClasses : ∀ n, n ∈ described.2 ↔ .pseudoClass n ∈ cs

theorem describes_of_describe {cs : List Condition} {described : Element × List String}
    (h : describe cs = .ok described) : Describes cs described := by
  unfold describe at h
  split at h
  next typeName rest =>
    split at h
    next => cases h
    next d hadd =>
      cases h
      have hcarries := (carries_ofType typeName).addAll hadd
      refine ⟨⟨rest, ?_, hcarries.concrete⟩, hcarries.attribute?_finish, fun n => ?_⟩
      · rw [typeName_finish, hcarries.typeName]
      · rw [hcarries.pseudoClasses]
        simp
  next => cases h
  next => cases h

section Meeting
variable {d : Document} {o : Overrides Nat} {id : Nat} {cs : List Condition}
  {described : Element × List String} {c : Condition}

theorem lastValue_class (h : .styleClass name ∈ cs) : lastValue (writes cs) "class" =
    some (" ".intercalate (cs.filterMap Condition.class?)) := by
  have hclasses : cs.filterMap Condition.class? ≠ [] :=
    List.ne_nil_of_mem (List.mem_filterMap.mpr ⟨_, h, rfl⟩)
  rw [writes, if_neg hclasses, lastValue_append, lastValue_singleton, if_pos rfl]
  rfl

theorem isSome_of_hasAttribute {name : String} (h : .hasAttribute name ∈ cs) :
    (lastValue (writes cs) name).isSome :=
  lastValue_isSome (List.mem_append_left _ (List.mem_filterMap.mpr ⟨_, h, rfl⟩))

/-- The described element meets a condition of its compound just if the condition agrees with
what is set. -/
theorem Describes.holds_iff (h : Describes cs described) (he : d.element? id = some described.1)
    (ho : ∀ name, o.gives id name = true ↔ name ∈ described.2) (hc : c ∈ cs) :
    c.holds (d.model.overlay o) id = true ↔ Agrees (writes cs) c := by
  have hon : c.holds d.model id = true ↔ c.On described.1 := c.holds_model_iff he d.size
  obtain ⟨rest, hcs, hconcrete⟩ := h.conditions
  have hfirst : c = .type described.1.typeName ∨ c.Concrete := by
    rw [hcs] at hc
    exact (List.mem_cons.mp hc).imp_right (hconcrete c)
  rw [Condition.holds_overlay]
  cases c with
  | universal => exact iff_of_true rfl trivial
  | type name =>
    obtain rfl := Condition.type.inj (hfirst.resolve_right not_false)
    exact iff_of_true (hon.mpr rfl) trivial
  | id value =>
    rw [hon, Condition.On, h.attributes]
    rfl
  | styleClass name =>
    have hclass : name ∈ cs.filterMap Condition.class? := List.mem_filterMap.mpr ⟨_, hc, rfl⟩
    rw [hon, Condition.On, h.attributes, lastValue_class hc, Option.getD_some]
    exact mem_words_intercalate hclass
  | pseudoClass name =>
    have hgives := (ho name).mpr ((h.pseudoClasses name).mpr hc)
    exact iff_of_true (Bool.or_eq_true_iff.mpr (.inl hgives)) trivial
  | hasAttribute name =>
    rw [hon, Condition.On, h.attributes]
    exact iff_of_true (Option.isSome_iff_exists.mp (isSome_of_hasAttribute hc)) trivial
  | attributeIs name value =>
    rw [hon, Condition.On, h.attributes]
    rfl
  | attributeMatches name op value =>
    rcases hfirst with heq | hfalse
    · cases heq
    · exact hfalse.elim

end Meeting
end ElementPath
end Styling
