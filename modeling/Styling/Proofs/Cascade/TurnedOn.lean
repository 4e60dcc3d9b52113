import Styling.Proofs.Cascade.Agreement

/-! # Pseudo-classes that are turned on

Overrides give elements pseudo-classes for one pass only. That pass ends as if the names had been
set on the elements before, in a document that is otherwise the same: conditions on pseudo-classes
are the only ones that notice, and a combinator leads to the same elements in both.
-/
namespace Styling

def Overrides.names {ε : Type} [BEq ε] (o : Overrides ε) (e : ε) : List String :=
  (o.filter (·.1 == e)).flatMap Prod.snd

theorem Overrides.mem_names {ε : Type} [BEq ε] {o : Overrides ε} {e : ε} {name : String} :
    name ∈ o.names e ↔ o.gives e name = true := by
  simp [names, gives, and_assoc]

namespace Element

def withPseudoClasses (e : Element) (names : List String) : Element :=
  names.foldl withPseudoClass e

theorem mem_withPseudoClass {e : Element} {name n : String} :
    n ∈ (e.withPseudoClass name).pseudoClasses ↔ n ∈ e.pseudoClasses ∨ n = name := by
  rw [withPseudoClass]
  split
  next hset =>
    have hset : name ∈ e.pseudoClasses := by simpa using hset
    constructor
    · exact .inl
    · rintro (hn | rfl)
      · exact hn
      · exact hset
  next => simp

theorem mem_withPseudoClasses {e : Element} {names : List String} {n : String} :
    n ∈ (e.withPseudoClasses names).pseudoClasses ↔ n ∈ e.pseudoClasses ∨ n ∈ names := by
  rw [withPseudoClasses]
  induction names generalizing e with
  | nil => simp
  | cons name names ih => rw [List.foldl_cons, ih, mem_withPseudoClass, List.mem_cons, or_assoc]

theorem withPseudoClasses_eq (e : Element) (names : List String) : e.withPseudoClasses names =
    { e with pseudoClasses := (e.withPseudoClasses names).pseudoClasses } := by
  simp only [withPseudoClasses]
  induction names generalizing e with
  | nil => rfl
  | cons name names ih =>
    rw [List.foldl_cons, ih, withPseudoClass]
    split <;> rfl

theorem typeName_withPseudoClasses (e : Element) (names : List String) :
    (e.withPseudoClasses names).typeName = e.typeName := by
  rw [withPseudoClasses_eq]

theorem attributes_withPseudoClasses (e : Element) (names : List String) :
    (e.withPseudoClasses names).attributes = e.attributes := by
  rw [withPseudoClasses_eq]

/-- The second element has the pseudo-classes of the first and the given ones, and else the same
data. -/
structure TurnedOn (given : String → Bool) (e e' : Element) : Prop where
  typeName : e'.typeName = e.typeName
  attributes : e'.attributes = e.attributes
  pseudoClasses : ∀ name, name ∈ e'.pseudoClasses ↔ name ∈ e.pseudoClasses ∨ given name = true

/-- Only the given pseudo-classes are new. -/
theorem TurnedOn.on_iff {given : String → Bool} {e e' : Element} (h : TurnedOn given e e')
    (c : Condition) :
    c.On e' ↔ c.On e ∨ ∃ name, c = .pseudoClass name ∧ given name = true := by
  cases c <;> simp [Condition.On, attribute?, h.typeName, h.attributes, h.pseudoClasses]

end Element

def Node.turnOn (names : List String) (n : Node) : Node :=
  { n with element := n.element.map (·.withPseudoClasses names) }

namespace Document

/-- Every element has, beside its pseudo-classes, those that it is given; the nodes and their
links are the same. -/
structure TurnedOn (o : Overrides Nat) (d d' : Document) : Prop where
  size : d'.size = d.size
  element : ∀ id, Option.Rel (Element.TurnedOn (o.gives id)) (d.element? id) (d'.element? id)
  parent : ∀ id, d'.parent? id = d.parent? id
  children : ∀ id, d'.children id = d.children id
  next : ∀ id, d'.next? id = d.next? id
  previous : ∀ id, d'.previous? id = d.previous? id

def turnOn (d : Document) (o : Overrides Nat) : Document :=
  ⟨d.nodes.mapIdx fun id n => n.turnOn (o.names id)⟩

section TurnOn
variable {d d' : Document} {o : Overrides Nat} {p c id : Nat}

theorem get?_turnOn (d : Document) (o : Overrides Nat) (id : Nat) :
    (d.turnOn o).get? id = (d.get? id).map (Node.turnOn (o.names id)) := by
  simp [turnOn, get?]

theorem ext_get? (h : ∀ id, d.get? id = d'.get? id) : d = d' := by
  obtain ⟨nodes⟩ := d
  obtain ⟨nodes'⟩ := d'
  exact congrArg Document.mk (List.ext_getElem? h)

theorem size_turnOn (d : Document) (o : Overrides Nat) : (d.turnOn o).size = d.size := by
  simp [turnOn, size]

theorem element?_turnOn (d : Document) (o : Overrides Nat) (id : Nat) :
    (d.turnOn o).element? id = (d.element? id).map (·.withPseudoClasses (o.names id)) := by
  simp only [element?, get?_turnOn]
  cases d.get? id <;> rfl

theorem turnedOn_turnOn (d : Document) (o : Overrides Nat) : d.TurnedOn o (d.turnOn o) where
  size := size_turnOn d o
  element id := by
    rw [element?_turnOn]
    cases d.element? id with
    | none => exact .none
    | some e =>
      refine .some ⟨e.typeName_withPseudoClasses _, e.attributes_withPseudoClasses _,
        fun name => ?_⟩
      rw [Element.mem_withPseudoClasses, Overrides.mem_names]
  parent id := by
    simp only [parent?, get?_turnOn]
    cases d.get? id <;> rfl
  children id := by
    simp only [Document.children, get?_turnOn]
    cases d.get? id <;> rfl
  next id := by
    simp only [next?, get?_turnOn]
    cases d.get? id <;> rfl
  previous id := by
    simp only [previous?, get?_turnOn]
    cases d.get? id <;> rfl

theorem turnOn_update {f : Node → Node} (h : ∀ names n, (f n).turnOn names = f (n.turnOn names))
    (d : Document) (o : Overrides Nat) (id : Nat) :
    (d.update id f).turnOn o = (d.turnOn o).update id f := by
  refine ext_get? fun j => ?_
  rw [get?_turnOn, get?_update, get?_update, get?_turnOn]
  split
  · cases d.get? j with
    | none => rfl
    | some n => exact congrArg some (h (o.names j) n)
  · rfl

theorem turnOn_allocate (d : Document) (o : Overrides Nat) (e : Option Element) :
    (d.allocate e).turnOn o =
      (d.turnOn o).allocate (e.map (·.withPseudoClasses (o.names d.size))) := by
  refine ext_get? fun j => ?_
  rw [get?_turnOn, get?_allocate, get?_allocate, size_turnOn, get?_turnOn]
  split
  next hj => subst hj; rfl
  next => rfl

theorem turnOn_appendChild (happ : d.appendChild? p c = some d') (o : Overrides Nat) :
    (d.turnOn o).appendChild? p c = some (d'.turnOn o) := by
  have hchildren : (d.turnOn o).children p = d.children p := (turnedOn_turnOn d o).children p
  obtain ⟨hp, hc, rfl⟩ := appendChild?_eq happ
  rw [← size_turnOn d o] at hp hc
  obtain ⟨d'', happ'⟩ := appendChild?_isSome hp hc
  obtain ⟨-, -, rfl⟩ := appendChild?_eq happ'
  rw [happ', hchildren]
  cases (d.children p).getLast? with
  | none =>
    dsimp only
    rw [turnOn_update (fun _ _ => rfl), turnOn_update (fun _ _ => rfl)]
  | some last =>
    dsimp only [linkSiblings]
    rw [turnOn_update (fun _ _ => rfl), turnOn_update (fun _ _ => rfl),
      turnOn_update (fun _ _ => rfl), turnOn_update (fun _ _ => rfl)]

/-- The document with the names set is grown like the other one, from elements that have them. -/
theorem Grown.turnOn (h : d.Grown) (o : Overrides Nat) : (d.turnOn o).Grown := by
  induction h with
  | empty => exact .empty
  | @append d d' p e _ hp happ ih =>
    have happ' := turnOn_appendChild happ o
    rw [turnOn_allocate, Option.map_some, fresh, ← size_turnOn d o] at happ'
    rw [← size_turnOn d o] at hp
    exact ih.append hp happ'

namespace TurnedOn

theorem isSome_element? (h : d.TurnedOn o d') (id : Nat) :
    (d'.element? id).isSome = (d.element? id).isSome := by
  have helement := h.element id
  generalize d.element? id = e at helement ⊢
  generalize d'.element? id = e' at helement ⊢
  cases helement <;> rfl

theorem gives_eq_false (ho : ∀ x ∈ o, (d.element? x.1).isSome) (hid : d.element? id = none)
    (name : String) : o.gives id name = false := by
  rw [Overrides.gives, List.any_eq_false]
  intro x hx hgives
  obtain ⟨hkey, -⟩ := Bool.and_eq_true_iff.mp hgives
  have hsome := ho x hx
  rw [eq_of_beq hkey, hid] at hsome
  cases hsome

/-- A condition holds in the second document just if it does in the first with the overrides. -/
theorem holds_eq (h : d.TurnedOn o d') (ho : ∀ x ∈ o, (d.element? x.1).isSome) (c : Condition)
    (id : Nat) : c.holds (d.model.overlay o) id = c.holds d'.model id := by
  have helement := h.element id
  rw [c.holds_overlay]
  cases he : d.element? id with
  | none =>
    have hsome := h.isSome_element? id
    rw [he, Option.isSome_none, Option.isSome_eq_false_iff, Option.isNone_iff_eq_none] at hsome
    rw [← c.holds_model_congr (he.trans hsome.symm)]
    cases c with
    | pseudoClass name =>
      have hgives : o.gives id name = false := gives_eq_false ho he name
      dsimp only
      rw [hgives, Bool.false_or]
      rfl
    | _ => rfl
  | some e =>
    obtain ⟨e', he'⟩ := Option.isSome_iff_exists.mp ((h.isSome_element? id).trans (by rw [he]; rfl))
    rw [he, he'] at helement
    obtain ⟨hon⟩ := helement
    have hfirst : c.holds d.model id = true ↔ c.On e := c.holds_model_iff he d.size
    have hsecond : c.holds d'.model id = true ↔ c.On e' := c.holds_model_iff he' d'.size
    rw [Bool.eq_iff_iff, hsecond, hon.on_iff, ← hfirst]
    cases c with
    | pseudoClass name => simp [Condition.holds, or_comm]
    | _ => simp

/-- A model with overrides agrees with the model of a document in which they are set. -/
theorem agreeOn (h : d.TurnedOn o d') (ho : ∀ x ∈ o, (d.element? x.1).isSome) :
    (d.model.overlay o).AgreeOn (fun _ => True) d'.model := by
  have hparent (id : Nat) : (d.model.overlay o).parent? id = d'.model.parent? id := by
    simp only [Model.overlay, model, h.parent, h.isSome_element?]
  have hprevious (id : Nat) : (d.model.overlay o).previous? id = d'.model.previous? id :=
    (h.previous id).symm
  have hreach : (d.model.overlay o).reach = d'.model.reach := h.size.symm
  refine ⟨fun c id _ => ?_, fun c id _ => ?_, fun _ _ _ _ _ => trivial⟩
  · exact h.holds_eq ho c id
  · cases c with
    | and => rfl
    | descendant => rw [Combinator.related, Combinator.related, funext hparent, hreach]
    | child => rw [Combinator.related, Combinator.related, hparent]
    | adjacentSibling => rw [Combinator.related, Combinator.related, hprevious]
    | generalSibling => rw [Combinator.related, Combinator.related, funext hprevious, hreach]

end TurnedOn

/-- The document in which the given pseudo-classes are set can be grown like the document itself.
In it, and in every document that has the same nodes and at each of them these pseudo-classes, a
selector and a manager without overrides give what they give in the document with them. -/
theorem Grown.styles_turnedOn (h : d.Grown) (ho : ∀ x ∈ o, (d.element? x.1).isSome) :
    (d.turnOn o).Grown ∧ d.TurnedOn o (d.turnOn o) ∧ ∀ d', d.TurnedOn o d' → ∀ id,
      (∀ s : Selector, s.match? (d.model.overlay o) id = s.match? d'.model id) ∧
      ∀ m : Manager, m.apply d.model o id = m.apply d'.model [] id ∧
        m.matching d.model o id = m.matching d'.model [] id := by
  refine ⟨h.turnOn o, turnedOn_turnOn d o, fun d' hon id => ?_⟩
  have hagree := hon.agreeOn ho
  refine ⟨fun s => hagree.match?_eq s trivial, fun m => ⟨?_, ?_⟩⟩
  · -- no overrides over a model with overrides are these overrides
    have hoverlay : m.apply d.model o id = m.apply (d.model.overlay o) [] id := rfl
    rw [hoverlay, m.apply_eq_of_agreeOn hagree trivial]
  · have hoverlay : m.matching d.model o id = m.matching (d.model.overlay o) [] id := rfl
    rw [hoverlay, m.matching_eq_of_agreeOn hagree trivial]

end TurnOn

def opened : Overrides Nat := [(1, ["open"]), (2, ["active"])]

/-- In the drawing both have a part in what is found for the text, and setting their
pseudo-classes gives the same. -/
theorem styles_turnedOn_drawing : drawing.Grown ∧ (∀ x ∈ opened, (drawing.element? x.1).isSome) ∧
    (Selector.combined .child (.compound (.type "layer") [.pseudoClass "open"])
      (.combined .generalSibling (.compound (.type "rect") [.pseudoClass "active"])
        (.simple (.type "text")))).match? (drawing.turnOn opened).model 3 = some 3 ∧
    ∀ m : Manager, m.apply drawing.model opened 3 = m.apply (drawing.turnOn opened).model [] 3 := by
  have hkeys : ∀ x ∈ opened, (drawing.element? x.1).isSome := by decide
  obtain ⟨-, hon, hsame⟩ := grown_drawing.styles_turnedOn hkeys
  obtain ⟨hmatch, hstyles⟩ := hsame _ hon 3
  refine ⟨grown_drawing, hkeys, ?_, fun m => (hstyles m).1⟩
  rw [← hmatch]
  decide

end Document
end Styling
