import Mathlib.Data.List.Flatten
import Styling.Address.Library
import Styling.Proofs.Cascade.Agreement

/-! # More pseudo-classes match more

No selector asks that a pseudo-class be absent. So what matches an element goes on to match it when
more pseudo-classes are turned on, there or at the elements around it, although a walk may then end
at another element than before. Rulesets that match are only added, in between those that matched,
and no property loses its last value without getting another one.
-/
namespace Styling
open scoped List

/-- What holds of an element in the first model holds of it in the second, and a combinator leads
to the same elements. -/
structure Model.Below {ε : Type} (m m' : Model ε) : Prop where
  holds : ∀ (c : Condition) (e : ε), c.holds m e = true → c.holds m' e = true
  related : ∀ (c : Combinator) (e : ε), c.related m e = c.related m' e

def Overrides.Within {ε : Type} [BEq ε] (o o' : Overrides ε) : Prop :=
  ∀ e name, o.gives e name = true → o'.gives e name = true

section Below
variable {ε : Type} {m m' : Model ε} {e : ε}

theorem Model.below_overlay [BEq ε] {o o' : Overrides ε} (h : o.Within o') (m : Model ε) :
    (m.overlay o).Below (m.overlay o') where
  holds c e hc := by
    rw [c.holds_overlay] at hc ⊢
    cases c with
    | pseudoClass name =>
      rw [Bool.or_eq_true] at hc ⊢
      exact hc.imp_left (h e name)
    | _ => exact hc
  related c e := by rw [c.related_overlay, c.related_overlay]

namespace Model.Below

/-- An element that serves for the left operand goes on to serve, whether or not the walk still
reaches it first. -/
theorem match?_eq (h : m.Below m') (s : Selector) (hs : s.match? m e = some e) :
    s.match? m' e = some e := by
  induction s generalizing e with
  | simple c =>
    rw [Selector.match?, Option.ite_none_right_eq_some] at hs ⊢
    exact ⟨h.holds c e hs.1, rfl⟩
  | combined c left right ihl ihr =>
    obtain ⟨hright, a, ha, hleft⟩ := Selector.match?_combined.mp hs
    exact Selector.match?_combined.mpr ⟨ihr hright, a, h.related c e ▸ ha, ihl hleft⟩

theorem accepts (h : m.Below m') (g : SelectorGroup) (hg : g.accepts m e = true) :
    g.accepts m' e = true := by
  rw [SelectorGroup.accepts, SelectorGroup.match?, List.findSome?_isSome_iff] at hg ⊢
  obtain ⟨s, hs, hsome⟩ := hg
  obtain ⟨x, hx⟩ := Option.isSome_iff_exists.mp hsome
  obtain rfl := Selector.match?_eq_self hx
  exact ⟨s, hs, Option.isSome_iff_exists.mpr ⟨x, h.match?_eq s hx⟩⟩

end Model.Below
end Below

namespace Manager
variable {ε : Type} [BEq ε] {o o' : Overrides ε}

theorem matching_sublist (h : o.Within o') (m : Manager) (model : Model ε) (e : ε) :
    m.matching model o e <+ m.matching model o' e := by
  rw [matching_eq_filter, matching_eq_filter]
  apply List.monotone_filter_right
  intro r hr
  exact (model.below_overlay h).accepts r.ruleset.selectors hr

theorem reaching_sublist (h : o.Within o') (m : Manager) (model : Model ε) (e : ε) :
    m.reaching model o e <+ m.reaching model o' e :=
  ((m.matching_sublist h model e).flatMap _).append_right _

/-- If each element is given at least the same pseudo-classes, every selector goes on to match
where it matched, the rulesets that match an element are those from before with others in between,
and every property that was set is set. -/
theorem matching_monotone (h : o.Within o') (model : Model ε) (e : ε) :
    (∀ s : Selector, s.match? (model.overlay o) e = some e →
      s.match? (model.overlay o') e = some e) ∧
    ∀ m : Manager, m.matching model o e <+ m.matching model o' e ∧
      ∀ p, ((m.apply model o e).find? p).isSome → ((m.apply model o' e).find? p).isSome := by
  refine ⟨fun s => (model.below_overlay h).match?_eq s, fun m =>
    ⟨m.matching_sublist h model e, fun p hp => ?_⟩⟩
  obtain ⟨a, ha, hproperty⟩ := (m.isSome_find?_apply model o e p).mp hp
  exact (m.isSome_find?_apply model o' e p).mpr ⟨a, (m.reaching_sublist h model e).subset ha,
    hproperty⟩

def colouring : Manager :=
  (new .default).addLiteral (fun _ => .error .missing) .author "layer:open text { color: red }"

/-- In the drawing the text keeps its colour when the rectangle before it is turned active. -/
theorem matching_monotone_drawing :
    Overrides.Within [(1, ["open"])] [(1, ["open"]), (2, ["active"])] ∧
    ((colouring.apply drawing.model [(1, ["open"])] 3).find? "color").isSome ∧
    ((colouring.apply drawing.model [(1, ["open"]), (2, ["active"])] 3).find? "color").isSome := by
  have hwithin : Overrides.Within [(1, ["open"])] [(1, ["open"]), (2, ["active"])] := by
    intro e name h
    rw [Overrides.gives, List.any_cons, Bool.or_eq_true]
    exact .inl (by simpa [Overrides.gives] using h)
  have hcolour : ((colouring.apply drawing.model [(1, ["open"])] 3).find? "color").isSome := by
    decide +kernel
  obtain ⟨-, hstyles⟩ := matching_monotone hwithin drawing.model 3
  exact ⟨hwithin, hcolour, (hstyles colouring).2 "color" hcolour⟩

end Manager
end Styling
