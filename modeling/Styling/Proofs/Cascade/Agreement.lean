import Styling.Proofs.Cascade.LastWins
import Styling.Proofs.Selector.Meaning

/-! # Models that agree

Selectors ask about an element and about those that a combinator relates to it. So two models that
agree on a set of elements, and relate none of them to an element outside of it, match every
selector alike there, also with overrides on top of both, and every manager gives these elements
the same rulesets and styles.
-/
namespace Styling

/-- Two models agree on the elements of a set, which no combinator leaves. -/
structure Model.AgreeOn {ε : Type} (inside : ε → Prop) (m m' : Model ε) : Prop where
  holds : ∀ (c : Condition) {e : ε}, inside e → c.holds m e = c.holds m' e
  related : ∀ (c : Combinator) {e : ε}, inside e → c.related m e = c.related m' e
  closed : ∀ (c : Combinator) {e a : ε}, inside e → a ∈ c.related m e → inside a

section Agreement
variable {ε : Type} {inside inside' : ε → Prop} {m m' m'' : Model ε} {e : ε}

theorem Combinator.related_overlay [BEq ε] (m : Model ε) (o : Overrides ε) (c : Combinator) (e : ε) :
    c.related (m.overlay o) e = c.related m e := by
  cases c <;> rfl

namespace Model.AgreeOn

theorem trans (h : m.AgreeOn inside m') (h' : m'.AgreeOn inside' m'')
    (hinside : ∀ e, inside e → inside' e) : m.AgreeOn inside m'' where
  holds c e he := (h.holds c he).trans (h'.holds c (hinside e he))
  related c e he := (h.related c he).trans (h'.related c (hinside e he))
  closed c _ _ he ha := h.closed c he ha

theorem overlay [BEq ε] (h : m.AgreeOn inside m') (o : Overrides ε) :
    (m.overlay o).AgreeOn inside (m'.overlay o) where
  holds c e he := by
    rw [c.holds_overlay, c.holds_overlay]
    cases c with
    | pseudoClass name => exact congrArg (o.gives e name || ·) (h.holds (.pseudoClass name) he)
    | _ => exact h.holds _ he
  related c e he := by
    rw [c.related_overlay, c.related_overlay, h.related c he]
  closed c e a he ha := by
    rw [c.related_overlay] at ha
    exact h.closed c he ha

/-- The value of an attribute is what can be tested for it. -/
theorem attribute? (h : m.AgreeOn inside m') (he : inside e) (name : String) :
    m.attribute? e name = m'.attribute? e name := by
  apply Option.ext
  intro value
  have hvalue : (m.attribute? e name == some value) = (m'.attribute? e name == some value) :=
    h.holds (.attributeIs name value) he
  rw [← beq_iff_eq, hvalue, beq_iff_eq]

/-- The right operand is asked of the element itself, the left one of elements related to it. -/
theorem match?_eq (h : m.AgreeOn inside m') (s : Selector) (he : inside e) :
    s.match? m e = s.match? m' e := by
  induction s generalizing e with
  | simple c => rw [Selector.match?, Selector.match?, h.holds c he]
  | combined c left right ihl ihr =>
    rw [Selector.match?, Selector.match?, ← ihr he]
    cases hright : right.match? m e with
    | none => rfl
    | some subject =>
      have hself := Selector.match?_eq_self hright
      have hleft : ((c.related m e).any fun a => (left.match? m a).isSome) =
          (c.related m' e).any fun a => (left.match? m' a).isSome := by
        rw [← h.related c he, Bool.eq_iff_iff, List.any_eq_true, List.any_eq_true]
        refine exists_congr fun a => and_congr_right fun ha => ?_
        rw [ihl (h.closed c he ha)]
      simp only [hself, hleft]

theorem accepts_eq (h : m.AgreeOn inside m') (g : SelectorGroup) (he : inside e) :
    g.accepts m e = g.accepts m' e := by
  have hmatch : (fun s : Selector => s.match? m e) = fun s => s.match? m' e :=
    funext fun s => h.match?_eq s he
  rw [SelectorGroup.accepts, SelectorGroup.accepts, SelectorGroup.match?, SelectorGroup.match?,
    hmatch]

end Model.AgreeOn

namespace Manager
variable [BEq ε]

theorem matching_eq_of_agreeOn (h : m.AgreeOn inside m') (he : inside e) (manager : Manager)
    (o : Overrides ε) : manager.matching m o e = manager.matching m' o e := by
  have haccepts : (fun r : Ruleset => SelectorGroup.accepts (m.overlay o) r.selectors e) =
      fun r => SelectorGroup.accepts (m'.overlay o) r.selectors e :=
    funext fun r => (h.overlay o).accepts_eq r.selectors he
  rw [matching, matching, haccepts]

/-- The styles come from the rulesets that match and from one attribute of the element. -/
theorem apply_eq_of_agreeOn (h : m.AgreeOn inside m') (he : inside e) (manager : Manager)
    (o : Overrides ε) : manager.apply m o e = manager.apply m' o e := by
  have hreaching : manager.reaching m o e = manager.reaching m' o e := by
    rw [reaching, reaching, matching_eq_of_agreeOn h he]
    cases manager.settings.styleAttribute with
    | none => rfl
    | some name =>
      dsimp only
      rw [h.attribute? he]
  rw [apply_eq_foldl, apply_eq_foldl, hreaching]

end Manager
end Agreement

end Styling
