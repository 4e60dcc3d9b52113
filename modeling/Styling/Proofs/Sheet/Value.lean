import Mathlib.Data.List.Chain
import Styling.Proofs.Selector.Blame
import Styling.Proofs.Sheet.Spelling
import Styling.Sheet.Reader

/-! # The values of declarations

What the tokens of a value look like once a declaration has been read: their brackets are
closed, blanks stand alone and between other tokens, and `!important` has been split off. Such a
value is read back from its tokens.
-/
namespace Styling
open Grammar (kinds)
open scoped List

/-- No token ends a segment inside the brackets, and all of them are closed in the end. -/
def Closed (stack : OpenBrackets) : List Kind → Prop
  | [] => stack = []
  | k :: ks => cutsSegment stack k = false ∧ endsSegment true stack k = false ∧
    Closed (stack.track k) ks

def Inert : Kind → Prop
  | .blank | .delim _ | .ident _ => True
  | _ => False

theorem inert_blank : Inert .blank := trivial

section Brackets
variable {stack : OpenBrackets} {k : Kind} {ks ls : List Kind}

theorem Inert.passes (h : Inert k) (stack : OpenBrackets) :
    cutsSegment stack k = false ∧ endsSegment true stack k = false ∧ stack.track k = stack := by
  cases k with
  | blank | delim _ | ident _ => cases stack <;> exact ⟨rfl, rfl, rfl⟩
  | _ => exact h.elim

theorem closed_cons_of_inert (h : Inert k) : Closed stack (k :: ks) ↔ Closed stack ks := by
  obtain ⟨hcuts, hends, htrack⟩ := h.passes stack
  simp [Closed, hcuts, hends, htrack]

/-- Inert tokens at the end close no bracket. -/
theorem closed_append_of_inert (h : ∀ k ∈ ls, Inert k) :
    Closed stack (ks ++ ls) ↔ Closed stack ks := by
  induction ks generalizing stack with
  | nil =>
    induction ls with
    | nil => rfl
    | cons k ls ih =>
      rw [List.forall_mem_cons] at h
      rw [List.nil_append, closed_cons_of_inert h.1]
      exact ih h.2
  | cons k ks ih => simp [Closed, ih]

theorem splitSegment_closed {us rest : List Token} {t : Token} (h : Closed stack (kinds us))
    (ht : t.kind = .semicolon) : splitSegment true stack (us ++ t :: rest) = (us, rest) := by
  induction us generalizing stack with
  | nil =>
    obtain rfl : stack = [] := h
    simp [splitSegment, cutsSegment, ht]
  | cons u us ih =>
    obtain ⟨hcuts, hends, hrest⟩ := h
    rw [List.cons_append, splitSegment, if_neg (by simp [hcuts]), if_neg (by simp [hends]),
      ih hrest]

/-- A segment that the end of the text does not cut short is closed. -/
theorem closed_splitSegment (stack : OpenBrackets) (ts : List Token) :
    Closed stack (kinds (splitSegment true stack ts).1) ∨ (splitSegment true stack ts).2 = [] := by
  induction ts generalizing stack with
  | nil => exact .inr rfl
  | cons t ts ih =>
    unfold splitSegment
    split
    next hcuts =>
      have hstack : stack = [] := by
        simp only [cutsSegment, Bool.and_eq_true, List.isEmpty_iff] at hcuts
        exact hcuts.1
      exact .inl hstack
    next hcuts =>
      split
      next hends =>
        have hstack : stack = [] := by
          simp only [endsSegment, Bool.and_eq_true, List.isEmpty_iff] at hends
          exact hends.1.1
        exact .inl hstack
      next hends =>
        rcases ih (stack.track t.kind) with h | h
        · exact .inl ⟨by simpa using hcuts, by simpa using hends, h⟩
        · exact .inr h

end Brackets

section Blanks
variable {after : Bool} {ks ls : List Kind}

theorem eq_blank_of_isBlank {k : Kind} (h : k.isBlank = true) : k = .blank := by
  cases k with
  | blank => rfl
  | _ => cases h

theorem not_isBlank_of_ne {k : Kind} (h : k ≠ .blank) : k.isBlank = false :=
  Bool.eq_false_iff.mpr (mt eq_blank_of_isBlank h)

theorem collapseBlanks_blank (after : Bool) (ks : List Kind) : collapseBlanks after (.blank :: ks) =
    if after then collapseBlanks true ks else .blank :: collapseBlanks true ks := rfl

theorem collapseBlanks_cons {k : Kind} (hk : k.isBlank = false) (after : Bool) (ks : List Kind) :
    collapseBlanks after (k :: ks) = k :: collapseBlanks false ks := by
  rw [collapseBlanks, if_neg (by simp [hk])]

theorem collapseBlanks_sublist (after : Bool) (ks : List Kind) : collapseBlanks after ks <+ ks := by
  induction ks generalizing after with
  | nil => exact .slnil
  | cons k ks ih =>
    cases hk : k.isBlank with
    | true =>
      obtain rfl := eq_blank_of_isBlank hk
      cases after with
      | true => exact (ih true).cons _
      | false => exact (ih true).cons_cons _
    | false =>
      rw [collapseBlanks_cons hk]
      exact (ih false).cons_cons _

theorem collapseBlanks_collapseBlanks (after : Bool) (ks : List Kind) :
    collapseBlanks after (collapseBlanks after ks) = collapseBlanks after ks := by
  induction ks generalizing after with
  | nil => rfl
  | cons k ks ih =>
    cases hk : k.isBlank with
    | true =>
      obtain rfl := eq_blank_of_isBlank hk
      cases after with
      | true => exact ih true
      | false => exact congrArg (Kind.blank :: ·) (ih true)
    | false => rw [collapseBlanks_cons hk, collapseBlanks_cons hk, ih]

theorem collapseBlanks_true_ne (ks : List Kind) :
    collapseBlanks true (.blank :: ks) ≠ .blank :: ks := by
  intro h
  have hlen := (collapseBlanks_sublist true ks).length_le
  rw [show collapseBlanks true ks = .blank :: ks from h, List.length_cons] at hlen
  omega

theorem collapseBlanks_prefix (h : collapseBlanks after ks = ks) (hls : ls <+: ks) :
    collapseBlanks after ls = ls := by
  induction ks generalizing after ls with
  | nil =>
    rw [List.prefix_nil.mp hls]
    rfl
  | cons k ks ih =>
    cases ls with
    | nil => rfl
    | cons l ls =>
      obtain ⟨rfl, hrest⟩ := List.cons_prefix_cons.mp hls
      cases hk : l.isBlank with
      | true =>
        obtain rfl := eq_blank_of_isBlank hk
        cases after with
        | true => exact absurd h (collapseBlanks_true_ne ks)
        | false => exact congrArg (Kind.blank :: ·) (ih (List.cons.inj h).2 hrest)
      | false =>
        rw [collapseBlanks_cons hk] at h ⊢
        rw [ih (List.cons.inj h).2 hrest]

theorem closed_collapseBlanks {stack : OpenBrackets} (after : Bool) (ks : List Kind) :
    Closed stack (collapseBlanks after ks) ↔ Closed stack ks := by
  induction ks generalizing after stack with
  | nil => rfl
  | cons k ks ih =>
    cases hk : k.isBlank with
    | true =>
      obtain rfl := eq_blank_of_isBlank hk
      rw [closed_cons_of_inert inert_blank]
      cases after with
      | true => exact ih true
      | false => exact (closed_cons_of_inert inert_blank).trans (ih true)
    | false =>
      rw [collapseBlanks_cons hk]
      simp [Closed, ih]

/-- Whether a blank stands at the end of `ks`, or before them if they are empty. -/
def endsBlank (after : Bool) : List Kind → Bool
  | [] => after
  | k :: ks => endsBlank k.isBlank ks

theorem collapseBlanks_append (after : Bool) (ks ls : List Kind) :
    collapseBlanks after (ks ++ ls) =
      collapseBlanks after ks ++ collapseBlanks (endsBlank after ks) ls := by
  induction ks generalizing after with
  | nil => rfl
  | cons k ks ih =>
    cases hk : k.isBlank with
    | true =>
      obtain rfl := eq_blank_of_isBlank hk
      cases after with
      | true => exact ih true
      | false => exact congrArg (Kind.blank :: ·) (ih true)
    | false =>
      rw [List.cons_append, collapseBlanks_cons hk, collapseBlanks_cons hk, ih, endsBlank, hk]
      rfl

theorem endsBlank_eq_false (h : ∀ k ∈ ks.getLast?, k ≠ .blank) (hne : ks ≠ []) :
    endsBlank after ks = false := by
  induction ks generalizing after with
  | nil => exact absurd rfl hne
  | cons k ks ih =>
    cases ks with
    | nil =>
      cases hk : k.isBlank with
      | true => exact absurd (eq_blank_of_isBlank hk) (h k rfl)
      | false => exact hk
    | cons l ks =>
      rw [endsBlank]
      exact ih (by simpa using h) (List.cons_ne_nil _ _)

/-- In collapsed tokens no two blanks are neighbours. -/
theorem isChain_of_collapseBlanks (h : collapseBlanks after ks = ks) :
    ks.IsChain fun k next => k = .blank → next ≠ .blank := by
  induction ks generalizing after with
  | nil => exact .nil
  | cons k ks ih =>
    rw [List.isChain_cons]
    cases hk : k.isBlank with
    | true =>
      obtain rfl := eq_blank_of_isBlank hk
      cases after with
      | true => exact absurd h (collapseBlanks_true_ne ks)
      | false =>
        have hks : collapseBlanks true ks = ks := (List.cons.inj h).2
        refine ⟨?_, ih hks⟩
        rintro next hnext - rfl
        cases ks with
        | nil => cases hnext
        | cons l ks =>
          cases hnext
          exact collapseBlanks_true_ne ks hks
    | false =>
      rw [collapseBlanks_cons hk] at h
      refine ⟨?_, ih (List.cons.inj h).2⟩
      rintro next - rfl
      cases hk

theorem eq_trimBlanks_append (ks : List Kind) :
    ∃ bs, ks = trimBlanks ks ++ bs ∧ ∀ k ∈ bs, k = .blank := by
  refine ⟨(ks.reverse.takeWhile Kind.isBlank).reverse, ?_, ?_⟩
  · rw [trimBlanks, ← List.reverse_append, List.takeWhile_append_dropWhile, List.reverse_reverse]
  · intro k hk
    exact eq_blank_of_isBlank (List.mem_takeWhile_imp (List.mem_reverse.mp hk))

theorem getLast?_reverse_dropWhile (ks : List Kind) :
    ∀ k ∈ (ks.dropWhile Kind.isBlank).reverse.getLast?, k ≠ .blank := by
  intro k hk
  rw [List.getLast?_reverse] at hk
  have hhead := List.head?_dropWhile_not Kind.isBlank ks
  rw [hk] at hhead
  rintro rfl
  simp [Kind.isBlank] at hhead

theorem getLast?_trimBlanks (ks : List Kind) : ∀ k ∈ (trimBlanks ks).getLast?, k ≠ .blank :=
  getLast?_reverse_dropWhile ks.reverse

theorem reverse_dropWhile_isBlank (h : ∀ k ∈ ks.getLast?, k ≠ .blank) :
    ks.reverse.dropWhile Kind.isBlank = ks.reverse := by
  rw [← List.head?_reverse] at h
  cases hks : ks.reverse with
  | nil => rfl
  | cons k rest =>
    rw [hks] at h
    refine List.dropWhile_cons_of_neg fun hk => ?_
    exact h k rfl (eq_blank_of_isBlank hk)

theorem trimBlanks_eq_self (h : ∀ k ∈ ks.getLast?, k ≠ .blank) : trimBlanks ks = ks := by
  rw [trimBlanks, reverse_dropWhile_isBlank h, List.reverse_reverse]

end Blanks
section Values
variable {ks terms : List Kind}

/-- Either nothing is split off, or an annotation with the blanks before it. -/
theorem splitImportant_cases (ks : List Kind) : splitImportant ks = (ks, false) ∨
    ∃ terms s₁ s₂ name, splitImportant ks = (terms, true) ∧
      ks = terms ++ s₁ ++ .delim '!' :: (s₂ ++ [.ident name]) ∧
      (∀ k ∈ terms.getLast?, k ≠ .blank) ∧ Grammar.Blanks s₁ ∧ Grammar.Blanks s₂ ∧
      sameWord name.toList "important".toList = true := by
  unfold splitImportant
  split
  · exact .inl rfl
  next last before hks =>
    split
    next hlast =>
      split
      next front hfront =>
        obtain ⟨name, rfl, hname⟩ : ∃ name, last = .ident name ∧
            sameWord name.toList "important".toList = true := by
          cases last with
          | ident name => exact ⟨name, rfl, hlast⟩
          | _ => cases hlast
        have hblanks (ls : List Kind) : Grammar.Blanks (ls.takeWhile Kind.isBlank).reverse :=
          fun k hk => eq_blank_of_isBlank (List.mem_takeWhile_imp (List.mem_reverse.mp hk))
        refine .inr ⟨_, (front.takeWhile Kind.isBlank).reverse,
          (before.takeWhile Kind.isBlank).reverse, name, rfl, ?_, getLast?_reverse_dropWhile front,
          hblanks front, hblanks before, hname⟩
        have hbefore := List.takeWhile_append_dropWhile (p := Kind.isBlank) (l := before)
        have hfront' := List.takeWhile_append_dropWhile (p := Kind.isBlank) (l := front)
        rw [hfront, ← hfront'] at hbefore
        have hreverse : ks = (.ident name :: before).reverse := by rw [← hks, List.reverse_reverse]
        rw [hreverse]
        conv_lhs => rw [← hbefore]
        simp only [List.reverse_cons, List.reverse_append, List.append_assoc, List.cons_append,
          List.nil_append]
      · exact .inl rfl
    · exact .inl rfl

theorem splitImportant_annotated {front blanks : List Kind} {name : String}
    (hblanks : Grammar.Blanks blanks)
    (hname : sameWord name.toList "important".toList = true) :
    splitImportant (front ++ .delim '!' :: (blanks ++ [.ident name])) = (trimBlanks front, true) := by
  have hreverse : (front ++ Kind.delim '!' :: (blanks ++ [.ident name])).reverse =
      .ident name :: (blanks.reverse ++ .delim '!' :: front.reverse) := by simp
  have hskip : (blanks.reverse ++ Kind.delim '!' :: front.reverse).dropWhile Kind.isBlank =
      .delim '!' :: front.reverse := by
    rw [List.dropWhile_append_of_pos]
    · rfl
    · intro k hk
      rw [hblanks k (List.mem_reverse.mp hk)]
      rfl
  have hword : isImportant (.ident name) = true := hname
  unfold splitImportant
  rw [hreverse]
  simp only [hword, if_true, hskip, trimBlanks]

theorem splitImportant_important (h : ∀ k ∈ terms.getLast?, k ≠ .blank) :
    splitImportant (terms ++ Declaration.importantKinds true) = (terms, true) := by
  have hannotated : splitImportant (terms ++ [.blank] ++ .delim '!' :: ([] ++ [.ident "important"])) =
      (trimBlanks (terms ++ [.blank]), true) :=
    splitImportant_annotated (by simp [Grammar.Blanks]) (by decide)
  have htrim : trimBlanks (terms ++ [.blank]) = terms := by
    rw [trimBlanks, List.reverse_concat, List.dropWhile_cons_of_pos rfl, ← trimBlanks,
      trimBlanks_eq_self h]
  rw [htrim] at hannotated
  simpa [Declaration.importantKinds] using hannotated

/-- The tokens that can be the value of a declaration. -/
structure Settled (terms : List Kind) : Prop where
  collapsed : collapseBlanks true terms = terms
  trimmed : ∀ k ∈ terms.getLast?, k ≠ .blank
  closed : Closed [] terms

theorem prefix_trimBlanks (ks : List Kind) : trimBlanks ks <+: ks := by
  obtain ⟨bs, hbs, -⟩ := eq_trimBlanks_append ks
  exact ⟨bs, hbs.symm⟩

/-- The tokens of a value without blanks around them are its terms, or its terms with an inert
end, which makes them important. -/
theorem valueTerms_cases (value : List Token) :
    valueTerms value = (trimBlanks (collapseBlanks true (kinds value)), false) ∨
    ∃ terms tail, valueTerms value = (terms, true) ∧
      trimBlanks (collapseBlanks true (kinds value)) = terms ++ tail ∧
      (∀ k ∈ tail, Inert k) ∧ ∀ k ∈ terms.getLast?, k ≠ .blank := by
  refine (splitImportant_cases (trimBlanks (collapseBlanks true (kinds value)))).imp_right ?_
  rintro ⟨terms, s₁, s₂, name, hsplit, heq, hlast, hs₁, hs₂, -⟩
  have hblank {s : List Kind} (hs : Grammar.Blanks s) {k : Kind} (hk : k ∈ s) : Inert k := by
    rw [hs k hk]
    exact inert_blank
  refine ⟨terms, s₁ ++ .delim '!' :: (s₂ ++ [.ident name]), hsplit,
    by rw [heq, List.append_assoc], ?_, hlast⟩
  intro k hk
  simp only [List.mem_append, List.mem_cons, List.not_mem_nil, or_false] at hk
  rcases hk with hk | rfl | hk | rfl
  · exact hblank hs₁ hk
  · trivial
  · exact hblank hs₂ hk
  · trivial

theorem prefix_valueTerms (value : List Token) :
    (valueTerms value).1 <+: collapseBlanks true (kinds value) := by
  have htrim := prefix_trimBlanks (collapseBlanks true (kinds value))
  rcases valueTerms_cases value with hvalue | ⟨terms, tail, hvalue, heq, -, -⟩
  · rw [hvalue]
    exact htrim
  · rw [hvalue]
    rw [heq] at htrim
    exact (List.prefix_append terms tail).trans htrim

theorem collapsed_valueTerms (value : List Token) :
    collapseBlanks true (valueTerms value).1 = (valueTerms value).1 :=
  collapseBlanks_prefix (collapseBlanks_collapseBlanks true (kinds value)) (prefix_valueTerms value)

theorem getLast?_valueTerms (value : List Token) :
    ∀ k ∈ (valueTerms value).1.getLast?, k ≠ .blank := by
  rcases valueTerms_cases value with hvalue | ⟨terms, tail, hvalue, -, -, hlast⟩
  · rw [hvalue]
    exact getLast?_trimBlanks _
  · rw [hvalue]
    exact hlast

/-- No importance is left to be split off. -/
theorem splitImportant_valueTerms (value : List Token) (h : (valueTerms value).2 = false) :
    splitImportant (valueTerms value).1 = ((valueTerms value).1, false) := by
  rcases valueTerms_cases value with hvalue | ⟨terms, tail, hvalue, -⟩
  · rw [hvalue]
    exact hvalue
  · rw [hvalue] at h
    cases h

theorem closed_valueTerms {value : List Token} (h : Closed [] (kinds value)) :
    Closed [] (valueTerms value).1 := by
  have hclosed : Closed [] (trimBlanks (collapseBlanks true (kinds value))) := by
    obtain ⟨bs, hbs, hblanks⟩ := eq_trimBlanks_append (collapseBlanks true (kinds value))
    rw [← closed_collapseBlanks true, hbs] at h
    refine (closed_append_of_inert fun k hk => ?_).mp h
    rw [hblanks k hk]
    exact inert_blank
  rcases valueTerms_cases value with hvalue | ⟨terms, tail, hvalue, heq, hinert, -⟩
  · rw [hvalue]
    exact hclosed
  · rw [heq, closed_append_of_inert hinert] at hclosed
    rw [hvalue]
    exact hclosed

/-- What is read as a value is settled if its brackets are closed. -/
theorem settled_valueTerms {value : List Token} (h : Closed [] (kinds value)) :
    Settled (valueTerms value).1 :=
  ⟨collapsed_valueTerms value, getLast?_valueTerms value, closed_valueTerms h⟩

/-- The tokens that a declaration is written as are read as its value. -/
theorem valueTerms_eq {d : Declaration} (h : Settled d.terms) (hne : d.terms ≠ [])
    (hplain : d.important = false → splitImportant d.terms = (d.terms, false)) {value : List Token}
    (hvalue : kinds value = .blank :: (d.terms ++ Declaration.importantKinds d.important)) :
    valueTerms value = (d.terms, d.important) := by
  have hlast : ∀ k ∈ (d.terms ++ Declaration.importantKinds d.important).getLast?, k ≠ .blank := by
    cases d.important with
    | true => simp [Declaration.importantKinds]
    | false => simpa [Declaration.importantKinds] using h.trimmed
  have hcollapsed : collapseBlanks true (kinds value) =
      d.terms ++ Declaration.importantKinds d.important := by
    rw [hvalue, collapseBlanks_blank, if_pos rfl, collapseBlanks_append, h.collapsed,
      endsBlank_eq_false h.trimmed hne]
    cases d.important <;> rfl
  have htrim := trimBlanks_eq_self hlast
  have heq : valueTerms value =
    splitImportant (trimBlanks (collapseBlanks true (kinds value))) := rfl
  rw [heq, hcollapsed, htrim]
  cases himportant : d.important with
  | true => exact splitImportant_important h.trimmed
  | false =>
    rw [show Declaration.importantKinds false = [] from rfl, List.append_nil]
    exact hplain himportant

end Values
end Styling
