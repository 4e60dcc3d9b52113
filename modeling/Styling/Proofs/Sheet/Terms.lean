import Styling.Proofs.Sheet.Value

/-! # The terms of a value

What a value spells, without the reader: its words, which the blanks set apart, with one blank
between any two. An annotation of importance at the end is taken off with the blanks before it,
and the rest are the terms.
-/
namespace Styling
open Grammar (kinds Blanks)

def valueWords (ks : List Kind) : List (List Kind) :=
  (ks.splitOnP Kind.isBlank).filter (!·.isEmpty)

def spaced (ks : List Kind) : List Kind := [Kind.blank].intercalate (valueWords ks)

/-- Tokens that end in a mark and the word `important`. -/
def Annotated (ks : List Kind) : Prop :=
  ∃ front blanks name, ks = front ++ .delim '!' :: (blanks ++ [.ident name]) ∧ Blanks blanks ∧
    sameWord name.toList "important".toList = true

/-- The terms that spaced tokens spell, and whether they are important. -/
inductive HasTerms : List Kind → List Kind → Bool → Prop
  | plain {terms : List Kind} : ¬Annotated terms → HasTerms terms terms false
  | important {terms s₁ s₂ : List Kind} {name : String} : (∀ k ∈ terms.getLast?, k ≠ .blank) →
    Blanks s₁ → Blanks s₂ → sameWord name.toList "important".toList = true →
    HasTerms (terms ++ s₁ ++ .delim '!' :: (s₂ ++ [.ident name])) terms true

section Words
variable {k l : Kind}

theorem trimBlanks_cons (hk : k.isBlank = false) (ks : List Kind) :
    trimBlanks (k :: ks) = k :: trimBlanks ks := by
  unfold trimBlanks
  rw [List.reverse_cons, List.dropWhile_append]
  split
  next hempty => simp [List.isEmpty_iff.mp hempty, hk]
  next => simp

theorem trimBlanks_blank (ks : List Kind) : trimBlanks (.blank :: ks) =
    if trimBlanks ks = [] then [] else .blank :: trimBlanks ks := by
  unfold trimBlanks
  rw [List.reverse_cons, List.dropWhile_append]
  split
  next hempty => simp [List.isEmpty_iff.mp hempty, Kind.isBlank]
  next hempty => simp_all

theorem splitOnP_blank (ks : List Kind) :
    (Kind.blank :: ks).splitOnP Kind.isBlank = [] :: ks.splitOnP Kind.isBlank := by
  simp [List.splitOnP_cons_eq_if_modifyHead, Kind.isBlank]

theorem splitOnP_cons (hk : k.isBlank = false) (ks : List Kind) : (k :: ks).splitOnP Kind.isBlank =
    (ks.splitOnP Kind.isBlank).modifyHead (k :: ·) := by
  simp [List.splitOnP_cons_eq_if_modifyHead, hk]

theorem spaced_blank (ks : List Kind) : spaced (.blank :: ks) = spaced ks := by
  rw [spaced, valueWords, splitOnP_blank]
  rfl

theorem valueWords_cons_blank (hk : k.isBlank = false) (ks : List Kind) :
    valueWords (k :: .blank :: ks) = [k] :: valueWords ks := by
  rw [valueWords, splitOnP_cons hk, splitOnP_blank]
  rfl

theorem spaced_cons_blank (hk : k.isBlank = false) (ks : List Kind) :
    spaced (k :: .blank :: ks) = k :: if spaced ks = [] then [] else .blank :: spaced ks := by
  rw [spaced, valueWords_cons_blank hk]
  unfold spaced
  cases hwords : valueWords ks with
  | nil => rfl
  | cons word words =>
    have hword : word ≠ [] := by
      have hmem : word ∈ valueWords ks := hwords ▸ List.mem_cons_self
      simpa using List.of_mem_filter hmem
    have hne : [Kind.blank].intercalate (word :: words) ≠ [] := by
      cases words <;> simp [List.intercalate_cons_cons, hword]
    rw [if_neg hne, List.intercalate_cons_cons]
    rfl

theorem spaced_cons_cons (hk : k.isBlank = false) (hl : l.isBlank = false) (ks : List Kind) :
    spaced (k :: l :: ks) = k :: spaced (l :: ks) := by
  obtain ⟨first, rest, hsplit⟩ := List.exists_cons_of_ne_nil (List.splitOnP_ne_nil Kind.isBlank ks)
  have hwords : valueWords (l :: ks) = (l :: first) :: rest.filter (!·.isEmpty) := by
    rw [valueWords, splitOnP_cons hl, hsplit]
    rfl
  have hlonger : valueWords (k :: l :: ks) = (k :: l :: first) :: rest.filter (!·.isEmpty) := by
    rw [valueWords, splitOnP_cons hk, splitOnP_cons hl, hsplit]
    rfl
  rw [spaced, spaced, hwords, hlonger]
  cases rest.filter (!·.isEmpty) <;> simp [List.intercalate_cons_cons]

/-- Collapsing the blanks and dropping the last one leaves the words. -/
theorem trimBlanks_collapseBlanks (ks : List Kind) :
    trimBlanks (collapseBlanks true ks) = spaced ks ∧
      ∀ k : Kind, k.isBlank = false →
        trimBlanks (k :: collapseBlanks false ks) = spaced (k :: ks) := by
  induction ks with
  | nil =>
    refine ⟨rfl, fun k hk => ?_⟩
    rw [trimBlanks_cons hk]
    rw [spaced, valueWords, splitOnP_cons hk]
    rfl
  | cons l ks ih =>
    obtain ⟨hafter, hword⟩ := ih
    cases hl : l.isBlank with
    | true =>
      obtain rfl := eq_blank_of_isBlank hl
      refine ⟨(spaced_blank ks).symm ▸ hafter, fun k hk => ?_⟩
      have hcollapse : collapseBlanks false (.blank :: ks) = .blank :: collapseBlanks true ks := rfl
      rw [hcollapse, trimBlanks_cons hk, trimBlanks_blank, hafter, spaced_cons_blank hk]
    | false =>
      refine ⟨?_, fun k hk => ?_⟩
      · rw [collapseBlanks_cons hl]
        exact hword l hl
      · rw [collapseBlanks_cons hl, trimBlanks_cons hk, hword l hl, spaced_cons_cons hk hl]

end Words

section Terms
variable {ks terms : List Kind}

theorem trimBlanks_append {s : List Kind} (hlast : ∀ k ∈ terms.getLast?, k ≠ .blank)
    (hs : Blanks s) : trimBlanks (terms ++ s) = terms := by
  have hskip : ∀ k ∈ s.reverse, k.isBlank = true := by
    intro k hk
    rw [hs k (List.mem_reverse.mp hk)]
    rfl
  rw [trimBlanks, List.reverse_append, List.dropWhile_append_of_pos hskip]
  exact trimBlanks_eq_self hlast

theorem hasTerms_iff {important : Bool} :
    HasTerms ks terms important ↔ splitImportant ks = (terms, important) := by
  constructor
  · rintro (hplain | ⟨hlast, hs₁, hs₂, hname⟩)
    · rcases splitImportant_cases ks with hsplit | ⟨front, s₁, s₂, name, -, heq, -, -, hs₂, hname⟩
      · exact hsplit
      · exact absurd ⟨front ++ s₁, s₂, name, heq, hs₂, hname⟩ hplain
    · rw [splitImportant_annotated hs₂ hname, trimBlanks_append hlast hs₁]
  · intro h
    rcases splitImportant_cases ks with
      hsplit | ⟨front, s₁, s₂, name, hsplit, heq, hlast, hs₁, hs₂, hname⟩
    · obtain ⟨rfl, rfl⟩ := Prod.mk.inj (h.symm.trans hsplit)
      refine .plain ?_
      rintro ⟨front, blanks, name, heq, hblanks, hname⟩
      rw [heq, splitImportant_annotated hblanks hname] at hsplit
      exact Bool.false_ne_true (Prod.mk.inj hsplit).2.symm
    · obtain ⟨rfl, rfl⟩ := Prod.mk.inj (h.symm.trans hsplit)
      exact heq ▸ .important hlast hs₁ hs₂ hname

/-- The reader finds the terms of every value. -/
theorem hasTerms_spaced_iff {value : List Token} {important : Bool} :
    HasTerms (spaced (kinds value)) terms important ↔ valueTerms value = (terms, important) := by
  rw [hasTerms_iff, ← (trimBlanks_collapseBlanks (kinds value)).1]
  rfl

end Terms
end Styling
