import Styling.Proofs.Sheet.Weight

/-! # Sheets are written in pieces

Whatever relates texts to tokens, if it holds of a few pieces and of what they are joined to, it
holds of the text of a sheet and the tokens that the sheet is written as. The text of a sheet
breaks no escape, and holds equality marks and U+0000 only where its tokens hold them.
-/
namespace Styling
open Lexer

/-- A relation that holds of the pieces of a sheet with tokens of the kind `Q`. -/
structure Pieces (Q : Kind → Prop) (P : List Char → List Kind → Prop) : Prop where
  nil : P [] []
  append {cs cs' : List Char} {ks ks' : List Kind} :
    P cs ks → P cs' ks' → P (cs ++ cs') (ks ++ ks')
  list (ks : List Kind) : (∀ k ∈ ks, k.Lexical ∧ Q k) → P (Kind.listChars ks) ks
  id (value : String) : P ('#' :: identifierText value.toList) [idKind value]
  indent : P [' ', ' '] []
  opened : P [' ', '\x7b', '\n'] [.blank, .opening .curly, .blank]
  ended : P [';', '\n'] [.semicolon, .blank]
  closed : P ['\x7d', '\n'] [.closing .curly, .blank]

namespace Pieces
variable {Q : Kind → Prop} {P : List Char → List Kind → Prop} (hP : Pieces Q P)
include hP

theorem condition {c : Condition} (h : ∀ k ∈ c.kinds, k.Lexical ∧ Q k) : P c.chars c.kinds := by
  by_cases hid : ∃ value, c = .id value
  · obtain ⟨value, rfl⟩ := hid
    exact hP.id value
  · have hid : ∀ value, c ≠ .id value := fun value hc => hid ⟨value, hc⟩
    rw [Condition.chars_eq_listChars hid]
    exact hP.list _ h

theorem selector {s : Selector} (h : ∀ k ∈ s.kinds, k.Lexical ∧ Q k) : P s.chars s.kinds := by
  induction s with
  | simple c => exact hP.condition h
  | combined c left right ihleft ihright =>
    rw [Selector.kinds, List.forall_mem_append, List.forall_mem_append] at h
    have hcombinator : P c.chars c.kinds := by
      rw [c.chars_eq_listChars]
      exact hP.list _ h.1.2
    exact hP.append (hP.append (ihleft h.1.1) hcombinator) (ihright h.2)

theorem group {g : SelectorGroup} (h : ∀ k ∈ SelectorGroup.kinds g, k.Lexical ∧ Q k) :
    P (SelectorGroup.chars g) (SelectorGroup.kinds g) := by
  induction g with
  | nil => exact hP.nil
  | cons s g ih =>
    cases g with
    | nil =>
      simp only [SelectorGroup.kinds, SelectorGroup.chars, List.map_singleton,
        List.intercalate_singleton] at h ⊢
      exact hP.selector h
    | cons s' g =>
      have hkinds : SelectorGroup.kinds (s :: s' :: g) =
          s.kinds ++ [.comma, .blank] ++ SelectorGroup.kinds (s' :: g) :=
        List.intercalate_cons_cons
      have hchars : SelectorGroup.chars (s :: s' :: g) =
          s.chars ++ [',', ' '] ++ SelectorGroup.chars (s' :: g) := List.intercalate_cons_cons
      rw [hkinds, List.forall_mem_append, List.forall_mem_append] at h
      rw [hkinds, hchars]
      have hcomma : P [',', ' '] [.comma, .blank] := hP.list _ h.1.2
      exact hP.append (hP.append (hP.selector h.1.1) hcomma) (ih h.2)

theorem declaration {d : Declaration} (h : ∀ k ∈ d.kinds, k.Lexical ∧ Q k) :
    P d.chars d.kinds := by
  rw [Declaration.kinds, List.forall_mem_append, List.forall_mem_append] at h
  have hfront : [Kind.ident d.property, .colon, .blank] = [.ident d.property] ++ [.colon, .blank] :=
    rfl
  rw [hfront, List.forall_mem_append] at h
  have hproperty : P (identifierText d.property.toList) [.ident d.property] := by
    have hname := hP.list _ h.1.1.1
    rwa [show Kind.listChars [.ident d.property] = identifierText d.property.toList from
      List.append_nil _] at hname
  have hcolon : P [':', ' '] [.colon, .blank] := hP.list _ h.1.1.2
  have himportant := hP.list _ h.2
  rw [Declaration.listChars_importantKinds] at himportant
  exact hP.append (hP.append (hP.append hproperty hcolon) (hP.list _ h.1.2)) himportant

theorem declarations {ds : List Declaration}
    (h : ∀ k ∈ ds.flatMap fun d => d.kinds ++ [.semicolon, .blank], k.Lexical ∧ Q k) :
    P (ds.flatMap fun d => [' ', ' '] ++ d.chars ++ [';', '\n'])
      (ds.flatMap fun d => d.kinds ++ [.semicolon, .blank]) := by
  induction ds with
  | nil => exact hP.nil
  | cons d ds ih =>
    rw [List.flatMap_cons, List.forall_mem_append, List.forall_mem_append] at h
    have hline := hP.append (hP.append hP.indent (hP.declaration h.1.1)) hP.ended
    exact hP.append hline (ih h.2)

theorem ruleset {r : Ruleset} (h : ∀ k ∈ r.kinds, k.Lexical ∧ Q k) :
    P (r.chars ++ ['\n']) (r.kinds ++ [.blank]) := by
  rw [Ruleset.kinds, List.forall_mem_append, List.forall_mem_append, List.forall_mem_append] at h
  have hbody := hP.append (hP.append (hP.group h.1.1.1) hP.opened) (hP.declarations h.1.2)
  have hruleset := hP.append hbody hP.closed
  simpa only [Ruleset.chars, Ruleset.kinds, List.append_assoc, List.singleton_append] using hruleset

theorem stylesheet {s : Stylesheet} (h : ∀ k ∈ s.kinds, k.Lexical ∧ Q k) : P s.chars s.kinds := by
  obtain ⟨rs⟩ := s
  induction rs with
  | nil => exact hP.nil
  | cons r rs ih =>
    rw [Stylesheet.kinds, List.flatMap_cons, List.forall_mem_append, List.forall_mem_append] at h
    exact hP.append (hP.ruleset h.1.1) (ih h.2)

end Pieces

theorem pieces_steady : Pieces Kind.Meaningful fun cs _ => Steady cs := by
  constructor
  · exact OneLine.steady (by simp [OneLine])
  · exact Steady.append
  · intro ks h
    exact (Kind.oneLine_listChars (fun k hk => (h k hk).1) fun k hk => (h k hk).2).steady
  · intro value
    have hmark : OneLine ['#'] := by decide
    exact (hmark.append (oneLine_identifierText value.toList)).steady
  · exact OneLine.steady (by decide)
  all_goals constructor <;> simp [Unbroken, isNewline]

theorem pieces_spells : Pieces Kind.Written Spells := by
  constructor
  · exact Spells.nil
  · exact Spells.append
  · intro ks h
    exact Kind.spells_listChars (fun k hk => (h k hk).1) fun k hk => (h k hk).2
  · intro value
    have hmark := encodes_mark ['#'] (by decide)
    refine (hmark.append (encodes_identifierText _)).spells ['#'] [] ?_ (by simp) (by simp [idKind])
    simp [idKind, Kind.payload]
  all_goals exact ⟨_, encodes_mark _ (by decide), rfl, rfl⟩

end Styling
