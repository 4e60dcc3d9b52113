import Styling.Proofs.Sheet.RoundTrip

/-! # Sequences of tokens

The text of a token that was read gives the token back just if the token is readable. A sequence
of tokens is written with an empty comment between two neighbours that would run together. If
each of its tokens is read back where it stands alone, the sequence is read back just if no two
of its neighbours clash: besides these six pairs, no separator is missing.
-/
namespace Styling.Kind
open Lexer
open Grammar (kinds)

/-- A token whose text is read as this token and nothing else. -/
def StandsAlone (k : Kind) : Prop := (tokenize k.text).map Token.kind = [k, .eof]

/-- What the text of a sequence is read as, without comments and the end. -/
def reread (ks : List Kind) : List Kind :=
  ((tokenize (listText ks)).map Token.kind).filter fun k => !k.isComment && !k.isEof

/-- Tokens that stand alone, none of them a comment or the end, with no two blanks in a row. -/
structure Sequence (ks : List Kind) : Prop where
  alone : ∀ k ∈ ks, k.StandsAlone
  kept : ∀ k ∈ ks, k.isComment = false ∧ k.isEof = false
  blanks : ks.IsChain fun k next => k = blank → next ≠ blank

theorem Lexical.isEof {k : Kind} (h : k.Lexical) : k.isEof = false := by
  cases k with
  | eof => exact h.elim
  | _ => rfl

theorem reread_eq (ks : List Kind) : reread ks = kinds (significant (listChars ks)) := by
  have hkept : ∀ k ∈ allKinds (listChars ks), (!k.isComment && !k.isEof) = !k.isComment := by
    intro k hk
    rw [(lexical_of_mem_allKinds hk).isEof, Bool.not_false, Bool.and_true]
  rw [reread, map_kind_tokenize, listText, String.toList_ofList, List.filter_append,
    List.filter_congr hkept, kinds_significant]
  exact List.append_nil _

theorem eq_nil_of_allKinds {cs : List Char} (h : allKinds cs = []) : cs = [] := by
  have hlayout := flatten_lexemes cs
  rw [List.map_eq_nil_iff.mp h] at hlayout
  exact hlayout.symm

section Alone
variable {k : Kind} (h : k.StandsAlone)
include h

theorem StandsAlone.allKinds : allKinds k.chars = [k] := by
  unfold StandsAlone at h
  rw [map_kind_tokenize, text, String.toList_ofList] at h
  exact List.append_cancel_right (show Lexer.allKinds k.chars ++ [eof] = [k] ++ [eof] from h)

theorem StandsAlone.lexical : k.Lexical :=
  lexical_of_mem_allKinds (h.allKinds ▸ List.mem_singleton_self k)

/-- A token that stands alone takes its whole text. -/
theorem StandsAlone.reads : Reads k.chars k [] := by
  have hall := h.allKinds
  have hne : k.chars ≠ [] := by
    intro hnil
    rw [hnil, Lexer.allKinds, lexemes] at hall
    cases hall
  obtain ⟨k', rest, hread⟩ := exists_reads hne
  rw [allKinds_of_reads hread] at hall
  obtain ⟨rfl, hrest⟩ := List.cons.inj hall
  rwa [eq_nil_of_allKinds hrest] at hread

theorem StandsAlone.meaningful (hcomment : k.isComment = false) : k.Meaningful := by
  refine ⟨hcomment, ?_⟩
  rintro rfl
  have hbroken : Reads badString.chars badString ['\n'] := ⟨'"', ['\n'], rfl, by decide +kernel⟩
  cases (h.reads.unique hbroken).2

end Alone

/-- Tokens that are read again are legible, and no comment between them begins with an equality
mark. -/
theorem legible_of_kinds_listChars {ks : List Kind} (hl : ∀ k ∈ ks, k.Lexical)
    (hm : ∀ k ∈ ks, k.Meaningful) (h : kinds (significant (listChars ks)) = ks) :
    (∀ k ∈ ks, k.Legible) ∧
      ∀ t, comment t ∈ allKinds (listChars ks) → t.toList.head? ≠ some '=' := by
  apply legible_of_reread _ hm hl (oneLine_listChars hl hm).steady
  · intro hwritten
    exact spells_listChars hl fun k hk => (hwritten k hk).2
  · intro φ _
    rw [h]

theorem StandsAlone.legible {k : Kind} (h : k.StandsAlone) (hcomment : k.isComment = false) :
    k.Legible := by
  have hchars : listChars [k] = k.chars := List.append_nil _
  have hread : kinds (significant (listChars [k])) = [k] := by
    rw [hchars, kinds_significant, h.allKinds]
    simp [hcomment]
  have hlegible := legible_of_kinds_listChars (by simpa using h.lexical)
    (by simpa using h.meaningful hcomment) hread
  exact hlegible.1 k (List.mem_singleton_self k)

/-- The text of a token has nothing behind it that could run into the token, so it is read back if
nothing in the token itself prevents it. -/
theorem Lexical.standsAlone_iff {k : Kind} (hl : k.Lexical) (hcomment : k.isComment = false) :
    k.StandsAlone ↔ k.Readable := by
  constructor
  · intro h
    have hread : Reads (k.chars ++ []) k [] := by
      rw [List.append_nil]
      exact h.reads
    exact (readable_of_reads hl (h.legible hcomment) hread (by simp)).1
  · intro hr
    have hread := Kind.reads hl hr (clear_nil hl hr.1)
    rw [List.append_nil] at hread
    rw [StandsAlone, map_kind_tokenize, text, String.toList_ofList, allKinds_of_reads hread,
      Lexer.allKinds, lexemes]
    rfl

section Single

def IsNamedOrNumeric : Kind → Prop
  | atKeyword _ | function _ | hash _ _ | number _ | percentage _ | dimension _ _ => True
  | _ => False

theorem IsNamedOrNumeric.isComment {k : Kind} (h : k.IsNamedOrNumeric) : k.isComment = false := by
  cases k with
  | comment text => exact h.elim
  | _ => rfl

theorem IsNamedOrNumeric.isEof {k : Kind} (h : k.IsNamedOrNumeric) : k.isEof = false := by
  cases k with
  | eof => exact h.elim
  | _ => rfl

/-- A named or numeric token of a text is read back from its own text just if it is readable: its
name is no lone hyphen, its name, value or unit holds no U+0000, and no digit leads the value of
a hash that could be an identifier, or a unit. -/
theorem standsAlone_iff_readable {text : String} {t : Token} (h : t ∈ tokenize text)
    (hk : t.kind.IsNamedOrNumeric) : t.kind.StandsAlone ↔ t.kind.Readable := by
  rcases List.mem_append.mp h with h | h
  · exact (lexical_of_mem_tokens h).standsAlone_iff hk.isComment
  · obtain rfl := List.mem_singleton.mp h
    cases hk.isEof

/-- The hyphen of the unit is an escape in the text that is read, and none in the one written. -/
theorem standsAlone_escaped_unit : ⟨.dimension "2" "-x", 0, 6, 1⟩ ∈ tokenize "2\\2d x" ∧
    (dimension "2" "-x").IsNamedOrNumeric ∧ (dimension "2" "-x").StandsAlone := by
  have htokens : tokenize "2\\2d x" = [⟨.dimension "2" "-x", 0, 6, 1⟩, ⟨.eof, 6, 6, 1⟩] := by decide +kernel
  have hmem : (⟨.dimension "2" "-x", 0, 6, 1⟩ : Token) ∈ tokenize "2\\2d x" := by simp [htokens]
  have hlegible : '\x00' ∉ "-x".toList := by decide
  exact ⟨hmem, trivial, (standsAlone_iff_readable hmem trivial).mpr ⟨hlegible, rfl⟩⟩

/-- The digit of `#\\31 a` is written without an escape, and then no identifier stands behind the
mark. -/
theorem not_standsAlone_hash_digit :
    ¬ ∀ text, ∀ t ∈ tokenize text, t.kind.IsNamedOrNumeric → t.kind.StandsAlone := by
  intro hall
  have htokens : tokenize "#\\31 a" = [⟨.hash "1a" .id, 0, 6, 1⟩, ⟨.eof, 6, 6, 1⟩] := by decide +kernel
  have halone : (hash "1a" .id).StandsAlone :=
    hall "#\\31 a" ⟨.hash "1a" .id, 0, 6, 1⟩ (by simp [htokens]) trivial
  have hreread : (tokenize (hash "1a" .id).text).map Token.kind =
      [.hash "1a" .unrestricted, .eof] := by decide +kernel
  rw [StandsAlone, hreread] at halone
  cases halone

end Single

namespace Sequence
variable {ks : List Kind} (h : Sequence ks)
include h

theorem lexical : ∀ k ∈ ks, k.Lexical := fun k hk => (h.alone k hk).lexical

theorem legible : ∀ k ∈ ks, k.Legible := fun k hk => (h.alone k hk).legible (h.kept k hk).1

theorem readable : ∀ k ∈ ks, k.Readable := fun k hk =>
  ((h.lexical k hk).standsAlone_iff (h.kept k hk).1).mp (h.alone k hk)

theorem reread_of_apart (hchain : ks.IsChain fun k next => k.clashes next = false) :
    reread ks = ks := by
  have hlast : ∀ k ∈ ks.getLast?, k.Clear [] := by
    intro k hk
    have hmem := List.mem_of_mem_getLast? hk
    exact clear_nil (h.lexical k hmem) (h.legible k hmem)
  have hscanned := scanned_listChars h.lexical h.readable (isChain_apart hchain h.blanks) hlast
  rw [List.append_nil, scanned_nil, List.append_nil] at hscanned
  rw [reread_eq, ← filter_scanned, hscanned, List.filter_eq_self]
  intro k hk
  simp [(h.kept k hk).1]

theorem apart_of_reread (hread : reread ks = ks) :
    ks.IsChain fun k next => k.clashes next = false := by
  rw [reread_eq] at hread
  have hm : ∀ k ∈ ks, k.Meaningful := fun k hk => (h.alone k hk).meaningful (h.kept k hk).1
  obtain ⟨-, hcomments⟩ := legible_of_kinds_listChars h.lexical hm hread
  rcases readable_or_misread (w := []) h.lexical h.legible h.blanks (by simp) (by simp) with
    ⟨-, hchain⟩ | hmisread
  · exact hchain
  · -- otherwise the first token that is misread would be read where the sequence has another
    exfalso
    rw [List.append_nil] at hmisread
    have hkept : ∀ k ∈ [] ++ ks, k.isComment = false := fun k hk => (h.kept k hk).1
    obtain ⟨p, k, q, k', after, hks, hne, -, hother⟩ :=
      kinds_of_misread hkept hcomments (List.nil_append _).symm hmisread
    have hsame : p ++ k' :: after = p ++ k :: q := hother.symm.trans (hread.trans hks)
    exact hne (List.cons.inj (List.append_cancel_left hsame)).1

end Sequence

/-- A sequence is read back from its text just if no two of its neighbours clash. -/
theorem reread_eq_self_iff {ks : List Kind} (h : Sequence ks) :
    reread ks = ks ↔ ks.IsChain fun k next => k.clashes next = false :=
  ⟨h.apart_of_reread, h.reread_of_apart⟩

/-- Signs and points are kept from a number, and hyphens from an arrow. -/
theorem reread_marks :
    Sequence [.delim '+', .delim '.', .number "5", .delim '-', .delim '-', .delim '>'] ∧
      reread [.delim '+', .delim '.', .number "5", .delim '-', .delim '-', .delim '>'] =
        [.delim '+', .delim '.', .number "5", .delim '-', .delim '-', .delim '>'] := by
  have hsequence :
      Sequence [.delim '+', .delim '.', .number "5", .delim '-', .delim '-', .delim '>'] := by
    constructor
    · simp only [List.forall_mem_cons]
      refine ⟨?_, ?_, ?_, ?_, ?_, ?_, by simp⟩
      all_goals
        unfold StandsAlone
        decide +kernel
    · simp [isComment, isEof]
    · simp
  refine ⟨hsequence, (reread_eq_self_iff hsequence).mpr ?_⟩
  simp [clashes]

/-- A number and the end mark of a comment are written without a separator, and read as one
dimension. -/
theorem not_reread_number_cdc : ¬ ∀ ks, Sequence ks → reread ks = ks := by
  intro hall
  have hsequence : Sequence [.number "1", .cdc] := by
    constructor
    · simp only [List.forall_mem_cons]
      refine ⟨?_, ?_, by simp⟩
      all_goals
        unfold StandsAlone
        decide +kernel
    · simp [isComment, isEof]
    · simp
  have hread := hall _ hsequence
  have hdimension : reread [.number "1", .cdc] = [.dimension "1" "--", .delim '>'] := by decide +kernel
  rw [hdimension] at hread
  cases hread

end Styling.Kind
