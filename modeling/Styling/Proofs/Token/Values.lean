import Styling.Proofs.Token.Tiling
import Styling.Proofs.Token.Units

/-! # Names and quoted values

A name is written so that it can stand alone, and a quoted value so that it can stand before any
text. What comes back is the name or the value, with U+FFFD for U+0000. Two names cannot be
written at all: the empty one, and a lone hyphen.
-/
namespace Styling
open Lexer

/-- The first token of a text, with its span. -/
theorem head?_tokenize_of_reads {front rest : String} {k : Kind}
    (h : Reads (front.toList ++ rest.toList) k rest.toList) :
    (tokenize (front ++ rest)).head? = some ⟨k, 0, front.length, 1⟩ := by
  have hlexemes := lexemes_of_reads h
  rw [tokenize_eq_place, String.toList_append, hlexemes, List.cons_append, place, List.head?_cons,
    Nat.zero_add, String.length_toList]

theorem map_kind_tokenize_identifierText {v : List Char} (hne : v ≠ []) (hv : v ≠ ['-']) :
    (tokenize (String.ofList (identifierText v))).map Token.kind =
      [.ident (String.ofList (v.map legible)), .eof] := by
  have hread := reads_ident (w := []) hne hv (by simp [NameEnds]) (by simp) (by simp)
  rw [List.append_nil] at hread
  rw [map_kind_tokenize, String.toList_ofList, allKinds_of_reads hread, allKinds, lexemes]
  rfl

/-- A name is read back where it stands alone just if it can be written and holds no U+0000. -/
theorem tokenize_identifierText_iff (name : String) :
    (tokenize (String.ofList (identifierText name.toList))).map Token.kind = [.ident name, .eof] ↔
      name ≠ "" ∧ name ≠ "-" ∧ '\x00' ∉ name.toList := by
  constructor
  · intro h
    have hne : name ≠ "" := by
      rintro rfl
      have hempty : (tokenize (String.ofList (identifierText "".toList))).map Token.kind =
          [.eof] := by decide +kernel
      rw [hempty] at h
      cases h
    have hhyphen : name ≠ "-" := by
      rintro rfl
      have hdelim : (tokenize (String.ofList (identifierText "-".toList))).map Token.kind =
          [.delim '-', .eof] := by decide +kernel
      rw [hdelim] at h
      cases h
    rw [map_kind_tokenize_identifierText (toList_ne hne) (toList_ne hhyphen)] at h
    injection h with hkind _
    injection hkind with hname
    refine ⟨hne, hhyphen, map_legible_iff.mp ?_⟩
    rw [← String.toList_ofList (l := name.toList.map legible), hname]
  · rintro ⟨hne, hhyphen, hzero⟩
    rw [map_kind_tokenize_identifierText (toList_ne hne) (toList_ne hhyphen),
      ofList_map_legible hzero]

/-- A value in quotes is the first token of every text that it begins, and so is an address: each
takes the characters it is written with, and holds the value with U+FFFD for U+0000. -/
theorem head?_tokenize_quoted (value rest : String) :
    (tokenize ((Kind.string value).text ++ rest)).head? =
        some ⟨.string (value.map legible), 0, (Kind.string value).text.length, 1⟩ ∧
      (tokenize ((Kind.url value).text ++ rest)).head? =
        some ⟨.url (value.map legible), 0, (Kind.url value).text.length, 1⟩ := by
  have hmap : value.map legible = String.ofList (value.toList.map legible) := by
    rw [← String.toList_inj, String.toList_map, String.toList_ofList]
  rw [hmap]
  constructor
  · apply head?_tokenize_of_reads
    have hread := reads_string value.toList rest.toList
    simpa [Kind.text, Kind.chars] using hread
  · apply head?_tokenize_of_reads
    have hread := reads_url (v := value.toList) (w := rest.toList)
    simpa [Kind.text, Kind.chars] using hread

end Styling
