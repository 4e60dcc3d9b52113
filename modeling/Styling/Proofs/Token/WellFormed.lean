import Styling.Proofs.Token.Units
import Styling.Token.Label

/-! # The form of the tokens of a text

What holds of every text, however malformed: no name is empty, every numeral has a value, a lone
character is none that begins another token, blanks are never doubled, and a line end follows what
a line end has broken off.
-/
namespace Styling
namespace Numeral

structure Exact (numeral : String) : Prop where
  written : IsNumeral numeral.toList
  typeName : typeName numeral = "Number" ↔ '.' ∈ numeral.toList
  readable : ∃ negative digits size exponent,
    read? numeral.toList = some (.finite negative digits size exponent)

theorem typeName_eq_number_iff (numeral : String) :
    typeName numeral = "Number" ↔ '.' ∈ numeral.toList := by
  unfold typeName isWhole
  by_cases h : '.' ∈ numeral.toList
  · simp [h]
  · have hne : "Integer" ≠ "Number" := by decide
    simp [h, hne]

theorem sameWord_cons_eq_false {c d : Char} (h : c.toLower ≠ d.toLower) (cs ds : List Char) :
    sameWord (c :: cs) (d :: ds) = false := by
  simp [sameWord, h]

theorem splitSign_of_sign {sign body : List Char} {c : Char} {cs : List Char}
    (hsign : sign = [] ∨ sign = ['+'] ∨ sign = ['-']) (hbody : body = c :: cs)
    (hc : (c == '+' || c == '-') = false) :
    ∃ negative, splitSign (sign ++ body) = (negative, body) := by
  subst hbody
  obtain ⟨hplus, hminus⟩ := Bool.or_eq_false_iff.mp hc
  rcases hsign with rfl | rfl | rfl
  · refine ⟨false, ?_⟩
    rw [List.nil_append]
    unfold splitSign
    split
    next heq => exact absurd (List.cons.inj heq).1 (beq_eq_false_iff_ne.mp hminus)
    next heq => exact absurd (List.cons.inj heq).1 (beq_eq_false_iff_ne.mp hplus)
    · rfl
  · exact ⟨false, rfl⟩
  · exact ⟨true, rfl⟩

theorem read?_of_isNumeral {n : List Char} (h : IsNumeral n) :
    ∃ negative digits size exponent, read? n = some (.finite negative digits size exponent) := by
  obtain ⟨sign, whole, fraction, rfl, hsign, hwhole, hfraction⟩ := h
  obtain ⟨c, cs, hbody, hc, -⟩ := magnitude_head hwhole hfraction
  obtain ⟨-, -, hapart, hi, hn⟩ := apart_of_digit_or_point hc
  obtain ⟨negative, hsplit⟩ := splitSign_of_sign hsign hbody hapart
  have hinf : sameWord (whole ++ fraction) "inf".toList = false :=
    hbody ▸ sameWord_cons_eq_false hi cs _
  have hinfinity : sameWord (whole ++ fraction) "infinity".toList = false :=
    hbody ▸ sameWord_cons_eq_false hi cs _
  have hnan : sameWord (whole ++ fraction) "nan".toList = false :=
    hbody ▸ sameWord_cons_eq_false hn cs _
  unfold read?
  rw [List.append_assoc, hsplit]
  simp only [hinf, hinfinity, hnan, List.takeWhile_append_of_pos hwhole,
    List.dropWhile_append_of_pos hwhole, Bool.or_self, Bool.false_eq_true, if_false]
  obtain ⟨rfl, hne⟩ | ⟨d, ds, rfl, hds⟩ := hfraction
  · refine ⟨negative, digitsValue whole, whole.length, 0, ?_⟩
    simp [hne]
  · have hall : (d :: ds).takeWhile Char.isDigit = d :: ds := List.takeWhile_eq_self_iff.mpr hds
    have hnone : (d :: ds).dropWhile Char.isDigit = [] := List.dropWhile_eq_nil_iff.mpr hds
    have hpoint : Char.isDigit '.' = false := by decide
    refine ⟨negative, digitsValue (whole ++ d :: ds), (whole ++ d :: ds).length,
      0 - (d :: ds).length, ?_⟩
    simp only [List.takeWhile_cons_of_neg (hpoint ▸ Bool.false_ne_true),
      List.dropWhile_cons_of_neg (hpoint ▸ Bool.false_ne_true), List.append_nil, hall, hnone]
    simp

end Numeral

def Kind.numeral? : Kind → Option String
  | number numeral | percentage numeral | dimension numeral _ => some numeral
  | _ => none

theorem Kind.Lexical.exact {k : Kind} (h : k.Lexical) {numeral : String}
    (hn : numeral ∈ k.numeral?) : Numeral.Exact numeral := by
  have hwritten : IsNumeral numeral.toList := by
    cases k with
    | number n | percentage n =>
      obtain rfl := Option.some.inj hn
      exact h
    | dimension n unit =>
      obtain rfl := Option.some.inj hn
      exact h.1
    | _ => cases hn
  exact ⟨hwritten, Numeral.typeName_eq_number_iff numeral, Numeral.read?_of_isNumeral hwritten⟩

namespace Lexer
variable {cs rest : List Char} {before after : List Kind} {k : Kind}

theorem reads_of_allKinds (h : allKinds cs = k :: after) :
    ∃ rest, Reads cs k rest ∧ after = allKinds rest := by
  cases cs with
  | nil => simp [allKinds, lexemes] at h
  | cons c cs =>
    have hread : Reads (c :: cs) (scan c cs).1 (scan c cs).2 := ⟨c, cs, rfl, rfl⟩
    rw [allKinds_of_reads hread] at h
    obtain ⟨hk, hafter⟩ := List.cons.inj h
    exact ⟨_, hk ▸ hread, hafter.symm⟩

/-- What follows a token is read from where it ends. -/
theorem reads_of_split (h : allKinds cs = before ++ k :: after) :
    ∃ text rest, Reads text k rest ∧ after = allKinds rest := by
  induction before generalizing cs with
  | nil => exact ⟨cs, reads_of_allKinds h⟩
  | cons b before ih =>
    obtain ⟨rest, -, hrest⟩ := reads_of_allKinds h
    exact ih hrest.symm

theorem head?_allKinds_blank_iff : (allKinds cs).head? = some .blank ↔ cs.head?.any isBlank := by
  cases cs with
  | nil => simp [allKinds, lexemes]
  | cons c cs =>
    have hread : Reads (c :: cs) (scan c cs).1 (scan c cs).2 := ⟨c, cs, rfl, rfl⟩
    rw [allKinds_of_reads hread, List.head?_cons, List.head?_cons, Option.any_some]
    constructor
    · intro h
      rw [Option.some.inj h] at hread
      exact isBlank_of_reads hread
    · intro h
      simp [scan, h]

theorem head?_of_reads_blank {text : List Char} (h : Reads text .blank rest) :
    rest.head?.any isBlank = false := by
  obtain ⟨c, cs, rfl, hscan⟩ := h
  have hc : isBlank c = true := isBlank_of_reads ⟨c, cs, rfl, hscan⟩
  rw [scan, if_pos hc] at hscan
  obtain rfl := (Prod.mk.inj hscan).2
  have hstop := List.head?_dropWhile_not isBlank cs
  cases hd : (cs.dropWhile isBlank).head? with
  | none => rfl
  | some d =>
    rw [hd] at hstop
    exact hstop

/-- Only a line end breaks a string off. -/
theorem head?_of_quoted_none {quote : Char} (h : (quoted quote cs).1 = none) :
    (quoted quote cs).2.head?.any isBlank = true := by
  fun_induction quoted quote cs with
  | case1 => cases h
  | case2 => cases h
  | case3 c cs _ hc => simpa using isBlank_of_isNewline hc
  | case4 => cases h
  | case5 c _ _ _ d ds _ ih => exact ih h
  | case6 c _ _ _ d ds _ e rest ih => exact ih (by simpa using h)
  | case7 c cs _ _ _ rest ih => exact ih (by simpa using h)

theorem marked_ne_badString (c : Char) (cs : List Char) : (marked c cs).1 ≠ .badString := by
  unfold marked
  split <;> try simp
  · split <;> simp
  · split <;> simp

theorem head?_of_reads_badString {text : List Char} (h : Reads text .badString rest) :
    rest.head?.any isBlank = true := by
  obtain ⟨c, cs, rfl, hscan⟩ := h
  unfold scan at hscan
  split at hscan
  · cases hscan
  split at hscan
  · obtain ⟨hkind, rfl⟩ := Prod.mk.inj hscan
    have hnone : (quoted c cs).1 = none := by
      cases hq : (quoted c cs).1 with
      | none => rfl
      | some value =>
        rw [hq] at hkind
        cases hkind
    exact head?_of_quoted_none hnone
  split at hscan
  · have hnumeric := isNumeric_numeric (c :: cs)
    rw [hscan] at hnumeric
    cases hnumeric
  split at hscan
  · cases hscan
  split at hscan
  · have hnamed := isIdentLike_named (c :: cs)
    rw [hscan] at hnamed
    cases hnamed
  · exact absurd (congrArg Prod.fst hscan) (marked_ne_badString c cs)

theorem head?_of_reads_backslash {text : List Char} (h : Reads text (.delim '\\') rest) :
    rest.head?.any isBlank = true := by
  obtain ⟨d, ds, rfl, hline⟩ := newline_of_reads_backslash h
  obtain rfl := Kind.rest_of_reads_delim h
  simpa using isBlank_of_isNewline hline

theorem split_of_append_eof (h : allKinds cs ++ [.eof] = before ++ k :: after) (hk : k ≠ .eof) :
    ∃ later, after = later ++ [.eof] ∧ allKinds cs = before ++ k :: later := by
  cases after using List.reverseRecOn with
  | nil =>
    obtain ⟨-, heof⟩ := List.append_inj' h rfl
    exact absurd (List.cons.inj heof).1.symm hk
  | append_singleton later last =>
    rw [← List.cons_append, ← List.append_assoc] at h
    obtain ⟨hkinds, heof⟩ := List.append_inj' h rfl
    exact ⟨later, by rw [heof], hkinds⟩

/-- The kinds behind a token, the end included, begin with a blank if a blank stands there. -/
theorem head?_after {text : String} (h : allKinds text.toList ++ [.eof] = before ++ k :: after)
    (hk : k ≠ .eof) : ∃ rest, (∃ front, Reads front k rest) ∧
      (after.head? = some .blank ↔ rest.head?.any isBlank = true) := by
  obtain ⟨later, rfl, hkinds⟩ := split_of_append_eof h hk
  obtain ⟨front, rest, hread, rfl⟩ := reads_of_split hkinds
  refine ⟨rest, ⟨front, hread⟩, ?_⟩
  rw [← head?_allKinds_blank_iff]
  cases allKinds rest with
  | nil => simp
  | cons b ks => simp

end Lexer
open Lexer

/-- The tokens of every text are well formed: each is of a kind that text can be read as, with a
numeral that has a value; no two blanks stand together; and a blank follows a string that a line
end breaks off and a backslash that escapes nothing. -/
theorem tokenize_wellFormed (text : String) :
    (∀ t ∈ tokenize text, t.kind = .eof ∨
      t.kind.Lexical ∧ ∀ numeral ∈ t.kind.numeral?, Numeral.Exact numeral) ∧
    (∀ before t u after, tokenize text = before ++ t :: u :: after →
      ¬(t.kind = .blank ∧ u.kind = .blank)) ∧
    ∀ before t after, tokenize text = before ++ t :: after →
      t.kind = .badString ∨ t.kind = .delim '\\' →
        ∃ u rest, after = u :: rest ∧ u.kind = .blank := by
  have kinds {before after : List Token} {t : Token}
      (h : tokenize text = before ++ t :: after) :
      allKinds text.toList ++ [.eof] =
        before.map Token.kind ++ t.kind :: after.map Token.kind := by
    rw [← map_kind_tokenize, h, List.map_append, List.map_cons]
  refine ⟨fun t ht => ?_, fun before t u after h => ?_, fun before t after h hbroken => ?_⟩
  · rcases List.mem_append.mp ht with ht | ht
    · have hlexical := lexical_of_mem_tokens ht
      exact .inr ⟨hlexical, fun numeral hn => hlexical.exact hn⟩
    · obtain rfl := List.mem_singleton.mp ht
      exact .inl rfl
  · rintro ⟨ht, hu⟩
    obtain ⟨rest, ⟨front, hread⟩, hiff⟩ := head?_after (kinds h) (by simp [ht])
    rw [ht] at hread
    have hblank := hiff.mp (by simp [hu])
    rw [head?_of_reads_blank hread] at hblank
    cases hblank
  · obtain ⟨rest, ⟨front, hread⟩, hiff⟩ := head?_after (kinds h) (by
      rcases hbroken with hk | hk <;> simp [hk])
    have hblank : rest.head?.any isBlank = true := by
      rcases hbroken with hk | hk
      · exact head?_of_reads_badString (hk ▸ hread)
      · exact head?_of_reads_backslash (hk ▸ hread)
    have hhead := hiff.mpr hblank
    cases after with
    | nil => cases hhead
    | cons u after => exact ⟨u, after, rfl, Option.some.inj hhead⟩

end Styling
