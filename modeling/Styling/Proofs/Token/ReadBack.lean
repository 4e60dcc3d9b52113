import Styling.Proofs.Token.Lexical

/-! # Tokens are read back

A token that is written is read back as itself if the text after it does not run into it, with
few exceptions: a name that is a lone hyphen, a value or a unit that a digit would lead, a lone
backslash, and U+0000.
-/
namespace Styling
open Lexer

def Reads (text : List Char) (k : Kind) (rest : List Char) : Prop :=
  ∃ c cs, text = c :: cs ∧ scan c cs = (k, rest)

theorem lexemes_of_reads {front rest : List Char} {k : Kind} (h : Reads (front ++ rest) k rest) :
    lexemes (front ++ rest) = ⟨k, front⟩ :: lexemes rest := by
  obtain ⟨c, cs, htext, hscan⟩ := h
  have hsplit := take_append_scan c cs
  rw [hscan, ← htext] at hsplit
  rw [htext, lexemes, hscan, ← htext, List.append_cancel_right hsplit]

/-- Every lexeme of a text is read from its own characters and what stands behind them. -/
theorem reads_of_mem_lexemes {cs : List Char} {l : Lexeme} (h : l ∈ lexemes cs) :
    ∃ rest, Reads (l.text ++ rest) l.kind rest := by
  fun_induction lexemes cs with
  | case1 => cases h
  | case2 c cs next ih =>
    rcases List.mem_cons.mp h with rfl | h
    · exact ⟨next.2, c, cs, take_append_scan c cs, rfl⟩
    · exact ih h

/-- A token without a lone hyphen for a name, a lone backslash or U+0000. -/
def Kind.Legible : Kind → Prop
  | ident name | function name | atKeyword name => name ≠ "-" ∧ '\x00' ∉ name.toList
  | hash value _ => '\x00' ∉ value.toList
  | string value | url value => '\x00' ∉ value.toList
  | dimension _ unit => '\x00' ∉ unit.toList
  | delim c => c ≠ '\\'
  | badString | comment _ | eof => False
  | number _ | percentage _ | attrMatch _ | blank | cdo | cdc | colon | semicolon | comma
  | opening _ | closing _ => True

/-- What holds of a written token alone, so that it can be read back. -/
def Kind.Readable (k : Kind) : Prop :=
  k.Legible ∧
    match k with
    | hash value kind => kind = .id → opensPlain value.toList = true
    | dimension _ unit => opensPlain unit.toList = true
    | _ => True

/-- The text `w` does not run into a token written before it. -/
def Kind.Clear (k : Kind) (w : List Char) : Prop :=
  match k with
  | ident name => NameEnds w ∧ w.head? ≠ some '(' ∧ (name = "--" → w.head? ≠ some '>')
  | atKeyword _ | hash _ _ | dimension _ _ => NameEnds w
  | number _ => startsMagnitude w = false ∧ startsName w = false ∧ w.head? ≠ some '%'
  | delim c => startsNumber (c :: w) = false ∧ startsName (c :: w) = false ∧
    marked c w = (.delim c, w)
  | blank => ∀ c ∈ w.head?, Styling.isBlank c = false
  | _ => True

section Scan
variable {c : Char} {cs w : List Char}

theorem eq_of_startsEscape (h : startsEscape (c :: cs) = true) : c = '\\' := by
  unfold startsEscape at h
  split at h
  next heq => exact (List.cons.inj heq).1
  next heq => exact (List.cons.inj heq).1
  · cases h

theorem isNameStart_apart (h : isNameStart c = true) :
    isBlank c = false ∧ isQuote c = false ∧ c.isDigit = false := by
  have hblank : isBlank c = true → isNameStart c = false := by
    simp only [isBlank, isNewline, Bool.or_eq_true, beq_iff_eq]
    rintro (((((rfl | rfl) | rfl)) | rfl) | rfl) <;> decide
  have hquote : isQuote c = true → isNameStart c = false := by
    simp only [isQuote, Bool.or_eq_true, beq_iff_eq]
    rintro (rfl | rfl) <;> decide
  have hdigit : c.isDigit = true → isNameStart c = false := fun hd =>
    ascii_cases (p := fun c => c.isDigit = true → isNameStart c = false) (by decide)
      (toNat_lt_of_isDigit hd) hd
  rw [h] at hblank hquote hdigit
  simpa using And.intro hblank (And.intro hquote hdigit)

theorem apart_of_begins (h : begins (c :: cs) = true) :
    isBlank c = false ∧ isQuote c = false ∧ c.isDigit = false ∧
      (c == '+' || c == '-') = false ∧ c ≠ '.' := by
  rw [begins, Bool.or_eq_true] at h
  rcases h with h | h
  · have hstart : isNameStart c = true := by simpa using h
    obtain ⟨hblank, hquote, hdigit⟩ := isNameStart_apart hstart
    refine ⟨hblank, hquote, hdigit, ?_, ?_⟩
    · rw [Bool.or_eq_false_iff, beq_eq_false_iff_ne, beq_eq_false_iff_ne]
      constructor <;> rintro rfl <;> exact absurd hstart (by decide)
    · rintro rfl
      exact absurd hstart (by decide)
  · obtain rfl := eq_of_startsEscape h
    decide

/-- What a name begins with begins nothing that is read before names. -/
theorem apart_of_startsName (h : startsName (c :: cs) = true) :
    isBlank c = false ∧ isQuote c = false ∧ startsNumber (c :: cs) = false := by
  by_cases hm : c = '-'
  · subst hm
    refine ⟨by decide, by decide, ?_⟩
    rw [startsName_hyphen, Bool.or_eq_true] at h
    rw [startsNumber_sign (by decide)]
    cases cs with
    | nil => rfl
    | cons d ds =>
      rcases h with h | h
      · obtain rfl : d = '-' := by simpa using h
        rfl
      · obtain ⟨-, -, hdigit, -, hpoint⟩ := apart_of_begins h
        exact (startsMagnitude_cons hpoint ds).trans hdigit
  · rw [startsName_eq_begins (by simpa using hm)] at h
    obtain ⟨hblank, hquote, hdigit, hsign, hpoint⟩ := apart_of_begins h
    refine ⟨hblank, hquote, ?_⟩
    rw [startsNumber_of_not_sign]
    · exact (startsMagnitude_cons hpoint cs).trans hdigit
    · rintro d ⟨⟩
      exact hsign

theorem scan_of_startsName (h : startsName (c :: cs) = true)
    (hcdc : ¬ (c = '-' ∧ ['-', '>'] <+: cs)) : scan c cs = named (c :: cs) := by
  obtain ⟨hb, hq, hn⟩ := apart_of_startsName h
  have hcdc' : (c == '-' && ['-', '>'].isPrefixOf cs) = false := by
    rw [← Bool.not_eq_true]
    simpa using hcdc
  simp [scan, hb, hq, hn, hcdc', h]

theorem scan_of_startsNumber (hblank : isBlank c = false) (hquote : isQuote c = false)
    (h : startsNumber (c :: cs) = true) : scan c cs = numeric (c :: cs) := by
  simp [scan, hblank, hquote, h]

theorem scan_of_mark (hblank : isBlank c = false) (hquote : isQuote c = false)
    (hnum : startsNumber (c :: cs) = false) (hname : startsName (c :: cs) = false) :
    scan c cs = marked c cs := by
  have hcdc : (c == '-' && ['-', '>'].isPrefixOf cs) = false := by
    rw [← Bool.not_eq_true]
    intro h
    rw [Bool.and_eq_true, beq_iff_eq, List.isPrefixOf_iff_prefix] at h
    obtain ⟨rfl, rest, rfl⟩ := h
    rw [startsName_hyphen] at hname
    simp at hname
  simp [scan, hblank, hquote, hnum, hcdc, hname]

end Scan

section Names
variable {v w : List Char}

theorem ne_nil_of_startsName {cs : List Char} (h : startsName cs = true) :
    ∃ c rest, cs = c :: rest := by
  cases cs with
  | nil => cases h
  | cons c rest => exact ⟨c, rest, rfl⟩

theorem head?_nameText_ne {c : Char} (hc : isNameChar c = false) (hb : c ≠ '\\') (hne : v ≠ []) :
    (nameText v ++ w).head? ≠ some c := by
  cases v with
  | nil => exact absurd rfl hne
  | cons d v =>
    rw [nameText, List.flatMap_cons, List.append_assoc]
    rcases nameCharText_cases d with ⟨hd, ht⟩ | ⟨-, ht⟩ | ⟨-, -, -, -, ht⟩
    · rw [ht]
      rintro ⟨⟩
      exact absurd hd (by simp [hc])
    · simpa [ht, hexEscape] using Ne.symm hb
    · simpa [ht] using Ne.symm hb

/-- Only a name of two hyphens runs into `>`. -/
theorem not_cdc_identifierText (hne : v ≠ []) (hv : v ≠ ['-'])
    (hw : v = ['-', '-'] → w.head? ≠ some '>') : ¬ ['-', '-', '>'] <+: identifierText v ++ w := by
  rintro ⟨rest, heq⟩
  cases v with
  | nil => exact absurd rfl hne
  | cons c v =>
    by_cases hc : c = '-'
    · subst hc
      have heq : '-' :: '>' :: rest = leadingDigitText v ++ w := (List.cons.inj heq).2
      cases v with
      | nil => exact absurd rfl hv
      | cons d v =>
        by_cases hd : d = '-'
        · subst hd
          have hmore : nameText v ++ w = '>' :: rest := by
            simpa [leadingDigitText, nameCharText_hyphen] using heq.symm
          cases v with
          | nil => exact hw rfl (by rw [show w = '>' :: rest from hmore]; rfl)
          | cons e v =>
            exact head?_nameText_ne (c := '>') (by decide) (by decide) (List.cons_ne_nil e v)
              (by rw [hmore]; rfl)
        · have hbegins := begins_leadingDigitText hd v w
          rw [← heq] at hbegins
          exact head?_ne_hyphen_of_begins hbegins rfl
    · have hbegins := begins_leadingDigitText hc v w
      rw [← identifierText_of_ne (by simpa using hc), ← heq] at hbegins
      exact head?_ne_hyphen_of_begins hbegins rfl

theorem reads_named (hne : v ≠ []) (hv : v ≠ ['-']) (hw : v = ['-', '-'] → w.head? ≠ some '>') :
    ∃ c cs, identifierText v ++ w = c :: cs ∧ scan c cs = named (identifierText v ++ w) := by
  have hstart := startsName_identifierText hne hv w
  obtain ⟨c, cs, heq⟩ := ne_nil_of_startsName hstart
  refine ⟨c, cs, heq, ?_⟩
  rw [heq] at hstart ⊢
  refine scan_of_startsName hstart ?_
  rintro ⟨rfl, rest, rfl⟩
  refine not_cdc_identifierText hne hv hw ⟨rest, ?_⟩
  rw [heq]
  rfl

theorem reads_ident (hne : v ≠ []) (hv : v ≠ ['-']) (hw : NameEnds w) (hopen : w.head? ≠ some '(')
    (hcdc : v = ['-', '-'] → w.head? ≠ some '>') :
    Reads (identifierText v ++ w) (.ident (String.ofList (v.map legible))) w := by
  obtain ⟨c, cs, heq, hscan⟩ := reads_named hne hv hcdc
  refine ⟨c, cs, heq, ?_⟩
  rw [hscan, named, name_identifierText, name_of_nameEnds hw, List.append_nil]
  split
  next heq => simp [show w = _ from heq] at hopen
  · rfl

theorem reads_function (hne : v ≠ []) (hv : v ≠ ['-'])
    (hurl : sameWord (v.map legible) ['u', 'r', 'l'] = false) :
    Reads (identifierText v ++ '(' :: w) (.function (String.ofList (v.map legible))) w := by
  have hends : NameEnds ('(' :: w) := by
    intro c hc
    obtain rfl := Option.some.inj hc
    decide
  obtain ⟨c, cs, heq, hscan⟩ := reads_named (w := '(' :: w) hne hv (by simp)
  refine ⟨c, cs, heq, ?_⟩
  rw [hscan, named, name_identifierText, name_of_nameEnds hends, List.append_nil]
  simp [hurl]

theorem reads_url : Reads (['u', 'r', 'l', '('] ++ stringText v ++ ')' :: w)
    (.url (String.ofList (v.map legible))) w := by
  have hends : NameEnds ('(' :: (stringText v ++ ')' :: w)) := by
    intro c hc
    obtain rfl := Option.some.inj hc
    decide
  have hname : name ('u' :: 'r' :: 'l' :: '(' :: (stringText v ++ ')' :: w)) =
      (['u', 'r', 'l'], '(' :: (stringText v ++ ')' :: w)) := by
    rw [name_cons (by decide), name_cons (by decide), name_cons (by decide),
      name_of_nameEnds hends]
  refine ⟨'u', 'r' :: 'l' :: '(' :: (stringText v ++ ')' :: w), by simp, ?_⟩
  rw [scan_of_startsName (by simp [startsName, isNameStart]) (by simp), named, hname]
  simp [sameWord, url_stringText]

theorem reads_atKeyword (hne : v ≠ []) (hv : v ≠ ['-']) (hw : NameEnds w) :
    Reads ('@' :: identifierText v ++ w) (.atKeyword (String.ofList (v.map legible))) w := by
  refine ⟨'@', identifierText v ++ w, rfl, ?_⟩
  have hmarked : scan '@' (identifierText v ++ w) = _ :=
    scan_of_mark (by decide) (by decide) rfl rfl
  rw [hmarked, marked]
  simp [startsName_identifierText hne hv, name_identifierText, name_of_nameEnds hw]

theorem continues_nameText (hne : v ≠ []) :
    ((nameText v ++ w).head?.any isNameChar || startsEscape (nameText v ++ w)) = true := by
  cases v with
  | nil => exact absurd rfl hne
  | cons c v =>
    rw [nameText, List.flatMap_cons, List.append_assoc]
    rcases nameCharText_cases c with ⟨hc, ht⟩ | ⟨hc, ht⟩ | ⟨-, hline, -, -, ht⟩
    · simp [ht, hc]
    · rw [ht, startsEscape_hexEscape (toNat_lt_of_isControl hc), Bool.or_true]
    · simp [ht, startsEscape, hline]

/-- The kind of a hash that is read back depends on its value alone. -/
theorem reads_hash (hne : v ≠ []) (hw : NameEnds w) :
    Reads ('#' :: nameText v ++ w)
      (.hash (String.ofList (v.map legible)) (if opensPlain v then .id else .unrestricted)) w := by
  refine ⟨'#', nameText v ++ w, rfl, ?_⟩
  have hmarked : scan '#' (nameText v ++ w) = _ :=
    scan_of_mark (by decide) (by decide) rfl rfl
  rw [hmarked, marked]
  simp only [continues_nameText hne, if_true, startsName_nameText hne hw.not_continues, name_nameText,
    name_of_nameEnds hw, List.append_nil]

end Names

section Numbers
variable {n u w : List Char}

theorem startsMagnitude_of_startsName {cs : List Char} (h : startsName cs = true) :
    startsMagnitude cs = false := by
  obtain ⟨c, cs, rfl⟩ := ne_nil_of_startsName h
  by_cases hs : (c == '+' || c == '-') = true
  · rw [Bool.or_eq_true, beq_iff_eq, beq_iff_eq] at hs
    rcases hs with rfl | rfl <;> exact startsMagnitude_cons (by decide) cs
  · rw [← startsNumber_of_not_sign]
    · exact (apart_of_startsName h).2.2
    · intro d hd
      obtain rfl := Option.some.inj hd
      simpa using hs

theorem head?_of_not_startsMagnitude (hw : startsMagnitude w = false) :
    ∀ c ∈ w.head?, c.isDigit = false := by
  intro c hc
  cases w with
  | nil => cases hc
  | cons d w =>
    obtain rfl := Option.some.inj hc
    by_cases hd : d = '.'
    · subst hd
      decide
    · rwa [startsMagnitude_cons hd] at hw

theorem dropWhile_isDigit_append {ds : List Char} (hds : ∀ d ∈ ds, d.isDigit = true)
    (hw : ∀ c ∈ w.head?, c.isDigit = false) :
    (ds ++ w).takeWhile Char.isDigit = ds ∧ (ds ++ w).dropWhile Char.isDigit = w := by
  rw [List.takeWhile_append_of_pos hds, List.dropWhile_append_of_pos hds]
  cases w with
  | nil => simp
  | cons c w => simp [hw c rfl]

/-- A numeral is read back up to what could lengthen it. -/
theorem magnitude_append {whole fraction : List Char} (hwhole : ∀ d ∈ whole, d.isDigit = true)
    (hfraction : fraction = [] ∧ whole ≠ [] ∨
      ∃ d ds, fraction = '.' :: d :: ds ∧ ∀ e ∈ d :: ds, e.isDigit = true)
    (hw : startsMagnitude w = false) :
    magnitude (whole ++ fraction ++ w) = (whole ++ fraction, w) := by
  have hhead := head?_of_not_startsMagnitude hw
  unfold magnitude
  rcases hfraction with ⟨rfl, -⟩ | ⟨d, ds, rfl, hds⟩
  · obtain ⟨htake, hdrop⟩ := dropWhile_isDigit_append hwhole hhead
    rw [List.append_nil, htake, hdrop]
    split
    next d ds =>
      have hd : d.isDigit = false := hw
      simp [hd]
    · rfl
  · have hd := hds d List.mem_cons_self
    obtain ⟨htake, hdrop⟩ := dropWhile_isDigit_append (w := '.' :: d :: ds ++ w) hwhole (by
      rintro c ⟨⟩
      decide)
    obtain ⟨htake', hdrop'⟩ := dropWhile_isDigit_append hds hhead
    rw [List.append_assoc, htake, hdrop]
    simp only [List.cons_append] at htake' hdrop' ⊢
    simp only [hd, if_true, htake', hdrop']

theorem startsNumber_of_isNumeral (hn : IsNumeral n) (w : List Char) :
    startsNumber (n ++ w) = true := by
  obtain ⟨sign, whole, fraction, rfl, hsign, hwhole, hfraction⟩ := hn
  obtain ⟨c, cs, hbody, hc, hstart⟩ := magnitude_head hwhole hfraction
  rw [List.append_assoc sign, List.append_assoc sign, hbody]
  rcases hsign with rfl | rfl | rfl
  · rw [List.nil_append, startsNumber_of_not_sign]
    · exact hstart w
    · rintro d ⟨⟩
      exact (apart_of_digit_or_point hc).2.2.1
  · exact (startsNumber_sign (by decide) _).trans (hstart w)
  · exact (startsNumber_sign (by decide) _).trans (hstart w)

theorem head_of_isNumeral (hn : IsNumeral n) :
    ∃ c cs, n = c :: cs ∧ isBlank c = false ∧ isQuote c = false := by
  obtain ⟨sign, whole, fraction, rfl, hsign, hwhole, hfraction⟩ := hn
  obtain ⟨c, cs, hbody, hc, -⟩ := magnitude_head hwhole hfraction
  obtain ⟨hblank, hquote, -⟩ := apart_of_digit_or_point hc
  rw [List.append_assoc, hbody]
  rcases hsign with rfl | rfl | rfl
  · exact ⟨c, cs, rfl, hblank, hquote⟩
  · exact ⟨'+', c :: cs, rfl, by decide, by decide⟩
  · exact ⟨'-', c :: cs, rfl, by decide, by decide⟩

theorem numeral_append (hn : IsNumeral n) (hw : startsMagnitude w = false) :
    numeral (n ++ w) = (n, w) := by
  obtain ⟨sign, whole, fraction, rfl, hsign, hwhole, hfraction⟩ := hn
  have hmagnitude := magnitude_append hwhole hfraction hw
  have hsigned {c : Char} (hc : (c == '+' || c == '-') = true) :
      numeral ([c] ++ whole ++ fraction ++ w) = ([c] ++ whole ++ fraction, w) := by
    have hnumeral := numeral_sign hc (whole ++ fraction ++ w)
    rw [hmagnitude] at hnumeral
    simpa using hnumeral
  rcases hsign with rfl | rfl | rfl
  · rw [List.nil_append, numeral_of_not_sign, hmagnitude]
    obtain ⟨c, cs, hbody, hc, -⟩ := magnitude_head hwhole hfraction
    rw [hbody]
    rintro d ⟨⟩
    exact (apart_of_digit_or_point hc).2.2.1
  · exact hsigned (by decide)
  · exact hsigned (by decide)

/-- A numeral is read as such, and what follows it settles the kind of its token. -/
theorem scan_of_isNumeral (hn : IsNumeral n) (w : List Char) :
    ∃ c cs, n ++ w = c :: cs ∧ scan c cs = numeric (n ++ w) := by
  obtain ⟨c, cs, rfl, hblank, hquote⟩ := head_of_isNumeral hn
  exact ⟨c, cs ++ w, rfl, scan_of_startsNumber hblank hquote (startsNumber_of_isNumeral hn w)⟩

theorem reads_number (hn : IsNumeral n) (hw : startsMagnitude w = false)
    (hname : startsName w = false) (hpercent : w.head? ≠ some '%') :
    Reads (n ++ w) (.number (String.ofList n)) w := by
  obtain ⟨c, cs, heq, hscan⟩ := scan_of_isNumeral hn w
  refine ⟨c, cs, heq, ?_⟩
  rw [hscan, numeric, numeral_append hn hw]
  dsimp only
  split
  next heq => simp at hpercent
  · simp [hname]

theorem reads_percentage (hn : IsNumeral n) :
    Reads (n ++ '%' :: w) (.percentage (String.ofList n)) w := by
  obtain ⟨c, cs, heq, hscan⟩ := scan_of_isNumeral hn ('%' :: w)
  refine ⟨c, cs, heq, ?_⟩
  rw [hscan, numeric, numeral_append hn rfl]
  rfl

theorem reads_dimension (hn : IsNumeral n) (hne : u ≠ []) (hopens : opensPlain u = true)
    (hw : NameEnds w) : Reads (n ++ (nameText u ++ w))
      (.dimension (String.ofList n) (String.ofList (u.map legible))) w := by
  have hname := startsName_nameText hne hw.not_continues
  rw [hopens] at hname
  obtain ⟨c, cs, heq, hscan⟩ := scan_of_isNumeral hn (nameText u ++ w)
  refine ⟨c, cs, heq, ?_⟩
  rw [hscan, numeric, numeral_append hn (startsMagnitude_of_startsName hname)]
  dsimp only
  split
  next heq =>
    rw [show nameText u ++ w = _ from heq] at hname
    cases hname
  · simp [hname, name_nameText, name_of_nameEnds hw]

end Numbers

theorem reads_string (v w : List Char) :
    Reads (stringText v ++ w) (.string (String.ofList (v.map legible))) w := by
  refine ⟨'"', v.flatMap stringCharText ++ '"' :: w, by simp [stringText], ?_⟩
  simp [scan, show isBlank '"' = false by decide, isQuote, quoted_stringText]

theorem reads_delim {c : Char} {w : List Char} (hl : IsDelimiter c)
    (hc : (Kind.delim c).Clear w) : Reads (c :: w) (.delim c) w :=
  ⟨c, w, rfl, (scan_of_mark hl.blank hl.quote hc.1 hc.2.1).trans hc.2.2⟩

def isMark (c : Char) : Bool :=
  !isBlank c && !isQuote c && !c.isDigit && !isNameStart c &&
    !(['+', '-', '.', '\\'].contains c)

theorem not_starts_of_isMark {c : Char} (h : isMark c = true) (cs : List Char) :
    startsNumber (c :: cs) = false ∧ startsName (c :: cs) = false := by
  simp only [isMark, Bool.and_eq_true, Bool.not_eq_true', List.contains_eq_mem,
    List.mem_cons, List.not_mem_nil, or_false, decide_eq_false_iff_not, not_or] at h
  obtain ⟨⟨⟨⟨-, -⟩, hdigit⟩, hstart⟩, hplus, hminus, hpoint, hback⟩ := h
  have hesc : startsEscape (c :: cs) = false := by
    cases he : startsEscape (c :: cs) with
    | false => rfl
    | true => exact absurd (eq_of_startsEscape he) hback
  constructor
  · simp [startsNumber, hplus, hminus, hpoint, hdigit]
  · simp [startsName, hminus, hstart, hesc]

theorem reads_marked {c : Char} {cs : List Char} {k : Kind} {rest : List Char}
    (hc : isMark c = true) (h : marked c cs = (k, rest)) : Reads (c :: cs) k rest := by
  obtain ⟨hnumber, hname⟩ := not_starts_of_isMark hc cs
  simp only [isMark, Bool.and_eq_true, Bool.not_eq_true'] at hc
  exact ⟨c, cs, rfl, (scan_of_mark hc.1.1.1.1 hc.1.1.1.2 hnumber hname).trans h⟩

theorem ofList_map_legible {s : String} (h : '\x00' ∉ s.toList) :
    String.ofList (s.toList.map legible) = s := by
  rw [map_legible h, String.ofList_toList]

theorem toList_ne {s t : String} (h : s ≠ t) : s.toList ≠ t.toList := fun he =>
  h (String.toList_inj.mp he)

theorem reads_blank {c : Char} (hc : isBlank c = true) {blanks w : List Char}
    (hblanks : ∀ d ∈ blanks, isBlank d = true) (hw : ∀ d ∈ w.head?, isBlank d = false) :
    Reads (c :: (blanks ++ w)) .blank w := by
  refine ⟨c, blanks ++ w, rfl, ?_⟩
  have hdrop : (blanks ++ w).dropWhile isBlank = w := by
    rw [List.dropWhile_append_of_pos hblanks]
    cases w with
    | nil => rfl
    | cons d w => simp [hw d rfl]
  simp [scan, hc, hdrop]

theorem reads_cdc (w : List Char) : Reads ('-' :: '-' :: '>' :: w) .cdc w :=
  ⟨'-', '-' :: '>' :: w, rfl, rfl⟩

/-- A written token is read back as itself in a text that does not run into it. -/
theorem Kind.reads {k : Kind} {w : List Char} (hl : k.Lexical) (hr : k.Readable)
    (hc : k.Clear w) : Reads (k.chars ++ w) k w := by
  obtain ⟨hg, hplain⟩ := hr
  cases k with
  | ident name =>
    obtain ⟨hends, hopen, hcdc⟩ := hc
    have hread := reads_ident (toList_ne hl) (toList_ne hg.1) hends hopen
      fun h => hcdc (String.toList_inj.mp h)
    rwa [ofList_map_legible hg.2] at hread
  | function name =>
    have hurl := hl.2
    rw [← map_legible hg.2] at hurl
    have hread := reads_function (w := w) (toList_ne hl.1) (toList_ne hg.1) hurl
    rw [ofList_map_legible hg.2] at hread
    simpa [chars] using hread
  | atKeyword name =>
    have hread := reads_atKeyword (toList_ne hl) (toList_ne hg.1) hc
    rwa [ofList_map_legible hg.2] at hread
  | hash value kind =>
    have hread := reads_hash (toList_ne hl.1) hc
    rw [ofList_map_legible hg] at hread
    have hkind : (if opensPlain value.toList then HashKind.id else .unrestricted) = kind := by
      cases kind with
      | id => rw [if_pos (hplain rfl)]
      | unrestricted => rw [hl.2 rfl]; rfl
    rwa [hkind] at hread
  | string value =>
    have hread := reads_string value.toList w
    rwa [ofList_map_legible hg] at hread
  | badString => exact hg.elim
  | url value =>
    have hread := reads_url (v := value.toList) (w := w)
    rw [ofList_map_legible hg] at hread
    simpa [chars] using hread
  | delim c => exact reads_delim hl hc
  | number numeral =>
    have hread := reads_number hl hc.1 hc.2.1 hc.2.2
    rwa [String.ofList_toList] at hread
  | percentage numeral =>
    have hread := reads_percentage (w := w) hl
    rw [String.ofList_toList] at hread
    simpa [chars] using hread
  | dimension numeral unit =>
    have hread := reads_dimension hl.1 (toList_ne hl.2) hplain hc
    rw [String.ofList_toList, ofList_map_legible hg] at hread
    simpa [chars] using hread
  | attrMatch op =>
    cases op
    · exact reads_marked (show isMark '~' = true by decide) rfl
    · exact reads_marked (show isMark '|' = true by decide) rfl
    · exact reads_marked (show isMark '^' = true by decide) rfl
    · exact reads_marked (show isMark '$' = true by decide) rfl
    · exact reads_marked (show isMark '*' = true by decide) rfl
  | comment text => exact hg.elim
  | blank => exact reads_blank (show Styling.isBlank ' ' = true by decide) (show ∀ d ∈ [], _ by simp) hc
  | cdo => exact reads_marked (show isMark '<' = true by decide) rfl
  | cdc => exact reads_cdc w
  | colon => exact reads_marked (by decide) rfl
  | semicolon => exact reads_marked (by decide) rfl
  | comma => exact reads_marked (by decide) rfl
  | opening b => cases b <;> exact reads_marked (by decide) rfl
  | closing b => cases b <;> exact reads_marked (by decide) rfl
  | eof => exact hg.elim

end Styling
