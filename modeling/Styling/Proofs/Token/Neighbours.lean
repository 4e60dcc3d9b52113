import Mathlib.Data.List.Chain
import Styling.Proofs.Token.ReadBack

/-! # Neighbouring tokens

Between two tokens that are written one after the other there is a comment wherever the second
would run into the first, but for six pairs that are missed. Without these, a sequence of tokens
is read back as it was.
-/
namespace Styling
open Lexer
namespace Kind

/-- The pairs that run together and are written without a separator. -/
def clashes (k next : Kind) : Bool :=
  match k, next with
  | ident name, delim c => name == "--" && c == '>'
  | delim c, cdc => c == '-' || c == '#' || c == '@'
  | number _, cdc => true
  | delim c, attrMatch op => c == '/' && op == .substring
  | _, _ => false

/-- The first character of a token that is neither like an identifier nor numeric. -/
def mark : Kind → Char
  | atKeyword _ => '@'
  | hash _ _ => '#'
  | delim c => c
  | attrMatch .word => '~'
  | attrMatch .dash => '|'
  | attrMatch .beginning => '^'
  | attrMatch .ending => '$'
  | attrMatch .substring => '*'
  | comment _ => '/'
  | blank => ' '
  | cdo => '<'
  | cdc => '-'
  | colon => ':'
  | semicolon => ';'
  | comma => ','
  | opening .round => '('
  | opening .square => '['
  | opening .curly => '\x7b'
  | closing .round => ')'
  | closing .square => ']'
  | closing .curly => '\x7d'
  | ident _ | function _ | string _ | badString | url _ | number _ | percentage _
  | dimension _ _ | eof => '"'

variable {k next : Kind} {w : List Char}

theorem chars_eq_mark (hident : next.isIdentLike = false) (hnumeric : next.isNumeric = false)
    (hl : next.Lexical) : ∃ rest, next.chars = next.mark :: rest := by
  cases next with
  | ident _ | function _ | url _ => cases hident
  | number _ | percentage _ | dimension _ _ => cases hnumeric
  | eof => exact hl.elim
  | attrMatch op => cases op <;> exact ⟨_, rfl⟩
  | opening b | closing b => cases b <;> exact ⟨_, rfl⟩
  | _ => exact ⟨_, rfl⟩

theorem startsName_of_isIdentLike (h : next.isIdentLike = true) (hl : next.Lexical)
    (hg : next.Legible) : startsName (next.chars ++ w) = true := by
  cases next with
  | ident name => exact startsName_identifierText (toList_ne hl) (toList_ne hg.1) w
  | function name =>
    rw [chars, List.append_assoc]
    exact startsName_identifierText (toList_ne hl.1) (toList_ne hg.1) _
  | url value => rfl
  | _ => cases h

theorem startsNumber_of_isNumeric (h : next.isNumeric = true) (hl : next.Lexical) (w : List Char) :
    startsNumber (next.chars ++ w) = true := by
  cases next with
  | number numeral => exact startsNumber_of_isNumeral hl w
  | percentage numeral =>
    rw [chars, List.append_assoc]
    exact startsNumber_of_isNumeral hl _
  | dimension numeral unit =>
    rw [chars, List.append_assoc]
    exact startsNumber_of_isNumeral hl.1 _
  | _ => cases h

/-- A mark, a quote or a blank; what begins with it depends on it alone, but for delimiters. -/
theorem mark_cases (hident : next.isIdentLike = false) (hnumeric : next.isNumeric = false)
    (hdelim : ∀ c, next ≠ delim c) (hcdc : next ≠ cdc) (hl : next.Lexical) :
    isMark next.mark = true ∨ next.mark = '"' ∨ next = blank := by
  cases next with
  | ident _ | function _ | url _ => cases hident
  | number _ | percentage _ | dimension _ _ => cases hnumeric
  | delim c => exact absurd rfl (hdelim c)
  | cdc => exact absurd rfl hcdc
  | eof => exact hl.elim
  | string _ | badString => exact .inr (.inl rfl)
  | blank => exact .inr (.inr rfl)
  | attrMatch op => cases op <;> exact .inl (by decide)
  | opening b | closing b => cases b <;> exact .inl (by decide)
  | atKeyword _ => exact .inl (show isMark '@' = true by decide)
  | hash _ _ => exact .inl (show isMark '#' = true by decide)
  | comment _ => exact .inl (show isMark '/' = true by decide)
  | _ => exact .inl (by decide)

theorem mark_not_nameChar (hident : next.isIdentLike = false) (hnumeric : next.isNumeric = false)
    (hminus : next ≠ delim '-') (hcdc : next ≠ cdc) (hl : next.Lexical) (hg : next.Legible) :
    isNameChar next.mark = false ∧ next.mark ≠ '\\' := by
  by_cases hdelim : ∃ c, next = delim c
  · obtain ⟨c, rfl⟩ := hdelim
    have hc : c ≠ '-' := fun h => hminus (h ▸ rfl)
    exact ⟨by simp [mark, isNameChar, hl.nameStart, hl.digit, hc], hg⟩
  · rcases mark_cases hident hnumeric (fun c h => hdelim ⟨c, h⟩) hcdc hl with h | h | rfl
    · simp only [isMark, Bool.and_eq_true, Bool.not_eq_true', List.contains_eq_mem,
        List.mem_cons, List.not_mem_nil, or_false, decide_eq_false_iff_not, not_or] at h
      exact ⟨by simp [isNameChar, h.1.1.2, h.1.2, h.2.2.1], h.2.2.2.2⟩
    · rw [h]
      decide
    · decide

/-- A token that neither a name nor a number begins ends every name before it. -/
theorem nameEnds_chars (hident : next.isIdentLike = false) (hnumeric : next.isNumeric = false)
    (hminus : next ≠ delim '-') (hcdc : next ≠ cdc) (hl : next.Lexical) (hg : next.Legible) :
    NameEnds (next.chars ++ w) := by
  obtain ⟨rest, heq⟩ := chars_eq_mark hident hnumeric hl
  rw [heq]
  rintro c ⟨⟩
  exact mark_not_nameChar hident hnumeric hminus hcdc hl hg

theorem not_starts_chars (hident : next.isIdentLike = false) (hnumeric : next.isNumeric = false)
    (hcdc : next ≠ cdc) (hl : next.Lexical) (hc : next.Clear w) :
    startsNumber (next.chars ++ w) = false ∧ startsName (next.chars ++ w) = false := by
  by_cases hdelim : ∃ c, next = delim c
  · obtain ⟨c, rfl⟩ := hdelim
    exact ⟨hc.1, hc.2.1⟩
  · obtain ⟨rest, heq⟩ := chars_eq_mark hident hnumeric hl
    rw [heq, List.cons_append]
    rcases mark_cases hident hnumeric (fun c h => hdelim ⟨c, h⟩) hcdc hl with h | h | rfl
    · exact not_starts_of_isMark h _
    · rw [h]
      exact ⟨rfl, rfl⟩
    · exact ⟨rfl, rfl⟩

theorem startsMagnitude_of_not_startsNumber {cs : List Char} (h : startsNumber cs = false) :
    startsMagnitude cs = false := by
  cases cs with
  | nil => rfl
  | cons c cs =>
    by_cases hs : (c == '+' || c == '-') = true
    · rw [Bool.or_eq_true, beq_iff_eq, beq_iff_eq] at hs
      rcases hs with rfl | rfl <;> rfl
    · rwa [← startsNumber_of_not_sign]
      rintro d ⟨⟩
      simpa using hs

theorem startsMagnitude_chars (hnumeric : next.isNumeric = false) (hl : next.Lexical)
    (hg : next.Legible) (hc : next.Clear w) : startsMagnitude (next.chars ++ w) = false := by
  cases hident : next.isIdentLike with
  | true => exact startsMagnitude_of_startsName (startsName_of_isIdentLike hident hl hg)
  | false =>
    by_cases hcdc : next = cdc
    · subst hcdc
      rfl
    · exact startsMagnitude_of_not_startsNumber
        (not_starts_chars hident hnumeric hcdc hl hc).1

/-- A mark begins only the tokens that have it as their first character. -/
theorem head?_chars_ne {c : Char} (hc : isMark c = true) (hl : next.Lexical) (hg : next.Legible)
    (hmark : next.mark ≠ c) : (next.chars ++ w).head? ≠ some c := by
  intro hhead
  obtain ⟨rest, heq⟩ : ∃ rest, next.chars ++ w = c :: rest := by
    cases ht : next.chars ++ w with
    | nil => simp [ht] at hhead
    | cons d rest =>
      rw [ht] at hhead
      cases hhead
      exact ⟨rest, rfl⟩
  obtain ⟨hnumber, hname⟩ := not_starts_of_isMark hc rest
  cases hident : next.isIdentLike with
  | true =>
    have h := startsName_of_isIdentLike (w := w) hident hl hg
    rw [heq, hname] at h
    cases h
  | false =>
    cases hnumeric : next.isNumeric with
    | true =>
      have h := startsNumber_of_isNumeric hnumeric hl w
      rw [heq, hnumber] at h
      cases h
    | false =>
      obtain ⟨rest', heq'⟩ := chars_eq_mark hident hnumeric hl
      rw [heq'] at heq
      exact hmark (List.cons.inj heq).1

theorem eq_delim_of_mark {c : Char} (hc : c ∈ ['!', '=', '>', '%']) (h : next.mark = c) :
    next = delim c := by
  subst h
  cases next with
  | delim c => rfl
  | attrMatch op => cases op <;> exact absurd hc (by decide)
  | opening b | closing b => cases b <;> exact absurd hc (by decide)
  | _ => exact absurd hc (by simp [mark])

theorem eq_of_mark_star (h : next.mark = '*') : next = delim '*' ∨ next = attrMatch .substring := by
  cases next with
  | delim c => exact .inl (congrArg delim h)
  | attrMatch op =>
    cases op with
    | substring => exact .inr rfl
    | _ => exact absurd h (by decide)
  | opening b | closing b => cases b <;> exact absurd h (by decide)
  | _ => exact absurd h (by simp [mark])

theorem eq_of_mark_paren (hl : next.Lexical) (h : next.mark = '(') : next = opening .round := by
  cases next with
  | delim c => exact absurd (show c = '(' from h) fun hc => hl.mark (by simp [hc])
  | attrMatch op => cases op <;> exact absurd h (by decide)
  | opening b =>
    cases b with
    | round => rfl
    | _ => exact absurd h (by decide)
  | closing b => cases b <;> exact absurd h (by decide)
  | _ => exact absurd h (by simp [mark])

theorem clear_delim {c : Char} {t : List Char} (hl : IsDelimiter c) (hback : c ≠ '\\')
    (hdigits : c = '+' ∨ c = '-' ∨ c = '.' → startsMagnitude t = false)
    (hends : c = '-' ∨ c = '#' → NameEnds t) (hname : c = '@' → startsName t = false)
    (hstar : c = '/' → t.head? ≠ some '*') (hbang : c = '<' → t.head? ≠ some '!')
    (hequal : c ∈ ['~', '|', '^', '$', '*'] → t.head? ≠ some '=') : (delim c).Clear t := by
  refine ⟨?_, ?_, ?_⟩
  · by_cases hs : (c == '+' || c == '-') = true
    · rw [startsNumber_sign hs]
      rw [Bool.or_eq_true, beq_iff_eq, beq_iff_eq] at hs
      exact hdigits (hs.imp_right .inl)
    · by_cases hp : c = '.'
      · subst hp
        have hhead := head?_of_not_startsMagnitude (hdigits (.inr (.inr rfl)))
        cases t with
        | nil => rfl
        | cons d t => exact hhead d rfl
      · simp [startsNumber, hs, hp, hl.digit]
  · by_cases hm : c = '-'
    · subst hm
      obtain ⟨hbegins, hhead⟩ := not_begins_of_not_continues (hends (.inl rfl)).not_continues
      rw [startsName_hyphen, hbegins, Bool.or_false]
      exact any_hyphen_eq_false hhead
    · have hesc : startsEscape (c :: t) = false := by
        cases he : startsEscape (c :: t) with
        | false => rfl
        | true => exact absurd (eq_of_startsEscape he) hback
      simp [startsName, hm, hl.nameStart, hesc]
  · have hmark := hl.mark
    unfold marked
    split <;> try first
      | exact absurd rfl (hstar rfl)
      | exact absurd rfl (hbang rfl)
      | exact absurd rfl (hequal (by decide))
      | exact absurd (by decide) hmark
      | rfl
    · rw [if_neg (by simp [(hends (.inr rfl)).not_continues])]
    · rw [if_neg (by simp [hname rfl])]

/-- Nothing runs into a text that no name, number or blank goes on with, and no mark. -/
theorem clear_of_ends {t : List Char} (hl : k.Lexical) (hg : k.Legible) (hends : NameEnds t)
    (hmagnitude : startsMagnitude t = false)
    (hhead : ∀ c ∈ t.head?, Styling.isBlank c = false ∧ c ∉ ['(', '>', '%', '*', '!', '=']) :
    k.Clear t := by
  have hname : startsName t = false := by
    cases h : startsName t with
    | false => rfl
    | true =>
      have hcontinues := continues_of_startsName h
      rw [hends.not_continues] at hcontinues
      cases hcontinues
  have hne {c : Char} (hc : c ∈ ['(', '>', '%', '*', '!', '=']) : t.head? ≠ some c :=
    fun h => (hhead c h).2 hc
  cases k with
  | ident name => exact ⟨hends, hne (by decide), fun _ => hne (by decide)⟩
  | atKeyword _ | hash _ _ | dimension _ _ => exact hends
  | number numeral => exact ⟨hmagnitude, hname, hne (by decide)⟩
  | delim c =>
    exact clear_delim hl hg (fun _ => hmagnitude) (fun _ => hends) (fun _ => hname)
      (fun _ => hne (by decide)) (fun _ => hne (by decide)) fun _ => hne (by decide)
  | blank => exact fun c hc => (hhead c hc).1
  | _ => trivial

/-- A comment runs into nothing. -/
theorem clear_slash (hl : k.Lexical) (hg : k.Legible) (t : List Char) : k.Clear ('/' :: t) := by
  refine clear_of_ends hl hg ?_ rfl ?_
  · rintro c ⟨⟩
    decide
  · rintro c ⟨⟩
    decide

theorem clear_nil (hl : k.Lexical) (hg : k.Legible) : k.Clear [] :=
  clear_of_ends hl hg (by simp [NameEnds]) rfl (by simp)

theorem not_isBlank_of_startsNumber {c : Char} {cs : List Char}
    (h : startsNumber (c :: cs) = true) : Styling.isBlank c = false := by
  rw [← Bool.not_eq_true]
  simp only [Styling.isBlank, isNewline, Bool.or_eq_true, beq_iff_eq]
  rintro ((((rfl | rfl) | rfl) | rfl) | rfl) <;> cases h

theorem not_isBlank_head?_chars (hblank : next ≠ blank) (hl : next.Lexical) (hg : next.Legible) :
    ∀ c ∈ (next.chars ++ w).head?, Styling.isBlank c = false := by
  cases hident : next.isIdentLike with
  | true =>
    have hname := startsName_of_isIdentLike (w := w) hident hl hg
    obtain ⟨c, cs, heq⟩ := ne_nil_of_startsName hname
    rw [heq] at hname ⊢
    rintro d ⟨⟩
    exact (apart_of_startsName hname).1
  | false =>
    cases hnumeric : next.isNumeric with
    | true =>
      have hnumber := startsNumber_of_isNumeric hnumeric hl w
      cases ht : next.chars ++ w with
      | nil => simp
      | cons c cs =>
        rw [ht] at hnumber
        rintro d ⟨⟩
        exact not_isBlank_of_startsNumber hnumber
    | false =>
      obtain ⟨rest, heq⟩ := chars_eq_mark hident hnumeric hl
      rw [heq]
      rintro c ⟨⟩
      by_cases hdelim : ∃ c, next = delim c
      · obtain ⟨c, rfl⟩ := hdelim
        exact hl.blank
      · by_cases hcdc : next = cdc
        · subst hcdc
          decide
        · rcases mark_cases hident hnumeric (fun c h => hdelim ⟨c, h⟩) hcdc hl with h | h | h
          · simp only [isMark, Bool.and_eq_true, Bool.not_eq_true'] at h
            exact h.1.1.1.1
          · rw [h]
            decide
          · exact absurd h hblank

theorem clear_delim_chars {c : Char} (hl : IsDelimiter c) (hg : c ≠ '\\') (hl' : next.Lexical)
    (hg' : next.Legible) (hc' : next.Clear w) (hclash : (delim c).clashes next = false)
    (hsep : (delim c).needsSeparator next = false) : (delim c).Clear (next.chars ++ w) := by
  have hcdc : c = '-' ∨ c = '#' ∨ c = '@' → next ≠ cdc := by
    rintro (rfl | rfl | rfl) rfl <;> cases hclash
  refine clear_delim hl hg ?_ ?_ ?_ ?_ ?_ ?_
  · intro h
    refine startsMagnitude_chars ?_ hl' hg' hc'
    rcases h with rfl | rfl | rfl
    · exact hsep
    · simp only [needsSeparator, Bool.or_eq_false_iff] at hsep
      exact hsep.1.2
    · exact hsep
  · intro h
    have hparts : next.isIdentLike = false ∧ next.isNumeric = false ∧ next ≠ delim '-' := by
      rcases h with rfl | rfl <;>
        simpa [needsSeparator, Bool.or_eq_false_iff, and_assoc] using hsep
    exact nameEnds_chars hparts.1 hparts.2.1 hparts.2.2 (hcdc (h.imp_right .inl)) hl' hg'
  · rintro rfl
    simp only [needsSeparator, Bool.or_eq_false_iff] at hsep
    cases hnumeric : next.isNumeric with
    | true =>
      have hnumber := startsNumber_of_isNumeric hnumeric hl' w
      cases hname : startsName (next.chars ++ w) with
      | false => rfl
      | true =>
        obtain ⟨d, ds, heq⟩ := ne_nil_of_startsName hname
        rw [heq] at hname hnumber
        rw [(apart_of_startsName hname).2.2] at hnumber
        cases hnumber
    | false => exact (not_starts_chars hsep.1 hnumeric (hcdc (.inr (.inr rfl))) hl' hc').2
  · rintro rfl
    refine head?_chars_ne (by decide) hl' hg' fun h => ?_
    rcases eq_of_mark_star h with rfl | rfl
    · cases hsep
    · cases hclash
  · rintro rfl
    refine head?_chars_ne (by decide) hl' hg' fun h => ?_
    rw [eq_delim_of_mark (by decide) h] at hsep
    cases hsep
  · intro hc
    refine head?_chars_ne (by decide) hl' hg' fun h => ?_
    rw [eq_delim_of_mark (by decide) h] at hsep
    simp only [List.mem_cons, List.not_mem_nil, or_false] at hc
    rcases hc with rfl | rfl | rfl | rfl | rfl <;> cases hsep

/-- A token that is written after another, with a separator where one is asked for, does not
run into it unless the two clash. -/
theorem clear_charsAfter (hl : k.Lexical) (hg : k.Legible) (hl' : next.Lexical)
    (hg' : next.Legible) (hc' : next.Clear w) (hclash : k.clashes next = false)
    (hblank : k = blank → next ≠ blank) : k.Clear (k.charsAfter next ++ w) := by
  unfold charsAfter
  cases hsep : k.needsSeparator next with
  | true => exact clear_slash hl hg _
  | false =>
    rw [if_neg (by simp), List.nil_append]
    cases k with
    | ident name =>
      simp only [needsSeparator, Bool.or_eq_false_iff, beq_eq_false_iff_ne] at hsep
      obtain ⟨⟨⟨⟨hident, hnumeric⟩, hminus⟩, hcdc⟩, hopen⟩ := hsep
      refine ⟨nameEnds_chars hident hnumeric hminus hcdc hl' hg', ?_, ?_⟩
      · exact head?_chars_ne (by decide) hl' hg' fun h => hopen (eq_of_mark_paren hl' h)
      · rintro rfl
        refine head?_chars_ne (by decide) hl' hg' fun h => ?_
        rw [eq_delim_of_mark (by decide) h] at hclash
        cases hclash
    | atKeyword _ | hash _ _ | dimension _ _ =>
      simp only [needsSeparator, Bool.or_eq_false_iff, beq_eq_false_iff_ne] at hsep
      obtain ⟨⟨⟨hident, hnumeric⟩, hminus⟩, hcdc⟩ := hsep
      exact nameEnds_chars hident hnumeric hminus hcdc hl' hg'
    | number numeral =>
      simp only [needsSeparator, Bool.or_eq_false_iff, beq_eq_false_iff_ne] at hsep
      obtain ⟨⟨hident, hnumeric⟩, hpercent⟩ := hsep
      have hcdc : next ≠ cdc := by
        rintro rfl
        cases hclash
      exact ⟨startsMagnitude_chars hnumeric hl' hg' hc',
        (not_starts_chars hident hnumeric hcdc hl' hc').2,
        head?_chars_ne (by decide) hl' hg' fun h => hpercent (eq_delim_of_mark (by decide) h)⟩
    | delim c => exact clear_delim_chars hl hg hl' hg' hc' hclash hsep
    | blank => exact not_isBlank_head?_chars (hblank rfl) hl' hg'
    | _ => trivial

def scanned (cs : List Char) : List Kind :=
  ((lexemes cs).map Lexeme.kind).filter (· ≠ comment "")

theorem scanned_nil : scanned [] = [] := by
  rw [scanned, lexemes]
  rfl

theorem scanned_of_reads {text rest : List Char} (h : Reads text k rest) :
    scanned text = if k = comment "" then scanned rest else k :: scanned rest := by
  obtain ⟨c, cs, rfl, hscan⟩ := h
  rw [scanned, lexemes, hscan]
  by_cases hk : k = comment "" <;> simp [hk, scanned]

theorem Legible.ne_comment (hg : k.Legible) (text : String) : k ≠ comment text := by
  rintro rfl
  exact hg

theorem scanned_chars (hl : k.Lexical) (hr : k.Readable) (hc : k.Clear w) :
    scanned (k.chars ++ w) = k :: scanned w := by
  rw [scanned_of_reads (reads hl hr hc), if_neg (hr.1.ne_comment _)]

theorem reads_separator (w : List Char) :
    Reads (['/', '*', '*', '/'] ++ w) (comment "") w := by
  refine ⟨'/', '*' :: '*' :: '/' :: w, rfl, ?_⟩
  rw [scan_of_mark (by decide) (by decide) rfl rfl, marked, Lexer.comment]

theorem scanned_charsAfter (k next : Kind) (w : List Char) :
    scanned (k.charsAfter next ++ w) = scanned (next.chars ++ w) := by
  unfold charsAfter
  split
  · rw [List.append_assoc, scanned_of_reads (reads_separator _), if_pos rfl]
  · rfl

/-- Two tokens that are neither read as something else nor as one. -/
def Apart (k next : Kind) : Prop := k.clashes next = false ∧ (k = blank → next ≠ blank)

theorem isChain_apart {ks : List Kind} (hclash : ks.IsChain fun k next => k.clashes next = false)
    (hblank : ks.IsChain fun k next => k = blank → next ≠ blank) : ks.IsChain Apart := by
  rw [List.isChain_iff_getElem] at hclash hblank ⊢
  intro i hi
  exact ⟨hclash i hi, hblank i hi⟩

/-- A sequence of tokens is read back as it was written. -/
theorem scanned_listChars {ks : List Kind} (hl : ∀ k ∈ ks, k.Lexical)
    (hr : ∀ k ∈ ks, k.Readable) (hapart : ks.IsChain Apart)
    (hlast : ∀ k ∈ ks.getLast?, k.Clear w) : scanned (listChars ks ++ w) = ks ++ scanned w := by
  cases ks with
  | nil => rfl
  | cons k ks =>
    have hboth : k.Clear (k.listCharsAfter ks ++ w) ∧
        scanned (k.listCharsAfter ks ++ w) = ks ++ scanned w := by
      induction ks generalizing k with
      | nil => exact ⟨hlast k rfl, rfl⟩
      | cons next ks ih =>
        rw [List.forall_mem_cons] at hl hr
        rw [List.isChain_cons_cons] at hapart
        obtain ⟨hclear, hread⟩ := ih next hl.2 hr.2 hapart.2 (by simpa using hlast)
        have hl' := hl.2 next List.mem_cons_self
        have hr' := hr.2 next List.mem_cons_self
        rw [listCharsAfter, List.append_assoc]
        refine ⟨clear_charsAfter hl.1 hr.1.1 hl' hr'.1 hclear hapart.1.1 hapart.1.2, ?_⟩
        rw [scanned_charsAfter, scanned_chars hl' hr' hclear, hread]
        rfl
    rw [listChars, List.append_assoc,
      scanned_chars (hl k List.mem_cons_self) (hr k List.mem_cons_self) hboth.1, hboth.2]
    rfl

end Kind
end Styling
