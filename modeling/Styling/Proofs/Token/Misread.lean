import Styling.Proofs.Token.Neighbours

/-! # Tokens that are misread

The converse: a written sequence of tokens that is not readable, or in which two neighbours
clash, goes wrong at some token. There another kind is read, or a comment that begins with an
equality mark swallows what follows.
-/
namespace Styling
open Lexer

theorem Reads.unique {text rest rest' : List Char} {k k' : Kind} (h : Reads text k rest)
    (h' : Reads text k' rest') : k = k' ∧ rest = rest' := by
  obtain ⟨c, cs, rfl, hscan⟩ := h
  obtain ⟨c', cs', heq, hscan'⟩ := h'
  cases heq
  rw [hscan] at hscan'
  exact Prod.mk.inj hscan'

theorem Reads.scan_eq {c : Char} {cs rest : List Char} {k : Kind} (h : Reads (c :: cs) k rest) :
    scan c cs = (k, rest) := by
  obtain ⟨c', cs', heq, hscan⟩ := h
  cases heq
  exact hscan

theorem exists_reads {text : List Char} (h : text ≠ []) : ∃ k rest, Reads text k rest := by
  cases text with
  | nil => exact absurd rfl h
  | cons c cs => exact ⟨_, _, c, cs, rfl, rfl⟩

section Readers
variable {cs w rest : List Char}

/-- A name that takes nothing leaves everything. -/
theorem name_of_eq_nil (h : (name cs).1 = []) :
    (name cs).2 = cs ∧ (cs.head?.any isNameChar || startsEscape cs) = false := by
  cases cs with
  | nil =>
    rw [name]
    exact ⟨rfl, rfl⟩
  | cons c cs =>
    rw [name] at h ⊢
    split at h
    · cases h
    next hc =>
      split at h
      · cases h
      next he =>
        rw [if_neg hc, if_neg he]
        exact ⟨rfl, by simp [hc, he]⟩

theorem named_eq_ident {n : String} (h : named cs = (.ident n, rest)) :
    String.ofList (name cs).1 = n ∧ (name cs).2 = rest := by
  unfold named at h
  dsimp only at h
  split at h
  · split at h <;> cases h
  · cases h
    exact ⟨rfl, rfl⟩

theorem Kind.isNumeric_of_isIdentLike {k : Kind} (h : k.isIdentLike = true) :
    k.isNumeric = false := by
  cases k with
  | ident _ | function _ | url _ => rfl
  | _ => cases h

theorem isIdentLike_named (cs : List Char) : (named cs).1.isIdentLike = true := by
  unfold named
  dsimp only
  split
  · split <;> rfl
  · rfl

theorem isNumeric_numeric (cs : List Char) : (numeric cs).1.isNumeric = true := by
  unfold numeric
  dsimp only
  split
  · rfl
  · split <;> rfl

theorem isNumeric_marked (c : Char) (cs : List Char) : (marked c cs).1.isNumeric = false := by
  unfold marked
  split <;> try rfl
  · split <;> rfl
  · split <;> rfl

theorem scan_cases {c : Char} {k : Kind} (h : scan c cs = (k, rest)) :
    k = .blank ∧ isBlank c = true ∨ (k = .badString ∨ ∃ value, k = .string value) ∨
      k.isNumeric = true ∧ numeric (c :: cs) = (k, rest) ∨ k = .cdc ∨
      k.isIdentLike = true ∧ startsName (c :: cs) = true ∧ named (c :: cs) = (k, rest) ∨
      startsName (c :: cs) = false ∧ marked c cs = (k, rest) := by
  unfold scan at h
  split at h
  next hblank =>
    cases h
    exact .inl ⟨rfl, hblank⟩
  split at h
  · refine .inr (.inl ?_)
    injection h with hk _
    split at hk
    · exact .inr ⟨_, hk.symm⟩
    · exact .inl hk.symm
  split at h
  · have hn := isNumeric_numeric (c :: cs)
    rw [h] at hn
    exact .inr (.inr (.inl ⟨hn, h⟩))
  split at h
  · cases h
    exact .inr (.inr (.inr (.inl rfl)))
  split at h
  next hname =>
    have hn := isIdentLike_named (c :: cs)
    rw [h] at hn
    exact .inr (.inr (.inr (.inr (.inl ⟨hn, hname, h⟩))))
  next hname => exact .inr (.inr (.inr (.inr (.inr ⟨by simpa using hname, h⟩))))

theorem numeric_of_reads {k : Kind} (h : Reads cs k rest) (hk : k.isNumeric = true) :
    numeric cs = (k, rest) := by
  obtain ⟨c, cs, rfl, hscan⟩ := h
  rcases scan_cases hscan with ⟨rfl, -⟩ | (rfl | ⟨value, rfl⟩) | ⟨-, hn⟩ | rfl | ⟨hn, -⟩ | ⟨-, hn⟩
  · cases hk
  · cases hk
  · cases hk
  · exact hn
  · cases hk
  · rw [Kind.isNumeric_of_isIdentLike hn] at hk
    cases hk
  · have hm := isNumeric_marked c cs
    rw [hn, hk] at hm
    cases hm

theorem isBlank_of_reads {c : Char} (h : Reads (c :: cs) .blank rest) : isBlank c = true := by
  rcases scan_cases h.scan_eq with ⟨-, hc⟩ | (hk | ⟨value, hk⟩) | ⟨hk, -⟩ | hk | ⟨hk, -⟩ | ⟨-, hk⟩
  · exact hc
  all_goals try cases hk
  unfold marked at hk
  split at hk <;> first | cases hk | split at hk <;> cases hk

theorem comment_of_reads {text : String} (h : Reads cs (.comment text) rest) :
    ∃ body, cs = '/' :: '*' :: body ∧ text.toList = (comment body).1 := by
  obtain ⟨c, cs, rfl, hscan⟩ := h
  rcases scan_cases hscan with ⟨hk, -⟩ | (hk | ⟨value, hk⟩) | ⟨hk, -⟩ | hk | ⟨hk, -⟩ | ⟨-, hk⟩
  all_goals try cases hk
  unfold marked at hk
  split at hk
  · cases hk
    exact ⟨_, rfl, String.toList_ofList⟩
  all_goals first | cases hk | split at hk <;> cases hk

theorem magnitude_split (cs : List Char) : (magnitude cs).1 ++ (magnitude cs).2 = cs := by
  have hsplit := List.takeWhile_append_dropWhile (p := Char.isDigit) (l := cs)
  unfold magnitude
  split
  next d ds heq =>
    rw [heq] at hsplit
    split
    · rw [List.append_assoc, List.cons_append, List.takeWhile_append_dropWhile, hsplit]
    · exact hsplit
  · exact hsplit

/-- A numeral stands in the text as it is read. -/
theorem numeral_split (cs : List Char) : (numeral cs).1 ++ (numeral cs).2 = cs := by
  cases cs with
  | nil => rfl
  | cons c cs =>
    by_cases hs : (c == '+' || c == '-') = true
    · rw [numeral_sign hs, List.cons_append, magnitude_split]
    · rw [numeral_of_not_sign]
      · exact magnitude_split _
      · rintro d ⟨⟩
        simpa using hs

theorem numeric_eq_number {n : String} (h : numeric cs = (.number n, rest)) :
    cs = n.toList ++ rest ∧ startsName rest = false := by
  have hsplit := numeral_split cs
  unfold numeric at h
  dsimp only at h
  split at h
  · cases h
  · split at h
    · cases h
    next hs =>
      cases h
      exact ⟨by rw [String.toList_ofList, hsplit], by simpa using hs⟩

theorem numeric_eq_dimension {n u : String} (h : numeric cs = (.dimension n u, rest)) :
    ∃ after, cs = n.toList ++ after ∧ startsName after = true ∧
      String.ofList (name after).1 = u ∧ (name after).2 = rest := by
  have hsplit := numeral_split cs
  unfold numeric at h
  dsimp only at h
  split at h
  · cases h
  · split at h
    next hs =>
      cases h
      exact ⟨(numeral cs).2, by rw [String.toList_ofList, hsplit], hs, rfl, rfl⟩
    · cases h

end Readers
namespace Kind
variable {k next : Kind} {w rest : List Char}

/-- A name that is read as it was written ends where it was written to end. -/
theorem ends_of_ofList_append {v : List Char} {name : String} (hv : name.toList = v)
    (h : String.ofList (v ++ (Lexer.name w).1) = name) :
    (Lexer.name w).2 = w ∧ (w.head?.any isNameChar || startsEscape w) = false := by
  subst hv
  have hlist := congrArg String.toList h
  rw [String.toList_ofList] at hlist
  exact name_of_eq_nil (List.append_cancel_left (hlist.trans (List.append_nil _).symm))

theorem rest_of_reads_ident {name : String} (hl : name ≠ "") (hg : (ident name).Legible)
    (h : Reads (identifierText name.toList ++ w) (ident name) rest) : rest = w := by
  have hcdc : name.toList = ['-', '-'] → w.head? ≠ some '>' := by
    intro hv hw
    obtain ⟨w, rfl⟩ : ∃ w', w = '>' :: w' := by
      cases w with
      | nil => cases hw
      | cons c w =>
        cases hw
        exact ⟨w, rfl⟩
    rw [hv] at h
    cases (h.unique (reads_cdc w)).1
  obtain ⟨c, cs, heq, hscan⟩ := reads_named (toList_ne hl) (toList_ne hg.1) hcdc
  rw [heq] at h
  rw [h.scan_eq] at hscan
  obtain ⟨hname, hrest⟩ := named_eq_ident hscan.symm
  rw [name_identifierText, map_legible hg.2] at hname hrest
  rw [← hrest]
  exact (ends_of_ofList_append rfl hname).1

theorem rest_of_reads_atKeyword {name : String} (hl : name ≠ "") (hg : (atKeyword name).Legible)
    (h : Reads ('@' :: identifierText name.toList ++ w) (atKeyword name) rest) : rest = w := by
  rw [List.cons_append] at h
  have hscan := h.scan_eq
  rw [scan_of_mark (by decide) (by decide) rfl rfl, marked] at hscan
  simp only [startsName_identifierText (toList_ne hl) (toList_ne hg.1), if_true,
    name_identifierText, map_legible hg.2] at hscan
  injection hscan with hkind hrest
  injection hkind with hname
  rw [← hrest]
  exact (ends_of_ofList_append rfl hname).1

theorem readable_of_reads_hash {value : String} {kind : HashKind} (hl : value ≠ "")
    (hg : (hash value kind).Legible)
    (h : Reads ('#' :: nameText value.toList ++ w) (hash value kind) rest) :
    (kind = .id → opensPlain value.toList = true) ∧ rest = w := by
  rw [List.cons_append] at h
  have hscan := h.scan_eq
  rw [scan_of_mark (by decide) (by decide) rfl rfl, marked] at hscan
  simp only [continues_nameText (toList_ne hl), if_true, name_nameText, map_legible hg] at hscan
  injection hscan with hkind hrest
  injection hkind with hname hkind
  obtain ⟨hends, hnot⟩ := ends_of_ofList_append rfl hname
  rw [startsName_nameText (toList_ne hl) hnot] at hkind
  refine ⟨?_, hrest.symm.trans hends⟩
  rintro rfl
  cases hplain : opensPlain value.toList with
  | true => rfl
  | false => simp [hplain] at hkind

theorem readable_of_reads_dimension {numeral unit : String} (hl : unit ≠ "")
    (hg : (dimension numeral unit).Legible)
    (h : Reads (numeral.toList ++ nameText unit.toList ++ w) (dimension numeral unit) rest) :
    opensPlain unit.toList = true ∧ rest = w := by
  obtain ⟨after, heq, hstarts, hname, hrest⟩ := numeric_eq_dimension (numeric_of_reads h rfl)
  rw [List.append_assoc] at heq
  obtain rfl := List.append_cancel_left heq
  rw [name_nameText, map_legible hg] at hname hrest
  obtain ⟨hends, hnot⟩ := ends_of_ofList_append rfl hname
  rw [startsName_nameText (toList_ne hl) hnot] at hstarts
  exact ⟨hstarts, hrest.symm.trans hends⟩

theorem rest_of_reads_delim {c : Char} (h : Reads (c :: w) (delim c) rest) : rest = w := by
  rcases scan_cases h.scan_eq with ⟨hk, -⟩ | (hk | ⟨value, hk⟩) | ⟨hk, -⟩ | hk | ⟨hk, -⟩ | ⟨-, hk⟩
  all_goals try cases hk
  unfold marked at hk
  split at hk <;> first
    | cases hk; rfl
    | cases hk
    | split at hk <;> cases hk; rfl

/-- Only a readable token is read as itself, and then the text after it is left. -/
theorem readable_of_reads (hl : k.Lexical) (hg : k.Legible) (h : Reads (k.chars ++ w) k rest)
    (hblank : k = blank → ∀ c ∈ w.head?, Styling.isBlank c = false) : k.Readable ∧ rest = w := by
  have clear (hr : k.Readable) (hc : k.Clear w) : k.Readable ∧ rest = w :=
    ⟨hr, (h.unique (reads hl hr hc)).2⟩
  cases k with
  | ident name => exact ⟨⟨hg, trivial⟩, rest_of_reads_ident hl hg h⟩
  | atKeyword name => exact ⟨⟨hg, trivial⟩, rest_of_reads_atKeyword hl hg h⟩
  | hash value kind =>
    obtain ⟨hplain, hrest⟩ := readable_of_reads_hash hl.1 hg h
    exact ⟨⟨hg, hplain⟩, hrest⟩
  | dimension numeral unit =>
    obtain ⟨hplain, hrest⟩ := readable_of_reads_dimension hl.2 hg h
    exact ⟨⟨hg, hplain⟩, hrest⟩
  | number numeral =>
    have heq := (numeric_eq_number (numeric_of_reads h rfl)).1
    exact ⟨⟨hg, trivial⟩, (List.append_cancel_left heq).symm⟩
  | delim c => exact ⟨⟨hg, trivial⟩, rest_of_reads_delim h⟩
  | blank => exact clear ⟨hg, trivial⟩ (hblank rfl)
  | badString | comment _ | eof => exact hg.elim
  | _ => exact clear ⟨hg, trivial⟩ trivial

theorem not_clashes_of_reads
    (h : Reads (k.chars ++ (k.charsAfter next ++ w)) k rest) : k.clashes next = false := by
  rw [← Bool.not_eq_true]
  intro hclash
  unfold clashes at hclash
  split at hclash
  next name c =>
    simp only [Bool.and_eq_true, beq_iff_eq] at hclash
    obtain ⟨rfl, rfl⟩ := hclash
    cases (h.unique (reads_cdc w)).1
  next c =>
    simp only [Bool.or_eq_true, beq_iff_eq] at hclash
    rcases hclash with (rfl | rfl) | rfl
    · have hscan : scan '-' ('-' :: '-' :: '>' :: w) = _ := scan_of_startsName rfl (by simp)
      rw [(show Reads ('-' :: '-' :: '-' :: '>' :: w) _ _ from h).scan_eq] at hscan
      have hn := isIdentLike_named ('-' :: '-' :: '-' :: '>' :: w)
      rw [← hscan] at hn
      cases hn
    · have hscan : scan '#' ('-' :: '-' :: '>' :: w) = _ := scan_of_mark rfl rfl rfl rfl
      rw [(show Reads ('#' :: '-' :: '-' :: '>' :: w) _ _ from h).scan_eq] at hscan
      cases hscan
    · have hscan : scan '@' ('-' :: '-' :: '>' :: w) = _ := scan_of_mark rfl rfl rfl rfl
      rw [(show Reads ('@' :: '-' :: '-' :: '>' :: w) _ _ from h).scan_eq] at hscan
      cases hscan
  next numeral =>
    obtain ⟨heq, hname⟩ := numeric_eq_number (numeric_of_reads h rfl)
    rw [← List.append_cancel_left heq] at hname
    cases hname
  next c op =>
    simp only [Bool.and_eq_true, beq_iff_eq] at hclash
    obtain ⟨rfl, rfl⟩ := hclash
    have hscan : scan '/' ('*' :: '=' :: w) = _ := scan_of_mark rfl rfl rfl rfl
    rw [(show Reads ('/' :: '*' :: '=' :: w) _ _ from h).scan_eq] at hscan
    cases hscan
  · cases hclash

/-- A text that is read like the kinds `ks` up to some point and then otherwise. -/
def Misread (ks : List Kind) (text : List Char) : Prop :=
  ∃ p k q k' after, ks = p ++ k :: q ∧ scanned text = p ++ k' :: after ∧ k' ≠ k ∧ k' ≠ blank ∧
    ∀ t, k' = comment t → t.toList.head? = some '='

theorem Misread.cons {ks : List Kind} {text text' : List Char} (h : Misread ks text)
    (heq : scanned text' = k :: scanned text) : Misread (k :: ks) text' := by
  obtain ⟨p, k₀, q, k', after, rfl, hscanned, hrest⟩ := h
  exact ⟨k :: p, k₀, q, k', after, rfl, by rw [heq, hscanned]; rfl, hrest⟩

theorem chars_ne_nil (hl : k.Lexical) (hg : k.Legible) : k.chars ++ w ≠ [] := by
  cases hident : k.isIdentLike with
  | true =>
    obtain ⟨c, cs, heq⟩ := ne_nil_of_startsName (startsName_of_isIdentLike (w := w) hident hl hg)
    simp [heq]
  | false =>
    cases hnumeric : k.isNumeric with
    | true =>
      have hnumber := startsNumber_of_isNumeric hnumeric hl w
      intro heq
      rw [heq] at hnumber
      cases hnumber
    | false =>
      obtain ⟨rest, heq⟩ := chars_eq_mark hident hnumeric hl
      simp [heq]

/-- A comment is read for a token only if a substring test follows a slash. -/
theorem head?_of_reads_comment {t : String} {ks : List Kind} (hl : k.Lexical) (hg : k.Legible)
    (hks : ∀ next ∈ ks.head?, next.Lexical ∧ next.Legible) (hw : w.head? ≠ some '*')
    (h : Reads (k.chars ++ (k.listCharsAfter ks ++ w)) (comment t) rest) :
    t.toList.head? = some '=' := by
  obtain ⟨body, heq, ht⟩ := comment_of_reads h
  obtain rfl : k = delim '/' := by
    by_contra hne
    refine head?_chars_ne (c := '/') (by decide) hl hg ?_ (congrArg List.head? heq)
    intro hmark
    cases k with
    | delim c => exact hne (congrArg delim hmark)
    | attrMatch op => cases op <;> exact absurd hmark (by decide)
    | opening b | closing b => cases b <;> exact absurd hmark (by decide)
    | comment _ => exact hg
    | _ => exact absurd hmark (by simp [mark])
  have heq : (delim '/').listCharsAfter ks ++ w = '*' :: body := (List.cons.inj heq).2
  cases ks with
  | nil => exact absurd (congrArg List.head? heq) hw
  | cons next ks =>
    obtain ⟨hl', hg'⟩ := hks next rfl
    rw [listCharsAfter, charsAfter] at heq
    cases hsep : needsSeparator (delim '/') next with
    | true =>
      rw [hsep] at heq
      cases heq
    | false =>
      rw [hsep, if_neg (by simp), List.nil_append, List.append_assoc] at heq
      rcases eq_of_mark_star (by_contra fun hmark => head?_chars_ne (by decide) hl' hg' hmark
        (congrArg List.head? heq)) with rfl | rfl
      · cases hsep
      · obtain rfl : _ = body := (List.cons.inj heq).2
        rw [ht]
        rfl

/-- What a token that is no blank is written as is read as no blank either. -/
theorem ne_blank_of_reads {k' : Kind} (hk : k ≠ blank) (hl : k.Lexical) (hg : k.Legible)
    (h : Reads (k.chars ++ w) k' rest) : k' ≠ blank := by
  rintro rfl
  obtain ⟨c, cs, heq, hscan⟩ := h
  have hc := not_isBlank_head?_chars (w := w) hk hl hg
  rw [heq] at hc
  have hblank := isBlank_of_reads ⟨c, cs, rfl, hscan⟩
  rw [hc c rfl] at hblank
  cases hblank

/-- A written sequence of tokens is either readable, no two of its neighbours clashing, or it is
misread. -/
theorem readable_or_misread {ks : List Kind} (hl : ∀ k ∈ ks, k.Lexical)
    (hg : ∀ k ∈ ks, k.Legible) (hblank : ks.IsChain fun k next => k = blank → next ≠ blank)
    (hlast : ∀ k ∈ ks.getLast?, k = blank → ∀ c ∈ w.head?, Styling.isBlank c = false)
    (hw : w.head? ≠ some '*') :
    ((∀ k ∈ ks, k.Readable) ∧ ks.IsChain fun k next => k.clashes next = false) ∨
      Misread ks (listChars ks ++ w) := by
  induction ks with
  | nil => exact .inl ⟨by simp, .nil⟩
  | cons k ks ih =>
    rw [List.forall_mem_cons] at hl hg
    rw [listChars, List.append_assoc]
    obtain ⟨k', rest, hread⟩ := exists_reads (chars_ne_nil (w := k.listCharsAfter ks ++ w) hl.1 hg.1)
    by_cases hk : k' = k
    · subst hk
      cases ks with
      | nil =>
        have hr := (readable_of_reads hl.1 hg.1 hread (hlast k' rfl)).1
        exact .inl ⟨by simpa using hr, .singleton _⟩
      | cons next ks =>
        have hl' := hl.2 next List.mem_cons_self
        have hg' := hg.2 next List.mem_cons_self
        rw [List.isChain_cons_cons] at hblank
        rw [listCharsAfter, List.append_assoc] at hread ⊢
        obtain ⟨hr, rfl⟩ := readable_of_reads hl.1 hg.1 hread (by
          rintro rfl
          exact not_isBlank_head?_chars (hblank.1 rfl) hl' hg')
        have hscanned := scanned_of_reads hread
        rw [if_neg (hg.1.ne_comment _), scanned_charsAfter] at hscanned
        rcases ih hl.2 hg.2 hblank.2 (by simpa using hlast) with ⟨hreadable, hchain⟩ | hmis
        · refine .inl ⟨List.forall_mem_cons.mpr ⟨hr, hreadable⟩, ?_⟩
          exact hchain.cons_cons (not_clashes_of_reads hread)
        · rw [listChars, List.append_assoc] at hmis
          exact .inr (hmis.cons hscanned)
    · have hcomment : ∀ t, k' = comment t → t.toList.head? = some '=' := by
        rintro t rfl
        refine head?_of_reads_comment hl.1 hg.1 ?_ hw hread
        intro next hnext
        have hmem := List.mem_of_mem_head? hnext
        exact ⟨hl.2 next hmem, hg.2 next hmem⟩
      refine .inr ⟨[], k, ks, k', scanned rest, rfl, ?_, hk, ?_, hcomment⟩
      · rw [scanned_of_reads hread, if_neg]
        · rfl
        · rintro rfl
          exact absurd (hcomment "" rfl) (by decide)
      · by_cases hb : k = blank
        · exact hb ▸ hk
        · exact ne_blank_of_reads hb hl.1 hg.1 hread

end Kind
end Styling
