import Styling.Proofs.Token.Misread
import Styling.Proofs.Token.Tiling

/-! # Tokens of joined texts

No reader looks behind a closing curly bracket that it does not take. So where one is still ahead
of what a reader leaves, text added at the end changes nothing, and a text whose last token is such
a bracket can be tokenized without regard to what follows it.
-/
namespace Styling
open Lexer

section Readers
variable {c : Char} {cs : List Char} (w : List Char)

/-- What begins a text that has a bracket ahead begins it alone. -/
theorem exists_of_join_eq (mark : List Char) {rest w : List Char} (h : '\x7d' ∈ cs)
    (hmark : '\x7d' ∉ mark) (heq : cs ++ w = mark ++ rest) : ∃ r, cs = mark ++ r := by
  rcases List.append_eq_append_iff.mp heq with ⟨r, rfl, -⟩ | ⟨r, rfl, -⟩
  · exact absurd (List.mem_append_left r h) hmark
  · exact ⟨r, rfl⟩

theorem exists_of_join_cons {d : Char} {rest w : List Char} (h : '\x7d' ∈ cs) (hd : d ≠ '\x7d')
    (heq : cs ++ w = d :: rest) : ∃ r, cs = d :: r :=
  exists_of_join_eq [d] h (by simpa using hd.symm) heq

theorem ahead_of_cons (hc : c ≠ '\x7d') (h : '\x7d' ∈ c :: cs) : '\x7d' ∈ cs := by
  simpa [Ne.symm hc] using h

theorem head?_join (h : '\x7d' ∈ cs) : (cs ++ w).head? = cs.head? := by
  cases cs with
  | nil => cases h
  | cons c cs => rfl

theorem dropWhile_join {p : Char → Bool} (h : '\x7d' ∈ cs.dropWhile p) :
    (cs ++ w).dropWhile p = cs.dropWhile p ++ w := by
  rw [List.dropWhile_append, if_neg]
  simpa using List.ne_nil_of_mem h

theorem takeWhile_join {p : Char → Bool} (h : '\x7d' ∈ cs.dropWhile p) :
    (cs ++ w).takeWhile p = cs.takeWhile p := by
  rw [List.takeWhile_append, if_neg]
  intro hlength
  have hall := congrArg List.length (List.takeWhile_append_dropWhile (p := p) (l := cs))
  have hpos := List.length_pos_of_mem h
  rw [List.length_append] at hall
  omega

theorem dropBlank_join (h : '\x7d' ∈ dropBlank cs) :
    dropBlank (cs ++ w) = dropBlank cs ++ w := by
  cases cs with
  | nil => cases h
  | cons c cs =>
    simp only [dropBlank, List.cons_append]
    split <;> rfl

theorem startsEscape_join (h : '\x7d' ∈ cs) : startsEscape (cs ++ w) = startsEscape cs := by
  cases cs with
  | nil => cases h
  | cons c cs =>
    by_cases hc : c = '\\'
    · subst hc
      cases cs with
      | nil => simp at h
      | cons d cs => rfl
    · have hnot (ds : List Char) : startsEscape (c :: ds) = false := by
        unfold startsEscape
        split
        next heq => exact absurd (List.cons.inj heq).1 hc
        next heq => exact absurd (List.cons.inj heq).1 hc
        · rfl
      rw [List.cons_append, hnot, hnot]

theorem startsName_join (h : '\x7d' ∈ cs) : startsName (cs ++ w) = startsName cs := by
  cases cs with
  | nil => cases h
  | cons c cs =>
    by_cases hc : c = '\x7d'
    · subst hc
      rfl
    · have hcs := ahead_of_cons hc h
      have hescape : startsEscape (c :: (cs ++ w)) = startsEscape (c :: cs) := startsEscape_join w h
      rw [List.cons_append]
      simp only [startsName, head?_join w hcs, startsEscape_join w hcs, hescape]

theorem startsMagnitude_join (h : '\x7d' ∈ cs) :
    startsMagnitude (cs ++ w) = startsMagnitude cs := by
  cases cs with
  | nil => cases h
  | cons c cs =>
    by_cases hc : c = '.'
    · subst hc
      cases cs with
      | nil => simp at h
      | cons d cs => rfl
    · rw [List.cons_append, startsMagnitude_cons hc, startsMagnitude_cons hc]

theorem startsNumber_join (h : '\x7d' ∈ cs) : startsNumber (cs ++ w) = startsNumber cs := by
  cases cs with
  | nil => cases h
  | cons c cs =>
    cases hsign : (c == '+' || c == '-') with
    | true =>
      have hc : c ≠ '\x7d' := by
        rintro rfl
        cases hsign
      rw [List.cons_append, startsNumber_sign hsign, startsNumber_sign hsign,
        startsMagnitude_join w (ahead_of_cons hc h)]
    | false =>
      have hhead (ds : List Char) : ∀ d ∈ (c :: ds).head?, (d == '+' || d == '-') = false := by
        rintro d ⟨⟩
        exact hsign
      rw [startsNumber_of_not_sign (hhead cs), ← startsMagnitude_join w h]
      exact startsNumber_of_not_sign (hhead (cs ++ w))

theorem take_takeWhile_join {p : Char → Bool} (n : Nat)
    (h : '\x7d' ∈ cs.drop ((cs.take n).takeWhile p).length) :
    ((cs ++ w).take n).takeWhile p = (cs.take n).takeWhile p := by
  induction n generalizing cs with
  | zero => rfl
  | succ n ih =>
    cases cs with
    | nil => simp at h
    | cons c cs =>
      cases hc : p c with
      | false => simp [hc]
      | true =>
        simp only [List.take_succ_cons, List.takeWhile_cons_of_pos hc, List.length_cons,
          List.drop_succ_cons, List.cons_append] at h ⊢
        rw [ih h]

theorem escaped_join (h : '\x7d' ∈ (escaped cs).2) :
    escaped (cs ++ w) = ((escaped cs).1, (escaped cs).2 ++ w) := by
  cases cs with
  | nil => cases h
  | cons c cs =>
    simp only [escaped, List.cons_append] at h ⊢
    split
    next hc =>
      rw [if_pos hc] at h
      -- the digits end before the bracket, so none of them is in `w`
      have hdrop := (dropBlank_suffix _).mem h
      have hle := List.length_pos_of_mem hdrop
      rw [List.length_drop] at hle
      rw [take_takeWhile_join w 5 hdrop, List.drop_append_of_le_length (by omega),
        dropBlank_join w h]
    next hc => rfl

theorem name_join (h : '\x7d' ∈ (name cs).2) :
    name (cs ++ w) = ((name cs).1, (name cs).2 ++ w) := by
  fun_induction name cs with
  | case1 => cases h
  | case2 c cs hc rest ih =>
    rw [List.cons_append, name]
    simp [hc, ih h, rest]
  | case3 c cs hc hescape e rest ih =>
    have hescaped : '\x7d' ∈ (escaped cs).2 := (name_suffix _).mem h
    have hcs : '\x7d' ∈ c :: cs := List.mem_cons_of_mem _ ((escaped_suffix cs).mem hescaped)
    have hescape' : startsEscape (c :: (cs ++ w)) = true := (startsEscape_join w hcs).trans hescape
    rw [List.cons_append, name]
    simp [hc, hescape', escaped_join w hescaped, ih h, rest, e]
  | case4 c cs hc hescape =>
    have hescape' : startsEscape (c :: (cs ++ w)) = startsEscape (c :: cs) := startsEscape_join w h
    rw [List.cons_append, name]
    simp [hc, hescape', hescape]

theorem dropNewline_join (h : '\x7d' ∈ dropNewline cs) :
    dropNewline (cs ++ w) = dropNewline cs ++ w := by
  cases cs with
  | nil => cases h
  | cons c cs =>
    by_cases hc : c = '\r' ∧ cs.head? = some '\n'
    · obtain ⟨rfl, hhead⟩ := hc
      obtain ⟨ds, rfl⟩ := List.head?_eq_some_iff.mp hhead
      rfl
    · have hone (ds : List Char) (hds : ds.head? = cs.head?) : dropNewline (c :: ds) = ds := by
        unfold dropNewline
        split
        next heq =>
          obtain ⟨rfl, rfl⟩ := List.cons.inj heq
          exact absurd ⟨rfl, hds.symm⟩ hc
        next heq => exact (List.cons.inj heq).2.symm
        next heq => cases heq
      rw [hone cs rfl] at h ⊢
      exact hone (cs ++ w) (head?_join w h)

theorem quoted_join (q : Char) (h : '\x7d' ∈ (quoted q cs).2) :
    quoted q (cs ++ w) = ((quoted q cs).1, (quoted q cs).2 ++ w) := by
  fun_induction quoted q cs with
  | case1 => cases h
  | case2 c cs hc =>
    rw [List.cons_append, quoted.eq_def]
    simp [hc]
  | case3 c cs hc hline =>
    rw [List.cons_append, quoted.eq_def]
    simp [hc, hline]
  | case4 => cases h
  | case5 c hc hline hb d ds hd ih =>
    have hds : '\x7d' ∈ dropNewline (d :: ds) := (quoted_suffix q _).mem h
    have hjoin : dropNewline (d :: (ds ++ w)) = dropNewline (d :: ds) ++ w := dropNewline_join w hds
    rw [List.cons_append, List.cons_append, quoted.eq_def]
    simp [hc, hline, hb, hd, hjoin, ih h]
  | case6 c hc hline hb d ds hd e rest ih =>
    have hds : '\x7d' ∈ (escaped (d :: ds)).2 := (quoted_suffix q _).mem h
    have hjoin : escaped (d :: (ds ++ w)) = _ := escaped_join w hds
    rw [List.cons_append, List.cons_append, quoted.eq_def]
    simp [hc, hline, hb, hd, hjoin, ih h, rest, e]
  | case7 c cs hc hline hb rest ih =>
    rw [List.cons_append, quoted.eq_def]
    simp [hc, hline, hb, ih h, rest]

theorem magnitude_join (h : '\x7d' ∈ (magnitude cs).2) :
    magnitude (cs ++ w) = ((magnitude cs).1, (magnitude cs).2 ++ w) := by
  by_cases hpoint : ∃ d ds, cs.dropWhile Char.isDigit = '.' :: d :: ds
  · obtain ⟨d, ds, hpoint⟩ := hpoint
    have hahead : '\x7d' ∈ cs.dropWhile Char.isDigit := by
      rw [magnitude_point hpoint] at h
      rw [hpoint]
      split at h
      · exact List.mem_cons_of_mem _ ((List.dropWhile_suffix _).mem h)
      · exact h
    have hpoint' : (cs ++ w).dropWhile Char.isDigit = '.' :: d :: (ds ++ w) := by
      rw [dropWhile_join w hahead, hpoint]
      rfl
    rw [magnitude_point hpoint] at h ⊢
    rw [magnitude_point hpoint', takeWhile_join w hahead]
    split
    next hd =>
      rw [if_pos hd] at h
      rw [← List.cons_append, takeWhile_join w h, dropWhile_join w h]
    · rfl
  · have hwhole (d : Char) (ds : List Char) : cs.dropWhile Char.isDigit ≠ '.' :: d :: ds :=
      fun heq => hpoint ⟨d, ds, heq⟩
    rw [magnitude_whole hwhole] at h ⊢
    have hwhole' (d : Char) (ds : List Char) : (cs ++ w).dropWhile Char.isDigit ≠ '.' :: d :: ds := by
      rw [dropWhile_join w h]
      intro heq
      obtain ⟨r, hr⟩ := exists_of_join_cons h (by decide) heq
      dsimp only at h hr
      cases r with
      | nil => simp [hr] at h
      | cons e r => exact hwhole e r hr
    rw [magnitude_whole hwhole', takeWhile_join w h, dropWhile_join w h]

theorem numeral_join (h : '\x7d' ∈ (numeral cs).2) :
    numeral (cs ++ w) = ((numeral cs).1, (numeral cs).2 ++ w) := by
  cases cs with
  | nil => simp [numeral] at h
  | cons c cs =>
    cases hsign : (c == '+' || c == '-') with
    | true =>
      rw [numeral_sign hsign] at h
      rw [List.cons_append, numeral_sign hsign, numeral_sign hsign, magnitude_join w h]
    | false =>
      have hhead (ds : List Char) : ∀ d ∈ (c :: ds).head?, (d == '+' || d == '-') = false := by
        rintro d ⟨⟩
        exact hsign
      rw [numeral_of_not_sign (hhead cs)] at h
      rw [numeral_of_not_sign (hhead cs), ← magnitude_join w h]
      exact numeral_of_not_sign (hhead (cs ++ w))

theorem numeric_percent {rest : List Char} (h : (numeral cs).2 = '%' :: rest) :
    numeric cs = (.percentage (String.ofList (numeral cs).1), rest) := by
  unfold numeric
  dsimp only
  rw [h]
  rfl

theorem numeric_of_not_percent (h : ∀ rest, (numeral cs).2 ≠ '%' :: rest) : numeric cs =
    if startsName (numeral cs).2 then (.dimension (String.ofList (numeral cs).1)
      (String.ofList (name (numeral cs).2).1), (name (numeral cs).2).2)
    else (.number (String.ofList (numeral cs).1), (numeral cs).2) := by
  unfold numeric
  dsimp only
  split
  next heq => exact absurd heq (h _)
  · rfl

theorem numeric_join (h : '\x7d' ∈ (numeric cs).2) :
    numeric (cs ++ w) = ((numeric cs).1, (numeric cs).2 ++ w) := by
  by_cases hpercent : ∃ rest, (numeral cs).2 = '%' :: rest
  · obtain ⟨rest, hpercent⟩ := hpercent
    rw [numeric_percent hpercent] at h ⊢
    have hjoin := numeral_join w (hpercent ▸ List.mem_cons_of_mem _ h)
    have hpercent' : (numeral (cs ++ w)).2 = '%' :: (rest ++ w) := by
      rw [hjoin, hpercent]
      rfl
    rw [numeric_percent hpercent', hjoin]
  · have hnot (rest : List Char) : (numeral cs).2 ≠ '%' :: rest := fun heq => hpercent ⟨rest, heq⟩
    rw [numeric_of_not_percent hnot] at h ⊢
    have hahead : '\x7d' ∈ (numeral cs).2 := by
      split at h
      · exact (name_suffix _).mem h
      · exact h
    have hjoin := numeral_join w hahead
    have hnot' (rest : List Char) : (numeral (cs ++ w)).2 ≠ '%' :: rest := by
      rw [hjoin]
      intro heq
      obtain ⟨r, hr⟩ := exists_of_join_cons hahead (by decide) heq
      exact hnot r hr
    rw [numeric_of_not_percent hnot', hjoin, startsName_join w hahead]
    split
    next hs =>
      rw [if_pos hs] at h
      rw [name_join w h]
    · rfl

theorem urlQuoted_join (q : Char) (h : '\x7d' ∈ (urlQuoted q cs).2) :
    urlQuoted q (cs ++ w) = ((urlQuoted q cs).1, (urlQuoted q cs).2 ++ w) := by
  fun_induction urlQuoted q cs with
  | case1 => cases h
  | case2 c cs hc =>
    rw [List.cons_append, urlQuoted.eq_def]
    simp [hc]
  | case3 c cs hc hb e rest ih =>
    have hcs : '\x7d' ∈ (escaped cs).2 := (urlQuoted_suffix q _).mem h
    rw [List.cons_append, urlQuoted.eq_def]
    simp_all [escaped_join w hcs, ih h, rest, e]
  | case4 c cs hc hb rest ih =>
    have hcs : '\x7d' ∈ cs := (urlQuoted_suffix q _).mem h
    have hplain : (c == '\\' && !(cs ++ w).isEmpty) = false := by
      simpa [List.ne_nil_of_mem hcs] using hb
    rw [List.cons_append, urlQuoted.eq_def]
    simp [hc, hplain, ih h, rest]

theorem urlPlain_join (h : '\x7d' ∈ (urlPlain cs).2) :
    urlPlain (cs ++ w) = ((urlPlain cs).1, (urlPlain cs).2 ++ w) := by
  fun_induction urlPlain cs with
  | case1 => cases h
  | case2 c cs hc =>
    rw [List.cons_append, urlPlain.eq_def]
    simp [hc]
  | case3 c cs hc hescape e rest ih =>
    have hescaped : '\x7d' ∈ (escaped cs).2 := (urlPlain_suffix _).mem h
    have hcs : '\x7d' ∈ c :: cs := List.mem_cons_of_mem _ ((escaped_suffix cs).mem hescaped)
    have hescape' : startsEscape (c :: (cs ++ w)) = true := (startsEscape_join w hcs).trans hescape
    rw [List.cons_append, urlPlain.eq_def]
    simp [hc, hescape', escaped_join w hescaped, ih h, rest, e]
  | case4 c cs hc hescape rest ih =>
    have hcs : '\x7d' ∈ c :: cs := List.mem_cons_of_mem _ ((urlPlain_suffix _).mem h)
    have hescape' : startsEscape (c :: (cs ++ w)) = startsEscape (c :: cs) := startsEscape_join w hcs
    rw [List.cons_append, urlPlain.eq_def]
    simp [hc, hescape', hescape, ih h, rest]

theorem url_join (h : '\x7d' ∈ (url cs).2) :
    url (cs ++ w) = ((url cs).1, (url cs).2 ++ w) := by
  have hahead : '\x7d' ∈ cs.dropWhile isBlank := by
    unfold url at h
    dsimp only at h
    split at h
    next c rest heq =>
      rw [heq]
      split at h
      · exact List.mem_cons_of_mem _
          ((((List.drop_suffix _ _).trans (List.dropWhile_suffix _)).trans (urlQuoted_suffix _ _)).mem h)
      · exact heq ▸ (urlPlain_suffix _).mem h
    · cases h
  have hdrop := dropWhile_join w hahead
  unfold url at h ⊢
  dsimp only at h ⊢
  rw [hdrop]
  cases hrest : cs.dropWhile isBlank with
  | nil => simp [hrest] at hahead
  | cons c rest =>
    rw [hrest] at h
    dsimp only [List.cons_append] at h ⊢
    split
    next hc =>
      rw [if_pos hc] at h
      dsimp only at h
      have hquoted := (List.drop_suffix _ _).mem h
      have hjoin := urlQuoted_join w c ((List.dropWhile_suffix _).mem hquoted)
      rw [hjoin, dropWhile_join w hquoted]
      rw [List.drop_append_of_le_length (List.length_pos_of_mem hquoted)]
    next hc =>
      rw [if_neg hc] at h
      rw [← List.cons_append, urlPlain_join w h]

theorem named_paren {rest : List Char} (h : (name cs).2 = '(' :: rest) : named cs =
    if sameWord (name cs).1 ['u', 'r', 'l'] then
      (.url (String.ofList (url rest).1), (url rest).2)
    else (.function (String.ofList (name cs).1), rest) := by
  unfold named
  dsimp only
  rw [h]
  rfl

theorem named_of_not_paren (h : ∀ rest, (name cs).2 ≠ '(' :: rest) :
    named cs = (.ident (String.ofList (name cs).1), (name cs).2) := by
  unfold named
  dsimp only
  split
  next heq => exact absurd heq (h _)
  · rfl

theorem named_join (h : '\x7d' ∈ (named cs).2) :
    named (cs ++ w) = ((named cs).1, (named cs).2 ++ w) := by
  by_cases hparen : ∃ rest, (name cs).2 = '(' :: rest
  · obtain ⟨rest, hparen⟩ := hparen
    rw [named_paren hparen] at h ⊢
    have hrest : '\x7d' ∈ rest := by
      split at h
      · exact (url_suffix rest).mem h
      · exact h
    have hjoin := name_join w (hparen ▸ List.mem_cons_of_mem _ hrest)
    have hparen' : (name (cs ++ w)).2 = '(' :: (rest ++ w) := by
      rw [hjoin, hparen]
      rfl
    rw [named_paren hparen', hjoin]
    dsimp only
    split
    next hword =>
      rw [if_pos hword] at h
      rw [url_join w h]
    · rfl
  · have hnot (rest : List Char) : (name cs).2 ≠ '(' :: rest := fun heq => hparen ⟨rest, heq⟩
    rw [named_of_not_paren hnot] at h ⊢
    have hjoin := name_join w h
    have hnot' (rest : List Char) : (name (cs ++ w)).2 ≠ '(' :: rest := by
      rw [hjoin]
      intro heq
      obtain ⟨r, hr⟩ := exists_of_join_cons h (by decide) heq
      exact hnot r hr
    rw [named_of_not_paren hnot', hjoin]

theorem comment_join (h : '\x7d' ∈ (comment cs).2) :
    comment (cs ++ w) = ((comment cs).1, (comment cs).2 ++ w) := by
  fun_induction comment cs with
  | case1 cs => rfl
  | case2 c cs hnot rest ih =>
    have hcs : '\x7d' ∈ cs := (comment_suffix cs).mem h
    rw [List.cons_append, comment.eq_def]
    split
    next heq =>
      obtain ⟨rfl, htail⟩ := List.cons.inj heq
      obtain ⟨r, hr⟩ := exists_of_join_cons hcs (by decide) htail
      exact (hnot r rfl hr).elim
    next heq =>
      obtain ⟨rfl, rfl⟩ := List.cons.inj heq
      simp [ih h, rest]
    next heq => cases heq
  | case3 => cases h

theorem marked_join (h : '\x7d' ∈ (marked c cs).2) :
    marked c (cs ++ w) = ((marked c cs).1, (marked c cs).2 ++ w) := by
  fun_cases marked c cs with
  | case1 rest body =>
    have hjoin : comment (rest ++ w) = _ := comment_join w h
    rw [List.cons_append, marked, hjoin]
  | case2 _ hn =>
    rw [marked, if_pos hn] at h
    have hcs : '\x7d' ∈ cs := (name_suffix cs).mem h
    rw [marked, head?_join w hcs, startsEscape_join w hcs, startsName_join w hcs, if_pos hn, if_pos hn,
      name_join w h]
  | case3 _ hn =>
    rw [marked, if_neg hn] at h
    rw [marked, head?_join w h, startsEscape_join w h, if_neg hn, if_neg hn]
  | case4 _ hn =>
    rw [marked, if_pos hn] at h
    rw [marked, startsName_join w ((name_suffix cs).mem h), if_pos hn, if_pos hn, name_join w h]
  | case5 _ hn =>
    rw [marked, if_neg hn] at h
    rw [marked, startsName_join w h, if_neg hn, if_neg hn]
  | case21 =>
    have hcs : '\x7d' ∈ cs := (marked_suffix c cs).mem h
    have hone {d : Char} {rest : List Char} (hd : d ≠ '\x7d') (heq : cs ++ w = d :: rest) :
        ∃ r, cs = d :: r := exists_of_join_cons hcs hd heq
    have hcdo {rest : List Char} (heq : cs ++ w = '!' :: '-' :: '-' :: rest) :
        ∃ r, cs = '!' :: '-' :: '-' :: r := exists_of_join_eq ['!', '-', '-'] hcs (by decide) heq
    -- a mark that `cs ++ w` completes is complete in `cs`
    unfold marked
    split <;> grind
  | _ => rfl

theorem isPrefixOf_join (mark : List Char) (hmark : '\x7d' ∉ mark) (h : '\x7d' ∈ cs) :
    mark.isPrefixOf (cs ++ w) = mark.isPrefixOf cs := by
  rw [Bool.eq_iff_iff, List.isPrefixOf_iff_prefix, List.isPrefixOf_iff_prefix]
  constructor
  · rintro ⟨rest, heq⟩
    obtain ⟨r, rfl⟩ := exists_of_join_eq mark h hmark heq.symm
    exact List.prefix_append mark r
  · exact fun hprefix => hprefix.trans (List.prefix_append cs w)

variable (c cs) in
theorem suffix_of_scan : (scan c cs).2 <:+ cs :=
  List.suffix_of_suffix_length_le (scan_suffix c cs) (List.suffix_cons c cs) (scan_length_le c cs)

/-- A token before a closing bracket is read without regard to what stands behind the bracket. -/
theorem scan_join (h : '\x7d' ∈ (scan c cs).2) :
    scan c (cs ++ w) = ((scan c cs).1, (scan c cs).2 ++ w) := by
  have hcs : '\x7d' ∈ cs := (suffix_of_scan c cs).mem h
  have hall : '\x7d' ∈ c :: cs := List.mem_cons_of_mem c hcs
  have hnumber : startsNumber (c :: (cs ++ w)) = startsNumber (c :: cs) := startsNumber_join w hall
  have hname : startsName (c :: (cs ++ w)) = startsName (c :: cs) := startsName_join w hall
  have hcdc := isPrefixOf_join w ['-', '>'] (by decide) hcs
  unfold scan at h ⊢
  rw [hnumber, hname, hcdc]
  split
  next hc =>
    rw [if_pos hc] at h
    rw [dropWhile_join w h]
  next hc =>
    rw [if_neg hc] at h
    split
    next hq =>
      rw [if_pos hq] at h
      rw [quoted_join w c h]
    next hq =>
      rw [if_neg hq] at h
      split
      next hn =>
        rw [if_pos hn] at h
        exact numeric_join w h
      next hn =>
        rw [if_neg hn] at h
        split
        next hd =>
          rw [if_pos hd] at h
          have hlength : 2 ≤ cs.length := by
            have := List.length_pos_of_mem h
            rw [List.length_drop] at this
            omega
          rw [List.drop_append_of_le_length hlength]
        next hd =>
          rw [if_neg hd] at h
          split
          next hname =>
            rw [if_pos hname] at h
            exact named_join w h
          next hname =>
            rw [if_neg hname] at h
            exact marked_join w h

end Readers

section Lexemes
variable {c : Char} {cs : List Char}

theorem scan_closing (cs : List Char) : scan '\x7d' cs = (.closing .curly, cs) := rfl

theorem eq_of_scan_closing (h : (scan c cs).1 = .closing .curly) : c = '\x7d' := by
  cases hscan : scan c cs with
  | mk k rest =>
    rw [hscan] at h
    obtain rfl : k = .closing .curly := h
    rcases scan_cases hscan with ⟨hk, -⟩ | (hk | ⟨value, hk⟩) | ⟨hk, -⟩ | hk | ⟨hk, -⟩ | ⟨-, hmarked⟩
    all_goals try cases hk
    unfold marked at hmarked
    split at hmarked
    all_goals try cases hmarked
    · split at hmarked <;> cases hmarked
    · split at hmarked <;> cases hmarked
    · rfl

theorem mem_of_closing {l : Lexeme} (h : l ∈ lexemes cs) (hl : l.kind = .closing .curly) :
    '\x7d' ∈ cs := by
  fun_induction lexemes cs with
  | case1 => cases h
  | case2 c cs next ih =>
    rcases List.mem_cons.mp h with rfl | h
    · obtain rfl := eq_of_scan_closing hl
      exact List.mem_cons_self
    · exact List.mem_cons_of_mem c ((suffix_of_scan c cs).mem (ih h))

/-- What is read of a text first is read of the joined text first. -/
theorem lexemes_cons_join {w : List Char}
    (hscan : scan c (cs ++ w) = ((scan c cs).1, (scan c cs).2 ++ w))
    (hrest : lexemes ((scan c cs).2 ++ w) = lexemes (scan c cs).2 ++ lexemes w) :
    lexemes (c :: cs ++ w) = lexemes (c :: cs) ++ lexemes w := by
  have hle := scan_length_le c cs
  have hlength : (cs ++ w).length + 1 - ((scan c cs).2 ++ w).length =
      cs.length + 1 - (scan c cs).2.length := by
    simp only [List.length_append]
    omega
  have htake : (c :: (cs ++ w)).take (cs.length + 1 - (scan c cs).2.length) =
      (c :: cs).take (cs.length + 1 - (scan c cs).2.length) := by
    rw [← List.cons_append]
    exact List.take_append_of_le_length (Nat.sub_le _ _)
  rw [List.cons_append, lexemes, lexemes, hscan, hrest, hlength, htake]
  rfl

/-- A closing bracket at the end of a text parts it from what follows. -/
theorem lexemes_join (h : ((lexemes cs).map Lexeme.kind).getLast? = some (.closing .curly))
    (w : List Char) : lexemes (cs ++ w) = lexemes cs ++ lexemes w := by
  fun_induction lexemes cs with
  | case1 => cases h
  | case2 c cs next ih =>
    have heq : lexemes (c :: cs) = ⟨next.1, (c :: cs).take (cs.length + 1 - next.2.length)⟩ ::
      lexemes next.2 := by rw [lexemes]
    rw [← heq]
    cases hlast : ((lexemes next.2).map Lexeme.kind).getLast? with
    | none =>
      have hnil : lexemes next.2 = [] := by simpa using hlast
      have hrest : next.2 = [] := by
        have hlayout := layout_lexemes next.2
        rw [hnil] at hlayout
        exact hlayout.symm
      rw [hnil] at h
      have hkind : next.1 = .closing .curly := Option.some.inj h
      obtain rfl := eq_of_scan_closing hkind
      refine lexemes_cons_join ?_ ?_
      · rw [scan_closing, scan_closing]
      · rw [show (scan '\x7d' cs).2 = [] from hrest, lexemes]
        rfl
    | some k =>
      rw [List.map_cons, List.getLast?_cons, hlast] at h
      obtain rfl : k = .closing .curly := Option.some.inj h
      obtain ⟨l, hl, hk⟩ := List.mem_map.mp (List.mem_of_getLast? hlast)
      exact lexemes_cons_join (scan_join w (mem_of_closing hl hk)) (ih hlast)

end Lexemes

def Token.shift (n l : Nat) (t : Token) : Token := ⟨t.kind, t.start + n, t.stop + n, t.line + l⟩

theorem place_shift (n l offset line : Nat) (ls : List Lexeme) :
    place (offset + n) (line + l) ls = (place offset line ls).map (Token.shift n l) := by
  induction ls generalizing offset line with
  | nil => rfl
  | cons first ls ih =>
    have hrest := ih (offset + first.text.length) (line + first.text.count '\n')
    rw [place, place, List.map_cons, ← hrest, Nat.add_right_comm offset, Nat.add_right_comm line]
    rfl

section Tokens
variable {cs : List Char}

theorem tokens_join (h : ((tokens cs).map Token.kind).getLast? = some (.closing .curly))
    (w : List Char) :
    tokens (cs ++ w) = tokens cs ++ (tokens w).map (Token.shift cs.length (cs.count '\n')) := by
  rw [tokens, map_kind_place] at h
  rw [tokens, lexemes_join h, place_append, layout_lexemes, place_shift]
  rfl

theorem endToken_join (cs w : List Char) :
    endToken (cs ++ w) = (endToken w).shift cs.length (cs.count '\n') := by
  simp only [endToken, Token.shift, List.length_append, List.count_append, Nat.add_comm cs.length,
    Nat.add_comm (cs.count '\n'), Nat.add_assoc]

end Tokens

end Styling
