import Styling.Proofs.Token.Misread

/-! # The characters that a text stands for

A text is a sequence of units: characters, and escapes, which stand for one character each. A
token never splits a unit, and what it holds is found among its units. This bounds what any text
can be read as, however it is cut into tokens.
-/
namespace Styling

def Kind.name? : Kind → Option String
  | ident name | function name | atKeyword name => some name
  | _ => none

/-- The characters that a token holds, without those that only mark what it is. Of a comment,
only whether it begins with an equality mark. -/
def Kind.payload : Kind → List Char
  | ident name | function name | atKeyword name => name.toList
  | hash value _ | string value | url value => value.toList
  | delim c => [c]
  | number numeral | percentage numeral => numeral.toList
  | dimension numeral unit => numeral.toList ++ unit.toList
  | attrMatch op => op.text.toList
  | comment text => if text.toList.head? = some '=' then ['='] else []
  | _ => []

open Lexer

theorem IsNumeral.mem {n : List Char} (hn : IsNumeral n) {c : Char} (hc : c ∈ n) :
    c.isDigit = true ∨ c ∈ ['+', '-', '.'] := by
  obtain ⟨sign, whole, fraction, rfl, hsign, hwhole, hfraction⟩ := hn
  rcases List.mem_append.mp hc with hc | hc
  · rcases List.mem_append.mp hc with hc | hc
    · rcases hsign with rfl | rfl | rfl <;> simp_all
    · exact .inl (hwhole c hc)
  · rcases hfraction with ⟨rfl, -⟩ | ⟨d, ds, rfl, hds⟩
    · cases hc
    · rcases List.mem_cons.mp hc with rfl | hc
      · exact .inr (by decide)
      · exact .inl (hds c hc)

theorem IsNumeral.not_mem {n : List Char} (hn : IsNumeral n) {c : Char}
    (hc : ¬ (c.isDigit = true ∨ c ∈ ['+', '-', '.'])) : c ∉ n := fun h => hc (hn.mem h)

namespace Lexer
open scoped List

/-- The units of a text: whether each is an escape, and its character. -/
def units : List Char → List (Bool × Char)
  | [] => []
  | c :: cs =>
    if startsEscape (c :: cs) then
      let e := escaped cs
      (true, e.1) :: units e.2
    else (false, c) :: units cs
termination_by cs => cs.length
decreasing_by
  · have := escaped_length_le cs
    simp only [List.length_cons]
    omega
  · simp

theorem units_nil : units [] = [] := by rw [units]

theorem units_escape {c : Char} {cs : List Char} (h : startsEscape (c :: cs) = true) :
    units (c :: cs) = (true, (escaped cs).1) :: units (escaped cs).2 := by
  rw [units, if_pos h]

theorem units_cons {c : Char} {cs : List Char} (h : startsEscape (c :: cs) = false) :
    units (c :: cs) = (false, c) :: units cs := by
  rw [units, if_neg (by simp [h])]

theorem startsEscape_of_ne {c : Char} (h : c ≠ '\\') (cs : List Char) :
    startsEscape (c :: cs) = false := by
  cases he : startsEscape (c :: cs) with
  | false => rfl
  | true => exact absurd (eq_of_startsEscape he) h

theorem units_plain {h : List Char} (hh : ∀ c ∈ h, c ≠ '\\') (w : List Char) :
    units (h ++ w) = h.map (Prod.mk false) ++ units w := by
  induction h with
  | nil => rfl
  | cons c h ih =>
    rw [List.forall_mem_cons] at hh
    rw [List.cons_append, units_cons (startsEscape_of_ne hh.1 _), ih hh.2]
    rfl

/-- The text from `cs` to `rest` is whole units, and these hold the characters `s`. What a lone
backslash at the end of the text stands for depends on the reader. -/
def Covers (s cs rest : List Char) : Prop :=
  ∃ us, units cs = us ++ units rest ∧ ∀ x, x ≠ '\\' → s.count x ≤ (us.map Prod.snd).count x

theorem Covers.refl (cs : List Char) : Covers [] cs cs := ⟨[], rfl, by simp⟩

theorem Covers.trans {s s' cs mid rest : List Char} (h : Covers s cs mid)
    (h' : Covers s' mid rest) : Covers (s ++ s') cs rest := by
  obtain ⟨us, hus, hs⟩ := h
  obtain ⟨us', hus', hs'⟩ := h'
  refine ⟨us ++ us', by rw [hus, hus', List.append_assoc], fun x hx => ?_⟩
  rw [List.map_append, List.count_append, List.count_append]
  exact Nat.add_le_add (hs x hx) (hs' x hx)

theorem Covers.mono {s s' cs rest : List Char} (h : Covers s cs rest) (hs : s' <+ s) :
    Covers s' cs rest := by
  obtain ⟨us, hus, hsub⟩ := h
  exact ⟨us, hus, fun x hx => (hs.count_le x).trans (hsub x hx)⟩

theorem covers_plain {h : List Char} (hh : ∀ c ∈ h, c ≠ '\\') (w : List Char) :
    Covers h (h ++ w) w :=
  ⟨_, units_plain hh w, fun x _ => by simp [Function.comp_def]⟩

theorem covers_cons {c : Char} {cs : List Char} (h : startsEscape (c :: cs) = false) :
    Covers [c] (c :: cs) cs := ⟨[(false, c)], units_cons h, fun _ _ => le_refl _⟩

theorem covers_escape {c : Char} {cs : List Char} (h : startsEscape (c :: cs) = true) :
    Covers [(escaped cs).1] (c :: cs) (escaped cs).2 :=
  ⟨[(true, (escaped cs).1)], units_escape h, fun _ _ => le_refl _⟩

theorem covers_name (cs : List Char) : Covers (name cs).1 cs (name cs).2 := by
  fun_induction name cs with
  | case1 => exact .refl _
  | case2 c cs hc rest ih =>
    have hne : c ≠ '\\' := by
      rintro rfl
      exact absurd hc (by decide)
    exact (covers_cons (startsEscape_of_ne hne cs)).trans ih
  | case3 c cs _ hesc e rest ih => exact (covers_escape hesc).trans ih
  | case4 => exact .refl _

theorem covers_blanks (cs : List Char) : Covers [] cs (cs.dropWhile isBlank) := by
  have hblanks : ∀ c ∈ cs.takeWhile isBlank, c ≠ '\\' := by
    rintro c hc rfl
    exact absurd (List.mem_takeWhile_imp hc) (by decide)
  have h := covers_plain hblanks (cs.dropWhile isBlank)
  rw [List.takeWhile_append_dropWhile] at h
  exact h.mono (List.nil_sublist _)

theorem covers_dropNewline {d : Char} {ds : List Char} (hd : isNewline d = true) :
    Covers [] (d :: ds) (dropNewline (d :: ds)) := by
  have hne {c : Char} (hc : isNewline c = true) : c ≠ '\\' := by
    rintro rfl
    exact absurd hc (by decide)
  unfold dropNewline
  split
  next cs heq =>
    rw [heq]
    exact (covers_plain (h := ['\r', '\n']) (by simp) cs).mono (List.nil_sublist _)
  next heq =>
    cases heq
    exact (covers_cons (startsEscape_of_ne (hne hd) _)).mono (List.nil_sublist _)
  next heq => cases heq

theorem covers_quoted {q : Char} (hq : q ≠ '\\') (cs : List Char) :
    Covers ((quoted q cs).1.getD []) cs (quoted q cs).2 := by
  fun_induction quoted q cs with
  | case1 => exact .refl _
  | case2 c cs hc =>
    obtain rfl : c = q := by simpa using hc
    exact (covers_cons (startsEscape_of_ne hq cs)).mono (List.nil_sublist _)
  | case3 => exact .refl _
  | case4 c hq' hline hc =>
    obtain rfl : c = '\\' := by simpa using hc
    exact (covers_escape (show startsEscape ['\\'] = true from rfl)).mono (List.nil_sublist _)
  | case5 c _ _ hc d ds hd ih =>
    obtain rfl : c = '\\' := by simpa using hc
    have hesc : startsEscape ('\\' :: d :: ds) = false := by simp [startsEscape, hd]
    exact (((covers_cons hesc).mono (List.nil_sublist _)).trans (covers_dropNewline hd)).trans ih
  | case6 c _ _ hc d ds hd e rest ih =>
    obtain rfl : c = '\\' := by simpa using hc
    have hesc : startsEscape ('\\' :: d :: ds) = true := by simp [startsEscape, hd]
    have h := (covers_escape hesc).trans ih
    cases hr : rest.1 with
    | none => exact h.mono (List.nil_sublist _)
    | some v =>
      rw [show (quoted q e.2).1 = some v from hr] at h
      exact h
  | case7 c cs _ _ hc rest ih =>
    have h := (covers_cons (startsEscape_of_ne (by simpa using hc) cs)).trans ih
    cases hr : rest.1 with
    | none => exact h.mono (List.nil_sublist _)
    | some v =>
      rw [show (quoted q cs).1 = some v from hr] at h
      exact h

/-- An address may hold the line end after a backslash, which is no escape. -/
theorem covers_urlQuoted {q : Char} (hq : q ≠ '\\') (cs : List Char) :
    Covers (urlQuoted q cs).1 cs (urlQuoted q cs).2 := by
  fun_induction urlQuoted q cs with
  | case1 => exact .refl _
  | case2 c cs hc =>
    obtain rfl : c = q := by simpa using hc
    exact (covers_cons (startsEscape_of_ne hq cs)).mono (List.nil_sublist _)
  | case3 c cs _ hc e rest ih =>
    simp only [Bool.and_eq_true, beq_iff_eq, Bool.not_eq_true'] at hc
    obtain ⟨rfl, hcs⟩ := hc
    cases hesc : startsEscape ('\\' :: cs) with
    | true => exact (covers_escape hesc).trans ih
    | false =>
      cases cs with
      | nil => cases hcs
      | cons d ds =>
        have hline : isNewline d = true := by simpa [startsEscape] using hesc
        have hread : escaped (d :: ds) = (d, ds) ∧ d ≠ '\\' := by
          simp only [isNewline, Bool.or_eq_true, beq_iff_eq] at hline
          rcases hline with (rfl | rfl) | rfl <;> exact ⟨rfl, by decide⟩
        have he : e = (d, ds) := hread.1
        have hrest : rest = urlQuoted q ds := by simp [rest, he]
        have htail := (covers_cons (startsEscape_of_ne hread.2 ds)).trans
          (show Covers (urlQuoted q ds).1 ds (urlQuoted q ds).2 by simpa [he] using ih)
        rw [hrest, he]
        exact ((covers_cons hesc).trans htail).mono (List.sublist_cons_self _ _)
  | case4 c cs _ hc rest ih =>
    cases hesc : startsEscape (c :: cs) with
    | false => exact (covers_cons hesc).trans ih
    | true =>
      obtain rfl := eq_of_startsEscape hesc
      obtain rfl : cs = [] := by simpa using hc
      have hrest : rest = ([], []) := by simp [rest, urlQuoted]
      rw [hrest]
      refine ⟨[(true, replacement)], ?_, fun x hx => ?_⟩
      · rw [units_escape hesc]
        rfl
      · simp [List.count_singleton, Ne.symm hx]

theorem covers_urlPlain (cs : List Char) : Covers (urlPlain cs).1 cs (urlPlain cs).2 := by
  fun_induction urlPlain cs with
  | case1 => exact .refl _
  | case2 c cs hc =>
    obtain rfl : c = ')' := by simpa using hc
    exact (covers_cons (startsEscape_of_ne (by decide) cs)).mono (List.nil_sublist _)
  | case3 c cs _ hesc e rest ih => exact (covers_escape hesc).trans ih
  | case4 c cs _ hesc rest ih => exact (covers_cons (by simpa using hesc)).trans ih

theorem escaped_split (d : Char) (ds : List Char) : escaped (d :: ds) = (d, ds) ∨
    ∃ h, d :: ds = h ++ (escaped (d :: ds)).2 ∧ ∀ c ∈ h, isHexDigit c = true ∨ isBlank c = true := by
  unfold escaped
  dsimp only
  split
  next hd =>
    refine .inr ?_
    have htake : (ds.take 5).takeWhile isHexDigit ++
        ds.drop ((ds.take 5).takeWhile isHexDigit).length = ds := by
      have hprefix : (ds.take 5).takeWhile isHexDigit <+: ds :=
        (List.takeWhile_prefix _).trans (List.take_prefix _ _)
      exact List.prefix_iff_eq_append.mp hprefix
    have hhex : ∀ c ∈ d :: (ds.take 5).takeWhile isHexDigit, isHexDigit c = true ∨ isBlank c = true := by
      intro c hc
      rcases List.mem_cons.mp hc with rfl | hc
      · exact .inl hd
      · exact .inl (List.mem_takeWhile_imp hc)
    unfold dropBlank
    split
    next b rest hb =>
      rw [hb] at htake
      split
      next hblank =>
        refine ⟨d :: (ds.take 5).takeWhile isHexDigit ++ [b], ?_, ?_⟩
        · simpa using htake.symm
        · intro c hc
          rcases List.mem_append.mp hc with hc | hc
          · exact hhex c hc
          · rw [List.mem_singleton.mp hc]
            exact .inr hblank
      · exact ⟨_, by simpa using htake.symm, hhex⟩
    next hnil =>
      rw [hnil] at htake
      exact ⟨_, by simpa using htake.symm, hhex⟩
  · exact .inl rfl

section Passes
variable {f : List Char → List Char} {mark : Char}

theorem passes_append (hpass : ∀ c cs, c ≠ mark → f (c :: cs) = f cs)
    (hhex : isHexDigit mark = false) (hblank : isBlank mark = false) {h : List Char}
    (hh : ∀ c ∈ h, isHexDigit c = true ∨ isBlank c = true) (w : List Char) : f (h ++ w) = f w := by
  induction h with
  | nil => rfl
  | cons c h ih =>
    rw [List.forall_mem_cons] at hh
    rw [List.cons_append, hpass, ih hh.2]
    rintro rfl
    simp [hhex, hblank] at hh

theorem covers_past (hpass : ∀ c cs, c ≠ mark → f (c :: cs) = f cs)
    (hmark : ∀ cs, f (mark :: cs) = f cs ∨ Covers [] cs (f (mark :: cs))) {text cs : List Char}
    (c : Char) (h : Covers [] text cs) (hrest : Covers [] cs (f cs)) :
    Covers [] text (f (c :: cs)) := by
  by_cases hc : c = mark
  · subst hc
    rcases hmark cs with heq | hcovers
    · rw [heq]
      exact h.trans hrest
    · exact h.trans hcovers
  · rw [hpass c cs hc]
    exact h.trans hrest

/-- A reader that passes over every character but its mark passes over an escape as a whole. -/
theorem covers_of_passes (f : List Char → List Char) (mark : Char) (hnil : f [] = [])
    (hpass : ∀ c cs, c ≠ mark → f (c :: cs) = f cs) (hhex : isHexDigit mark = false)
    (hblank : isBlank mark = false) (hback : mark ≠ '\\')
    (hmark : ∀ cs, f (mark :: cs) = f cs ∨ Covers [] cs (f (mark :: cs))) (cs : List Char) :
    Covers [] cs (f cs) := by
  fun_induction units cs with
  | case1 =>
    rw [hnil]
    exact .refl _
  | case2 c cs hesc e ih =>
    obtain rfl := eq_of_startsEscape hesc
    have hescape : Covers [] ('\\' :: cs) e.2 := (covers_escape hesc).mono (List.nil_sublist _)
    rw [hpass _ _ hback.symm]
    cases cs with
    | nil =>
      rw [hnil]
      exact hescape
    | cons d ds =>
      rcases escaped_split d ds with he | ⟨h, heq, hh⟩
      · -- the escape stands for the character behind the backslash, which may be the mark
        rw [show e = (d, ds) from he] at hescape ih
        exact covers_past hpass hmark d hescape ih
      · have hpassed : f (d :: ds) = f e.2 :=
          (congrArg f heq).trans (passes_append hpass hhex hblank hh _)
        rw [hpassed]
        exact hescape.trans ih
  | case3 c cs hesc ih =>
    have hcons := (covers_cons (by simpa using hesc)).mono (List.nil_sublist _)
    exact covers_past hpass hmark c hcons ih

end Passes

theorem covers_dropParen (cs : List Char) : Covers [] cs ((cs.dropWhile (· != ')')).drop 1) := by
  refine covers_of_passes (fun cs => (cs.dropWhile (· != ')')).drop 1) ')' rfl
    (fun c cs hc => ?_) rfl rfl (by decide) (fun cs => .inr ?_) cs
  · simp [hc]
  · simpa using Covers.refl cs

theorem comment_cons {c : Char} {cs : List Char} (h : c = '*' → cs.head? ≠ some '/') :
    comment (c :: cs) = (c :: (comment cs).1, (comment cs).2) := by
  rw [comment]
  rintro cs rfl rfl
  exact h rfl rfl

theorem covers_comment (cs : List Char) : Covers [] cs (comment cs).2 := by
  refine covers_of_passes (fun cs => (comment cs).2) '*' rfl
    (fun c cs hc => ?_) rfl rfl (by decide) (fun cs => ?_) cs
  · have hcons : comment (c :: cs) = _ := comment_cons fun h => absurd h hc
    simp [hcons]
  · by_cases hcs : cs.head? = some '/'
    · obtain ⟨cs, rfl⟩ : ∃ rest, cs = '/' :: rest := by
        cases cs with
        | nil => cases hcs
        | cons d cs =>
          cases hcs
          exact ⟨cs, rfl⟩
      refine .inr ?_
      rw [comment]
      exact (covers_cons (startsEscape_of_ne (by decide) cs)).mono (List.nil_sublist _)
    · simp [comment_cons fun _ => hcs]

theorem trimEnd_sublist (cs : List Char) : trimEnd cs <+ cs := by
  have h := (List.dropWhile_sublist (p := isBlank) (l := cs.reverse)).reverse
  rwa [List.reverse_reverse] at h

theorem covers_url (cs : List Char) : Covers (url cs).1 cs (url cs).2 := by
  have hblanks := covers_blanks cs
  unfold url
  dsimp only
  split
  next c rest heq =>
    split
    next hq =>
      have hne : c ≠ '\\' := by
        rintro rfl
        exact absurd hq (by decide)
      have hopen := (covers_cons (startsEscape_of_ne hne rest)).mono (List.nil_sublist _)
      rw [heq] at hblanks
      have h := ((hblanks.trans hopen).trans (covers_urlQuoted hne rest)).trans (covers_dropParen _)
      exact h.mono (by simp)
    · have h := hblanks.trans (covers_urlPlain _)
      exact h.mono (trimEnd_sublist _)
  next heq =>
    rw [heq] at hblanks
    exact hblanks

theorem covers_named (cs : List Char) : Covers (named cs).1.payload cs (named cs).2 := by
  have hname := covers_name cs
  unfold named
  dsimp only
  split
  next rest heq =>
    rw [heq] at hname
    have hopen := (covers_cons (startsEscape_of_ne (by decide) rest)).mono (List.nil_sublist ['('])
    split
    · have h := ((hname.mono (List.nil_sublist _)).trans hopen).trans (covers_url rest)
      simpa [Kind.payload] using h
    · simpa [Kind.payload] using hname.trans hopen
  · simpa [Kind.payload] using hname

theorem covers_numeric {c : Char} {cs : List Char} (h : startsNumber (c :: cs) = true) :
    Covers (numeric (c :: cs)).1.payload (c :: cs) (numeric (c :: cs)).2 := by
  have hback := (isNumeral_numeral h).not_mem (c := '\\') (by decide)
  have hnumeral := covers_plain (fun d hd => ne_of_mem_of_not_mem hd hback) (numeral (c :: cs)).2
  rw [numeral_split] at hnumeral
  unfold numeric
  dsimp only
  split
  next rest heq =>
    rw [heq] at hnumeral
    have hpercent := (covers_cons (startsEscape_of_ne (by decide) rest)).mono
      (List.nil_sublist ['%'])
    simpa [Kind.payload] using hnumeral.trans hpercent
  · split
    · simpa [Kind.payload] using hnumeral.trans (covers_name _)
    · simpa [Kind.payload] using hnumeral

theorem covers_commentMark (cs : List Char) :
    Covers (Kind.comment (String.ofList (comment cs).1)).payload ('/' :: '*' :: cs)
      (comment cs).2 := by
  have hopen := (covers_plain (h := ['/', '*']) (by simp) cs).mono (List.nil_sublist _)
  simp only [Kind.payload, String.toList_ofList]
  split
  next hhead =>
    cases cs with
    | nil => cases hhead
    | cons c cs =>
      have hne : c = '*' → cs.head? ≠ some '/' := by
        rintro rfl hcs
        cases cs with
        | nil => cases hcs
        | cons d cs =>
          cases hcs
          cases hhead
      rw [comment_cons hne] at hhead ⊢
      obtain rfl : c = '=' := by simpa using hhead
      exact (hopen.trans (covers_cons (startsEscape_of_ne (by decide) cs))).trans
        (covers_comment cs)
  · exact hopen.trans (covers_comment cs)

theorem covers_marked {c : Char} {cs : List Char} (h : startsEscape (c :: cs) = false) :
    Covers (marked c cs).1.payload (c :: cs) (marked c cs).2 := by
  have hc := covers_cons h
  have hc' := hc.mono (List.nil_sublist _)
  unfold marked
  split
  · exact covers_commentMark _
  · split
    · simpa [Kind.payload] using hc'.trans (covers_name _)
    · exact hc
  · split
    · simpa [Kind.payload] using hc'.trans (covers_name _)
    · exact hc
  · exact (covers_plain (h := ['<', '!', '-', '-']) (by simp) _).mono (List.nil_sublist _)
  all_goals first
    | exact hc
    | exact hc'
    | exact hc.trans (covers_cons (startsEscape_of_ne (by decide) _))

theorem startsEscape_of_not_startsName {c : Char} {cs : List Char}
    (h : startsName (c :: cs) = false) : startsEscape (c :: cs) = false := by
  cases hesc : startsEscape (c :: cs) with
  | false => rfl
  | true =>
    obtain rfl := eq_of_startsEscape hesc
    simp [startsName, hesc] at h

theorem covers_of_reads {text rest : List Char} {k : Kind} (h : Reads text k rest) :
    Covers k.payload text rest := by
  obtain ⟨c, cs, rfl, hscan⟩ := h
  unfold scan at hscan
  split at hscan
  next hblank =>
    cases hscan
    have h := covers_blanks (c :: cs)
    rwa [List.dropWhile_cons_of_pos hblank] at h
  split at hscan
  next hquote =>
    have hne : c ≠ '\\' := by
      rintro rfl
      exact absurd hquote (by decide)
    have h := ((covers_cons (startsEscape_of_ne hne cs)).mono (List.nil_sublist _)).trans
      (covers_quoted hne cs)
    cases hscan
    cases hq : (quoted c cs).1 with
    | none => exact h.mono (List.nil_sublist _)
    | some value => simpa [hq, Kind.payload] using h
  split at hscan
  next hnumber =>
    have h := covers_numeric hnumber
    rwa [hscan] at h
  split at hscan
  next hcdc =>
    cases hscan
    simp only [Bool.and_eq_true, beq_iff_eq, List.isPrefixOf_iff_prefix] at hcdc
    obtain ⟨rfl, rest, rfl⟩ := hcdc
    exact (covers_plain (h := ['-', '-', '>']) (by simp) rest).mono (List.nil_sublist _)
  split at hscan
  · have h := covers_named (c :: cs)
    rwa [hscan] at h
  next hname =>
    have h := covers_marked (startsEscape_of_not_startsName (by simpa using hname))
    rwa [hscan] at h

def allKinds (cs : List Char) : List Kind := (lexemes cs).map Lexeme.kind

theorem allKinds_of_reads {text rest : List Char} {k : Kind} (h : Reads text k rest) :
    allKinds text = k :: allKinds rest := by
  obtain ⟨c, cs, rfl, hscan⟩ := h
  rw [allKinds, lexemes, hscan]
  rfl

theorem map_kind_tokenize (text : String) :
    (tokenize text).map Token.kind = allKinds text.toList ++ [.eof] := by
  rw [tokenize, List.map_append, tokens, map_kind_place]
  rfl

/-- The tokens of a text hold no more of a character than its units. -/
theorem covers_allKinds (cs : List Char) : Covers ((allKinds cs).flatMap Kind.payload) cs [] := by
  induction hn : cs.length using Nat.strong_induction_on generalizing cs with
  | _ n ih =>
    cases cs with
    | nil =>
      rw [allKinds, lexemes]
      exact .refl _
    | cons c cs =>
      have hread : Reads (c :: cs) (scan c cs).1 (scan c cs).2 := ⟨c, cs, rfl, rfl⟩
      rw [allKinds_of_reads hread, List.flatMap_cons]
      refine (covers_of_reads hread).trans (ih _ ?_ _ rfl)
      have := scan_length_le c cs
      simp only [List.length_cons] at hn
      omega

theorem mem_units_of_name_hyphen {cs : List Char} (h : startsName cs = true)
    (hname : (name cs).1 = ['-']) : (true, '-') ∈ units cs := by
  obtain ⟨c, cs, rfl⟩ := ne_nil_of_startsName h
  rw [name] at hname
  split at hname
  · injection hname with hc hrest
    subst hc
    obtain ⟨hbegins, hhead⟩ := not_begins_of_not_continues (name_of_eq_nil hrest).2
    rw [startsName_hyphen, hbegins, Bool.or_false] at h
    cases cs with
    | nil => cases h
    | cons d cs => simp_all
  · split at hname
    next hesc =>
      injection hname with hc _
      rw [units_escape hesc, hc]
      exact List.mem_cons_self
    · cases hname

theorem named_name {cs rest : List Char} {k : Kind} {n : String} (h : named cs = (k, rest))
    (hk : k.name? = some n) : n = String.ofList (name cs).1 := by
  unfold named at h
  dsimp only at h
  split at h
  · split at h <;> cases h <;> cases hk
    rfl
  · cases h
    cases hk
    rfl

theorem marked_name {c : Char} {cs rest : List Char} {k : Kind} {n : String}
    (h : marked c cs = (k, rest)) (hk : k.name? = some n) :
    c = '@' ∧ startsName cs = true ∧ n = String.ofList (name cs).1 := by
  unfold marked at h
  split at h
  case h_3 =>
    split at h
    next hname =>
      cases h
      cases hk
      exact ⟨rfl, hname, rfl⟩
    · cases h
      cases hk
  case h_2 => split at h <;> cases h <;> cases hk
  all_goals
    cases h
    cases hk

/-- A token whose name is a lone hyphen comes from an escape. -/
theorem mem_units_of_hyphen {text rest : List Char} {k : Kind} (h : Reads text k rest)
    (hk : k.name? = some "-") : (true, '-') ∈ units text := by
  have hname {cs : List Char} (hn : "-" = String.ofList (name cs).1) : (name cs).1 = ['-'] := by
    simpa using (congrArg String.toList hn).symm
  obtain ⟨c, cs, rfl, hscan⟩ := h
  rcases scan_cases hscan with ⟨rfl, -⟩ | (rfl | ⟨value, rfl⟩) | ⟨hn, -⟩ | rfl |
    ⟨-, hstarts, hn⟩ | ⟨-, hn⟩
  · cases hk
  · cases hk
  · cases hk
  · cases k with
    | ident _ | function _ | atKeyword _ => cases hn
    | _ => cases hk
  · cases hk
  · exact mem_units_of_name_hyphen hstarts (hname (named_name hn hk))
  · obtain ⟨rfl, hstarts, hn⟩ := marked_name hn hk
    rw [units_cons (startsEscape_of_ne (by decide) cs)]
    exact List.mem_cons_of_mem _ (mem_units_of_name_hyphen hstarts (hname hn))

/-- A lone backslash stands before a line end. -/
theorem newline_of_reads_backslash {text rest : List Char} (h : Reads text (.delim '\\') rest) :
    ∃ d ds, text = '\\' :: d :: ds ∧ isNewline d = true := by
  obtain ⟨c, cs, rfl, hscan⟩ := h
  rcases scan_cases hscan with ⟨hk, -⟩ | (hk | ⟨value, hk⟩) | ⟨hk, -⟩ | hk | ⟨hk, -⟩ | ⟨hname, hk⟩
  all_goals try cases hk
  have hesc := startsEscape_of_not_startsName hname
  obtain rfl : c = '\\' := by
    unfold marked at hk
    split at hk <;> first
      | cases hk; rfl
      | cases hk
      | split at hk <;> cases hk
  cases cs with
  | nil => cases hesc
  | cons d ds => exact ⟨d, ds, rfl, by simpa [startsEscape] using hesc⟩

theorem exists_reads_of_mem_allKinds {cs : List Char} {k : Kind} (h : k ∈ allKinds cs) :
    ∃ text rest, text <:+ cs ∧ Covers [] cs text ∧ Reads text k rest := by
  induction hn : cs.length using Nat.strong_induction_on generalizing cs with
  | _ n ih =>
    cases cs with
    | nil =>
      rw [allKinds, lexemes] at h
      cases h
    | cons c cs =>
      have hread : Reads (c :: cs) (scan c cs).1 (scan c cs).2 := ⟨c, cs, rfl, rfl⟩
      rw [allKinds_of_reads hread] at h
      rcases List.mem_cons.mp h with rfl | h
      · exact ⟨_, _, List.suffix_refl _, .refl _, hread⟩
      · have := scan_length_le c cs
        simp only [List.length_cons] at hn
        obtain ⟨text, rest, hsuffix, hcovers, hread'⟩ := ih _ (by omega) h rfl
        refine ⟨text, rest, hsuffix.trans (scan_suffix c cs), ?_, hread'⟩
        exact ((covers_of_reads hread).mono (List.nil_sublist _)).trans hcovers

theorem name?_ne_of_mem_allKinds {cs : List Char} {k : Kind} (h : k ∈ allKinds cs)
    (hunits : (true, '-') ∉ units cs) : k.name? ≠ some "-" := by
  intro hk
  obtain ⟨text, rest, -, ⟨us, hus, -⟩, hread⟩ := exists_reads_of_mem_allKinds h
  rw [hus] at hunits
  exact hunits (List.mem_append_right _ (mem_units_of_hyphen hread hk))

def Unbroken (cs : List Char) : Prop := cs.IsChain fun c d => c = '\\' → isNewline d = false

theorem ne_backslash_of_mem_allKinds {cs : List Char} {k : Kind} (h : k ∈ allKinds cs)
    (hcs : Unbroken cs) : k ≠ .delim '\\' := by
  rintro rfl
  obtain ⟨text, rest, hsuffix, -, hread⟩ := exists_reads_of_mem_allKinds h
  obtain ⟨d, ds, rfl, hline⟩ := newline_of_reads_backslash hread
  have hchain := List.IsChain.suffix hcs hsuffix
  rw [List.isChain_cons_cons] at hchain
  rw [hchain.1 rfl] at hline
  cases hline

end Lexer
end Styling
