import Styling.Proofs.Token.Escapes

/-! # What can be a token

The payloads that reading can produce: names are not empty, numerals are numerals, and a lone
character is none that begins another token. Every token of a text is of this form.
-/
namespace Styling
open Lexer

/-- An optional sign, then digits, or optional digits, a point and digits. -/
def IsNumeral (n : List Char) : Prop :=
  ∃ sign whole fraction, n = sign ++ whole ++ fraction ∧
    (sign = [] ∨ sign = ['+'] ∨ sign = ['-']) ∧ (∀ d ∈ whole, d.isDigit = true) ∧
    (fraction = [] ∧ whole ≠ [] ∨
      ∃ d ds, fraction = '.' :: d :: ds ∧ ∀ e ∈ d :: ds, e.isDigit = true)

structure IsDelimiter (c : Char) : Prop where
  blank : isBlank c = false
  quote : isQuote c = false
  nameStart : isNameStart c = false
  digit : c.isDigit = false
  mark : c ∉ ['(', ')', '[', ']', '\x7b', '\x7d', ',', ':', ';']

/-- The kinds that text can be read as. -/
def Kind.Lexical : Kind → Prop
  | ident name => name ≠ ""
  | function name => name ≠ "" ∧ sameWord name.toList ['u', 'r', 'l'] = false
  | atKeyword name => name ≠ ""
  | hash value kind => value ≠ "" ∧ (kind = .unrestricted → opensPlain value.toList = false)
  | delim c => IsDelimiter c
  | number numeral => IsNumeral numeral.toList
  | percentage numeral => IsNumeral numeral.toList
  | dimension numeral unit => IsNumeral numeral.toList ∧ unit ≠ ""
  | eof => False
  | _ => True

theorem ofList_ne_empty {cs : List Char} (h : cs ≠ []) : String.ofList cs ≠ "" := by
  intro he
  exact h (by simpa using congrArg String.toList he)

theorem name_ne_nil_of_continues {cs : List Char}
    (h : (cs.head?.any isNameChar || startsEscape cs) = true) : (name cs).1 ≠ [] := by
  cases cs with
  | nil => simp [startsEscape] at h
  | cons c cs =>
    by_cases hc : isNameChar c = true
    · simp [name_cons hc]
    · have hesc : startsEscape (c :: cs) = true := by simpa [hc] using h
      rw [name]
      simp [hc, hesc]

theorem continues_of_startsName {cs : List Char} (h : startsName cs = true) :
    (cs.head?.any isNameChar || startsEscape cs) = true := by
  cases cs with
  | nil => cases h
  | cons c cs =>
    by_cases hm : c = '-'
    · subst hm
      simp [show isNameChar '-' = true by decide]
    · rw [startsName_eq_begins (by simpa using hm), begins, Bool.or_eq_true] at h
      rw [Bool.or_eq_true]
      refine h.imp_left fun hs => ?_
      exact isNameChar_of_isNameStart hs

theorem name_ne_nil {cs : List Char} (h : startsName cs = true) : (name cs).1 ≠ [] :=
  name_ne_nil_of_continues (continues_of_startsName h)

/-- The name after `#`, if no name begins there, is led by a digit or is a lone hyphen. -/
theorem opensPlain_of_not_startsName {cs : List Char} (h : startsName cs = false)
    (hn : (cs.head?.any isNameChar || startsEscape cs) = true) :
    opensPlain (name cs).1 = false := by
  have digit_of {c : Char} (hc : isNameChar c = true) (hs : isNameStart c = false) (hm : c ≠ '-') :
      c.isDigit = true := by
    simpa [isNameChar, hs, hm] using hc
  cases cs with
  | nil => simp [startsEscape] at hn
  | cons c cs =>
    by_cases hm : c = '-'
    · subst hm
      rw [startsName_hyphen, Bool.or_eq_false_iff, begins, Bool.or_eq_false_iff] at h
      obtain ⟨hhyphen, hstart, hesc⟩ := h
      rw [name_cons (by decide)]
      cases cs with
      | nil =>
        rw [name]
        rfl
      | cons d cs =>
        by_cases hd : isNameChar d = true
        · have hdigit := digit_of hd (by simpa using hstart) (by simpa using hhyphen)
          simp [name_cons hd, opensPlain, hdigit]
        · rw [name]
          simp [hd, hesc, opensPlain]
    · have hb : begins (c :: cs) = false := by
        rw [← startsName_eq_begins (by simpa using hm)]
        exact h
      rw [begins, Bool.or_eq_false_iff] at hb
      obtain ⟨hstart, hesc⟩ := hb
      have hc : isNameChar c = true := by simpa [hesc] using hn
      have hdigit := digit_of hc (by simpa using hstart) hm
      rw [name_cons hc, opensPlain_cons hm, hdigit]
      rfl

def magnitude (cs : List Char) : List Char × List Char :=
  match cs.dropWhile Char.isDigit with
  | '.' :: d :: ds =>
    if d.isDigit then
      (cs.takeWhile Char.isDigit ++ '.' :: (d :: ds).takeWhile Char.isDigit,
        (d :: ds).dropWhile Char.isDigit)
    else (cs.takeWhile Char.isDigit, '.' :: d :: ds)
  | rest => (cs.takeWhile Char.isDigit, rest)

theorem magnitude_point {cs ds : List Char} {d : Char}
    (h : cs.dropWhile Char.isDigit = '.' :: d :: ds) : magnitude cs =
      if d.isDigit then (cs.takeWhile Char.isDigit ++ '.' :: (d :: ds).takeWhile Char.isDigit,
        (d :: ds).dropWhile Char.isDigit)
      else (cs.takeWhile Char.isDigit, '.' :: d :: ds) := by
  unfold magnitude
  rw [h]
  rfl

theorem magnitude_whole {cs : List Char}
    (h : ∀ d ds, cs.dropWhile Char.isDigit = '.' :: d :: ds → False) :
    magnitude cs = (cs.takeWhile Char.isDigit, cs.dropWhile Char.isDigit) := by
  unfold magnitude
  split
  next heq => exact (h _ _ heq).elim
  · rfl

theorem numeral_of_sign {cs sign : List Char}
    (h : (cs.take 1).filter (fun c => c == '+' || c == '-') = sign) :
    numeral cs = (sign ++ (magnitude (cs.drop sign.length)).1,
      (magnitude (cs.drop sign.length)).2) := by
  unfold numeral
  rw [h]
  dsimp only
  split
  next d ds heq =>
    rw [magnitude_point heq]
    cases hd : d.isDigit <;> simp [heq]
  next hother => rw [magnitude_whole hother]

theorem numeral_sign {c : Char} (h : (c == '+' || c == '-') = true) (cs : List Char) :
    numeral (c :: cs) = (c :: (magnitude cs).1, (magnitude cs).2) := by
  have hsign : (List.take 1 (c :: cs)).filter (fun c => c == '+' || c == '-') = [c] := by simp [h]
  exact numeral_of_sign hsign

theorem numeral_of_not_sign {cs : List Char}
    (h : ∀ c ∈ cs.head?, (c == '+' || c == '-') = false) : numeral cs = magnitude cs := by
  have hsign : (cs.take 1).filter (fun c => c == '+' || c == '-') = [] := by
    cases cs with
    | nil => rfl
    | cons c cs => simp [h c rfl]
  exact numeral_of_sign hsign

def startsMagnitude : List Char → Bool
  | '.' :: d :: _ => d.isDigit
  | d :: _ => d.isDigit
  | [] => false

theorem startsMagnitude_cons {c : Char} (hpoint : c ≠ '.') (cs : List Char) :
    startsMagnitude (c :: cs) = c.isDigit := by
  unfold startsMagnitude
  split
  next heq => exact absurd (List.cons.inj heq).1 hpoint
  next heq =>
    cases heq
    rfl
  next heq => cases heq

theorem startsMagnitude_of_isDigit {d : Char} (hd : d.isDigit = true) (cs : List Char) :
    startsMagnitude (d :: cs) = true := by
  rw [startsMagnitude_cons, hd]
  rintro rfl
  exact absurd hd (by decide)

/-- A digit or a point is no blank, no quote and no sign, and begins no word. -/
theorem apart_of_digit_or_point {c : Char} (h : c.isDigit = true ∨ c = '.') :
    isBlank c = false ∧ isQuote c = false ∧ (c == '+' || c == '-') = false ∧
      c.toLower ≠ 'i' ∧ c.toLower ≠ 'n' := by
  rcases h with h | rfl
  · exact ascii_cases (p := fun c => c.isDigit = true → isBlank c = false ∧ isQuote c = false ∧
      (c == '+' || c == '-') = false ∧ c.toLower ≠ 'i' ∧ c.toLower ≠ 'n') (by decide)
      (toNat_lt_of_isDigit h) h
  · decide

theorem magnitude_head {whole fraction : List Char} (hwhole : ∀ d ∈ whole, d.isDigit = true)
    (hfraction : fraction = [] ∧ whole ≠ [] ∨
      ∃ d ds, fraction = '.' :: d :: ds ∧ ∀ e ∈ d :: ds, e.isDigit = true) :
    ∃ c cs, whole ++ fraction = c :: cs ∧ (c.isDigit = true ∨ c = '.') ∧
      ∀ w, startsMagnitude (c :: cs ++ w) = true := by
  cases whole with
  | cons c whole =>
    have hc := hwhole c List.mem_cons_self
    exact ⟨c, whole ++ fraction, rfl, .inl hc, fun w => startsMagnitude_of_isDigit hc _⟩
  | nil =>
    obtain ⟨-, hne⟩ | ⟨d, ds, rfl, hds⟩ := hfraction
    · exact absurd rfl hne
    · exact ⟨'.', d :: ds, rfl, .inr rfl, fun w => hds d List.mem_cons_self⟩

theorem startsNumber_sign {c : Char} (h : (c == '+' || c == '-') = true) (cs : List Char) :
    startsNumber (c :: cs) = startsMagnitude cs := by
  unfold startsNumber
  dsimp only
  rw [if_pos h]
  rfl

theorem startsNumber_of_not_sign {cs : List Char}
    (h : ∀ c ∈ cs.head?, (c == '+' || c == '-') = false) :
    startsNumber cs = startsMagnitude cs := by
  cases cs with
  | nil => rfl
  | cons c cs =>
    have hc := h c rfl
    by_cases hp : c = '.'
    · subst hp
      cases cs <;> rfl
    · rw [startsMagnitude_cons hp]
      simp [startsNumber, hc, hp]

theorem mem_takeWhile_isDigit {cs : List Char} {d : Char} (h : d ∈ cs.takeWhile Char.isDigit) :
    d.isDigit = true := List.mem_takeWhile_imp h

/-- Digits stand in front, unless there is a point before a digit. -/
theorem takeWhile_ne_nil_of_startsMagnitude {cs : List Char} (h : startsMagnitude cs = true)
    (hpoint : ∀ d ds, cs.dropWhile Char.isDigit = '.' :: d :: ds → d.isDigit = false) :
    cs.takeWhile Char.isDigit ≠ [] := by
  intro hnil
  cases cs with
  | nil => cases h
  | cons c cs =>
    have hc : c.isDigit = false := by
      cases hc : c.isDigit with
      | false => rfl
      | true => simp [hc] at hnil
    by_cases hp : c = '.'
    · subst hp
      cases cs with
      | nil => cases h
      | cons d ds => exact absurd h (Bool.eq_false_iff.mp (hpoint d ds rfl))
    · rw [startsMagnitude_cons hp, hc] at h
      cases h

theorem magnitude_spec {cs : List Char} (h : startsMagnitude cs = true) :
    ∃ whole fraction, (magnitude cs).1 = whole ++ fraction ∧ (∀ d ∈ whole, d.isDigit = true) ∧
      (fraction = [] ∧ whole ≠ [] ∨
        ∃ d ds, fraction = '.' :: d :: ds ∧ ∀ e ∈ d :: ds, e.isDigit = true) := by
  have hwhole := takeWhile_ne_nil_of_startsMagnitude h
  unfold magnitude
  split
  next d ds heq =>
    split
    next hd =>
      refine ⟨_, _, rfl, fun d hd => mem_takeWhile_isDigit hd, .inr ⟨d, ds.takeWhile Char.isDigit, ?_, ?_⟩⟩
      · rw [List.takeWhile_cons_of_pos hd]
      · intro e he
        rcases List.mem_cons.mp he with rfl | he
        · exact hd
        · exact mem_takeWhile_isDigit he
    next hd =>
      refine ⟨_, [], (List.append_nil _).symm, fun d hd => mem_takeWhile_isDigit hd, .inl ⟨rfl, hwhole ?_⟩⟩
      intro d' ds' heq'
      rw [heq] at heq'
      cases heq'
      simpa using hd
  next hother =>
    refine ⟨_, [], (List.append_nil _).symm, fun d hd => mem_takeWhile_isDigit hd, .inl ⟨rfl, hwhole ?_⟩⟩
    intro d ds heq
    exact absurd heq (hother d ds)

theorem isNumeral_numeral {c : Char} {cs : List Char} (h : startsNumber (c :: cs) = true) :
    IsNumeral (numeral (c :: cs)).1 := by
  by_cases hs : (c == '+' || c == '-') = true
  · rw [startsNumber_sign hs] at h
    obtain ⟨whole, fraction, heq, hwhole, hfraction⟩ := magnitude_spec h
    refine ⟨[c], whole, fraction, ?_, ?_, hwhole, hfraction⟩
    · rw [numeral_sign hs, heq]
      rfl
    · rcases Bool.or_eq_true_iff.mp hs with hs | hs <;> simp [beq_iff_eq.mp hs]
  · have hs' : ∀ d ∈ (c :: cs).head?, (d == '+' || d == '-') = false := by
      intro d hd
      obtain rfl := Option.some.inj hd
      simpa using hs
    rw [startsNumber_of_not_sign hs'] at h
    obtain ⟨whole, fraction, heq, hwhole, hfraction⟩ := magnitude_spec h
    refine ⟨[], whole, fraction, ?_, .inl rfl, hwhole, hfraction⟩
    rw [numeral_of_not_sign hs', heq]
    rfl

theorem lexical_numeric {c : Char} {cs : List Char} (h : startsNumber (c :: cs) = true) :
    (numeric (c :: cs)).1.Lexical := by
  have hn := isNumeral_numeral h
  rw [← String.toList_ofList (l := (numeral (c :: cs)).1)] at hn
  unfold numeric
  dsimp only
  split
  · exact hn
  · split
    next hs => exact ⟨hn, ofList_ne_empty (name_ne_nil hs)⟩
    · exact hn

theorem lexical_named {cs : List Char} (h : startsName cs = true) : (named cs).1.Lexical := by
  have hne := ofList_ne_empty (name_ne_nil h)
  unfold named
  dsimp only
  split
  · split
    · trivial
    next hw => exact ⟨hne, by simpa using hw⟩
  · exact hne

theorem lexical_marked {c : Char} {cs : List Char} (hblank : isBlank c = false)
    (hquote : isQuote c = false) (hnum : startsNumber (c :: cs) = false)
    (hname : startsName (c :: cs) = false) : (marked c cs).1.Lexical := by
  have hdigit : c.isDigit = false := by
    have hsign : (c == '+' || c == '-') = true → c.isDigit = false := by
      simp only [Bool.or_eq_true, beq_iff_eq]
      rintro (rfl | rfl) <;> decide
    by_cases hs : (c == '+' || c == '-') = true
    · exact hsign hs
    · by_cases hp : c = '.'
      · subst hp
        decide
      · simpa [startsNumber, hs, hp] using hnum
  have hstart : isNameStart c = false := by
    by_cases hm : c = '-'
    · subst hm
      decide
    · have hb : begins (c :: cs) = false := by
        rw [← startsName_eq_begins (by simpa using hm)]
        exact hname
      rw [begins, Bool.or_eq_false_iff] at hb
      simpa using hb.1
  unfold marked
  split <;> try trivial
  · split
    next hn =>
      refine ⟨ofList_ne_empty (name_ne_nil_of_continues hn), fun hkind => ?_⟩
      rw [String.toList_ofList]
      refine opensPlain_of_not_startsName ?_ hn
      cases hs : startsName cs with
      | false => rfl
      | true => simp [hs] at hkind
    · exact ⟨by decide, by decide, by decide, by decide, by decide⟩
  · split
    next hs => exact ofList_ne_empty (name_ne_nil hs)
    · exact ⟨by decide, by decide, by decide, by decide, by decide⟩
  next hcolon hsemicolon hcomma hopen hclose hopen' hclose' hopen'' hclose'' _ _ _ _ _ _ _ =>
    refine ⟨hblank, hquote, hstart, hdigit, ?_⟩
    simp only [List.mem_cons, List.not_mem_nil, or_false, not_or]
    exact ⟨hopen, hclose, hopen', hclose', hopen'', hclose'', hcomma, hcolon, hsemicolon⟩

theorem lexical_scan (c : Char) (cs : List Char) : (scan c cs).1.Lexical := by
  unfold scan
  split
  · trivial
  split
  · dsimp only
    split <;> trivial
  split
  next h => exact lexical_numeric h
  split
  · trivial
  split
  next h => exact lexical_named h
  next hblank hquote hnum hcdc hname =>
    exact lexical_marked (by simpa using hblank) (by simpa using hquote) (by simpa using hnum)
      (by simpa using hname)

/-- Every lexeme of a text is lexical. -/
theorem lexical_of_mem_lexemes {cs : List Char} {l : Lexeme} (h : l ∈ lexemes cs) :
    l.kind.Lexical := by
  fun_induction lexemes cs with
  | case1 => cases h
  | case2 c cs next ih =>
    rcases List.mem_cons.mp h with rfl | h
    · exact lexical_scan c cs
    · exact ih h

theorem map_kind_place (offset line : Nat) (ls : List Lexeme) :
    (place offset line ls).map Token.kind = ls.map Lexeme.kind := by
  induction ls generalizing offset line with
  | nil => rfl
  | cons l ls ih => simp [place, ih]

theorem lexical_of_mem_tokens {cs : List Char} {t : Token} (h : t ∈ tokens cs) :
    t.kind.Lexical := by
  have hk : t.kind ∈ (lexemes cs).map Lexeme.kind := by
    rw [← map_kind_place 0 1]
    exact List.mem_map_of_mem h
  obtain ⟨l, hl, heq⟩ := List.mem_map.mp hk
  exact heq ▸ lexical_of_mem_lexemes hl

end Styling
