import Mathlib.Data.List.TakeWhile
import Styling.Token.Lexer
import Styling.Token.Written

/-! # Reading escapes back

Names, quoted values and addresses are written with escapes, and reading undoes them in any
context. Only U+0000 is lost: no escape names it, and it comes back as U+FFFD.
-/
namespace Styling
open Lexer

def legible (c : Char) : Char := if c = '\x00' then replacement else c

theorem map_legible {cs : List Char} (h : '\x00' ∉ cs) : cs.map legible = cs := by
  have hmap : cs.map legible = cs.map id := by
    refine List.map_congr_left fun c hc => ?_
    have hne : c ≠ '\x00' := by
      rintro rfl
      exact h hc
    simp [legible, hne]
  rw [hmap, List.map_id]

theorem not_mem_map_legible (cs : List Char) : '\x00' ∉ cs.map legible := by
  intro h
  obtain ⟨c, -, hc⟩ := List.mem_map.mp h
  unfold legible at hc
  split at hc
  · exact absurd hc (by decide)
  next hne => exact hne hc

theorem map_legible_iff {cs : List Char} : cs.map legible = cs ↔ '\x00' ∉ cs := by
  refine ⟨fun h => ?_, map_legible⟩
  rw [← h]
  exact not_mem_map_legible cs

/-- The three ways to write a character in a name. -/
theorem nameCharText_cases (c : Char) :
    (isNameChar c = true ∧ nameCharText c = [c]) ∨
    (isControl c = true ∧ nameCharText c = hexEscape c) ∨
    (isHexDigit c = false ∧ isNewline c = false ∧ isNameChar c = false ∧ c ≠ '\x00' ∧
      nameCharText c = ['\\', c]) := by
  by_cases hn : isNonAscii c = true
  · exact .inl ⟨by simp [isNameChar, isNameStart, hn], by simp [nameCharText, hn]⟩
  · have hlt := toNat_lt_of_not_isNonAscii (by simpa using hn)
    revert hn
    refine ascii_cases (p := fun c => ¬ isNonAscii c = true →
      (isNameChar c = true ∧ nameCharText c = [c]) ∨
      (isControl c = true ∧ nameCharText c = hexEscape c) ∨
      (isHexDigit c = false ∧ isNewline c = false ∧ isNameChar c = false ∧ c ≠ '\x00' ∧
        nameCharText c = ['\\', c])) ?_ hlt
    decide

theorem hexText_digits : ∀ n < 128,
    (hexText n).all (fun c => isHexDigit c && !isNewline c) = true := by decide

theorem hexText_value : ∀ n < 128, (hexText n).length ≤ 2 ∧ hexText n ≠ [] ∧
    codePoint (hexValue (hexText n)) = legible (Char.ofNat n) := by decide

theorem hexText_of_lt (n : Nat) (h : n < 128) :
    (∀ c ∈ hexText n, isHexDigit c = true ∧ isNewline c = false) ∧
      (hexText n).length ≤ 2 ∧ hexText n ≠ [] ∧
      codePoint (hexValue (hexText n)) = legible (Char.ofNat n) := by
  refine ⟨fun c hc => ?_, hexText_value n h⟩
  simpa using List.all_eq_true.mp (hexText_digits n h) c hc

theorem hexText_cons {c : Char} (h : c.toNat < 128) : ∃ d ds, hexText c.toNat = d :: ds ∧
    (isHexDigit d = true ∧ isNewline d = false) ∧ (∀ e ∈ ds, isHexDigit e = true) ∧
      ds.length ≤ 1 ∧ codePoint (hexValue (d :: ds)) = legible c := by
  obtain ⟨hhex, hlen, hne, hvalue⟩ := hexText_of_lt c.toNat h
  rw [Char.ofNat_toNat] at hvalue
  cases hd : hexText c.toNat with
  | nil => exact absurd hd hne
  | cons d ds =>
    rw [hd] at hhex hlen hvalue
    exact ⟨d, ds, rfl, hhex d List.mem_cons_self,
      fun e he => (hhex e (List.mem_cons_of_mem _ he)).1, by simpa using hlen, hvalue⟩

/-- An escape by code, with the blank that ends it. -/
theorem escaped_hexText {c : Char} (h : c.toNat < 128) (w : List Char) :
    escaped (hexText c.toNat ++ ' ' :: w) = (legible c, w) := by
  obtain ⟨d, ds, hd, ⟨hdigit, -⟩, hds, hlen, hvalue⟩ := hexText_cons h
  have htake : ((ds ++ ' ' :: w).take 5).takeWhile isHexDigit = ds := by
    have hsplit : (ds ++ ' ' :: w).take 5 = ds ++ ' ' :: w.take (4 - ds.length) := by
      rw [List.take_append, List.take_of_length_le (by omega),
        show 5 - ds.length = (4 - ds.length) + 1 by omega, List.take_succ_cons]
    rw [hsplit, List.takeWhile_append_of_pos hds]
    simp [isHexDigit]
  simp only [hd, List.cons_append, escaped, hdigit, if_true, htake, hvalue, List.drop_left]
  rfl

theorem startsEscape_hexEscape {c : Char} (h : c.toNat < 128) (w : List Char) :
    startsEscape (hexEscape c ++ w) = true := by
  obtain ⟨d, ds, hd, ⟨-, hline⟩, -⟩ := hexText_cons h
  simp [hexEscape, hd, startsEscape, hline]

theorem hexEscape_append (c : Char) (w : List Char) :
    hexEscape c ++ w = '\\' :: (hexText c.toNat ++ ' ' :: w) := by
  simp [hexEscape]

section Names

theorem name_cons {c : Char} (h : isNameChar c = true) (cs : List Char) :
    name (c :: cs) = (c :: (name cs).1, (name cs).2) := by
  rw [name]
  simp [h]

theorem name_escape {cs : List Char} (h : startsEscape ('\\' :: cs) = true) :
    name ('\\' :: cs) = ((escaped cs).1 :: (name (escaped cs).2).1, (name (escaped cs).2).2) := by
  rw [name]
  simp [h, show isNameChar '\\' = false by decide]

def NameEnds (w : List Char) : Prop := ∀ c ∈ w.head?, isNameChar c = false ∧ c ≠ '\\'

theorem NameEnds.not_continues {w : List Char} (h : NameEnds w) :
    (w.head?.any isNameChar || startsEscape w) = false := by
  cases w with
  | nil => rfl
  | cons c w =>
    obtain ⟨hc, hne⟩ := h c rfl
    have hesc : startsEscape (c :: w) = false := by
      unfold startsEscape
      split
      next heq => exact absurd (List.cons.inj heq).1 hne
      next heq => exact absurd (List.cons.inj heq).1 hne
      · rfl
    simp [hc, hesc]

theorem name_of_nameEnds {w : List Char} (h : NameEnds w) : name w = ([], w) := by
  have hends := h.not_continues
  cases w with
  | nil => rw [name]
  | cons c w =>
    rw [Bool.or_eq_false_iff] at hends
    have hc : isNameChar c = false := by simpa using hends.1
    rw [name]
    simp [hc, hends.2]

theorem name_hexEscape {c : Char} (h : c.toNat < 128) (w : List Char) :
    name (hexEscape c ++ w) = (legible c :: (name w).1, (name w).2) := by
  have hstart := startsEscape_hexEscape h w
  rw [hexEscape_append] at hstart ⊢
  rw [name_escape hstart, escaped_hexText h]

theorem name_nameCharText (c : Char) (w : List Char) :
    name (nameCharText c ++ w) = (legible c :: (name w).1, (name w).2) := by
  rcases nameCharText_cases c with ⟨hc, ht⟩ | ⟨hc, ht⟩ | ⟨hhex, hline, -, hzero, ht⟩
  · have hzero : c ≠ '\x00' := by
      rintro rfl
      exact absurd hc (by decide)
    rw [ht, List.singleton_append, name_cons hc, legible, if_neg hzero]
  · rw [ht, name_hexEscape (toNat_lt_of_isControl hc)]
  · have hstart : startsEscape ('\\' :: c :: w) = true := by simp [startsEscape, hline]
    rw [ht, List.cons_append, List.singleton_append, name_escape hstart]
    simp [escaped, hhex, legible, hzero]

theorem name_nameText (v w : List Char) :
    name (nameText v ++ w) = (v.map legible ++ (name w).1, (name w).2) := by
  induction v with
  | nil => rfl
  | cons c v ih =>
    rw [nameText, List.flatMap_cons, List.append_assoc, name_nameCharText, ← nameText, ih]
    rfl

theorem name_leadingDigitText (v w : List Char) :
    name (leadingDigitText v ++ w) = (v.map legible ++ (name w).1, (name w).2) := by
  cases v with
  | nil => rfl
  | cons c v =>
    rw [leadingDigitText, List.append_assoc]
    split
    next hd =>
      rw [name_hexEscape (toNat_lt_of_isDigit hd), name_nameText]
      rfl
    · rw [name_nameCharText, name_nameText]
      rfl

theorem identifierText_hyphen (v : List Char) :
    identifierText ('-' :: v) = '-' :: leadingDigitText v := rfl

theorem identifierText_of_ne {v : List Char} (h : v.head? ≠ some '-') :
    identifierText v = leadingDigitText v := by
  unfold identifierText
  split
  next heq => simp at h
  · rfl

/-- A name that stands alone is read back whole, with whatever it runs into. -/
theorem name_identifierText (v w : List Char) :
    name (identifierText v ++ w) = (v.map legible ++ (name w).1, (name w).2) := by
  unfold identifierText
  split
  next v =>
    rw [List.cons_append, name_cons (by decide), name_leadingDigitText]
    rfl
  · exact name_leadingDigitText _ w

def begins (cs : List Char) : Bool := cs.head?.any isNameStart || startsEscape cs

theorem startsName_eq_begins {cs : List Char} (h : cs.head? ≠ some '-') :
    startsName cs = begins cs := by
  cases cs with
  | nil => rfl
  | cons c cs =>
    have hc : c ≠ '-' := by simpa using h
    simp [begins, startsName, hc]

theorem head?_ne_hyphen_of_begins {cs : List Char} (h : begins cs = true) :
    cs.head? ≠ some '-' := by
  cases cs with
  | nil => simp
  | cons c cs =>
    intro hc
    obtain rfl : c = '-' := by simpa using hc
    have hstart : isNameStart '-' = false := by decide
    simp [begins, startsEscape, hstart] at h

theorem startsName_hyphen {cs : List Char} :
    startsName ('-' :: cs) = (cs.head?.any (· == '-') || begins cs) := by
  cases cs with
  | nil => rfl
  | cons c cs =>
    simp only [startsName, begins, List.head?_cons, Option.any_some, beq_self_eq_true, if_true]
    cases isNameStart c <;> cases c == '-' <;> rfl

theorem begins_hexEscape {c : Char} (h : c.toNat < 128) (w : List Char) :
    begins (hexEscape c ++ w) = true := by
  simp [begins, startsEscape_hexEscape h]

theorem begins_nameCharText {c : Char} (hd : c.isDigit = false) (hc : c ≠ '-') (w : List Char) :
    begins (nameCharText c ++ w) = true := by
  rcases nameCharText_cases c with ⟨hn, ht⟩ | ⟨hn, ht⟩ | ⟨-, hline, -, -, ht⟩
  · have hstart : isNameStart c = true := by simpa [isNameChar, hd, hc] using hn
    simp [ht, begins, hstart]
  · rw [ht]
    exact begins_hexEscape (toNat_lt_of_isControl hn) w
  · simp [ht, begins, startsEscape, hline]

theorem begins_leadingDigitText {c : Char} (hc : c ≠ '-') (v w : List Char) :
    begins (leadingDigitText (c :: v) ++ w) = true := by
  rw [leadingDigitText, List.append_assoc]
  split
  next hd => exact begins_hexEscape (toNat_lt_of_isDigit hd) _
  next hd => exact begins_nameCharText (by simpa using hd) hc _

theorem nameCharText_hyphen : nameCharText '-' = ['-'] := by decide

theorem startsName_identifierText {v : List Char} (hne : v ≠ []) (hv : v ≠ ['-']) (w : List Char) :
    startsName (identifierText v ++ w) = true := by
  cases v with
  | nil => exact absurd rfl hne
  | cons c v =>
    by_cases hc : c = '-'
    · subst hc
      rw [identifierText_hyphen, List.cons_append, startsName_hyphen]
      cases v with
      | nil => exact absurd rfl hv
      | cons d v =>
        by_cases hd : d = '-'
        · subst hd
          simp [leadingDigitText, nameCharText_hyphen]
        · rw [begins_leadingDigitText hd, Bool.or_true]
    · rw [identifierText_of_ne (by simpa using hc)]
      have hbegins := begins_leadingDigitText hc v w
      rw [startsName_eq_begins (head?_ne_hyphen_of_begins hbegins), hbegins]

/-- Whether the characters of a name begin it without an escape of its first digit. -/
def opensPlain : List Char → Bool
  | [] => false
  | ['-'] => false
  | '-' :: d :: _ => !d.isDigit
  | c :: _ => !c.isDigit

theorem opensPlain_cons {c : Char} (hc : c ≠ '-') (v : List Char) :
    opensPlain (c :: v) = !c.isDigit := by
  unfold opensPlain
  split
  next heq => cases heq
  next heq => exact absurd (List.cons.inj heq).1 hc
  next heq => exact absurd (List.cons.inj heq).1 hc
  next heq =>
    cases heq
    rfl

theorem head?_nameText_cons {c : Char} (hc : c ≠ '-') (v w : List Char) :
    (nameText (c :: v) ++ w).head? ≠ some '-' := by
  rw [nameText, List.flatMap_cons, List.append_assoc]
  rcases nameCharText_cases c with ⟨-, ht⟩ | ⟨-, ht⟩ | ⟨-, -, -, -, ht⟩
  · simpa [ht] using hc
  · simp [ht, hexEscape]
  · simp [ht]

theorem any_hyphen_eq_false {cs : List Char} (h : cs.head? ≠ some '-') :
    cs.head?.any (· == '-') = false := by
  cases cs with
  | nil => rfl
  | cons c cs => simpa using h

theorem begins_nameText_cons {c : Char} (hc : c ≠ '-') (v w : List Char) :
    begins (nameText (c :: v) ++ w) = !c.isDigit := by
  rw [nameText, List.flatMap_cons, List.append_assoc]
  cases hd : c.isDigit with
  | false => exact begins_nameCharText hd hc _
  | true =>
    have hplain : nameCharText c = [c] ∧ isNameStart c = false ∧ c ≠ '\\' := by
      refine ascii_cases (p := fun c => c.isDigit = true →
        nameCharText c = [c] ∧ isNameStart c = false ∧ c ≠ '\\') ?_ (toNat_lt_of_isDigit hd) hd
      decide
    obtain ⟨ht, hn, hb⟩ := hplain
    simp [ht, begins, hn, startsEscape, hb]

/-- Where a name cannot go on, none begins. -/
theorem not_begins_of_not_continues {w : List Char}
    (hw : (w.head?.any isNameChar || startsEscape w) = false) :
    begins w = false ∧ w.head? ≠ some '-' := by
  rw [Bool.or_eq_false_iff] at hw
  cases w with
  | nil => exact ⟨rfl, by simp⟩
  | cons c w =>
    have hn : isNameChar c = false := by simpa using hw.1
    have hs : isNameStart c = false := by
      cases hs : isNameStart c with
      | false => rfl
      | true => exact absurd (isNameChar_of_isNameStart hs) (by simp [hn])
    refine ⟨by simp [begins, hs, hw.2], ?_⟩
    intro hc
    obtain rfl : c = '-' := by simpa using hc
    exact absurd hn (by decide)

/-- A name written with its leading digit begins one only if no digit leads it. -/
theorem startsName_nameText {v : List Char} (hne : v ≠ []) {w : List Char}
    (hw : (w.head?.any isNameChar || startsEscape w) = false) :
    startsName (nameText v ++ w) = opensPlain v := by
  cases v with
  | nil => exact absurd rfl hne
  | cons c v =>
    by_cases hc : c = '-'
    · subst hc
      rw [nameText, List.flatMap_cons, nameCharText_hyphen, List.singleton_append, ← nameText,
        List.cons_append, startsName_hyphen]
      cases v with
      | nil =>
        obtain ⟨hbegins, hhead⟩ := not_begins_of_not_continues hw
        rw [nameText, List.flatMap_nil, List.nil_append, hbegins, any_hyphen_eq_false hhead]
        rfl
      | cons d v =>
        by_cases hd : d = '-'
        · subst hd
          simp [nameText, nameCharText_hyphen, opensPlain]
        · rw [begins_nameText_cons hd, any_hyphen_eq_false (head?_nameText_cons hd v w),
            Bool.false_or]
          rfl
    · rw [startsName_eq_begins (head?_nameText_cons hc v w), begins_nameText_cons hc,
        opensPlain_cons hc]

end Names

theorem stringCharText_cases (c : Char) :
    ((c = '"' ∨ c = '\\') ∧ stringCharText c = ['\\', c]) ∨
    (isControl c = true ∧ stringCharText c = hexEscape c) ∨
    (c ≠ '"' ∧ c ≠ '\\' ∧ isControl c = false ∧ isNewline c = false ∧
      stringCharText c = [c]) := by
  by_cases hq : c = '"' ∨ c = '\\'
  · refine .inl ⟨hq, ?_⟩
    have hb : (c == '"' || c == '\\') = true := by simpa using hq
    simp only [stringCharText, hb, if_true]
  · obtain ⟨hq, hb⟩ := not_or.mp hq
    by_cases hc : isControl c = true
    · exact .inr (.inl ⟨hc, by simp [stringCharText, hq, hb, hc]⟩)
    · refine .inr (.inr ⟨hq, hb, by simpa using hc, ?_, by simp [stringCharText, hq, hb, hc]⟩)
      have hline : isNewline c = true → isControl c = true := by
        simp only [isNewline, Bool.or_eq_true, beq_iff_eq]
        rintro ((rfl | rfl) | rfl) <;> decide
      cases hn : isNewline c with
      | false => rfl
      | true => exact absurd (hline hn) hc

theorem legible_of_not_isControl {c : Char} (h : isControl c = false) : legible c = c := by
  have hzero : c ≠ '\x00' := by
    rintro rfl
    exact absurd h (by decide)
  simp [legible, hzero]

theorem quoted_plain {q c : Char} (hq : c ≠ q) (hb : c ≠ '\\') (hline : isNewline c = false)
    (cs : List Char) : quoted q (c :: cs) = ((quoted q cs).1.map (c :: ·), (quoted q cs).2) := by
  rw [quoted.eq_def]
  simp [hq, hb, hline]

theorem quoted_escape {d : Char} (hline : isNewline d = false) (ds : List Char) :
    quoted '"' ('\\' :: d :: ds) =
      ((quoted '"' (escaped (d :: ds)).2).1.map ((escaped (d :: ds)).1 :: ·),
        (quoted '"' (escaped (d :: ds)).2).2) := by
  rw [quoted.eq_def]
  simp [hline, show isNewline '\\' = false by decide]

/-- A quoted value is read back up to its closing quote, whatever follows. -/
theorem quoted_stringText (v w : List Char) :
    quoted '"' (v.flatMap stringCharText ++ '"' :: w) = (some (v.map legible), w) := by
  induction v with
  | nil =>
    rw [List.flatMap_nil, List.nil_append, quoted.eq_def]
    simp
  | cons c v ih =>
    rw [List.flatMap_cons, List.append_assoc]
    rcases stringCharText_cases c with ⟨hc, ht⟩ | ⟨hc, ht⟩ | ⟨hq, hb, hc, hline, ht⟩
    · have hesc : isNewline c = false ∧ isHexDigit c = false ∧ legible c = c := by
        rcases hc with rfl | rfl <;> decide
      rw [ht, List.cons_append, List.singleton_append, quoted_escape hesc.1]
      simp [escaped, hesc, ih]
    · obtain ⟨d, ds, hd, ⟨-, hline⟩, -⟩ := hexText_cons (toNat_lt_of_isControl hc)
      have hread := escaped_hexText (toNat_lt_of_isControl hc) (v.flatMap stringCharText ++ '"' :: w)
      rw [hd, List.cons_append] at hread
      rw [ht, hexEscape_append, hd, List.cons_append, quoted_escape hline, hread, ih]
      rfl
    · rw [ht, List.singleton_append, quoted_plain hq hb hline, ih, List.map_cons,
        legible_of_not_isControl hc]
      rfl

theorem urlQuoted_plain {q c : Char} (hq : c ≠ q) (hb : c ≠ '\\') (cs : List Char) :
    urlQuoted q (c :: cs) = (c :: (urlQuoted q cs).1, (urlQuoted q cs).2) := by
  rw [urlQuoted.eq_def]
  simp [hq, hb]

theorem urlQuoted_escape (d : Char) (ds : List Char) :
    urlQuoted '"' ('\\' :: d :: ds) =
      ((escaped (d :: ds)).1 :: (urlQuoted '"' (escaped (d :: ds)).2).1,
        (urlQuoted '"' (escaped (d :: ds)).2).2) := by
  rw [urlQuoted.eq_def]
  simp

theorem urlQuoted_stringText (v w : List Char) :
    urlQuoted '"' (v.flatMap stringCharText ++ '"' :: w) = (v.map legible, w) := by
  induction v with
  | nil =>
    rw [List.flatMap_nil, List.nil_append, urlQuoted.eq_def]
    simp
  | cons c v ih =>
    rw [List.flatMap_cons, List.append_assoc]
    rcases stringCharText_cases c with ⟨hc, ht⟩ | ⟨hc, ht⟩ | ⟨hq, hb, hc, -, ht⟩
    · have hesc : isHexDigit c = false ∧ legible c = c := by
        rcases hc with rfl | rfl <;> decide
      rw [ht, List.cons_append, List.singleton_append, urlQuoted_escape]
      simp [escaped, hesc, ih]
    · obtain ⟨d, ds, hd, -⟩ := hexText_cons (toNat_lt_of_isControl hc)
      have hread := escaped_hexText (toNat_lt_of_isControl hc) (v.flatMap stringCharText ++ '"' :: w)
      rw [hd, List.cons_append] at hread
      rw [ht, hexEscape_append, hd, List.cons_append, urlQuoted_escape, hread, ih]
      rfl
    · rw [ht, List.singleton_append, urlQuoted_plain hq hb, ih, List.map_cons,
        legible_of_not_isControl hc]

theorem url_stringText (v w : List Char) :
    url (stringText v ++ ')' :: w) = (v.map legible, w) := by
  have hread := urlQuoted_stringText v (')' :: w)
  have hblank : isBlank '"' = false := by decide
  simp [url, stringText, hblank, isQuote, hread]

end Styling
