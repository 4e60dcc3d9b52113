import Styling.Proofs.Token.Misread
import Styling.Proofs.Token.Tiling

/-! # Tokens that are written as they were read

A name or a numeral is written as it stands in its text if no backslash stands there: without
escapes, none of the characters that are read needs one. The same holds of a value between double
quotes, unless it holds control characters, which are always escaped.
-/
namespace Styling
open Lexer

theorem exists_front_backslash {cs rest : List Char} (p : List Char → Prop) (h : rest <:+ cs) :
    ∃ front, '\\' :: cs = front ++ rest ∧ ('\\' ∉ front → p front) := by
  obtain ⟨front, rfl⟩ := h
  exact ⟨'\\' :: front, rfl, fun hback => absurd List.mem_cons_self hback⟩

/-- Between `cs` and `rest` stands `s`, or a text with a backslash in it. -/
def Verbatim (s cs rest : List Char) : Prop :=
  ∃ front, cs = front ++ rest ∧ ('\\' ∉ front → front = s)

namespace Verbatim
variable {s s' cs mid rest : List Char}

theorem refl (cs : List Char) : Verbatim [] cs cs := ⟨[], rfl, fun _ => rfl⟩

theorem trans (h : Verbatim s cs mid) (h' : Verbatim s' mid rest) :
    Verbatim (s ++ s') cs rest := by
  obtain ⟨front, rfl, hfront⟩ := h
  obtain ⟨front', rfl, hfront'⟩ := h'
  refine ⟨front ++ front', (List.append_assoc _ _ _).symm, fun hback => ?_⟩
  rw [List.mem_append, not_or] at hback
  rw [hfront hback.1, hfront' hback.2]

theorem append (s rest : List Char) : Verbatim s (s ++ rest) rest := ⟨s, rfl, fun _ => rfl⟩

theorem cons (h : Verbatim s cs rest) (c : Char) : Verbatim (c :: s) (c :: cs) rest :=
  (append [c] cs).trans h

theorem backslash (s : List Char) (h : rest <:+ cs) : Verbatim s ('\\' :: cs) rest :=
  exists_front_backslash (· = s) h

theorem eq {source : List Char} (h : Verbatim s (source ++ rest) rest) (hback : '\\' ∉ source) :
    source = s := by
  obtain ⟨front, hfront, hs⟩ := h
  obtain rfl : source = front := List.append_cancel_right hfront
  exact hs hback

end Verbatim

section Names
variable {cs : List Char}

theorem nameCharText_of_isNameChar {c : Char} (h : isNameChar c = true) : nameCharText c = [c] := by
  rcases nameCharText_cases c with ⟨-, ht⟩ | ⟨hc, -⟩ | ⟨-, -, hn, -, -⟩
  · exact ht
  · exact absurd h (ascii_cases (p := fun c => isControl c = true → ¬ isNameChar c = true)
      (by decide) (toNat_lt_of_isControl hc) hc)
  · rw [hn] at h
    cases h

theorem verbatim_name (cs : List Char) : Verbatim (nameText (name cs).1) cs (name cs).2 := by
  fun_induction name cs with
  | case1 => exact .refl _
  | case2 c cs hc rest ih =>
    have hread := ih.cons c
    rwa [← List.singleton_append, ← nameCharText_of_isNameChar hc] at hread
  | case3 c cs _ hesc e rest ih =>
    obtain rfl := eq_of_startsEscape hesc
    exact .backslash _ ((name_suffix e.2).trans (escaped_suffix cs))
  | case4 => exact .refl _

/-- A leading digit is the only character of a name that is written in another way. -/
theorem verbatim_leadingDigitText (h : ∀ c ∈ cs.head?, c.isDigit = false) :
    Verbatim (leadingDigitText (name cs).1) cs (name cs).2 := by
  cases cs with
  | nil =>
    rw [name]
    exact .refl _
  | cons c cs =>
    by_cases hc : isNameChar c = true
    · have hread := (verbatim_name cs).cons c
      rw [name_cons hc, leadingDigitText, if_neg (by simp [h c rfl]), nameCharText_of_isNameChar hc]
      exact hread
    · rw [name, if_neg hc]
      split
      next hesc =>
        obtain rfl := eq_of_startsEscape hesc
        exact .backslash _ ((name_suffix _).trans (escaped_suffix cs))
      · exact .refl _

theorem head?_not_isDigit_of_begins (h : begins cs = true) : ∀ c ∈ cs.head?, c.isDigit = false := by
  intro c hc
  cases cs with
  | nil => cases hc
  | cons d cs =>
    obtain rfl := Option.some.inj hc
    rw [begins, Bool.or_eq_true] at h
    rcases h with hstart | hesc
    · exact (isNameStart_apart (by simpa using hstart)).2.2
    · obtain rfl := eq_of_startsEscape hesc
      decide

/-- Where a name starts, no digit leads it, nor follows a leading hyphen. -/
theorem verbatim_identifierText (h : startsName cs = true) :
    Verbatim (identifierText (name cs).1) cs (name cs).2 := by
  obtain ⟨c, cs, rfl⟩ := ne_nil_of_startsName h
  by_cases hm : c = '-'
  · subst hm
    rw [startsName_hyphen, Bool.or_eq_true] at h
    have hdigit : ∀ d ∈ cs.head?, d.isDigit = false := by
      rcases h with hhyphen | hbegins
      · intro d hd
        rw [Option.mem_def.mp hd] at hhyphen
        obtain rfl : d = '-' := by simpa using hhyphen
        decide
      · exact head?_not_isDigit_of_begins hbegins
    rw [name_cons (by decide), identifierText_hyphen]
    exact (verbatim_leadingDigitText hdigit).cons '-'
  · rw [startsName_eq_begins (by simpa using hm)] at h
    by_cases hc : isNameChar c = true
    · have hread := verbatim_leadingDigitText (head?_not_isDigit_of_begins h)
      have hhead : (name (c :: cs)).1.head? ≠ some '-' := by simpa [name_cons hc] using hm
      rwa [identifierText_of_ne hhead]
    · have hesc : startsEscape (c :: cs) = true := by
        rw [begins, Bool.or_eq_true] at h
        exact h.resolve_left fun hstart => hc (isNameChar_of_isNameStart (by simpa using hstart))
      obtain rfl := eq_of_startsEscape hesc
      rw [name_escape hesc]
      exact .backslash _ ((name_suffix _).trans (escaped_suffix cs))

end Names

section Tokens
variable {c : Char} {cs rest : List Char} {k : Kind}

def Kind.IsSpelled : Kind → Prop
  | ident _ | function _ | atKeyword _ | hash _ _ | number _ | percentage _ | dimension _ _ => True
  | _ => False

theorem verbatim_numeric (h : numeric cs = (k, rest)) : Verbatim k.chars cs rest := by
  have hnumeral := Verbatim.append (numeral cs).1 (numeral cs).2
  rw [numeral_split] at hnumeral
  unfold numeric at h
  dsimp only at h
  split at h
  next after heq =>
    cases h
    rw [heq] at hnumeral
    simpa [Kind.chars] using hnumeral.trans (.append ['%'] _)
  · split at h
    · cases h
      simpa [Kind.chars] using hnumeral.trans (verbatim_name _)
    · cases h
      simpa [Kind.chars] using hnumeral

theorem verbatim_named (hname : startsName cs = true) (h : named cs = (k, rest))
    (hk : k.IsSpelled) : Verbatim k.chars cs rest := by
  have hread := verbatim_identifierText hname
  unfold named at h
  dsimp only at h
  split at h
  next after heq =>
    split at h
    · cases h
      exact hk.elim
    · cases h
      rw [heq] at hread
      simpa [Kind.chars] using hread.trans (.append ['('] _)
  · cases h
    simpa [Kind.chars] using hread

theorem verbatim_marked (h : marked c cs = (k, rest)) (hk : k.IsSpelled) :
    Verbatim k.chars (c :: cs) rest := by
  unfold marked at h
  split at h
  case h_2 =>
    split at h
    · cases h
      simpa [Kind.chars] using (verbatim_name cs).cons '#'
    · cases h
      exact hk.elim
  case h_3 =>
    split at h
    next hname =>
      cases h
      simpa [Kind.chars] using (verbatim_identifierText hname).cons '@'
    · cases h
      exact hk.elim
  all_goals
    cases h
    exact hk.elim

theorem verbatim_of_reads (h : Reads cs k rest) (hk : k.IsSpelled) : Verbatim k.chars cs rest := by
  obtain ⟨c, cs, rfl, hscan⟩ := h
  rcases scan_cases hscan with ⟨rfl, -⟩ | (rfl | ⟨value, rfl⟩) | ⟨-, hn⟩ | rfl |
    ⟨-, hname, hn⟩ | ⟨-, hn⟩
  · exact hk.elim
  · exact hk.elim
  · exact hk.elim
  · exact verbatim_numeric hn
  · exact hk.elim
  · exact verbatim_named hname hn hk
  · exact verbatim_marked hn hk

end Tokens

section Quotes
variable {q : Char} {cs rest source : List Char} {k : Kind}

theorem quoted_split (q : Char) (cs : List Char) : ∀ v, (quoted q cs).1 = some v →
    ∃ front, cs = front ++ (quoted q cs).2 ∧
      ('\\' ∉ front → q ∉ v ∧ (front = v ∨ front = v ++ [q])) := by
  fun_induction quoted q cs with
  | case1 =>
    rintro v ⟨⟩
    exact ⟨[], rfl, fun _ => ⟨List.not_mem_nil, .inl rfl⟩⟩
  | case2 c cs hc =>
    rintro v ⟨⟩
    obtain rfl : c = q := by simpa using hc
    exact ⟨[c], rfl, fun _ => ⟨List.not_mem_nil, .inr rfl⟩⟩
  | case3 => rintro v ⟨⟩
  | case4 c _ _ hc =>
    intro v _
    obtain rfl : c = '\\' := by simpa using hc
    exact exists_front_backslash _ (List.suffix_refl [])
  | case5 c _ _ hc d ds _ ih =>
    intro v _
    obtain rfl : c = '\\' := by simpa using hc
    exact exists_front_backslash _ ((quoted_suffix q _).trans (dropNewline_suffix _))
  | case6 c _ _ hc d ds _ e rest ih =>
    intro v _
    obtain rfl : c = '\\' := by simpa using hc
    exact exists_front_backslash _ ((quoted_suffix q _).trans (escaped_suffix _))
  | case7 c cs hq _ _ rest ih =>
    intro v h
    obtain ⟨v, hv, rfl⟩ := Option.map_eq_some_iff.mp h
    obtain ⟨front, hcs, hfront⟩ := ih v hv
    refine ⟨c :: front, congrArg (c :: ·) hcs, fun hback => ?_⟩
    rw [List.mem_cons, not_or] at hback
    obtain ⟨hmem, hends⟩ := hfront hback.2
    have hne : q ≠ c := by
      rintro rfl
      simp at hq
    refine ⟨by simp [hne, hmem], ?_⟩
    exact hends.imp (congrArg (c :: ·)) (congrArg (c :: ·))

theorem quoted_of_reads {v : String} (h : Reads ('"' :: cs) (.string v) rest) :
    quoted '"' cs = (some v.toList, rest) := by
  have hscan := h.scan_eq
  unfold scan at hscan
  rw [if_neg (by decide), if_pos (by decide)] at hscan
  injection hscan with hkind hrest
  cases hquoted : (quoted '"' cs).1 with
  | none =>
    rw [hquoted] at hkind
    cases hkind
  | some value =>
    rw [hquoted] at hkind
    cases hkind
    rw [String.toList_ofList, ← hrest, ← hquoted]

theorem stringText_plain {v : List Char} (h : ∀ c ∈ v, c ≠ '"' ∧ c ≠ '\\' ∧ isControl c = false) :
    stringText v = '"' :: v ++ ['"'] := by
  have hchars : v.flatMap stringCharText = v := by
    induction v with
    | nil => rfl
    | cons c v ih =>
      obtain ⟨⟨hq, hb, hc⟩, hv⟩ := List.forall_mem_cons.mp h
      have hchar : stringCharText c = [c] := by simp [stringCharText, hq, hb, hc]
      rw [List.flatMap_cons, hchar, ih hv, List.singleton_append]
  rw [stringText, hchars]

/-- A value is written between its quotes as it stands there. -/
theorem stringText_of_reads {v : String} {body : List Char}
    (h : Reads ('"' :: (body ++ '"' :: rest)) (.string v) rest) (hback : '\\' ∉ body)
    (hplain : ∀ c ∈ body, isControl c = false) :
    stringText v.toList = '"' :: body ++ ['"'] := by
  have hquoted := quoted_of_reads h
  obtain ⟨front, htext, hfront⟩ := quoted_split '"' (body ++ '"' :: rest) v.toList (by rw [hquoted])
  rw [hquoted, ← List.singleton_append, ← List.append_assoc] at htext
  obtain rfl : body ++ ['"'] = front := List.append_cancel_right htext
  obtain ⟨hmem, hends⟩ := hfront (by simp [hback])
  have hbody : body = v.toList := by
    rcases hends with hopen | hclosed
    · refine absurd ?_ hmem
      rw [← hopen]
      exact List.mem_append_right _ (List.mem_singleton_self _)
    · exact List.append_cancel_right hclosed
  subst hbody
  exact stringText_plain fun c hc =>
    ⟨ne_of_mem_of_not_mem hc hmem, ne_of_mem_of_not_mem hc hback, hplain c hc⟩

end Quotes

section Sources

/-- A source that is written again as it stands: that of a name or a numeral, or a value between
double quotes without control characters, and in each case without a backslash. -/
def Kind.Unescaped (k : Kind) (source : List Char) : Prop :=
  '\\' ∉ source ∧ match k with
    | string _ => (∃ body, source = '"' :: body ++ ['"']) ∧ ∀ c ∈ source, isControl c = false
    | k => k.IsSpelled

theorem chars_of_reads {source rest : List Char} {k : Kind} (h : Reads (source ++ rest) k rest)
    (hplain : k.Unescaped source) : k.chars = source := by
  obtain ⟨hback, hkind⟩ := hplain
  have hspelled (hk : k.IsSpelled) : k.chars = source := ((verbatim_of_reads h hk).eq hback).symm
  cases k with
  | string v =>
    obtain ⟨⟨body, rfl⟩, hcontrol⟩ := hkind
    have hread : Reads ('"' :: (body ++ '"' :: rest)) (.string v) rest := by simpa using h
    exact stringText_of_reads hread (by simpa using hback) fun c hc => hcontrol c (by simp [hc])
  | _ => exact hspelled hkind

/-- A token whose source needs no escape is written as its source. -/
theorem text_eq_sourceText {text : String} {t : Token} (h : t ∈ tokenize text)
    (hplain : t.kind.Unescaped (sourceText text t.start t.stop).toList) :
    t.kind.text = sourceText text t.start t.stop := by
  rcases List.mem_append.mp h with h | h
  · obtain ⟨l, hl, hkind, hsource⟩ := exists_lexeme_of_mem_tokens h
    obtain ⟨rest, hread⟩ := reads_of_mem_lexemes hl
    rw [hsource, hkind, String.toList_ofList] at hplain
    rw [hsource, hkind, Kind.text, chars_of_reads hread hplain]
  · obtain rfl := List.mem_singleton.mp h
    exact hplain.2.elim

/-- The unit begins with two hyphens, and the value holds the other quote. -/
theorem text_eq_sourceText_unit :
    (⟨.dimension "+.50" "--e3", 0, 8, 1⟩ ∈ tokenize "+.50--e3\"it's\"" ∧
      (Kind.dimension "+.50" "--e3").Unescaped (sourceText "+.50--e3\"it's\"" 0 8).toList ∧
      (Kind.dimension "+.50" "--e3").text = sourceText "+.50--e3\"it's\"" 0 8) ∧
    ⟨.string "it's", 8, 14, 1⟩ ∈ tokenize "+.50--e3\"it's\"" ∧
      (Kind.string "it's").Unescaped (sourceText "+.50--e3\"it's\"" 8 14).toList ∧
      (Kind.string "it's").text = sourceText "+.50--e3\"it's\"" 8 14 := by
  have htokens : tokenize "+.50--e3\"it's\"" =
      [⟨.dimension "+.50" "--e3", 0, 8, 1⟩, ⟨.string "it's", 8, 14, 1⟩, ⟨.eof, 14, 14, 1⟩] := by
    decide +kernel
  have hunit : (⟨.dimension "+.50" "--e3", 0, 8, 1⟩ : Token) ∈ tokenize "+.50--e3\"it's\"" := by
    simp [htokens]
  have hvalue : (⟨.string "it's", 8, 14, 1⟩ : Token) ∈ tokenize "+.50--e3\"it's\"" := by
    simp [htokens]
  have hsource : (sourceText "+.50--e3\"it's\"" 0 8).toList =
      ['+', '.', '5', '0', '-', '-', 'e', '3'] := by decide
  have hsource' : (sourceText "+.50--e3\"it's\"" 8 14).toList =
      '"' :: ['i', 't', '\'', 's'] ++ ['"'] := by decide
  have hplain : (Kind.dimension "+.50" "--e3").Unescaped
      (sourceText "+.50--e3\"it's\"" 0 8).toList := by
    rw [hsource]
    exact ⟨by simp, trivial⟩
  have hplain' : (Kind.string "it's").Unescaped (sourceText "+.50--e3\"it's\"" 8 14).toList := by
    rw [hsource']
    exact ⟨by simp, ⟨_, rfl⟩, by simp [isControl]⟩
  exact ⟨⟨hunit, hplain, text_eq_sourceText hunit hplain⟩, hvalue, hplain',
    text_eq_sourceText hvalue hplain'⟩

end Sources
end Styling
