import Styling.Proofs.Token.Units

/-! # The units of written tokens

A written token is whole units in any context. They hold what the token holds, with U+FFFD for
U+0000, and no escape among them names a hyphen.
-/
namespace Styling
open Lexer

/-- The text `cs` is the characters `s` in any context; no escape in it names a hyphen. -/
def Encodes (cs s : List Char) : Prop :=
  ∃ us, (∀ w, units (cs ++ w) = us ++ units w) ∧ us.map Prod.snd = s ∧ (true, '-') ∉ us

theorem Encodes.nil : Encodes [] [] := ⟨[], fun _ => rfl, rfl, by simp⟩

theorem Encodes.append {cs cs' s s' : List Char} (h : Encodes cs s) (h' : Encodes cs' s') :
    Encodes (cs ++ cs') (s ++ s') := by
  obtain ⟨us, hus, rfl, hno⟩ := h
  obtain ⟨us', hus', rfl, hno'⟩ := h'
  refine ⟨us ++ us', fun w => ?_, List.map_append, ?_⟩
  · rw [List.append_assoc, hus, hus', List.append_assoc]
  · simp [hno, hno']

theorem encodes_plain {cs : List Char} (h : ∀ c ∈ cs, c ≠ '\\') : Encodes cs cs :=
  ⟨cs.map (Prod.mk false), units_plain h, by simp [Function.comp_def], by simp⟩

theorem encodes_mark (cs : List Char) (h : '\\' ∉ cs) : Encodes cs cs :=
  encodes_plain fun _ hc => ne_of_mem_of_not_mem hc h

theorem encodes_hexEscape {c : Char} (h : c.toNat < 128) (hc : c ≠ '-') :
    Encodes (hexEscape c) [legible c] := by
  refine ⟨[(true, legible c)], fun w => ?_, rfl, ?_⟩
  · have hstart := startsEscape_hexEscape h w
    rw [hexEscape_append] at hstart ⊢
    rw [units_escape hstart, escaped_hexText h]
    rfl
  · simp only [List.mem_singleton, Prod.mk.injEq, true_and]
    unfold legible
    split
    · decide
    · exact Ne.symm hc

theorem encodes_escape {c : Char} (hline : isNewline c = false) (hhex : isHexDigit c = false)
    (hc : c ≠ '-') : Encodes ['\\', c] [c] := by
  refine ⟨[(true, c)], fun w => ?_, rfl, by simpa using Ne.symm hc⟩
  have hstart : startsEscape ('\\' :: c :: w) = true := by simp [startsEscape, hline]
  rw [List.cons_append, List.singleton_append, units_escape hstart]
  simp [escaped, hhex]

theorem encodes_nameCharText (c : Char) : Encodes (nameCharText c) [legible c] := by
  rcases nameCharText_cases c with ⟨hc, ht⟩ | ⟨hc, ht⟩ | ⟨hhex, hline, hname, hzero, ht⟩ <;> rw [ht]
  · have hplain : c ≠ '\\' ∧ c ≠ '\x00' := by
      constructor <;> rintro rfl <;> exact absurd hc (by decide)
    rw [legible, if_neg hplain.2]
    exact encodes_plain (by simpa using hplain.1)
  · refine encodes_hexEscape (toNat_lt_of_isControl hc) ?_
    rintro rfl
    exact absurd hc (by decide)
  · rw [legible, if_neg hzero]
    refine encodes_escape hline hhex ?_
    rintro rfl
    exact absurd hname (by decide)

theorem encodes_flatMap {f : Char → List Char} (hf : ∀ c, Encodes (f c) [legible c])
    (v : List Char) : Encodes (v.flatMap f) (v.map legible) := by
  induction v with
  | nil => exact .nil
  | cons c v ih => exact (hf c).append ih

theorem encodes_nameText (v : List Char) : Encodes (nameText v) (v.map legible) :=
  encodes_flatMap encodes_nameCharText v

theorem encodes_leadingDigitText (v : List Char) :
    Encodes (leadingDigitText v) (v.map legible) := by
  cases v with
  | nil => exact .nil
  | cons c v =>
    refine Encodes.append (s := [legible c]) ?_ (encodes_nameText v)
    split
    next hd =>
      refine encodes_hexEscape (toNat_lt_of_isDigit hd) ?_
      rintro rfl
      exact absurd hd (by decide)
    · exact encodes_nameCharText c

theorem encodes_identifierText (v : List Char) : Encodes (identifierText v) (v.map legible) := by
  unfold identifierText
  split
  next v => exact (encodes_mark ['-'] (by simp)).append (encodes_leadingDigitText v)
  · exact encodes_leadingDigitText _

theorem encodes_stringCharText (c : Char) : Encodes (stringCharText c) [legible c] := by
  rcases stringCharText_cases c with ⟨hc, ht⟩ | ⟨hc, ht⟩ | ⟨-, hb, hc, -, ht⟩ <;> rw [ht]
  · rcases hc with rfl | rfl <;> exact encodes_escape rfl rfl (by decide)
  · refine encodes_hexEscape (toNat_lt_of_isControl hc) ?_
    rintro rfl
    exact absurd hc (by decide)
  · rw [legible_of_not_isControl hc]
    exact encodes_plain (by simpa using hb)

theorem encodes_stringText (v : List Char) :
    Encodes (stringText v) ('"' :: v.map legible ++ ['"']) :=
  ((encodes_mark ['"'] (by simp)).append
    (encodes_flatMap encodes_stringCharText v)).append (encodes_mark ['"'] (by simp))

def OneLine (cs : List Char) : Prop := ∀ c ∈ cs, isNewline c = false

instance (cs : List Char) : Decidable (OneLine cs) :=
  List.decidableBAll (isNewline · = false) cs

theorem OneLine.append {cs cs' : List Char} (h : OneLine cs) (h' : OneLine cs') :
    OneLine (cs ++ cs') := by
  intro c hc
  exact (List.mem_append.mp hc).elim (h c) (h' c)

theorem oneLine_hexEscape {c : Char} (h : c.toNat < 128) : OneLine (hexEscape c) := by
  intro d hd
  simp only [hexEscape, List.cons_append, List.mem_cons, List.mem_append, List.not_mem_nil,
    or_false] at hd
  rcases hd with rfl | hd | rfl
  · decide
  · exact ((hexText_of_lt _ h).1 d hd).2
  · decide

theorem oneLine_nameCharText (c : Char) : OneLine (nameCharText c) := by
  rcases nameCharText_cases c with ⟨hc, ht⟩ | ⟨hc, ht⟩ | ⟨-, hline, -, -, ht⟩ <;> rw [ht]
  · intro d hd
    obtain rfl := List.mem_singleton.mp hd
    rw [← Bool.not_eq_true]
    simp only [isNewline, Bool.or_eq_true, beq_iff_eq]
    rintro ((rfl | rfl) | rfl) <;> exact absurd hc (by decide)
  · exact oneLine_hexEscape (toNat_lt_of_isControl hc)
  · intro d hd
    simp only [List.mem_cons, List.not_mem_nil, or_false] at hd
    rcases hd with rfl | rfl
    · decide
    · exact hline

theorem oneLine_flatMap {f : Char → List Char} (hf : ∀ c, OneLine (f c)) (v : List Char) :
    OneLine (v.flatMap f) := by
  intro d hd
  obtain ⟨c, -, hd⟩ := List.mem_flatMap.mp hd
  exact hf c d hd

theorem oneLine_leadingDigitText (v : List Char) : OneLine (leadingDigitText v) := by
  cases v with
  | nil => simp [leadingDigitText, OneLine]
  | cons c v =>
    refine OneLine.append ?_ (oneLine_flatMap oneLine_nameCharText v)
    split
    next hd => exact oneLine_hexEscape (toNat_lt_of_isDigit hd)
    · exact oneLine_nameCharText c

theorem oneLine_identifierText (v : List Char) : OneLine (identifierText v) := by
  unfold identifierText
  split
  · exact OneLine.append (show OneLine ['-'] by decide) (oneLine_leadingDigitText _)
  · exact oneLine_leadingDigitText v

theorem oneLine_stringText (v : List Char) : OneLine (stringText v) := by
  have hquote : OneLine ['"'] := by decide
  refine (hquote.append (oneLine_flatMap (fun c => ?_) v)).append hquote
  rcases stringCharText_cases c with ⟨hc, ht⟩ | ⟨hc, ht⟩ | ⟨-, -, -, hline, ht⟩ <;> rw [ht]
  · rcases hc with rfl | rfl <;> decide
  · exact oneLine_hexEscape (toNat_lt_of_isControl hc)
  · simpa [OneLine] using hline

/-- No backslash stands before a line end, whatever stands before the text. -/
structure Steady (cs : List Char) : Prop where
  unbroken : Unbroken cs
  head : ∀ c ∈ cs.head?, isNewline c = false

theorem Steady.append {cs cs' : List Char} (h : Steady cs) (h' : Steady cs') :
    Steady (cs ++ cs') := by
  constructor
  · exact h.unbroken.append h'.unbroken fun c _ d hd _ => h'.head d hd
  · cases cs with
    | nil => exact h'.head
    | cons c cs => exact h.head

theorem OneLine.steady {cs : List Char} (h : OneLine cs) : Steady cs := by
  constructor
  · induction cs with
    | nil => exact .nil
    | cons c cs ih =>
      refine List.isChain_cons.mpr ⟨fun d hd _ => ?_, ih fun d hd => h d (List.mem_cons_of_mem _ hd)⟩
      exact h d (List.mem_cons_of_mem _ (List.mem_of_mem_head? hd))
  · intro c hc
    exact h c (List.mem_of_mem_head? hc)

/-- The text `cs` is whole units in any context, in which equality marks and U+0000 stand as the
tokens `ks` hold them. Only a lone U+0000 is written as it is. -/
def Spells (cs : List Char) (ks : List Kind) : Prop :=
  ∃ s, Encodes cs s ∧ s.count '=' = (ks.flatMap Kind.payload).count '=' ∧
    s.count '\x00' = ks.count (.delim '\x00')

theorem Spells.nil : Spells [] [] := ⟨[], .nil, rfl, rfl⟩

theorem Spells.append {cs cs' : List Char} {ks ks' : List Kind} (h : Spells cs ks)
    (h' : Spells cs' ks') : Spells (cs ++ cs') (ks ++ ks') := by
  obtain ⟨s, hs, hequal, hzero⟩ := h
  obtain ⟨s', hs', hequal', hzero'⟩ := h'
  refine ⟨s ++ s', hs.append hs', ?_, ?_⟩
  · rw [List.count_append, hequal, hequal', List.flatMap_append, List.count_append]
  · rw [List.count_append, hzero, hzero', List.count_append]

theorem count_equal_map_legible (v : List Char) : (v.map legible).count '=' = v.count '=' := by
  induction v with
  | nil => rfl
  | cons c v ih =>
    rw [List.map_cons, List.count_cons, List.count_cons, ih]
    unfold legible
    split
    next hc =>
      subst hc
      rfl
    · rfl

theorem count_zero_map_legible (v : List Char) : (v.map legible).count '\x00' = 0 :=
  List.count_eq_zero.mpr (not_mem_map_legible v)

theorem Encodes.spells {cs s : List Char} {k : Kind} (h : Encodes cs s) (pre post : List Char)
    (hs : s = pre ++ k.payload.map legible ++ post)
    (hmarks : '=' ∉ pre ++ post ∧ '\x00' ∉ pre ++ post) (hdelim : k ≠ .delim '\x00') :
    Spells cs [k] := by
  obtain ⟨hequal, hzero⟩ := hmarks
  rw [← List.count_eq_zero, List.count_append, Nat.add_eq_zero_iff] at hequal hzero
  subst hs
  refine ⟨_, h, ?_, ?_⟩
  · simp [List.count_append, hequal, count_equal_map_legible]
  · simp [List.count_append, hzero, count_zero_map_legible, hdelim]

theorem encodes_numeral {n : List Char} (hn : IsNumeral n) : Encodes n (n.map legible) := by
  rw [map_legible (hn.not_mem (by decide))]
  exact encodes_mark n (hn.not_mem (by decide))

namespace Kind

def Meaningful (k : Kind) : Prop := k.isComment = false ∧ k ≠ .badString

def Written (k : Kind) : Prop := k.Meaningful ∧ k ≠ .delim '\\'

theorem Written.legible {k : Kind} (hk : k.Written) (hl : k.Lexical) (hname : k.name? ≠ some "-")
    (hzero : k ≠ .delim '\x00' → '\x00' ∉ k.payload) : k.Legible := by
  cases k with
  | ident name | function name | atKeyword name =>
    exact ⟨fun h => hname (congrArg some h), hzero (by simp)⟩
  | hash value kind => exact hzero (by simp)
  | string value | url value => exact hzero (by simp)
  | dimension numeral unit =>
    intro hmem
    exact hzero (by simp) (List.mem_append_right _ hmem)
  | delim c => exact fun h => hk.2 (congrArg delim h)
  | badString => exact hk.1.2 rfl
  | comment text => cases hk.1.1
  | eof => exact hl
  | _ => trivial

theorem spells {k : Kind} (hl : k.Lexical) (hk : k.Written) : Spells k.chars [k] := by
  cases k with
  | ident name => exact (encodes_identifierText _).spells [] [] (by simp [payload]) (by simp) (by simp)
  | function name =>
    exact ((encodes_identifierText _).append (encodes_mark ['('] (by decide))).spells [] ['(']
      (by simp [payload]) (by simp) (by simp)
  | atKeyword name =>
    exact ((encodes_mark ['@'] (by decide)).append (encodes_identifierText _)).spells ['@'] []
      (by simp [payload]) (by simp) (by simp)
  | hash value kind =>
    exact ((encodes_mark ['#'] (by decide)).append (encodes_nameText _)).spells ['#'] []
      (by simp [payload]) (by simp) (by simp)
  | string value =>
    exact (encodes_stringText _).spells ['"'] ['"'] (by simp [payload]) (by simp) (by simp)
  | url value =>
    exact (((encodes_mark ['u', 'r', 'l', '('] (by decide)).append
      (encodes_stringText value.toList)).append (encodes_mark [')'] (by decide))).spells
      ['u', 'r', 'l', '(', '"'] ['"', ')'] (by simp [payload]) (by simp) (by simp)
  | delim c =>
    have hback : c ≠ '\\' := fun h => hk.2 (congrArg delim h)
    refine ⟨[c], encodes_mark [c] (by simpa using hback.symm), by simp [payload], ?_⟩
    by_cases hc : c = '\x00'
    · simp [hc]
    · simp [hc]
  | number numeral =>
    exact (encodes_numeral hl).spells [] [] (by simp [payload]) (by simp) (by simp)
  | percentage numeral =>
    exact ((encodes_numeral hl).append (encodes_mark ['%'] (by decide))).spells [] ['%']
      (by simp [payload]) (by simp) (by simp)
  | dimension numeral unit =>
    exact ((encodes_numeral hl.1).append (encodes_nameText _)).spells [] []
      (by simp [payload]) (by simp) (by simp)
  | attrMatch op =>
    refine ⟨op.text.toList, encodes_mark _ ?_, by simp [payload], ?_⟩
    · cases op <;> decide
    · cases op <;> decide
  | badString => exact absurd rfl hk.1.2
  | comment text => cases hk.1.1
  | eof => exact hl.elim
  | blank => exact ⟨_, encodes_mark _ (by decide), rfl, rfl⟩
  | opening b | closing b => cases b <;> exact ⟨_, encodes_mark _ (by decide), rfl, rfl⟩
  | _ => exact ⟨_, encodes_mark _ (by decide), rfl, rfl⟩

theorem oneLine_numeral {n : List Char} (hn : IsNumeral n) : OneLine n := by
  intro c hc
  rcases hn.mem hc with h | h
  · exact ascii_cases (p := fun c => c.isDigit = true → isNewline c = false) (by decide)
      (toNat_lt_of_isDigit h) h
  · simp only [List.mem_cons, List.not_mem_nil, or_false] at h
    rcases h with rfl | rfl | rfl <;> decide

theorem oneLine_chars {k : Kind} (hl : k.Lexical) (hk : k.Meaningful) : OneLine k.chars := by
  have hname (v : List Char) : OneLine (nameText v) := oneLine_flatMap oneLine_nameCharText v
  cases k with
  | ident name => exact oneLine_identifierText _
  | function name => exact (oneLine_identifierText _).append (show OneLine ['('] by decide)
  | atKeyword name => exact (show OneLine ['@'] by decide).append (oneLine_identifierText _)
  | hash value kind => exact (show OneLine ['#'] by decide).append (hname _)
  | string value => exact oneLine_stringText _
  | url value =>
    exact ((show OneLine ['u', 'r', 'l', '('] by decide).append (oneLine_stringText _)).append
      (show OneLine [')'] by decide)
  | delim c =>
    intro d hd
    obtain rfl := List.mem_singleton.mp hd
    cases hline : isNewline d with
    | false => rfl
    | true =>
      have hblank := hl.blank
      rw [isBlank_of_isNewline hline] at hblank
      cases hblank
  | number numeral => exact oneLine_numeral hl
  | percentage numeral => exact (oneLine_numeral hl).append (show OneLine ['%'] by decide)
  | dimension numeral unit => exact (oneLine_numeral hl.1).append (hname _)
  | attrMatch op => cases op <;> decide
  | badString => exact absurd rfl hk.2
  | comment text => cases hk.1
  | eof => exact hl.elim
  | opening b | closing b => cases b <;> decide
  | _ => exact of_decide_eq_true rfl

theorem spells_separator : Spells ['/', '*', '*', '/'] [] :=
  ⟨_, encodes_mark _ (by decide), rfl, rfl⟩

theorem spells_listChars {ks : List Kind} (hl : ∀ k ∈ ks, k.Lexical)
    (hk : ∀ k ∈ ks, k.Written) : Spells (listChars ks) ks := by
  cases ks with
  | nil => exact .nil
  | cons k ks =>
    refine (spells (hl k List.mem_cons_self) (hk k List.mem_cons_self)).append ?_
    induction ks generalizing k with
    | nil => exact .nil
    | cons next ks ih =>
      rw [List.forall_mem_cons] at hl hk
      have hnext := spells (hl.2 next List.mem_cons_self) (hk.2 next List.mem_cons_self)
      have hafter : Spells (k.charsAfter next) [next] := by
        unfold charsAfter
        split
        · exact spells_separator.append hnext
        · exact hnext
      exact hafter.append (ih next hl.2 hk.2)

theorem oneLine_listChars {ks : List Kind} (hl : ∀ k ∈ ks, k.Lexical)
    (hk : ∀ k ∈ ks, k.Meaningful) : OneLine (listChars ks) := by
  cases ks with
  | nil => simp [listChars, OneLine]
  | cons k ks =>
    refine (oneLine_chars (hl k List.mem_cons_self) (hk k List.mem_cons_self)).append ?_
    induction ks generalizing k with
    | nil => simp [listCharsAfter, OneLine]
    | cons next ks ih =>
      rw [List.forall_mem_cons] at hl hk
      have hnext := oneLine_chars (hl.2 next List.mem_cons_self) (hk.2 next List.mem_cons_self)
      have hafter : OneLine (k.charsAfter next) := by
        unfold charsAfter
        split
        · exact (show OneLine ['/', '*', '*', '/'] by decide).append hnext
        · exact hnext
      exact hafter.append (ih next hl.2 hk.2)

end Kind
end Styling
