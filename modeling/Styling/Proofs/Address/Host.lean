import Styling.Address.Host
import Styling.Proofs.Address.Path

/-! # The characters of a host

However a host is read, its text holds no character that ends a host, no blank and no control
character, and it is not taken for a drive letter.
-/
namespace Styling

theorem exists_of_mem_mapM {α β : Type} {f : α → Option β} {as : List α} {bs : List β} {b : β}
    (h : as.mapM f = some bs) (hb : b ∈ bs) : ∃ a ∈ as, f a = some b := by
  induction as generalizing bs with
  | nil =>
    simp only [List.mapM_nil, Option.pure_def, Option.some.injEq] at h
    subst h
    cases hb
  | cons a as ih =>
    rw [List.mapM_cons] at h
    obtain ⟨b', hb', h⟩ := Option.bind_eq_some_iff.mp h
    obtain ⟨bs', hbs', h⟩ := Option.bind_eq_some_iff.mp h
    obtain rfl := Option.some.inj h
    rcases List.mem_cons.mp hb with rfl | hb
    · exact ⟨a, List.mem_cons_self, hb'⟩
    · obtain ⟨a', ha', hf⟩ := ih hbs' hb
      exact ⟨a', List.mem_cons_of_mem a ha', hf⟩

namespace Punycode

theorem threshold_le (k bias : Nat) : threshold k bias ≤ 26 := by
  unfold threshold
  omega

theorem digit_of_mem_numberText {bias fuel k q : Nat} {c : Char}
    (h : c ∈ numberText bias fuel k q) : ∃ d < 36, c = digitChar d := by
  induction fuel generalizing k q with
  | zero => cases h
  | succ fuel ih =>
    have hle := threshold_le k bias
    rw [numberText] at h
    split at h
    · exact ⟨q, by omega, List.mem_singleton.mp h⟩
    · rcases List.mem_cons.mp h with rfl | h
      · have hmod := Nat.mod_lt (q - threshold k bias) (y := 36 - threshold k bias) (by omega)
        exact ⟨_, by omega, rfl⟩
      · exact ih h

/-- What a label is written with: its own characters of ASCII, hyphens and digits. -/
def Writes (label : List Char) (c : Char) : Prop :=
  c ∈ label ∧ isNonAscii c = false ∨ c = '-' ∨ ∃ d < 36, c = digitChar d

theorem writes_pass {label : List Char} {basic m : Nat} {s : State}
    (h : ∀ c ∈ s.out, Writes label c) (d : Char) : ∀ c ∈ (pass basic m s d).out, Writes label c := by
  unfold pass
  split
  · exact h
  split
  · intro c hc
    rcases List.mem_append.mp hc with hc | hc
    · exact h c hc
    · exact .inr (.inr (digit_of_mem_numberText hc))
  · exact h

theorem writes_rounds {label name : List Char} {basic : Nat} {codes : List Nat} {n : Nat} {s : State}
    (h : ∀ c ∈ s.out, Writes label c) : ∀ c ∈ (rounds name basic codes n s).out, Writes label c := by
  induction codes generalizing n s with
  | nil => exact h
  | cons m codes ih =>
    refine ih ?_
    have hfold (l : List Char) (t : State) (ht : ∀ c ∈ t.out, Writes label c) :
        ∀ c ∈ (l.foldl (pass basic m) t).out, Writes label c := by
      induction l generalizing t with
      | nil => exact ht
      | cons d l ihl => exact ihl _ (writes_pass ht d)
    exact hfold name _ h

theorem writes_encode (label : List Char) : ∀ c ∈ encode label, Writes label c := by
  refine writes_rounds fun c hc => ?_
  dsimp only at hc
  split at hc
  · cases hc
  · rcases List.mem_append.mp hc with hc | hc
    · obtain ⟨hmem, hascii⟩ := List.mem_filter.mp hc
      exact .inl ⟨hmem, by simpa using hascii⟩
    · exact .inr (.inl (List.mem_singleton.mp hc))

end Punycode

namespace Host
open AddressPath
variable {cs host label : List Char} {c : Char}

/-- Characters that do not end a host, and that are not dropped around it. -/
def IsHostChar (c : Char) : Prop := 0x20 < c.toNat ∧ c ≠ '/' ∧ c ≠ '\\' ∧ c ≠ '?' ∧ c ≠ '#'

instance : DecidablePred IsHostChar := fun _ => inferInstanceAs (Decidable (_ ∧ _))

def IsNameChar (c : Char) : Prop := IsHostChar c ∧ isDriveMark c = false

instance : DecidablePred IsNameChar := fun _ => inferInstanceAs (Decidable (_ ∧ _))

theorem isNameChar_of_not_forbidden (h : forbiddenInName c = false) : IsNameChar c := by
  by_cases hc : c.toNat < 128
  · exact ascii_cases (p := fun c => forbiddenInName c = false → IsNameChar c) (by decide) hc h
  · have hne (d : Char) (hd : d.toNat < 128) : c ≠ d := by
      rintro rfl
      exact hc hd
    have hmark : isDriveMark c = false := by
      simp [isDriveMark, hne ':' (by decide), hne '|' (by decide)]
    exact ⟨⟨by omega, hne _ (by decide), hne _ (by decide), hne _ (by decide), hne _ (by decide)⟩,
      hmark⟩

theorem isDrive_of_isNameChar (h : ∀ c ∈ host, IsNameChar c) : isDrive host = false := by
  unfold isDrive
  split
  · rename_i a m
    rw [(h m (by simp)).2, Bool.and_false]
  · rfl

theorem isNameChar_digitChar : ∀ d < 36, IsNameChar (Punycode.digitChar d) := by decide

theorem isNameChar_of_labelText? (h : labelText? label = some cs)
    (hlabel : ∀ c ∈ label, IsNameChar c) : ∀ c ∈ cs, IsNameChar c := by
  unfold labelText? at h
  split at h
  · obtain rfl := Option.some.inj h
    intro c hc
    rcases List.mem_append.mp hc with hc | hc
    · simp only [List.mem_cons, List.not_mem_nil, or_false] at hc
      rcases hc with rfl | rfl | rfl | rfl <;> decide
    · rcases Punycode.writes_encode label c hc with ⟨hmem, -⟩ | rfl | ⟨d, hd, rfl⟩
      · exact hlabel c hmem
      · decide
      · exact isNameChar_digitChar d hd
  split at h
  · obtain ⟨-, -, rfl⟩ := Option.map_eq_some_iff.mp h
    exact hlabel
  · exact Option.some.inj h ▸ hlabel

theorem isNameChar_of_name? (h : name? cs = some host) : ∀ c ∈ host, IsNameChar c := by
  unfold name? at h
  obtain ⟨decoded, -, h⟩ := Option.bind_eq_some_iff.mp h
  obtain ⟨labels, hlabels, h⟩ := Option.bind_eq_some_iff.mp h
  dsimp only at h
  split at h
  · cases h
  rename_i hallowed
  obtain rfl := Option.some.inj h
  simp only [Bool.or_eq_true, not_or, Bool.not_eq_true, List.any_eq_false] at hallowed
  intro c hc
  rcases mem_joinPieces hc with rfl | ⟨text, htext, hc⟩
  · decide
  · obtain ⟨label, hlabel, htext⟩ := exists_of_mem_mapM hlabels htext
    refine isNameChar_of_labelText? htext (fun d hd => isNameChar_of_not_forbidden ?_) c hc
    simpa using hallowed.2 d (of_mem_piecesBy hlabel hd).1

theorem digit_of_mem_toDigits {base n : Nat} (hbase : 0 < base) (h : c ∈ Nat.toDigits base n) :
    ∃ d < base, c = Nat.digitChar d := by
  have hcore (fuel n : Nat) (digits : List Char) (hmem : c ∈ Nat.toDigitsCore base fuel n digits) :
      c ∈ digits ∨ ∃ d < base, c = Nat.digitChar d := by
    induction fuel generalizing n digits with
    | zero => exact .inl hmem
    | succ fuel ih =>
      have hdigit : c ∈ Nat.digitChar (n % base) :: digits →
          c ∈ digits ∨ ∃ d < base, c = Nat.digitChar d := by
        intro hmem
        rcases List.mem_cons.mp hmem with rfl | hmem
        · exact .inr ⟨_, Nat.mod_lt n hbase, rfl⟩
        · exact .inl hmem
      rw [Nat.toDigitsCore] at hmem
      split at hmem
      · exact hdigit hmem
      · exact (ih _ _ hmem).elim hdigit .inr
  exact (hcore _ _ _ h).elim (fun hmem => by cases hmem) id

theorem isNameChar_hexDigit : ∀ d < 16, IsNameChar (Nat.digitChar d) := by decide

theorem isNameChar_of_dotted? (h : dotted? cs = some host) : ∀ c ∈ host, IsNameChar c := by
  obtain ⟨n, -, rfl⟩ := Option.map_eq_some_iff.mp h
  intro c hc
  rcases mem_joinPieces hc with rfl | ⟨text, htext, hc⟩
  · decide
  · obtain ⟨i, -, rfl⟩ := List.mem_map.mp htext
    obtain ⟨d, hd, rfl⟩ := digit_of_mem_toDigits (show 0 < 10 by decide)
      (show c ∈ Nat.toDigits 10 (n / Nat.pow 256 i % 256) by simpa using hc)
    exact isNameChar_hexDigit d (by omega)

/-- What stands between the brackets. -/
theorem isHostChar_groups {ns : List Nat} (hc : c ∈ joinPieces ':' (ns.map hexText)) :
    IsHostChar c := by
  rcases mem_joinPieces hc with rfl | ⟨text, htext, hc⟩
  · decide
  · obtain ⟨n, -, rfl⟩ := List.mem_map.mp htext
    obtain ⟨d, hd, rfl⟩ := digit_of_mem_toDigits (by decide) hc
    exact (isNameChar_hexDigit d hd).1

theorem isHostChar_bracketedText (ns : List Nat) : ∀ c ∈ bracketedText ns, IsHostChar c := by
  intro c hc
  unfold bracketedText at hc
  dsimp only at hc
  rcases List.mem_cons.mp hc with rfl | hc
  · decide
  rcases List.mem_append.mp hc with hc | hc
  · split at hc
    · exact isHostChar_groups hc
    · rcases List.mem_append.mp hc with hc | hc
      · rcases List.mem_append.mp hc with hc | hc
        · exact isHostChar_groups hc
        · obtain rfl : c = ':' := by simpa using hc
          decide
      · exact isHostChar_groups hc
  · obtain rfl := List.mem_singleton.mp hc
    decide

/-- The host of a special address is found again in its text. -/
theorem ofSpecial?_spec (h : ofSpecial? cs = some host) :
    (∀ c ∈ host, IsHostChar c) ∧ isDrive host = false := by
  have hname (hall : ∀ c ∈ host, IsNameChar c) :
      (∀ c ∈ host, IsHostChar c) ∧ isDrive host = false :=
    ⟨fun c hc => (hall c hc).1, isDrive_of_isNameChar hall⟩
  unfold ofSpecial? at h
  split at h
  · unfold ofBracketed? at h
    split at h
    · obtain ⟨ns, -, rfl⟩ := Option.map_eq_some_iff.mp h
      refine ⟨isHostChar_bracketedText ns, ?_⟩
      unfold bracketedText isDrive
      dsimp only
      split
      · rename_i heq
        rw [← (List.cons.inj heq).1]
        rfl
      · rfl
    · cases h
  split at h
  · cases h
  rename_i name hread
  split at h
  · exact hname (isNameChar_of_dotted? h)
  · exact hname (Option.some.inj h ▸ isNameChar_of_name? hread)

end Host
end Styling
