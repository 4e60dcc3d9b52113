import Styling.Json.Scan

/-! # Strings of JSON text read back

What is written for a string between quotes is read as that string, whatever follows it. Main
statement: `stringAfterQuote_quoted`.
-/
namespace Styling.Json

theorem length_encode (cs : List Char) : cs.length ≤ (Utf8.encode cs).length := by
  induction cs with
  | nil => exact Nat.le_refl _
  | cons c cs ih =>
    have h : 1 ≤ (String.utf8EncodeChar c).length := by
      rw [String.length_utf8EncodeChar]
      exact Char.utf8Size_pos c
    simp only [Utf8.encode, List.flatMap_cons, List.length_append, List.length_cons] at ih ⊢
    omega

theorem hexUnit_hexPadded (n : Nat) (rest : List Char) :
    hexUnit (hexPadded 4 n ++ rest) = .ok (n % 0x10000, rest) := by
  have hlen := length_hexPadded 4 n
  have hsize : ¬(Utf8.encode (hexPadded 4 n ++ rest)).length < 4 := by
    have := length_encode (hexPadded 4 n ++ rest)
    rw [List.length_append, hlen] at this
    omega
  have htake : (hexPadded 4 n ++ rest).take 4 = hexPadded 4 n := by
    rw [List.take_append_of_le_length (by omega), List.take_of_length_le (by omega)]
  have hdrop : (hexPadded 4 n ++ rest).drop 4 = rest := by
    rw [List.drop_append_of_le_length (by omega), List.drop_of_length_le (by omega)]
    rfl
  have hall : (hexPadded 4 n).all isHexDigit = true :=
    List.all_eq_true.mpr fun _ => isHexDigit_of_mem_hexPadded
  rw [hexUnit, if_neg hsize, htake, hdrop, if_pos ⟨hlen, hall⟩, hexValue_hexPadded]

theorem stringChars_escape (cs rest : List Char) (c : Char) (h : escape cs = .ok (c, rest)) :
    stringChars ('\\' :: cs) = (stringChars rest).map fun r => (c :: r.1, r.2) := by
  rw [stringChars]
  split
  next s hs => rw [h] at hs; cases hs
  next d after hd =>
    rw [h] at hd
    cases hd
    cases stringChars rest <;> rfl

theorem stringChars_plain (cs : List Char) (c : Char) (hq : c ≠ '"') (hb : c ≠ '\\')
    (h : 32 ≤ c.toNat) :
    stringChars (c :: cs) = (stringChars cs).map fun r => (c :: r.1, r.2) := by
  rw [stringChars]
  · rw [if_neg (Nat.not_lt.mpr h)]
    cases stringChars cs <;> rfl
  · exact hq
  · exact hb

theorem stringChars_charText (c : Char) (cs : List Char) :
    stringChars (charText c ++ cs) = (stringChars cs).map fun r => (c :: r.1, r.2) := by
  unfold charText
  split
  next h =>
    rcases Bool.or_eq_true_iff.mp h with h | h <;> rw [beq_iff_eq] at h <;> subst h <;>
      exact stringChars_escape _ _ _ rfl
  split
  next h => rw [beq_iff_eq] at h; subst h; exact stringChars_escape _ _ _ rfl
  split
  next h => rw [beq_iff_eq] at h; subst h; exact stringChars_escape _ _ _ rfl
  split
  next h => rw [beq_iff_eq] at h; subst h; exact stringChars_escape _ _ _ rfl
  split
  next h => rw [beq_iff_eq] at h; subst h; exact stringChars_escape _ _ _ rfl
  split
  next h => rw [beq_iff_eq] at h; subst h; exact stringChars_escape _ _ _ rfl
  next hs _ _ _ _ _ =>
    split
    next h =>
      refine stringChars_escape _ _ _ ?_
      have hn : c.toNat % 0x10000 = c.toNat := Nat.mod_eq_of_lt (by omega)
      simp only [escape, List.append_eq, List.nil_append, List.cons_append, if_true]
      rw [hexUnit_hexPadded, hn]
      simp only [unitChar, isTrailing, isLeading]
      have h1 : ¬ 0xdc00 ≤ c.toNat := by omega
      have h2 : ¬ 0xd800 ≤ c.toNat := by omega
      simp [h1, h2, Char.ofNat_toNat]
    next h =>
      simp only [Bool.or_eq_true, beq_iff_eq, not_or] at hs
      exact stringChars_plain cs c hs.1 hs.2 (by omega)

/-- What is written for a string is read as that string. -/
theorem stringAfterQuote_quoted (s : String) (rest : List Char) :
    stringAfterQuote (s.toList.flatMap charText ++ '"' :: rest) = .ok (s, rest) := by
  have h (cs : List Char) : stringChars (cs.flatMap charText ++ '"' :: rest) = .ok (cs, rest) := by
    induction cs with
    | nil => rw [List.flatMap_nil, List.nil_append, stringChars]
    | cons c cs ih =>
      rw [List.flatMap_cons, List.append_assoc, stringChars_charText, ih]
      rfl
  rw [stringAfterQuote, h]
  simp

end Styling.Json
