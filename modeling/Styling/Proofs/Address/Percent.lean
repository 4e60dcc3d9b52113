import Styling.Address.Percent
import Styling.Proofs.Text.Utf8

/-! # Percent encoding read back

What is written has only characters of ASCII that need no escape, percent signs and digits, so to
write it again changes nothing. Decoding gives the bytes of the text back where a percent sign is
written as its byte, and never more bytes than the text has.
-/
namespace Styling.Percent
variable {escaped : Char → Bool} {c : Char} {cs : List Char}

theorem toNat_lt_of_isHexDigit (h : isHexDigit c = true) : c.toNat < 128 := by
  simp only [isHexDigit, Bool.or_eq_true, Bool.and_eq_true, decide_eq_true_eq] at h
  rcases h with (h | ⟨-, h⟩) | ⟨-, h⟩
  · exact toNat_lt_of_isDigit h
  · exact Nat.lt_of_le_of_lt (show c.toNat ≤ 'f'.toNat from h) (by decide)
  · exact Nat.lt_of_le_of_lt (show c.toNat ≤ 'F'.toNat from h) (by decide)

theorem isHexDigit_upper : ∀ d < 16, isHexDigit (Nat.digitChar d).toUpper = true ∧
    hexDigitValue (Nat.digitChar d).toUpper = d := by decide

theorem byteText_eq (b : UInt8) : ∃ high low, byteText b = ['%', high, low] ∧
    isHexDigit high = true ∧ isHexDigit low = true ∧
      UInt8.ofNat (16 * hexDigitValue high + hexDigitValue low) = b := by
  obtain ⟨hhigh, hhighValue⟩ := isHexDigit_upper (b.toNat / 16 % 16) (Nat.mod_lt _ (by decide))
  obtain ⟨hlow, hlowValue⟩ := isHexDigit_upper (b.toNat % 16) (Nat.mod_lt _ (by decide))
  refine ⟨_, _, rfl, hhigh, hlow, ?_⟩
  have hb : b.toNat < 256 := b.toNat_lt
  have hvalue : 16 * (b.toNat / 16 % 16) + b.toNat % 16 = b.toNat := by omega
  rw [hhighValue, hlowValue, hvalue, UInt8.ofNat_toNat]

theorem encode_cons (escaped : Char → Bool) (c : Char) (cs : List Char) :
    encode escaped (c :: cs) = encodeChar escaped c ++ encode escaped cs := rfl

theorem mem_encode (h : c ∈ encode escaped cs) :
    (c ∈ cs ∧ isNonAscii c = false ∧ escaped c = false) ∨ c = '%' ∨ isHexDigit c = true := by
  obtain ⟨d, hd, h⟩ := List.mem_flatMap.mp h
  unfold encodeChar at h
  split at h
  · obtain ⟨b, -, h⟩ := List.mem_flatMap.mp h
    obtain ⟨high, low, htext, hhigh, hlow, -⟩ := byteText_eq b
    rw [htext] at h
    simp only [List.mem_cons, List.not_mem_nil, or_false] at h
    rcases h with rfl | rfl | rfl
    · exact .inr (.inl rfl)
    · exact .inr (.inr hhigh)
    · exact .inr (.inr hlow)
  · rename_i hplain
    obtain rfl := List.mem_singleton.mp h
    simp only [Bool.or_eq_true, not_or, Bool.not_eq_true] at hplain
    exact .inl ⟨hd, hplain⟩

/-- A character that stands for itself where `escaped` characters are not. -/
def Plain (escaped : Char → Bool) (c : Char) : Prop := isNonAscii c = false ∧ escaped c = false

def Spares (escaped : Char → Bool) : Prop := ∀ c, c = '%' ∨ isHexDigit c = true → escaped c = false

theorem spares_of_ascii (h : ∀ n < 128, Char.ofNat n = '%' ∨ isHexDigit (Char.ofNat n) = true →
    escaped (Char.ofNat n) = false) : Spares escaped := by
  intro c hc
  refine ascii_cases (p := fun c => c = '%' ∨ isHexDigit c = true → escaped c = false) h ?_ hc
  rcases hc with rfl | hc
  · decide
  · exact toNat_lt_of_isHexDigit hc

theorem spares_inPath : Spares inPath := spares_of_ascii (by decide)
theorem spares_inFragment : Spares inFragment := spares_of_ascii (by decide)
theorem spares_inSpecialQuery : Spares inSpecialQuery := spares_of_ascii (by decide)

theorem plain_of_mem_encode (hspares : Spares escaped) (h : c ∈ encode escaped cs) :
    Plain escaped c := by
  rcases mem_encode h with ⟨-, hplain⟩ | hmark
  · exact hplain
  · refine ⟨?_, hspares c hmark⟩
    rcases hmark with rfl | hdigit
    · decide
    · simpa [isNonAscii] using toNat_lt_of_isHexDigit hdigit

theorem encode_eq_self (h : ∀ c ∈ cs, Plain escaped c) : encode escaped cs = cs := by
  induction cs with
  | nil => rfl
  | cons c cs ih =>
    obtain ⟨hascii, hplain⟩ := h c List.mem_cons_self
    have hrest := ih fun d hd => h d (List.mem_cons_of_mem c hd)
    rw [encode_cons, hrest]
    simp [encodeChar, hascii, hplain]

/-! ### Decoding -/

theorem decode_nil : decode [] = [] := by rw [decode]

theorem decode_cons_of_ne (h : c ≠ '%') :
    decode (c :: cs) = String.utf8EncodeChar c ++ decode cs := by
  rw [decode]
  rintro a b rest rfl
  exact absurd rfl h

theorem decode_byteText (b : UInt8) (rest : List Char) :
    decode (byteText b ++ rest) = b :: decode rest := by
  obtain ⟨high, low, htext, hhigh, hlow, hvalue⟩ := byteText_eq b
  rw [htext, List.cons_append, List.cons_append, List.cons_append, List.nil_append, decode,
    hhigh, hlow, Bool.and_self, if_pos rfl, hvalue]

theorem decode_bytes (bytes : List UInt8) (rest : List Char) :
    decode (bytes.flatMap byteText ++ rest) = bytes ++ decode rest := by
  induction bytes with
  | nil => rfl
  | cons b bytes ih => rw [List.flatMap_cons, List.append_assoc, decode_byteText, ih, List.cons_append]

/-- A percent sign that no two digits follow stays. -/
theorem decode_percent (h : ∀ x y l, cs = x :: y :: l → (isHexDigit x && isHexDigit y) = false) :
    decode ('%' :: cs) = 0x25 :: decode cs := by
  have hbyte : String.utf8EncodeChar '%' = [0x25] := rfl
  match cs with
  | [] => simp [decode, hbyte]
  | [x] => simp [decode, hbyte]
  | x :: y :: l => rw [decode, h x y l rfl, if_neg Bool.false_ne_true]

theorem decode_slash (rest : List Char) : decode ('/' :: rest) = 0x2f :: decode rest :=
  decode_cons_of_ne (by decide)

/-- A slash is part of no byte that is written with a percent sign. -/
theorem decode_append_slash (a rest : List Char) :
    decode (a ++ '/' :: rest) = decode a ++ 0x2f :: decode rest := by
  have hslash : isHexDigit '/' = false := by decide
  fun_induction decode a with
  | case1 => exact decode_slash rest
  | case2 x y cs hdigits ih => simp [decode, hdigits, ih]
  | case3 x y cs hdigits ih =>
    simp only [List.cons_append] at ih ⊢
    rw [decode, if_neg hdigits, ih]
  | case4 c cs hshort ih =>
    rw [List.cons_append]
    by_cases hc : c = '%'
    · subst hc
      rw [decode_percent, ih]
      · rfl
      · intro x y l h
        match cs with
        | [] => rw [← (List.cons.inj h).1, hslash, Bool.false_and]
        | [z] => rw [← (List.cons.inj (List.cons.inj h).2).1, hslash, Bool.and_false]
        | z :: w :: l' => exact (hshort z w l' rfl rfl).elim
    · rw [decode_cons_of_ne hc, ih, List.append_assoc]

theorem length_decode_cons_le (c : Char) (cs : List Char) :
    (decode (c :: cs)).length ≤ (String.utf8EncodeChar c).length + (decode cs).length := by
  by_cases hc : c = '%'
  · subst hc
    by_cases hdigits : ∃ x y l, cs = x :: y :: l ∧ (isHexDigit x && isHexDigit y) = true
    · obtain ⟨x, y, l, rfl, hxy⟩ := hdigits
      have hdigit : ∀ d, isHexDigit d = true → d ≠ '%' := by
        rintro d hd rfl
        exact absurd hd (by decide)
      obtain ⟨hx, hy⟩ := Bool.and_eq_true_iff.mp hxy
      rw [decode, if_pos hxy, decode_cons_of_ne (hdigit x hx), decode_cons_of_ne (hdigit y hy)]
      simp only [List.length_cons, List.length_append]
      have hone : (String.utf8EncodeChar '%').length = 1 := rfl
      omega
    · rw [decode_percent]
      · exact Nat.le_of_eq (Nat.add_comm _ _)
      · intro x y l h
        exact Bool.eq_false_iff.mpr fun hxy => hdigits ⟨x, y, l, h, hxy⟩
  · exact Nat.le_of_eq (by rw [decode_cons_of_ne hc, List.length_append])

/-- Decoding what is written for a character gives at most its bytes more. -/
theorem length_decode_encode_cons_le (escaped : Char → Bool) (c : Char) (cs : List Char) :
    (decode (encode escaped (c :: cs))).length ≤
      (String.utf8EncodeChar c).length + (decode (encode escaped cs)).length := by
  rw [encode_cons]
  unfold encodeChar
  split
  · exact Nat.le_of_eq (by rw [decode_bytes, List.length_append])
  · exact length_decode_cons_le c _

end Styling.Percent
