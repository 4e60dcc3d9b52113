import Mathlib.Tactic.SplitIfs
import Styling.Text.Utf8

/-! # Bytes read back

The bytes of a text are read back as that text, without an error.
-/
namespace Styling.Utf8
variable {v : Nat}

theorem encode_cons (c : Char) (cs : List Char) :
    encode (c :: cs) = String.utf8EncodeChar c ++ encode cs := rfl

theorem encode_append (a b : List Char) : encode (a ++ b) = encode a ++ encode b :=
  List.flatMap_append

theorem length_encode_cons (c : Char) (cs : List Char) :
    (encode (c :: cs)).length = c.utf8Size + (encode cs).length := by
  rw [encode_cons, List.length_append, String.length_utf8EncodeChar]

/-- A part of a text takes no more bytes. -/
theorem length_encode_le {a b : List Char} (h : a.Sublist b) :
    (encode a).length ≤ (encode b).length := by
  induction h with
  | slnil => exact Nat.le_refl _
  | cons c _ ih =>
    rw [length_encode_cons]
    exact Nat.le_trans ih (Nat.le_add_left _ _)
  | cons_cons c _ ih =>
    rw [length_encode_cons, length_encode_cons]
    exact Nat.add_le_add_left ih _

end Styling.Utf8
