import Mathlib.Data.List.Induction
import Styling.Proofs.Token.Tiling
import Styling.Token.Scanner

/-! # Places of tokens are places of the scanner

Whatever a scanner consumes and takes back, it is where it would be had it only gone forward, and
its line counts the line ends before its position. So the offsets and lines of tokens, which are
counted from their lexemes, are those that a scanner has between them.
-/
namespace Styling
open Lexer

namespace Scanner
variable {text : String} {n : Nat}

inductive Move
  | consume | reconsume

def move (s : Scanner) : Move → Scanner
  | .consume => s.consume.2
  | .reconsume => s.reconsume

theorem consume_of_lt {s : Scanner} {c : Char} (h : s.input[s.position]? = some c) :
    s.consume.2 = ⟨s.input, s.position + 1, if c = '\n' then s.line + 1 else s.line⟩ := by
  rw [consume, h]

theorem consume_of_none {s : Scanner} (h : s.input[s.position]? = none) : s.consume.2 = s := by
  rw [consume, h]

/-- To take a character back undoes consuming it, line end or not. -/
theorem reconsume_consume {s : Scanner} {c : Char} (h : s.input[s.position]? = some c) :
    s.consume.2.reconsume = s := by
  rw [consume_of_lt h, reconsume]
  dsimp only
  rw [h]
  obtain ⟨input, position, line⟩ := s
  by_cases hc : c = '\n' <;> simp [hc]

theorem advance_ofText (text : String) (h : n ≤ text.toList.length) :
    (ofText text).advance n = ⟨text.toList, n, 1 + (text.toList.take n).count '\n'⟩ := by
  induction n with
  | zero => rfl
  | succ n ih =>
    have hchar : text.toList[n]? = some text.toList[n] := List.getElem?_eq_getElem h
    rw [advance, ih (Nat.le_of_succ_le h), consume_of_lt hchar, List.take_add_one, hchar,
      List.count_append]
    by_cases hc : text.toList[n] = '\n' <;> simp [hc, Nat.add_assoc]

/-- Any moves lead to a place that is also reached by going forward only. -/
theorem exists_advance (text : String) (moves : List Move) : ∃ n, n ≤ text.toList.length ∧
    moves.foldl move (ofText text) = (ofText text).advance n := by
  induction moves using List.reverseRecOn with
  | nil => exact ⟨0, Nat.zero_le _, rfl⟩
  | append_singleton moves m ih =>
    obtain ⟨n, hn, heq⟩ := ih
    rw [List.foldl_append, List.foldl_cons, List.foldl_nil, heq]
    cases m with
    | consume =>
      rcases Nat.eq_or_lt_of_le hn with rfl | hlt
      · refine ⟨_, hn, ?_⟩
        rw [move, advance_ofText text hn]
        exact consume_of_none (List.getElem?_eq_none (Nat.le_refl _))
      · exact ⟨n + 1, hlt, rfl⟩
    | reconsume =>
      cases n with
      | zero => exact ⟨0, Nat.zero_le _, rfl⟩
      | succ n =>
        refine ⟨n, Nat.le_of_succ_le hn, ?_⟩
        rw [move, advance]
        refine reconsume_consume (c := text.toList[n]) ?_
        rw [advance_ofText text (Nat.le_of_succ_le hn)]
        exact List.getElem?_eq_getElem hn

def place (s : Scanner) : List Lexeme → List Token
  | [] => []
  | l :: ls =>
    let next := s.advance l.text.length
    ⟨l.kind, s.position, next.position, s.line⟩ :: next.place ls

theorem advance_advance (s : Scanner) (m n : Nat) :
    (s.advance m).advance n = s.advance (m + n) := by
  induction n with
  | zero => rfl
  | succ n ih => rw [advance, ih, ← Nat.add_assoc, advance]

theorem place_eq {before : List Char} {ls : List Lexeme} (h : text.toList = before ++ layout ls) :
    ((ofText text).advance before.length).place ls =
      Lexer.place before.length (1 + before.count '\n') ls := by
  induction ls generalizing before with
  | nil => rfl
  | cons l ls ih =>
    rw [layout_cons, ← List.append_assoc] at h
    have hrest := ih h
    have hlength : (before ++ l.text).length ≤ text.toList.length := by simp [h]
    have hfront : before.length ≤ text.toList.length := by simp [h]
    have htake : text.toList.take before.length = before := by simp [h]
    rw [List.length_append, List.count_append] at hrest
    rw [place, Lexer.place, advance_advance, hrest, Nat.add_assoc]
    rw [List.length_append] at hlength
    rw [advance_ofText text hlength, advance_ofText text hfront, htake]

/-- The tokens of a text stand where a scanner is before and behind their lexemes. -/
theorem tokenize_eq_place (text : String) :
    tokenize text = (ofText text).place (lexemes text.toList ++ [endLexeme]) := by
  have htext : text.toList = [] ++ layout (lexemes text.toList ++ [endLexeme]) :=
    (layout_endLexeme text.toList).symm
  rw [Styling.tokenize_eq_place]
  exact (place_eq htext).symm

/-- However a scanner comes to the start of a token, it has counted the line of the token. -/
theorem line_of_position {moves : List Move} {t : Token} (ht : t ∈ tokenize text)
    (h : (moves.foldl move (ofText text)).position = t.start) :
    (moves.foldl move (ofText text)).line = t.line := by
  obtain ⟨n, hn, heq⟩ := exists_advance text moves
  obtain ⟨front, rest, htext, hstart, hline⟩ := exists_front_of_mem_tokenize ht
  rw [heq, advance_ofText text hn] at h ⊢
  obtain rfl : n = front.length := h.trans hstart
  rw [hline, htext, List.take_left]

end Scanner
end Styling
