import Mathlib.Data.List.Chain
import Styling.Proofs.Token.Lexical

/-! # Tokens tile their text

The lexemes of a text are laid out one behind the other, and the end of the text is laid out as a
lexeme without characters. So each token starts where the one before it stops, its line counts the
line ends before its start, and the spans together give the text back.
-/
namespace Styling
namespace Lexer

def layout (ls : List Lexeme) : List Char := (ls.map Lexeme.text).flatten

theorem layout_cons (l : Lexeme) (ls : List Lexeme) : layout (l :: ls) = l.text ++ layout ls := rfl

theorem layout_append (ls ls' : List Lexeme) : layout (ls ++ ls') = layout ls ++ layout ls' := by
  simp [layout]

theorem layout_lexemes (cs : List Char) : layout (lexemes cs) = cs := flatten_lexemes cs

theorem text_ne_nil {cs : List Char} {l : Lexeme} (h : l ∈ lexemes cs) : l.text ≠ [] := by
  fun_induction lexemes cs with
  | case1 => cases h
  | case2 c cs next ih =>
    rcases List.mem_cons.mp h with rfl | h
    · have hle : next.2.length ≤ cs.length := scan_length_le c cs
      refine List.ne_nil_of_length_pos ?_
      rw [List.length_take, List.length_cons]
      omega
    · exact ih h

theorem place_append (offset line : Nat) (ls ls' : List Lexeme) :
    place offset line (ls ++ ls') = place offset line ls ++
      place (offset + (layout ls).length) (line + (layout ls).count '\n') ls' := by
  induction ls generalizing offset line with
  | nil => rfl
  | cons l ls ih =>
    simp only [List.cons_append, place, ih, layout_cons, List.length_append, List.count_append,
      Nat.add_assoc]

/-- A token stands behind the characters of the lexemes before it. -/
theorem eq_of_mem_place {offset line : Nat} {ls : List Lexeme} {t : Token}
    (h : t ∈ place offset line ls) : ∃ before l after, ls = before ++ l :: after ∧
      t = ⟨l.kind, offset + (layout before).length, offset + (layout before).length + l.text.length,
        line + (layout before).count '\n'⟩ := by
  induction ls generalizing offset line with
  | nil => cases h
  | cons l ls ih =>
    rcases List.mem_cons.mp h with rfl | h
    · exact ⟨[], l, ls, rfl, rfl⟩
    · obtain ⟨before, l', after, rfl, rfl⟩ := ih h
      refine ⟨l :: before, l', after, rfl, ?_⟩
      simp only [layout_cons, List.length_append, List.count_append, Nat.add_assoc]

theorem isChain_place (offset line : Nat) (ls : List Lexeme) :
    (place offset line ls).IsChain fun t u => t.stop = u.start := by
  induction ls generalizing offset line with
  | nil => exact .nil
  | cons l ls ih =>
    refine List.isChain_cons.mpr ⟨fun u hu => ?_, ih _ _⟩
    cases ls with
    | nil => cases hu
    | cons l' ls =>
      obtain rfl := Option.some.inj hu
      rfl

theorem map_span_place (before : List Char) (line : Nat) (ls : List Lexeme) :
    (place before.length line ls).map
        (fun t => ((before ++ layout ls).take t.stop).drop t.start) =
      ls.map Lexeme.text := by
  induction ls generalizing before line with
  | nil => rfl
  | cons l ls ih =>
    have hrest := ih (before ++ l.text) (line + l.text.count '\n')
    rw [List.length_append, List.append_assoc] at hrest
    rw [place, List.map_cons, List.map_cons, layout_cons, hrest]
    simp [← List.append_assoc]

theorem start_of_mem_place {offset line : Nat} {ls : List Lexeme} {t : Token}
    (hls : ∀ l ∈ ls, l.text ≠ []) (h : t ∈ place offset line ls) :
    offset ≤ t.start ∧ t.start < offset + (layout ls).length := by
  obtain ⟨before, l, after, rfl, rfl⟩ := eq_of_mem_place h
  have hlength := List.length_pos_iff.mpr (hls l (by simp))
  rw [layout_append, layout_cons, List.length_append, List.length_append]
  exact ⟨Nat.le_add_right _ _, by dsimp only; omega⟩

theorem pairwise_start_place {offset line : Nat} {ls : List Lexeme} (hls : ∀ l ∈ ls, l.text ≠ []) :
    (place offset line ls).Pairwise fun t u => t.start < u.start := by
  induction ls generalizing offset line with
  | nil => exact .nil
  | cons l ls ih =>
    obtain ⟨hl, hls⟩ := List.forall_mem_cons.mp hls
    refine List.pairwise_cons.mpr ⟨fun u hu => ?_, ih hls⟩
    have hlength := List.length_pos_iff.mpr hl
    exact Nat.lt_of_lt_of_le (Nat.lt_add_of_pos_right hlength) (start_of_mem_place hls hu).1

end Lexer
open Lexer

def endLexeme : Lexeme := ⟨.eof, []⟩

theorem layout_endLexeme (cs : List Char) : layout (lexemes cs ++ [endLexeme]) = cs := by
  rw [layout_append, layout_lexemes]
  exact List.append_nil cs

theorem tokenize_eq_place (text : String) :
    tokenize text = place 0 1 (lexemes text.toList ++ [endLexeme]) := by
  rw [place_append, layout_lexemes, Nat.zero_add]
  rfl

/-- A token starts behind a front of its text and counts the lines of it. -/
theorem exists_front_of_mem_tokenize {text : String} {t : Token} (h : t ∈ tokenize text) :
    ∃ front rest, text.toList = front ++ rest ∧ t.start = front.length ∧
      t.line = 1 + front.count '\n' := by
  rw [tokenize_eq_place] at h
  obtain ⟨before, l, after, hls, rfl⟩ := eq_of_mem_place h
  refine ⟨layout before, layout (l :: after), ?_, Nat.zero_add _, rfl⟩
  rw [← layout_append, ← hls, layout_endLexeme]

/-- The source of a token is what its lexeme took. -/
theorem exists_lexeme_of_mem_tokens {text : String} {t : Token} (h : t ∈ tokens text.toList) :
    ∃ l ∈ lexemes text.toList, t.kind = l.kind ∧
      sourceText text t.start t.stop = String.ofList l.text := by
  obtain ⟨before, l, after, hlexemes, rfl⟩ := eq_of_mem_place h
  refine ⟨l, by simp [hlexemes], rfl, ?_⟩
  have hlayout := layout_lexemes text.toList
  rw [hlexemes, layout_append, layout_cons] at hlayout
  rw [sourceText, ← hlayout, Nat.zero_add, ← List.append_assoc, ← List.length_append,
    List.take_left, List.drop_left]

theorem kind_ne_eof_of_mem_lexemes {cs : List Char} {l : Lexeme} (h : l ∈ lexemes cs) :
    l.kind ≠ .eof := by
  intro hk
  have hlexical := lexical_of_mem_lexemes h
  rw [hk] at hlexical
  exact hlexical

/-- Tokens that cover a text from its start to its end, in order and without overlap. -/
structure Tiles (text : String) (ts : List Token) : Prop where
  /-- One end, in the last place, where the text ends; every other token takes characters. -/
  ends : ∃ front last, ts = front ++ [last] ∧ last.kind = .eof ∧
    last.start = text.length ∧ last.stop = text.length ∧
    ∀ t ∈ front, t.kind ≠ .eof ∧ t.start < t.stop
  starts : ∀ t ∈ ts.head?, t.start = 0
  adjoins : ts.IsChain fun t u => t.stop = u.start
  line : ∀ t ∈ ts, t.line = 1 + (text.toList.take t.start).count '\n'
  source : String.join (ts.map fun t => sourceText text t.start t.stop) = text

/-- The tokens of a text tile it. -/
theorem tokenize_tiles (text : String) : Tiles text (tokenize text) where
  ends := by
    refine ⟨tokens text.toList, endToken text.toList, rfl, rfl, rfl, rfl, fun t ht => ?_⟩
    obtain ⟨before, l, after, hlexemes, rfl⟩ := eq_of_mem_place ht
    have hl : l ∈ lexemes text.toList := by simp [hlexemes]
    have hlength := List.length_pos_iff.mpr (text_ne_nil hl)
    exact ⟨kind_ne_eof_of_mem_lexemes hl, Nat.lt_add_of_pos_right hlength⟩
  starts := by
    intro t ht
    rw [tokenize_eq_place] at ht
    cases hls : lexemes text.toList <;>
    · rw [hls] at ht
      obtain rfl := Option.some.inj ht
      rfl
  adjoins := by
    rw [tokenize_eq_place]
    exact isChain_place 0 1 _
  line := by
    intro t ht
    rw [tokenize_eq_place] at ht
    obtain ⟨before, l, after, hls, rfl⟩ := eq_of_mem_place ht
    have hlayout := layout_endLexeme text.toList
    rw [hls, layout_append] at hlayout
    rw [← hlayout, Nat.zero_add, List.take_left]
  source := by
    have hspans := map_span_place [] 1 (lexemes text.toList ++ [endLexeme])
    rw [List.nil_append, layout_endLexeme, List.length_nil, ← tokenize_eq_place] at hspans
    have htexts : (tokenize text).flatMap (fun t => (sourceText text t.start t.stop).toList) =
        layout (lexemes text.toList ++ [endLexeme]) := by
      simp only [layout, ← hspans, sourceText, String.toList_ofList, List.flatMap_def]
    rw [← String.toList_inj, String.toList_join, List.flatMap_map, htexts, layout_endLexeme]

end Styling
