import Styling.Proofs.Sheet.Appended

/-! # Declarations in a style attribute and in a block

A style attribute holds a list of declarations, and the same list can stand in the block of a
ruleset. If the list closes all of its brackets and no others, it is read in both places in the
same way: the block goes on to its own bracket, and a fault at the end of the list lies there.
-/
namespace Styling
open Grammar (kinds)
open Lexer
open Move

/-- Every bracket that is opened is closed again, and no curly bracket closes what is not open. -/
def Contained : OpenBrackets → List Kind → Prop
  | stack, [] => stack = []
  | stack, k :: ks => (stack = [] → k ≠ .closing .curly) ∧ Contained (stack.track k) ks

structure ClosesAt (finish close : Token) : Prop where
  kind : close.kind = .closing .curly
  start : close.start = finish.start
  line : close.line = finish.line

theorem ClosesAt.ofToken {finish close : Token} (h : ClosesAt finish close) (cause : Cause) :
    Fault.ofToken cause close = Fault.ofToken cause finish := by
  rw [Fault.ofToken, Fault.ofToken, h.start, h.line]

section Contained
variable {stack : OpenBrackets} {t : Token} {ts : List Token}

theorem contained_filter {ks : List Kind} (h : Contained stack ks) :
    Contained stack (ks.filter (!·.isComment)) :=
  filter_comments (fun _ _ _ => Iff.rfl) h

theorem not_endsSegment_of_contained (h : Contained stack (kinds (t :: ts))) (curly : Bool) :
    endsSegment curly stack t.kind = false := by
  refine not_endsSegment curly (Bool.eq_false_iff.mpr fun hends => ?_)
  obtain ⟨hstack, ht⟩ := endsSegment_iff.mp hends
  exact h.1 hstack ht

theorem contained_tail (h : Contained [] (kinds (t :: ts))) (ht : OpenBrackets.track [] t.kind = []) :
    Contained [] (kinds ts) := ht ▸ h.2

theorem contained_skipBlanks (h : Contained [] (kinds ts)) : Contained [] (kinds (skipBlanks ts)) := by
  induction ts with
  | nil => exact h
  | cons t ts ih =>
    cases hblank : t.kind.isBlank with
    | false => rwa [skipBlanks_cons hblank]
    | true =>
      rw [show skipBlanks (t :: ts) = skipBlanks ts from List.dropWhile_cons_of_pos hblank]
      exact ih (contained_tail h (by rw [eq_blank_of_isBlank hblank]; rfl))

end Contained

section Reading
variable {stack : OpenBrackets} {finish close t : Token} {ts : List Token}

theorem splitSegment_closing (ht : t.kind = .closing .curly) (ts : List Token) :
    splitSegment true [] (t :: ts) = ([], t :: ts) := by
  rw [splitSegment, if_neg (by simp [cutsSegment, ht]), if_pos (endsSegment_iff.mpr ⟨rfl, ht⟩)]

theorem skipBlanks_closing (ht : t.kind = .closing .curly) (us ts : List Token) :
    skipBlanks (us ++ t :: ts) = skipBlanks us ++ t :: ts := by
  unfold skipBlanks
  rw [List.dropWhile_append, List.dropWhile_cons_of_neg (by simp [ht, Kind.isBlank])]
  split
  next hnil => rw [List.isEmpty_iff.mp hnil, List.nil_append]
  · rfl

/-- The segments of a contained list are the same in a block, and the block closes behind the
last. -/
theorem splitSegment_enclosed (h : Contained stack (kinds ts)) (hclose : close.kind = .closing .curly)
    (curly : Bool) (more : List Token) :
    splitSegment true stack (ts ++ close :: more) =
        ((splitSegment curly stack ts).1, (splitSegment curly stack ts).2 ++ close :: more) ∧
      Contained [] (kinds (splitSegment curly stack ts).2) := by
  induction ts generalizing stack with
  | nil =>
    obtain rfl : stack = [] := h
    rw [List.nil_append, splitSegment_closing hclose]
    exact ⟨rfl, rfl⟩
  | cons t ts ih =>
    rw [List.cons_append]
    cases hcuts : cutsSegment stack t.kind with
    | true =>
      obtain ⟨rfl, ht⟩ := cutsSegment_iff.mp hcuts
      rw [splitSegment, if_pos hcuts, splitSegment, if_pos hcuts]
      exact ⟨rfl, contained_tail h (by rw [ht]; rfl)⟩
    | false =>
      obtain ⟨hsplit, hrest⟩ := ih h.2
      rw [splitSegment_of_passes hcuts (not_endsSegment_of_contained h true), hsplit,
        splitSegment_of_passes hcuts (not_endsSegment_of_contained h curly)]
      exact ⟨rfl, hrest⟩

/-- One declaration of a contained list is read in the block as in the list. -/
theorem readDeclaration_enclosed (h : Contained [] (kinds (t :: ts))) (hclose : ClosesAt finish close)
    (finish' : Token) (more : List Token) :
    readDeclaration finish' true t (ts ++ close :: more) =
        ((readDeclaration finish false t ts).1,
          (readDeclaration finish false t ts).2 ++ close :: more) ∧
      Contained [] (kinds (readDeclaration finish false t ts).2) := by
  unfold readDeclaration
  split
  next name ht =>
    have hcontained := contained_skipBlanks (contained_tail h (by rw [ht]; rfl))
    rw [skipBlanks_closing hclose.kind]
    cases hus : skipBlanks ts with
    | nil =>
      rw [List.nil_append]
      dsimp only
      rw [if_neg (by simp [hclose.kind]), hclose.ofToken, splitSegment_closing hclose.kind]
      exact ⟨rfl, rfl⟩
    | cons u us =>
      rw [hus] at hcontained
      rw [List.cons_append]
      dsimp only
      split
      next hcolon =>
        have htail := contained_tail hcontained (by rw [hcolon]; rfl)
        obtain ⟨hsplit, hrest⟩ := splitSegment_enclosed htail hclose.kind true more
        rw [hsplit]
        exact ⟨rfl, hrest⟩
      next =>
        obtain ⟨hsplit, hrest⟩ := splitSegment_enclosed hcontained hclose.kind false more
        rw [← List.cons_append, hsplit]
        exact ⟨rfl, hrest⟩
  next =>
    obtain ⟨hsplit, hrest⟩ := splitSegment_enclosed h.2 hclose.kind false more
    rw [hsplit]
    exact ⟨rfl, hrest⟩

/-- A contained list is read in the block as it is read alone. -/
theorem readDeclarations_enclosed (h : Contained [] (kinds ts)) (hclose : ClosesAt finish close)
    (finish' : Token) (more : List Token) :
    readDeclarations finish' true (ts ++ close :: more) =
      ((readDeclarations finish false ts).1, more) := by
  fun_induction readDeclarations finish false ts with
  | case1 =>
    rw [List.nil_append, readDeclarations, if_neg (by simp [hclose.kind, Kind.isBlank]),
      if_pos (by simp [hclose.kind])]
    rfl
  | case2 t ts hskip ih =>
    have htrack : OpenBrackets.track [] t.kind = [] := by
      rcases Bool.or_eq_true_iff.mp hskip with hblank | hsemicolon
      · rw [eq_blank_of_isBlank hblank]
        rfl
      · rw [eq_of_beq hsemicolon]
        rfl
    rw [List.cons_append, readDeclarations, if_pos hskip, ih (contained_tail h htrack)]
  | case3 t ts _ hends => simp at hends
  | case4 t ts hskip _ first rest ih =>
    obtain ⟨hfirst, hrest⟩ := readDeclaration_enclosed h hclose finish' more
    have hopen : ¬ (true && t.kind == .closing .curly) = true := by
      simpa using h.1 rfl
    rw [List.cons_append, readDeclarations, if_neg hskip, if_neg hopen]
    dsimp only
    rw [hfirst, ih hrest]

end Reading

section Places
variable {cs : List Char} {close : Token}

theorem text_of_closing {l : Lexeme} (h : l ∈ lexemes cs) (hl : l.kind = .closing .curly) :
    l.text = ['\x7d'] := by
  fun_induction lexemes cs with
  | case1 => cases h
  | case2 c cs next ih =>
    rcases List.mem_cons.mp h with rfl | h
    · obtain rfl := eq_of_scan_closing hl
      rw [show next.2 = cs from rfl, Nat.add_sub_cancel_left]
      rfl
    · exact ih h

theorem closesAt_of_tokens (h : tokens (cs ++ ['\x7d']) = tokens cs ++ [close])
    (hclose : close.kind = .closing .curly) : ClosesAt (endToken cs) close := by
  rcases List.eq_nil_or_concat (lexemes (cs ++ ['\x7d'])) with hnil | ⟨ls, l, hls⟩
  · rw [tokens, hnil] at h
    simp [place] at h
  have hlast : close = ⟨l.kind, (layout ls).length, (layout ls).length + l.text.length,
      1 + (layout ls).count '\n'⟩ := by
    rw [tokens, hls, List.concat_eq_append, place_append, Nat.zero_add] at h
    exact (List.singleton_inj.mp (List.append_inj_right' h rfl)).symm
  have hl : l.kind = .closing .curly := by
    rw [hlast] at hclose
    exact hclose
  have htext := text_of_closing (l := l) (by rw [hls]; simp) hl
  have hlayout : layout ls ++ ['\x7d'] = cs ++ ['\x7d'] := by
    rw [← layout_lexemes (cs ++ ['\x7d']), hls, List.concat_eq_append, layout_append, ← htext]
    simp [layout]
  have hls : layout ls = cs := List.append_cancel_right hlayout
  refine ⟨hclose, ?_, ?_⟩
  · rw [hlast, hls]
    rfl
  · rw [hlast, hls]
    rfl

theorem significant_universal (cs : List Char) : significant ('*' :: '\x7b' :: cs) =
    ⟨.delim '*', 0, 1, 1⟩ :: ⟨.opening .curly, 1, 2, 1⟩ :: (significant cs).map (Token.shift 2 0) := by
  have hlexemes : lexemes ('*' :: '\x7b' :: cs) =
      ⟨.delim '*', ['*']⟩ :: ⟨.opening .curly, ['\x7b']⟩ :: lexemes cs := by
    rw [lexemes, show scan '*' ('\x7b' :: cs) = (.delim '*', '\x7b' :: cs) from rfl, lexemes,
      show scan '\x7b' cs = (.opening .curly, cs) from rfl]
    simp
  have htokens : tokens ('*' :: '\x7b' :: cs) =
      ⟨.delim '*', 0, 1, 1⟩ :: ⟨.opening .curly, 1, 2, 1⟩ :: (tokens cs).map (Token.shift 2 0) := by
    rw [tokens, hlexemes, tokens, ← place_shift]
    rfl
  rw [significant, htokens, significant, List.filter_cons_of_pos rfl, List.filter_cons_of_pos rfl,
    List.filter_map]
  rfl

end Places

/-- What stands behind the universal selector is read as its block. -/
theorem readStatements_universal (finish : Token) (ts : List Token) :
    readStatements finish (⟨.delim '*', 0, 1, 1⟩ :: ⟨.opening .curly, 1, 2, 1⟩ :: ts) =
      .ruleset [.simple .universal] (readDeclarations finish true ts).1 ::
        readStatements finish (readDeclarations finish true ts).2 := by
  have hgroup : Grammar.Group (kinds [⟨.delim '*', 0, 1, 1⟩]) [.simple .universal] :=
    .one ⟨[.delim '*'], [], rfl, .first (s := []) .nil (.head .universal), .nil⟩
  have hread : SelectorGroup.read (⟨.delim '*', 0, 1, 1⟩ :: ⟨.opening .curly, 1, 2, 1⟩ :: ts) =
      .ok ([.simple .universal], ⟨.opening .curly, 1, 2, 1⟩ :: ts) :=
    Grammar.read_group_eq hgroup rfl
  rw [readStatements_ruleset _ (by simp) (by simp) (by simp) (by simp), readRuleset, hread]
  rfl

namespace ParsedSheet

variable {text : String} {close finish : Token}

/-- A block of its own holds what a style attribute reads. -/
theorem statements_ofText_block
    (htokens : tokenize (text ++ "\x7d") = tokens text.toList ++ [close, finish])
    (hclose : close.kind = .closing .curly)
    (hcontained : Contained [] (kinds (tokens text.toList))) :
    (ofText ("*\x7b" ++ text ++ "\x7d")).statements =
      [.ruleset [.simple .universal] ((parseDeclarations text).map (Entry.shift 2 0))] := by
  let m : Move := ⟨2, 0, []⟩
  let finish := endToken (text.toList ++ ['\x7d'])
  have hchars : ("*\x7b" ++ text ++ "\x7d").toList = '*' :: '\x7b' :: (text.toList ++ ['\x7d']) := by
    simp
  have hlist : tokens (text.toList ++ ['\x7d']) = tokens text.toList ++ [close] := by
    rw [tokenize, String.toList_append, List.append_cons _ close] at htokens
    exact List.append_inj_left' htokens rfl
  have hkept : significant (text.toList ++ ['\x7d']) = significant text.toList ++ [close] := by
    rw [significant, hlist, List.filter_append, List.filter_cons_of_pos (by simp [hclose, Kind.isComment])]
    rfl
  have hblock : readDeclarations finish true (significant text.toList ++ [close]) =
      (parseDeclarations text, []) := by
    have hinside : Contained [] (kinds (significant text.toList)) := by
      rw [Grammar.kinds_significant]
      exact contained_filter hcontained
    exact readDeclarations_enclosed hinside (closesAt_of_tokens hlist hclose) finish []
  have hmoved : readDeclarations (m.token finish) true
      ((significant text.toList ++ [close]).map (Token.shift 2 0)) =
        ((parseDeclarations text).map (Entry.shift 2 0), []) := by
    have hcarries : m.Carries finish (m.token finish)
        (splitBlock [] (significant text.toList ++ [close])).2 := fun _ => ⟨rfl, rfl⟩
    have hmove := readDeclarations_move hcarries
    rwa [hblock, Move.tokens, List.append_nil] at hmove
  have hend : endToken ('*' :: '\x7b' :: (text.toList ++ ['\x7d'])) = m.token finish :=
    endToken_join ['*', '\x7b'] _
  rw [ofText, hchars, significant_universal, hkept, hend]
  dsimp only
  rw [readStatements_universal, hmoved, readStatements]

/-- A contained list gives a block its declarations and its faults, which lie further on by the
two characters before the list. -/
theorem ofText_block
    (htokens : tokenize (text ++ "\x7d") = tokens text.toList ++ [close, finish])
    (hclose : close.kind = .closing .curly)
    (hcontained : Contained [] (kinds (tokens text.toList))) :
    (ofText ("*\x7b" ++ text ++ "\x7d")).stylesheet.rulesets =
        [⟨[.simple .universal], declarationsOf (parseDeclarations text)⟩] ∧
      (ofText ("*\x7b" ++ text ++ "\x7d")).faults =
        (faultsOf (parseDeclarations text)).map (Fault.shift 2 0) := by
  have hstatements := statements_ofText_block htokens hclose hcontained
  have hruleset := ruleset?_shift 2 0 (.ruleset [.simple .universal] (parseDeclarations text))
  have hfaults := faults_shift 2 0 (.ruleset [.simple .universal] (parseDeclarations text))
  constructor
  · rw [stylesheet, hstatements]
    exact List.filterMap_cons_some hruleset
  · rw [faults, hstatements, List.flatMap_singleton]
    exact hfaults

/-- The first curly bracket stands in round ones and closes nothing; the last declaration lacks
its colon where the list ends. -/
theorem ofText_block_malformed :
    tokenize ("a: b(\x7d);\nc \x7bd;\x7d e; f" ++ "\x7d") =
        tokens "a: b(\x7d);\nc \x7bd;\x7d e; f".toList ++
          [⟨.closing .curly, 20, 21, 2⟩, ⟨.eof, 21, 21, 2⟩] ∧
      Contained [] (kinds (tokens "a: b(\x7d);\nc \x7bd;\x7d e; f".toList)) ∧
      (ofText ("*\x7b" ++ "a: b(\x7d);\nc \x7bd;\x7d e; f" ++ "\x7d")).stylesheet.rulesets =
        [⟨[.simple .universal],
          [⟨"a", [.function "b", .closing .curly, .closing .round], false⟩]⟩] ∧
      (ofText ("*\x7b" ++ "a: b(\x7d);\nc \x7bd;\x7d e; f" ++ "\x7d")).faults =
        [⟨.expectedColon, 13, 2⟩, ⟨.expectedColon, 22, 2⟩] := by
  have htokens : tokenize ("a: b(\x7d);\nc \x7bd;\x7d e; f" ++ "\x7d") =
      tokens "a: b(\x7d);\nc \x7bd;\x7d e; f".toList ++
        [⟨.closing .curly, 20, 21, 2⟩, ⟨.eof, 21, 21, 2⟩] := by
    decide +kernel
  have hkinds : kinds (tokens "a: b(\x7d);\nc \x7bd;\x7d e; f".toList) =
      [.ident "a", .colon, .blank, .function "b", .closing .curly, .closing .round, .semicolon,
        .blank, .ident "c", .blank, .opening .curly, .ident "d", .semicolon, .closing .curly,
        .blank, .ident "e", .semicolon, .blank, .ident "f"] := by
    decide +kernel
  have hcontained : Contained [] (kinds (tokens "a: b(\x7d);\nc \x7bd;\x7d e; f".toList)) := by
    rw [hkinds]
    simp [Contained, OpenBrackets.track, OpenBrackets.push, Kind.opens?]
  have hentries : parseDeclarations "a: b(\x7d);\nc \x7bd;\x7d e; f" =
      [.declared ⟨"a", [.function "b", .closing .curly, .closing .round], false⟩,
        .malformed ⟨.expectedColon, 11, 2⟩, .malformed ⟨.expectedColon, 20, 2⟩] := by
    decide +kernel
  have hblock := ofText_block htokens rfl hcontained
  rw [hentries] at hblock
  exact ⟨htokens, hcontained, hblock⟩

end ParsedSheet
end Styling
