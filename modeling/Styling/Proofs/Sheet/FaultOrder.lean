import Styling.Proofs.Sheet.Formed
import Styling.Proofs.Token.Tiling

/-! # Where faults lie

A fault blames a token that is no comment, or the end of the text. No reader comes back to a token
that is blamed: it belongs to what is read or skipped with the fault, or it is the bracket that
closes the block. So the faults of a text lie behind each other. Only the end can be blamed twice,
for a malformed piece of a block and for the block itself, which is not closed.
-/
namespace Styling
open scoped List

def Token.spot (t : Token) : Nat × Nat := (t.start, t.line)

def Fault.spot (f : Fault) : Nat × Nat := (f.offset, f.line)

/-- Between `ts` and `rest`, faults blame tokens in their order, none of them twice. If no token is
left, those of `ends` can be blamed behind them. -/
def Blames (ends ts rest : List Token) (fs : List Fault) : Prop :=
  ∃ used, ts = used ++ rest ∧
    fs.map Fault.spot <+ (used ++ if rest = [] then ends else []).map Token.spot

namespace Blames
variable {ends ends' ts us mid rest used : List Token} {fs gs : List Fault} {finish : Token}

theorem nil (h : rest <:+ ts) : Blames ends ts rest [] := by
  obtain ⟨used, rfl⟩ := h
  exact ⟨used, rfl, List.nil_sublist _⟩

theorem prepend (hs : us <:+ ts) (h : Blames ends us rest fs) : Blames ends ts rest fs := by
  obtain ⟨front, rfl⟩ := hs
  obtain ⟨used, rfl, hspots⟩ := h
  refine ⟨front ++ used, (List.append_assoc ..).symm, hspots.trans ?_⟩
  rw [List.append_assoc]
  exact (List.sublist_append_right front _).map _

theorem mono (hends : ends <+ ends') (h : Blames ends ts rest fs) : Blames ends' ts rest fs := by
  obtain ⟨used, hts, hspots⟩ := h
  refine ⟨used, hts, hspots.trans (List.Sublist.map _ (List.Sublist.append_left ?_ used))⟩
  split
  · exact hends
  · exact List.Sublist.refl _

theorem of_mem (used : List Token) {f? : Option Fault}
    (hf : ∀ f ∈ f?, ∃ t ∈ used, f.spot = t.spot) :
    Blames ends (used ++ rest) rest f?.toList := by
  refine ⟨used, rfl, ?_⟩
  cases f? with
  | none => exact List.nil_sublist _
  | some f =>
    obtain ⟨t, ht, hspot⟩ := hf f rfl
    refine List.singleton_sublist.mpr ?_
    rw [hspot, List.map_append]
    exact List.mem_append_left _ (List.mem_map_of_mem ht)

/-- A fault blames the token at which reading stops, which is then skipped, or the end. -/
theorem head (mid : List Token) {f : Fault} (hf : f.spot = (mid.headD finish).spot)
    (hmid : mid <:+ ts) (hrest : rest <:+ mid.tail) : Blames [finish] ts rest [f] := by
  refine prepend hmid ?_
  cases mid with
  | nil =>
    obtain rfl := List.suffix_nil.mp hrest
    exact ⟨[], rfl, List.singleton_sublist.mpr (by simpa using hf)⟩
  | cons t mid =>
    obtain ⟨skipped, hskipped⟩ := hrest
    rw [List.tail_cons] at hskipped
    rw [← hskipped]
    have hblamed : ∀ g ∈ some f, ∃ u ∈ t :: skipped, g.spot = u.spot := by
      rintro g ⟨⟩
      exact ⟨t, List.mem_cons_self, hf⟩
    exact of_mem (t :: skipped) hblamed

theorem append (h : Blames ends' ts mid fs) (hmid : mid ≠ []) (h' : Blames ends mid rest gs) :
    Blames ends ts rest (fs ++ gs) := by
  obtain ⟨used, rfl, hspots⟩ := h
  obtain ⟨used', rfl, hspots'⟩ := h'
  rw [if_neg hmid, List.append_nil] at hspots
  refine ⟨used ++ used', (List.append_assoc ..).symm, ?_⟩
  rw [List.append_assoc, List.map_append, List.map_append]
  exact hspots.append hspots'

theorem append_end (h : Blames ends ts [] fs) (hgs : gs.map Fault.spot <+ ends'.map Token.spot) :
    Blames (ends ++ ends') ts [] (fs ++ gs) := by
  obtain ⟨used, hts, hspots⟩ := h
  refine ⟨used, hts, ?_⟩
  rw [if_pos rfl, ← List.append_assoc, List.map_append, List.map_append]
  exact hspots.append hgs

end Blames

section Readers
variable (finish : Token)

theorem exists_splitSegment (curly : Bool) (stack : OpenBrackets) (ts : List Token) : ∃ between,
    ts = (splitSegment curly stack ts).1 ++ between ++ (splitSegment curly stack ts).2 := by
  induction ts generalizing stack with
  | nil => exact ⟨[], rfl⟩
  | cons t ts ih =>
    unfold splitSegment
    split
    · exact ⟨[t], rfl⟩
    split
    · exact ⟨[], rfl⟩
    · obtain ⟨between, hts⟩ := ih (stack.track t.kind)
      exact ⟨between, congrArg (t :: ·) hts⟩

/-- A segment takes the token it begins with, unless that closes the block. -/
theorem splitSegment_cons_cases (curly : Bool) (t : Token) (ts : List Token) :
    (splitSegment curly [] (t :: ts)).2 <:+ ts ∨
      curly = true ∧ t.kind = .closing .curly ∧ (splitSegment curly [] (t :: ts)).2 = t :: ts := by
  unfold splitSegment
  split
  · exact .inl (List.suffix_refl _)
  split
  next hends =>
    have hclosing : curly = true ∧ t.kind = .closing .curly := by simpa [endsSegment] using hends
    exact .inr ⟨hclosing.1, hclosing.2, rfl⟩
  · exact .inl (splitSegment_suffix _ _ _)

theorem mem_of_fault?_readValueOf {start : Token} {property : String} {value : List Token}
    {f : Fault} (h : f ∈ (readValueOf start property value).fault?) :
    ∃ t ∈ start :: value, f.spot = t.spot := by
  unfold readValueOf at h
  split at h
  next t hfind =>
    obtain rfl := Option.some.inj h
    exact ⟨t, List.mem_cons_of_mem _ (List.mem_of_find?_eq_some hfind), rfl⟩
  · dsimp only at h
    split at h
    · obtain rfl := Option.some.inj h
      exact ⟨start, List.mem_cons_self, rfl⟩
    · cases h

/-- A declaration that breaks off before the bracket that closes its block blames that bracket,
which is left for the block. -/
theorem blames_readDeclaration (curly : Bool) (start : Token) (ts : List Token) :
    Blames [finish] (start :: ts) (readDeclaration finish curly start ts).2
        (readDeclaration finish curly start ts).1.fault?.toList ∨
      curly = true ∧ ∃ t rest, (readDeclaration finish curly start ts).2 = t :: rest ∧
        t.kind = .closing .curly ∧ Blames [finish] (start :: ts) rest
          (readDeclaration finish curly start ts).1.fault?.toList := by
  have hcons := List.suffix_cons start ts
  unfold readDeclaration
  split
  next property _ =>
    cases hskip : skipBlanks ts with
    | nil => exact .inl (.head [] rfl List.nil_suffix List.nil_suffix)
    | cons t rest =>
      have hrest : t :: rest <:+ start :: ts := hskip ▸ (skipBlanks_suffix ts).trans hcons
      dsimp only
      split
      · -- the fault is in the value, or at the property: both are behind us
        obtain ⟨blanks, hblanks⟩ := hskip ▸ skipBlanks_suffix ts
        obtain ⟨between, hsplit⟩ := exists_splitSegment true [] rest
        have hused : start :: ts = (start :: (blanks ++ t :: ((splitSegment true [] rest).1 ++
            between))) ++ (splitSegment true [] rest).2 := by
          rw [← hblanks]
          conv_lhs => rw [hsplit]
          simp
        rw [hused]
        refine .inl (.of_mem _ fun f hf => ?_)
        obtain ⟨u, hu, hspot⟩ := mem_of_fault?_readValueOf hf
        refine ⟨u, ?_, hspot⟩
        rcases List.mem_cons.mp hu with rfl | hu
        · exact List.mem_cons_self
        · simp [hu]
      · rcases splitSegment_cons_cases curly t rest with hskipped | ⟨hcurly, hclosing, heq⟩
        · exact .inl (.head (t :: rest) rfl hrest hskipped)
        · rw [heq]
          exact .inr ⟨hcurly, t, rest, rfl, hclosing, .head (t :: rest) rfl hrest
            (List.suffix_refl _)⟩
  · exact .inl (.head (start :: ts) rfl (List.suffix_refl _) (splitSegment_suffix _ _ _))

theorem faultsOf_cons_eq (e : Entry) (es : List Entry) :
    faultsOf (e :: es) = e.fault?.toList ++ faultsOf es := by
  cases e <;> rfl

/-- A block can blame the end twice, declarations alone only once. -/
theorem blames_readDeclarations (curly : Bool) (ts : List Token) :
    Blames ([finish] ++ if curly then [finish] else []) ts (readDeclarations finish curly ts).2
      (faultsOf (readDeclarations finish curly ts).1) := by
  have hends : [finish] <+ [finish] ++ if curly then [finish] else [] := List.sublist_append_left ..
  fun_induction readDeclarations finish curly ts with
  | case1 =>
    cases curly with
    | false => exact .nil (List.suffix_refl _)
    | true => exact .mono hends (.head [] rfl (List.suffix_refl _) (List.suffix_refl _))
  | case2 t ts _ ih => exact ih.prepend (List.suffix_cons _ _)
  | case3 t ts _ _ => exact .nil (List.suffix_cons _ _)
  | case4 t ts _ _ first rest ih =>
    rw [faultsOf_cons_eq]
    rcases blames_readDeclaration finish curly t ts with
      hfirst | ⟨rfl, u, us, hu, hclosing, hfirst⟩
    · by_cases hnil : first.2 = []
      · have hrest : rest =
            (if curly then [.malformed (Fault.ofToken .unclosedBlock finish)] else [], []) := by
          show readDeclarations finish curly first.2 = _
          rw [hnil, readDeclarations]
        rw [show (readDeclaration finish curly t ts).2 = [] from hnil] at hfirst
        rw [hrest]
        refine hfirst.append_end ?_
        cases curly <;> exact List.Sublist.refl _
      · exact hfirst.append hnil ih
    · -- the bracket that is blamed ends the block
      have hrest : rest = ([], us) := by
        show readDeclarations finish true first.2 = _
        rw [show first.2 = u :: us from hu, readDeclarations]
        simp [hclosing, Kind.isBlank]
      rw [hrest]
      exact (List.append_nil _).symm ▸ hfirst.mono hends

theorem skipBlock_suffix_tail (ts : List Token) : skipBlock 0 ts <:+ ts.tail := by
  cases ts with
  | nil => exact List.suffix_refl _
  | cons t ts => exact skipBlock_cons_suffix 0 t ts

theorem blames_readRuleset (ts : List Token) :
    Blames [finish, finish] ts (readRuleset finish ts).2 (readRuleset finish ts).1.faults := by
  have hends : [finish] <+ [finish, finish] := List.sublist_cons_self _ _
  have hwithin := SelectorGroup.read_within ts
  unfold readRuleset
  split
  next e h =>
    rw [h] at hwithin
    exact .mono hends (.head e.rest rfl hwithin (skipBlock_suffix_tail _))
  next selectors t rest h =>
    rw [h] at hwithin
    split
    · have hbody := blames_readDeclarations finish true rest
      exact hbody.prepend ((List.suffix_cons t rest).trans hwithin)
    · exact .mono hends (.head (t :: rest) rfl hwithin (skipBlock_suffix_tail _))
  · exact .mono hends (.head [] rfl List.nil_suffix List.nil_suffix)

theorem blames_readStatements (ts : List Token) :
    Blames [finish, finish] ts [] ((readStatements finish ts).flatMap Statement.faults) := by
  fun_induction readStatements finish ts with
  | case1 => exact .nil (List.suffix_refl _)
  | case2 t ts _ ih => exact ih.prepend (List.suffix_cons _ _)
  | case3 t ts _ ih => exact ih.prepend (List.suffix_cons _ _)
  | case4 t ts _ ih => exact ih.prepend (List.suffix_cons _ _)
  | case5 t ts name _ ih =>
    exact ih.prepend ((skipAtRule_suffix ts).trans (List.suffix_cons _ _))
  | case6 t ts first _ _ _ _ ih =>
    have hfirst := blames_readRuleset finish (t :: ts)
    rw [List.flatMap_cons]
    by_cases hnil : first.2 = []
    · rw [show (readRuleset finish (t :: ts)).2 = [] from hnil] at hfirst
      rw [hnil, readStatements, List.flatMap_nil, List.append_nil]
      exact hfirst
    · exact hfirst.append hnil ih

end Readers

theorem Blames.sublist {ends ts rest : List Token} {fs : List Fault} (h : Blames ends ts rest fs) :
    fs.map Fault.spot <+ (ts ++ ends).map Token.spot := by
  obtain ⟨used, rfl, hspots⟩ := h
  refine hspots.trans (List.Sublist.map _ ?_)
  rw [List.append_assoc]
  refine List.Sublist.append_left ?_ used
  split
  · exact List.sublist_append_right _ _
  · exact List.nil_sublist _

/-- A fault lies where a token starts that is no comment, be it the end, and counts the lines up to
there. -/
structure Fault.Placed (text : String) (f : Fault) : Prop where
  start : ∃ t ∈ tokenize text, t.kind.isComment = false ∧ f.offset = t.start
  line : f.line = 1 + (text.toList.take f.offset).count '\n'

section Text
variable {text : String}

theorem placed_of_spot {t : Token} {f : Fault} (hf : f.spot = t.spot) (ht : t ∈ tokenize text)
    (hcomment : t.kind.isComment = false) : f.Placed text := by
  obtain ⟨hoffset, hline⟩ := Prod.mk.inj hf
  refine ⟨⟨t, ht, hcomment, hoffset⟩, ?_⟩
  obtain ⟨front, rest, htext, hstart, hlines⟩ := exists_front_of_mem_tokenize ht
  rw [hoffset, hline, hstart, hlines, htext, List.take_left]

theorem Blames.placed {ends rest : List Token} {fs : List Fault}
    (hends : ∀ t ∈ ends, t = endToken text.toList)
    (h : Blames ends (significant text.toList) rest fs) : ∀ f ∈ fs, f.Placed text := by
  intro f hf
  obtain ⟨t, ht, hspot⟩ := List.mem_map.mp (h.sublist.subset (List.mem_map_of_mem hf))
  rcases List.mem_append.mp ht with ht | ht
  · obtain ⟨hmem, -⟩ := List.mem_filter.mp ht
    exact placed_of_spot hspot.symm (List.mem_append_left _ hmem) (significant_significant _ t ht)
  · obtain rfl := hends t ht
    exact placed_of_spot hspot.symm (List.mem_append_right _ (List.mem_singleton_self _)) rfl

theorem Blames.offsets {ends ts rest : List Token} {fs : List Fault} (h : Blames ends ts rest fs) :
    fs.map Fault.offset <+ ts.map Token.start ++ ends.map Token.start := by
  have hoffsets := h.sublist.map Prod.fst
  rwa [List.map_map, List.map_map, List.map_append] at hoffsets

/-- The tokens of a text that are no comments, and its end, start one behind the other. -/
theorem pairwise_start_significant (text : String) :
    ((significant text.toList).map Token.start ++ [text.length]).Pairwise (· < ·) := by
  have htexts : ∀ l ∈ Lexer.lexemes text.toList, l.text ≠ [] := fun l hl => Lexer.text_ne_nil hl
  refine List.pairwise_append.mpr ⟨?_, List.pairwise_singleton _ _, ?_⟩
  · exact List.pairwise_map.mpr ((Lexer.pairwise_start_place htexts).filter _)
  · rintro start hstart end' hend
    obtain ⟨t, ht, rfl⟩ := List.mem_map.mp hstart
    obtain ⟨-, hlt⟩ := Lexer.start_of_mem_place htexts (List.mem_filter.mp ht).1
    rwa [List.mem_singleton.mp hend, ← String.length_toList, ← Lexer.layout_lexemes text.toList,
      ← Nat.zero_add (List.length _)]

/-- Out of increasing offsets with the last of them once more. -/
theorem increasing_or_twice {starts offsets : List Nat} {last : Nat}
    (hstarts : (starts ++ [last]).Pairwise (· < ·)) (h : offsets <+ starts ++ [last, last]) :
    offsets.Pairwise (· < ·) ∨
      ∃ front, offsets = front ++ [last, last] ∧ (front ++ [last]).Pairwise (· < ·) := by
  obtain ⟨front, ends, rfl, hfront, hends⟩ := List.sublist_append_iff.mp h
  rcases List.sublist_cons_iff.mp hends with honce | ⟨more, rfl, hmore⟩
  · exact .inl (hstarts.sublist (hfront.append honce))
  rcases List.sublist_singleton.mp hmore with rfl | rfl
  · exact .inl (hstarts.sublist (hfront.append (List.Sublist.refl _)))
  · exact .inr ⟨front, rfl, hstarts.sublist (hfront.append (List.Sublist.refl _))⟩

end Text

/-- The faults of a sheet lie at tokens, each behind the one before it, only that the last two can
both lie at the end of the text. The faults of a declaration list have no such exception. -/
theorem faults_increase (text : String) :
    ((∀ f ∈ (ParsedSheet.ofText text).faults, f.Placed text) ∧
      (((ParsedSheet.ofText text).faults.map Fault.offset).Pairwise (· < ·) ∨
        ∃ front, (ParsedSheet.ofText text).faults.map Fault.offset =
            front ++ [text.length, text.length] ∧
          (front ++ [text.length]).Pairwise (· < ·))) ∧
    (∀ f ∈ faultsOf (parseDeclarations text), f.Placed text) ∧
      ((faultsOf (parseDeclarations text)).map Fault.offset).Pairwise (· < ·) := by
  have hsheet : Blames [endToken text.toList, endToken text.toList] (significant text.toList) []
    (ParsedSheet.ofText text).faults := blames_readStatements _ _
  have hlist : Blames [endToken text.toList] (significant text.toList) _
    (faultsOf (parseDeclarations text)) := blames_readDeclarations _ false _
  have hstarts := pairwise_start_significant text
  rw [← String.length_toList] at hstarts ⊢
  exact ⟨⟨hsheet.placed (by simp), increasing_or_twice hstarts hsheet.offsets⟩,
    hlist.placed (by simp), hstarts.sublist hlist.offsets⟩

/-- In a block that is not closed, a malformed piece can blame the end too. -/
example : (ParsedSheet.ofText "a \x7b b").faults.map Fault.offset = [5, 5] := by decide +kernel

end Styling
