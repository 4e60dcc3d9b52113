import Styling.Proofs.Sheet.Segments

/-! # Lists of declarations

A list of declarations goes on to the end of the text, and the semicolons outside all brackets
cut it into segments. No block encloses it, but the value of a declaration still ends at a curly
bracket that closes none of the brackets in it. Such a bracket interrupts its segment: the part
before it is read as a segment of its own, and the bracket gives a fault. Every other segment is
read as a segment of a block, so each gives one result just if no segment is interrupted.
-/
namespace Styling
open Grammar (kinds Blanks)

def Heads (head : List Token) (name : String) : Prop :=
  ∃ before property after colon, head = before ++ property :: (after ++ [colon]) ∧
    Blanks (kinds before) ∧ property.kind = .ident name ∧ Blanks (kinds after) ∧
    colon.kind = .colon

/-- A curly bracket in the value of a segment closes none of the brackets in it. -/
def Interrupted (segment : List Token) : Prop :=
  ∃ head name value, segment = head ++ value ∧ Heads head name ∧ (splitBlock [] value).2 ≠ []

def Headed (segment : List Token) : Prop :=
  ∃ property more colon value name, skipBlanks segment = property :: more ∧
    property.kind = .ident name ∧ skipBlanks more = colon :: value ∧ colon.kind = .colon

/-- What is read of a segment of a list that is not blank. -/
inductive Yields : List Token → List Entry → Prop
  | whole {segment : List Token} {e : Entry} : ¬ Interrupted segment → Answers segment e →
    Yields segment [e]
  | interrupted {head front rest : List Token} {name : String} {brace : Token} {e : Entry} :
    Heads head name → splitBlock [] (front ++ brace :: rest) = (front, brace :: rest) →
    Answers (head ++ front) e →
    Yields (head ++ (front ++ brace :: rest)) [e, .malformed (Fault.ofToken .expectedProperty brace)]

section Heads
variable {t : Token} {us : List Token}

/-- The head of a segment is found by passing over blanks. -/
theorem interrupted_iff : Interrupted us ↔ ∃ property more colon value name,
    skipBlanks us = property :: more ∧ property.kind = .ident name ∧
    skipBlanks more = colon :: value ∧ colon.kind = .colon ∧ (splitBlock [] value).2 ≠ [] := by
  constructor
  · rintro ⟨head, name, value, rfl, ⟨before, property, after, colon, rfl, hbefore, hproperty,
      hafter, hcolon⟩, hvalue⟩
    refine ⟨property, after ++ colon :: value, colon, value, name, ?_, hproperty, ?_, hcolon, hvalue⟩
    · rw [List.append_assoc, skipBlanks_append hbefore, List.cons_append,
        skipBlanks_cons (by rw [hproperty]; rfl), List.append_assoc]
      rfl
    · rw [skipBlanks_append hafter, skipBlanks_cons (by rw [hcolon]; rfl)]
  · rintro ⟨property, more, colon, value, name, hus, hproperty, hmore, hcolon, hvalue⟩
    obtain ⟨before, hbefore, hblanks⟩ := Grammar.exists_blanks us
    obtain ⟨after, hafter, hblanks'⟩ := Grammar.exists_blanks more
    rw [hus] at hbefore
    rw [hmore] at hafter
    refine ⟨before ++ property :: (after ++ [colon]), name, value, ?_,
      ⟨before, property, after, colon, rfl, hblanks, hproperty, hblanks', hcolon⟩, hvalue⟩
    rw [hbefore, hafter]
    simp

theorem interrupted_blank (ht : t.kind.isBlank = true) :
    Interrupted (t :: us) ↔ Interrupted us := by
  rw [interrupted_iff, interrupted_iff, show skipBlanks (t :: us) = skipBlanks us from
    List.dropWhile_cons_of_pos ht]

theorem Heads.blank {head : List Token} {name : String} (h : Heads head name)
    (ht : t.kind.isBlank = true) : Heads (t :: head) name := by
  obtain ⟨before, property, after, colon, rfl, hbefore, hrest⟩ := h
  refine ⟨t :: before, property, after, colon, rfl, ?_, hrest⟩
  exact List.forall_mem_cons.mpr ⟨eq_blank_of_isBlank ht, hbefore⟩

theorem Yields.blank {results : List Entry} (h : Yields us results) (ht : t.kind.isBlank = true) :
    Yields (t :: us) results := by
  cases h with
  | whole hwhole hanswers =>
    exact .whole (mt (interrupted_blank ht).mp hwhole) (answers_blank ht _ hanswers)
  | interrupted hheads hsplit hanswers =>
    exact .interrupted (hheads.blank ht) hsplit (answers_blank ht _ hanswers)

end Heads

section Splitting
variable {stack : OpenBrackets} {t : Token} {ts : List Token}

theorem splitSegment_false (hcuts : cutsSegment stack t.kind = false) (ts : List Token) :
    splitSegment false stack (t :: ts) = (t :: (splitSegment false (stack.track t.kind) ts).1,
      (splitSegment false (stack.track t.kind) ts).2) :=
  splitSegment_of_passes hcuts (by simp [endsSegment])

/-- The segments of a list are the first one and, behind the semicolon that ends it, the others; the
empty one that is left at the end of the text is not spoken. -/
theorem filter_spoken_segments {first rest : List Token}
    (h : splitSegment false stack ts = (first, rest)) (hspoken : Spoken first = true) :
    (segments stack ts).filter Spoken = first :: (segments [] rest).filter Spoken := by
  have hsegments : segments stack ts = first :: segments [] rest ∨
      segments stack ts = [first] ∧ rest = [] := by
    clear hspoken
    induction ts generalizing stack first with
    | nil =>
      cases h
      exact .inr ⟨rfl, rfl⟩
    | cons t ts ih =>
      cases hcuts : cutsSegment stack t.kind with
      | true =>
        obtain ⟨rfl, -⟩ := cutsSegment_iff.mp hcuts
        rw [splitSegment, if_pos hcuts] at h
        cases h
        rw [segments, if_pos hcuts]
        exact .inl rfl
      | false =>
        rw [splitSegment_false hcuts] at h
        cases h
        rw [segments_of_not_cuts hcuts]
        rcases ih rfl with h | ⟨h, hrest⟩
        · exact .inl (by rw [h]; rfl)
        · exact .inr ⟨by rw [h]; rfl, hrest⟩
  rcases hsegments with hsegments | ⟨hsegments, rfl⟩
  · rw [hsegments, List.filter_cons_of_pos hspoken]
  · rw [hsegments, List.filter_cons_of_pos hspoken]
    rfl

/-- The first segment of a list is what a block would hold of it, or goes on behind a curly bracket
that closes no bracket of it. -/
theorem splitSegment_true_or (stack : OpenBrackets) (ts : List Token) :
    (splitSegment true stack ts = splitSegment false stack ts ∧
      (splitBlock stack (splitSegment false stack ts).1).2 = []) ∨
    ∃ front brace tail, splitSegment true stack ts = (front, brace :: tail) ∧
      brace.kind = .closing .curly ∧
      splitSegment false stack ts =
        (front ++ brace :: (splitSegment false [] tail).1, (splitSegment false [] tail).2) ∧
      splitBlock stack (splitSegment false stack ts).1 =
        (front, brace :: (splitSegment false [] tail).1) := by
  induction ts generalizing stack with
  | nil => exact .inl ⟨rfl, rfl⟩
  | cons t ts ih =>
    cases hcuts : cutsSegment stack t.kind with
    | true =>
      rw [splitSegment, if_pos hcuts, splitSegment, if_pos hcuts]
      exact .inl ⟨rfl, rfl⟩
    | false =>
      rw [splitSegment_false hcuts]
      cases hends : endsSegment true stack t.kind with
      | true =>
        obtain ⟨rfl, ht⟩ := endsSegment_iff.mp hends
        rw [splitSegment, if_neg (by simp [hcuts]), if_pos hends, splitBlock_of_ends hends, ht]
        exact .inr ⟨[], t, ts, rfl, ht, rfl, rfl⟩
      | false =>
        rw [splitSegment_of_passes hcuts hends, splitBlock_of_not_ends hends]
        rcases ih (stack.track t.kind) with ⟨h, hblock⟩ | ⟨front, brace, tail, h, hbrace, h', hblock⟩
        · exact .inl ⟨by rw [h], hblock⟩
        · refine .inr ⟨t :: front, brace, tail, by rw [h], hbrace, by rw [h']; rfl, ?_⟩
          rw [hblock]

end Splitting

section Reading
variable {t : Token} {ts us : List Token}

theorem Interrupted.headed (h : Interrupted us) : Headed us := by
  obtain ⟨property, more, colon, value, name, hus, hproperty, hmore, hcolon, -⟩ :=
    interrupted_iff.mp h
  exact ⟨property, more, colon, value, name, hus, hproperty, hmore, hcolon⟩

/-- Without a property and a colon, a segment gives a fault, wherever its brackets are. -/
theorem yields_malformed (h : ¬ Headed us) (f : Fault) : Yields us [.malformed f] := by
  refine .whole (mt Interrupted.headed h) fun d hd => h ?_
  obtain ⟨property, more, colon, value, hus, hproperty, hmore, hcolon, -⟩ := declares_iff.mp hd
  exact ⟨property, more, colon, value, d.property, hus, hproperty, hmore, hcolon⟩

/-- A segment gives one result, which answers it, or two if it is interrupted. -/
theorem Yields.one_or_two {results : List Entry} (h : Yields us results) :
    (¬ Interrupted us ∧ ∃ e, results = [e] ∧ Answers us e) ∨
      (Interrupted us ∧ ∃ e f, results = [e, .malformed f]) := by
  cases h with
  | whole hwhole hanswers => exact .inl ⟨hwhole, _, rfl, hanswers⟩
  | interrupted hheads hsplit _ =>
    exact .inr ⟨⟨_, _, _, rfl, hheads, by simp [hsplit]⟩, _, _, rfl⟩

theorem not_headed_ident {name : String} (ht : t.kind = .ident name) {blanks : List Token}
    (h : Blanks (kinds blanks)) (hus : ∀ u ∈ us.head?, u.kind ≠ .blank ∧ u.kind ≠ .colon) :
    ¬ Headed (t :: (blanks ++ us)) := by
  rintro ⟨property, more, colon, value, name', hcons, -, hmore, hcolon⟩
  rw [skipBlanks_cons (by rw [ht]; rfl)] at hcons
  obtain ⟨rfl, rfl⟩ := List.cons.inj hcons
  rw [skipBlanks_append h] at hmore
  cases us with
  | nil => cases hmore
  | cons u us =>
    obtain ⟨hblank, hne⟩ := hus u rfl
    rw [skipBlanks_cons (not_isBlank_of_ne hblank)] at hmore
    obtain ⟨rfl, -⟩ := List.cons.inj hmore
    exact hne hcolon

theorem not_headed_of_not_ident (hblank : t.kind.isBlank = false)
    (ht : ∀ name, t.kind ≠ .ident name) (us : List Token) : ¬ Headed (t :: us) := by
  rintro ⟨property, more, -, -, name, hcons, hproperty, -⟩
  rw [skipBlanks_cons hblank] at hcons
  obtain ⟨rfl, -⟩ := List.cons.inj hcons
  exact ht name hproperty

/-- A value in which every closing curly bracket closes a bracket does not interrupt a segment. -/
theorem not_interrupted_value {name : String} (ht : t.kind = .ident name) {blanks : List Token}
    (h : Blanks (kinds blanks)) {colon : Token} (hcolon : colon.kind = .colon)
    {value : List Token} (hvalue : (splitBlock [] value).2 = []) :
    ¬ Interrupted (t :: (blanks ++ colon :: value)) := by
  rw [interrupted_iff, skipBlanks_cons (by rw [ht]; rfl)]
  rintro ⟨property, more, colon', value', -, hcons, -, hmore, -, hne⟩
  obtain ⟨rfl, rfl⟩ := List.cons.inj hcons
  rw [skipBlanks_append h, skipBlanks_cons (by rw [hcolon]; rfl)] at hmore
  obtain ⟨-, rfl⟩ := List.cons.inj hmore
  exact hne hvalue

/-- One step over a segment: it is read to its end and not interrupted, or up to the bracket that
interrupts it. -/
theorem readDeclaration_list (finish : Token) (hblank : t.kind.isBlank = false)
    (hcuts : cutsSegment [] t.kind = false) (ts : List Token) :
    ((readDeclaration finish false t ts).2 = (splitSegment false [] (t :: ts)).2 ∧
      Yields (splitSegment false [] (t :: ts)).1 [(readDeclaration finish false t ts).1]) ∨
    ∃ brace tail, brace.kind = .closing .curly ∧
      (readDeclaration finish false t ts).2 = brace :: tail ∧
      (splitSegment false [] (t :: ts)).2 = (splitSegment false [] tail).2 ∧
      Yields (splitSegment false [] (t :: ts)).1 [(readDeclaration finish false t ts).1,
        .malformed (Fault.ofToken .expectedProperty brace)] := by
  unfold readDeclaration
  split
  next name ht =>
    obtain ⟨blanks, hblanks, hsplit⟩ := splitSegment_ident false ht ts
    rw [hsplit]
    cases hskip : skipBlanks ts with
    | nil => exact .inl ⟨rfl, yields_malformed (not_headed_ident ht hblanks (by simp [splitSegment])) _⟩
    | cons colon rest =>
      dsimp only
      split
      next hcolon =>
        rw [splitSegment_colon false hcolon]
        rcases splitSegment_true_or [] rest with
          ⟨hsame, hvalue⟩ | ⟨front, brace, tail, htrue, hbrace, hfalse, hvalue⟩
        · rw [hsame]
          exact .inl ⟨rfl, .whole (not_interrupted_value ht hblanks hcolon hvalue)
            (answers_value ht hblanks hcolon _)⟩
        · rw [hfalse] at hvalue ⊢
          rw [htrue]
          refine .inr ⟨brace, tail, hbrace, rfl, rfl, ?_⟩
          have hheads : Heads (t :: (blanks ++ [colon])) name :=
            ⟨[], t, blanks, colon, rfl, .nil, ht, hblanks, hcolon⟩
          have hfront := answers_value ht hblanks hcolon front
          rw [show t :: (blanks ++ colon :: front) = t :: (blanks ++ [colon]) ++ front by simp] at hfront
          simpa using Yields.interrupted hheads hvalue hfront
      next hcolon =>
        refine .inl ⟨rfl, yields_malformed (not_headed_ident ht hblanks fun u hu => ?_) _⟩
        obtain rfl := Option.some.inj (head?_splitSegment false [] hu)
        exact ⟨Grammar.ne_blank_of_skipBlanks hskip, hcolon⟩
  next hident =>
    rw [splitSegment_false hcuts]
    exact .inl ⟨rfl, yields_malformed (not_headed_of_not_ident hblank hident _) _⟩

theorem readDeclarations_brace (finish : Token) (ht : t.kind = .closing .curly) (ts : List Token) :
    (readDeclarations finish false (t :: ts)).1.head? =
      some (.malformed (Fault.ofToken .expectedProperty t)) := by
  rw [readDeclarations, if_neg (by simp [ht, Kind.isBlank]), if_neg (by simp)]
  simp [readDeclaration, ht]

theorem yields_brace {results : List Entry} (ht : t.kind = .closing .curly)
    (h : Yields (t :: us) results) : ∃ e, results = [e] := by
  have hheaded : ¬ Headed (t :: us) :=
    not_headed_of_not_ident (by rw [ht]; rfl) (by simp [ht]) us
  rcases h.one_or_two with ⟨-, e, he, -⟩ | ⟨hinterrupted, -⟩
  · exact ⟨e, he⟩
  · exact absurd hinterrupted.headed hheaded

/-- A list is read segment by segment, and to its end. -/
theorem readDeclarations_list (finish : Token) (ts : List Token) : ∃ results,
    List.Forall₂ Yields ((segments [] ts).filter Spoken) results ∧
    readDeclarations finish false ts = (results.flatten, []) := by
  fun_induction readDeclarations finish false ts with
  | case1 => exact ⟨[], .nil, rfl⟩
  | case2 t ts h ih =>
    obtain ⟨results, hresults, hread⟩ := ih
    refine ⟨results, ?_, hread⟩
    rcases Bool.or_eq_true_iff.mp h with hblank | hsemicolon
    · obtain ⟨hcuts, -, htrack⟩ := inert_blank.passes []
      rw [← eq_blank_of_isBlank hblank] at hcuts htrack
      rw [segments_of_not_cuts hcuts, htrack]
      exact forall₂_blank hblank hresults fun _ _ hyields => hyields.blank hblank
    · rw [segments_semicolon (by simpa using hsemicolon), List.filter_cons_of_neg (by simp [Spoken])]
      exact hresults
  | case3 t ts _ h => simp at h
  | case4 t ts h h' first rest ih =>
    rw [Bool.or_eq_true, not_or] at h
    have hblank : t.kind.isBlank = false := by simpa using h.1
    have hcuts : cutsSegment [] t.kind = false := by simpa [cutsSegment] using h.2
    have hspoken : Spoken (splitSegment false [] (t :: ts)).1 = true := by
      rw [splitSegment_false hcuts]
      simp [Spoken, hblank]
    have hcons : (first.1 :: rest.1, rest.2) = (first.1 :: (readDeclarations finish false first.2).1,
      (readDeclarations finish false first.2).2) := rfl
    obtain ⟨results, hresults, hread⟩ := ih
    rw [hcons, hread]
    rcases readDeclaration_list finish hblank hcuts ts with
      ⟨hrest, hyields⟩ | ⟨brace, tail, hbrace, hrest, hsplit, hyields⟩
    · rw [show first.2 = _ from hrest] at hresults
      rw [filter_spoken_segments rfl hspoken]
      exact ⟨[first.1] :: results, .cons hyields hresults, rfl⟩
    · -- Behind the bracket stands the rest of the segment, whose one fault is its second result.
      rw [show first.2 = _ from hrest] at hresults hread
      have hbehind : splitSegment false [] (brace :: tail) =
          (brace :: (splitSegment false [] tail).1, (splitSegment false [] tail).2) := by
        rw [splitSegment_false (by rw [hbrace]; rfl), hbrace]
        rfl
      rw [filter_spoken_segments hbehind (by simp [Spoken, hbrace, Kind.isBlank])] at hresults
      have hfault := readDeclarations_brace finish hbrace tail
      rw [hread] at hfault
      cases hresults with
      | cons hfirst hothers =>
        obtain ⟨e, rfl⟩ := yields_brace hbrace hfirst
        obtain rfl := Option.some.inj hfault
        rw [filter_spoken_segments rfl hspoken, hsplit]
        exact ⟨_ :: _, .cons hyields hothers, rfl⟩

end Reading

section Counting
variable {listed : List (List Token)} {results : List (List Entry)}

/-- A list gives no fewer results than it has segments, and more if one is interrupted. -/
theorem length_le_of_yields (h : List.Forall₂ Yields listed results) :
    listed.length ≤ results.flatten.length ∧
      ((∃ segment ∈ listed, Interrupted segment) → listed.length < results.flatten.length) := by
  induction h with
  | nil => simp
  | cons hfirst _ ih =>
    obtain ⟨hle, hlt⟩ := ih
    rcases hfirst.one_or_two with ⟨hwhole, e, rfl, -⟩ | ⟨-, e, f, rfl⟩
    · refine ⟨by simpa using hle, fun hsome => ?_⟩
      obtain ⟨segment, hmem, hinterrupted⟩ := hsome
      rcases List.mem_cons.mp hmem with rfl | hmem
      · exact absurd hinterrupted hwhole
      · simpa using hlt ⟨segment, hmem, hinterrupted⟩
    · simp only [List.length_cons, List.flatten_cons, List.length_append, List.length_nil]
      omega

theorem answers_of_yields (h : List.Forall₂ Yields listed results)
    (hwhole : ∀ segment ∈ listed, ¬ Interrupted segment) :
    List.Forall₂ Answers listed results.flatten := by
  induction h with
  | nil => exact .nil
  | cons hfirst _ ih =>
    obtain ⟨hnot, hothers⟩ := List.forall_mem_cons.mp hwhole
    rcases hfirst.one_or_two with ⟨-, e, rfl, hanswers⟩ | ⟨hinterrupted, -⟩
    · exact .cons hanswers (ih hothers)
    · exact absurd hinterrupted hnot

theorem not_interrupted_of_not_spoken {segment : List Token} (h : Spoken segment = false) :
    ¬ Interrupted segment := by
  intro hinterrupted
  obtain ⟨property, more, colon, value, name, hskip, hproperty, -⟩ := interrupted_iff.mp hinterrupted
  have hmem : property ∈ segment :=
    (skipBlanks_suffix segment).subset (by rw [hskip]; exact List.mem_cons_self)
  have hblank := List.any_eq_false.mp h property hmem
  simp [hproperty, Kind.isBlank] at hblank

end Counting

/-- The segments of a text that are not blank give one result each, just if none is interrupted. -/
theorem parseDeclarations_answers_iff (text : String) :
    List.Forall₂ Answers ((segments [] (significant text.toList)).filter Spoken)
        (parseDeclarations text) ↔
      ∀ segment ∈ segments [] (significant text.toList), ¬ Interrupted segment := by
  obtain ⟨results, hresults, hread⟩ :=
    readDeclarations_list (endToken text.toList) (significant text.toList)
  rw [parseDeclarations, hread]
  constructor
  · intro hanswers segment hmem hinterrupted
    have hspoken : Spoken segment = true :=
      Bool.of_not_eq_false fun hnot => not_interrupted_of_not_spoken hnot hinterrupted
    have hmore := (length_le_of_yields hresults).2
      ⟨segment, List.mem_filter.mpr ⟨hmem, hspoken⟩, hinterrupted⟩
    exact absurd hanswers.length_eq (Nat.ne_of_lt hmore)
  · intro hwhole
    exact answers_of_yields hresults fun segment hmem => hwhole segment (List.mem_of_mem_filter hmem)

/-- A curly bracket that closes nothing gives one segment a declaration and a fault. -/
theorem not_answers_interrupted : ¬ ∀ text : String,
    List.Forall₂ Answers ((segments [] (significant text.toList)).filter Spoken)
      (parseDeclarations text) := by
  intro h
  have hlength := (h "a: b \x7d c: d").length_eq
  have hsegments : ((segments [] (significant "a: b \x7d c: d".toList)).filter Spoken).length = 1 := by
    decide +kernel
  have hresults : (parseDeclarations "a: b \x7d c: d").length = 2 := by
    decide +kernel
  rw [hsegments, hresults] at hlength
  exact absurd hlength (by decide)

end Styling
