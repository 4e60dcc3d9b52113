import Styling.Proofs.Sheet.Formed
import Styling.Proofs.Sheet.Terms

/-! # Blocks of declarations

A block goes on to the first curly bracket that closes none of the brackets in it, and the
semicolons outside all brackets cut it into segments. Reading the block takes these segments one
by one: a segment that spells a declaration gives it, a blank one gives nothing, and any other
gives one fault. One more fault is given if the block is not closed.
-/
namespace Styling
open Grammar (kinds Blanks)
open scoped List

/-- The tokens before the curly bracket that closes a block, and those from it on. -/
def splitBlock (stack : OpenBrackets) : List Token → List Token × List Token
  | [] => ([], [])
  | t :: ts =>
    if endsSegment true stack t.kind then ([], t :: ts)
    else
      let rest := splitBlock (stack.track t.kind) ts
      (t :: rest.1, rest.2)

/-- The segments between the semicolons of a block, without these. -/
def segments (stack : OpenBrackets) : List Token → List (List Token)
  | [] => [[]]
  | t :: ts =>
    if cutsSegment stack t.kind then [] :: segments stack ts
    else (segments (stack.track t.kind) ts).modifyHead (t :: ·)

/-- A value without a broken string gives a declaration the terms that it spells, of which there
are some. -/
def Gives (value : List Token) (d : Declaration) : Prop :=
  (∀ t ∈ value, t.kind ≠ .badString) ∧ HasTerms (spaced (kinds value)) d.terms d.important ∧
    d.terms ≠ []

/-- A segment is a declaration: a property, a colon and a value, with blanks before the property
and before the colon. -/
def Declares (segment : List Token) (d : Declaration) : Prop :=
  ∃ before property after colon value, segment = before ++ property :: (after ++ colon :: value) ∧
    Blanks (kinds before) ∧ property.kind = .ident d.property ∧
    Blanks (kinds after) ∧ colon.kind = .colon ∧ Gives value d

/-- What is read of a segment that is not blank. -/
def Answers (segment : List Token) : Entry → Prop
  | .declared d => Declares segment d
  | .malformed _ => ∀ d, ¬ Declares segment d

def Spoken (segment : List Token) : Bool := segment.any fun t => !t.kind.isBlank

section Splitting
variable {stack : OpenBrackets} {t : Token} {ts : List Token}

theorem splitSegment_of_passes {curly : Bool} (hcuts : cutsSegment stack t.kind = false)
    (hends : endsSegment curly stack t.kind = false) : splitSegment curly stack (t :: ts) =
      (t :: (splitSegment curly (stack.track t.kind) ts).1,
        (splitSegment curly (stack.track t.kind) ts).2) := by
  rw [splitSegment, if_neg (by simp [hcuts]), if_neg (by simp [hends])]

theorem splitBlock_of_ends (h : endsSegment true stack t.kind = true) :
    splitBlock stack (t :: ts) = ([], t :: ts) := by
  rw [splitBlock, if_pos h]

theorem splitBlock_of_not_ends (h : endsSegment true stack t.kind = false) :
    splitBlock stack (t :: ts) = (t :: (splitBlock (stack.track t.kind) ts).1,
      (splitBlock (stack.track t.kind) ts).2) := by
  rw [splitBlock, if_neg (by simp [h])]

theorem segments_of_not_cuts (h : cutsSegment stack t.kind = false) :
    segments stack (t :: ts) = (segments (stack.track t.kind) ts).modifyHead (t :: ·) := by
  rw [segments, if_neg (by simp [h])]

theorem cutsSegment_iff {k : Kind} : cutsSegment stack k = true ↔ stack = [] ∧ k = .semicolon := by
  simp [cutsSegment]

theorem endsSegment_iff {k : Kind} :
    endsSegment true stack k = true ↔ stack = [] ∧ k = .closing .curly := by
  simp [endsSegment]

theorem not_endsSegment (curly : Bool) {k : Kind} (h : endsSegment true stack k = false) :
    endsSegment curly stack k = false := by
  cases curly with
  | false => simp [endsSegment]
  | true => exact h

theorem segments_semicolon (ht : t.kind = .semicolon) (ts : List Token) :
    segments [] (t :: ts) = [] :: segments [] ts := by
  rw [segments, if_pos (cutsSegment_iff.mpr ⟨rfl, ht⟩)]

theorem splitBlock_semicolon (ht : t.kind = .semicolon) (ts : List Token) :
    splitBlock [] (t :: ts) = (t :: (splitBlock [] ts).1, (splitBlock [] ts).2) := by
  rw [splitBlock_of_not_ends (by simp [endsSegment, ht]), ht]
  rfl

/-- What is skipped between declarations belongs to the block. -/
theorem splitBlock_of_skips (h : (t.kind.isBlank || t.kind == .semicolon) = true) :
    splitBlock [] (t :: ts) = (t :: (splitBlock [] ts).1, (splitBlock [] ts).2) := by
  rcases Bool.or_eq_true_iff.mp h with hblank | hsemicolon
  · obtain ⟨-, hends, htrack⟩ := inert_blank.passes []
    rw [← eq_blank_of_isBlank hblank] at hends htrack
    rw [splitBlock_of_not_ends hends, htrack]
  · exact splitBlock_semicolon (by simpa using hsemicolon) ts

theorem splitBlock_of_head (h : ∀ t ∈ ts.head?, t.kind = .closing .curly) :
    splitBlock [] ts = ([], ts) := by
  cases ts with
  | nil => rfl
  | cons t ts => exact splitBlock_of_ends (endsSegment_iff.mpr ⟨rfl, h t rfl⟩)

/-- The first segment is split off a block: a semicolon ends it and the block goes on, or the
block ends with it. -/
theorem splitBlock_splitSegment (stack : OpenBrackets) (ts : List Token) :
    (∃ t, (∀ us, segments stack ((splitSegment true stack ts).1 ++ t :: us) =
        (splitSegment true stack ts).1 :: segments [] us) ∧
      splitBlock stack ts =
        ((splitSegment true stack ts).1 ++ t :: (splitBlock [] (splitSegment true stack ts).2).1,
          (splitBlock [] (splitSegment true stack ts).2).2)) ∨
    (segments stack (splitSegment true stack ts).1 = [(splitSegment true stack ts).1] ∧
      splitBlock stack ts = splitSegment true stack ts ∧
      ∀ t ∈ (splitSegment true stack ts).2.head?, t.kind = .closing .curly) := by
  induction ts generalizing stack with
  | nil => exact .inr ⟨rfl, rfl, by simp [splitSegment]⟩
  | cons t ts ih =>
    cases hcuts : cutsSegment stack t.kind with
    | true =>
      obtain ⟨rfl, ht⟩ := cutsSegment_iff.mp hcuts
      have hsplit : splitSegment true [] (t :: ts) = ([], ts) := by rw [splitSegment, if_pos hcuts]
      rw [hsplit]
      exact .inl ⟨t, segments_semicolon ht, splitBlock_semicolon ht ts⟩
    | false =>
      cases hends : endsSegment true stack t.kind with
      | true =>
        have hsplit : splitSegment true stack (t :: ts) = ([], t :: ts) := by
          rw [splitSegment, if_neg (by simp [hcuts]), if_pos hends]
        rw [hsplit]
        refine .inr ⟨rfl, splitBlock_of_ends hends, fun u hu => ?_⟩
        obtain rfl := Option.some.inj hu
        exact (endsSegment_iff.mp hends).2
      | false =>
        rw [splitSegment_of_passes hcuts hends, splitBlock_of_not_ends hends]
        rcases ih (stack.track t.kind) with ⟨u, hsegments, hblock⟩ | ⟨hsegments, hblock, hhead⟩
        · refine .inl ⟨u, fun us => ?_, by rw [hblock]; rfl⟩
          rw [List.cons_append, segments_of_not_cuts hcuts, hsegments]
          rfl
        · refine .inr ⟨?_, by rw [hblock], hhead⟩
          rw [segments_of_not_cuts hcuts, hsegments]
          rfl

end Splitting

section Reading
variable {t : Token} {ts us : List Token} {d : Declaration}

theorem skipBlanks_cons (h : t.kind.isBlank = false) (ts : List Token) :
    skipBlanks (t :: ts) = t :: ts := List.dropWhile_cons_of_neg (by simp [h])

theorem skipBlanks_append (h : Blanks (kinds us)) (ts : List Token) :
    skipBlanks (us ++ ts) = skipBlanks ts := by
  refine List.dropWhile_append_of_pos fun u hu => ?_
  simp [h u.kind (List.mem_map_of_mem hu), Kind.isBlank]

theorem declares_iff : Declares us d ↔ ∃ property more colon value,
    skipBlanks us = property :: more ∧ property.kind = .ident d.property ∧
    skipBlanks more = colon :: value ∧ colon.kind = .colon ∧ Gives value d := by
  constructor
  · rintro ⟨before, property, after, colon, value, rfl, hbefore, hproperty, hafter, hcolon, hvalue⟩
    refine ⟨property, after ++ colon :: value, colon, value, ?_, hproperty, ?_, hcolon, hvalue⟩
    · rw [skipBlanks_append hbefore, skipBlanks_cons (by rw [hproperty]; rfl)]
    · rw [skipBlanks_append hafter, skipBlanks_cons (by rw [hcolon]; rfl)]
  · rintro ⟨property, more, colon, value, hus, hproperty, hmore, hcolon, hvalue⟩
    obtain ⟨before, hbefore, hblanks⟩ := Grammar.exists_blanks us
    obtain ⟨after, hafter, hblanks'⟩ := Grammar.exists_blanks more
    rw [hus] at hbefore
    rw [hmore] at hafter
    exact ⟨before, property, after, colon, value, hafter ▸ hbefore, hblanks, hproperty, hblanks',
      hcolon, hvalue⟩

/-- Blanks before a segment make no difference to it. -/
theorem declares_blank (ht : t.kind.isBlank = true) : Declares (t :: us) d ↔ Declares us d := by
  rw [declares_iff, declares_iff, show skipBlanks (t :: us) = skipBlanks us from
    List.dropWhile_cons_of_pos ht]

theorem declares_ident {name : String} (ht : t.kind = .ident name) {blanks : List Token}
    (h : Blanks (kinds blanks)) : Declares (t :: (blanks ++ us)) d ↔ name = d.property ∧
      ∃ colon value, skipBlanks us = colon :: value ∧ colon.kind = .colon ∧ Gives value d := by
  rw [declares_iff, skipBlanks_cons (by rw [ht]; rfl)]
  constructor
  · rintro ⟨property, more, colon, value, hcons, hproperty, hmore, hcolon, hvalue⟩
    obtain ⟨rfl, rfl⟩ := List.cons.inj hcons
    rw [ht] at hproperty
    rw [skipBlanks_append h] at hmore
    exact ⟨Kind.ident.inj hproperty, colon, value, hmore, hcolon, hvalue⟩
  · rintro ⟨rfl, colon, value, hus, hcolon, hvalue⟩
    exact ⟨t, blanks ++ us, colon, value, rfl, ht, by rw [skipBlanks_append h, hus], hcolon, hvalue⟩

theorem splitSegment_blanks (curly : Bool) (h : Blanks (kinds us)) (ts : List Token) :
    splitSegment curly [] (us ++ ts) =
      (us ++ (splitSegment curly [] ts).1, (splitSegment curly [] ts).2) := by
  induction us with
  | nil => rfl
  | cons u us ih =>
    rw [kinds, List.map_cons] at h
    obtain ⟨hu, hus⟩ := List.forall_mem_cons.mp h
    obtain ⟨hcuts, hends, htrack⟩ := inert_blank.passes []
    rw [List.cons_append, splitSegment_of_passes (by rw [hu, hcuts])
      (not_endsSegment curly (by rw [hu, hends])), hu, htrack, ih hus]
    rfl

theorem splitSegment_ident (curly : Bool) {name : String} (ht : t.kind = .ident name)
    (ts : List Token) : ∃ blanks, Blanks (kinds blanks) ∧ splitSegment curly [] (t :: ts) =
      (t :: (blanks ++ (splitSegment curly [] (skipBlanks ts)).1),
        (splitSegment curly [] (skipBlanks ts)).2) := by
  obtain ⟨blanks, hts, hblanks⟩ := Grammar.exists_blanks ts
  obtain ⟨hcuts, hends, htrack⟩ := Inert.passes (k := t.kind) (by rw [ht]; trivial) []
  refine ⟨blanks, hblanks, ?_⟩
  conv_lhs => rw [splitSegment_of_passes hcuts (not_endsSegment curly hends), htrack, hts,
    splitSegment_blanks curly hblanks]

theorem splitSegment_colon (curly : Bool) (ht : t.kind = .colon) (ts : List Token) :
    splitSegment curly [] (t :: ts) =
      (t :: (splitSegment curly [] ts).1, (splitSegment curly [] ts).2) := by
  have hends : endsSegment curly [] t.kind = false := not_endsSegment curly (by rw [ht]; rfl)
  rw [splitSegment_of_passes (by rw [ht]; rfl) hends, ht]
  rfl

theorem answers_readValueOf (start : Token) (property : String) (value : List Token) :
    match readValueOf start property value with
    | .declared d => d.property = property ∧ Gives value d
    | .malformed _ => ∀ d, ¬ Gives value d := by
  unfold readValueOf
  cases hfind : value.find? (·.kind == .badString) with
  | some t =>
    intro d hd
    have ht : t.kind = .badString := by simpa using List.find?_some hfind
    exact hd.1 t (List.mem_of_find?_eq_some hfind) ht
  | none =>
    have hplain : ∀ t ∈ value, t.kind ≠ .badString := by simpa using hfind
    cases hvalue : valueTerms value with
    | mk terms important =>
      by_cases hterms : terms = []
      · simp only [hterms, List.isEmpty_nil, if_true]
        intro d hd
        rw [Gives, hasTerms_spaced_iff, hvalue, hterms] at hd
        exact hd.2.2 (Prod.mk.inj hd.2.1).1.symm
      · simp only [List.isEmpty_iff, hterms, if_false]
        exact ⟨trivial, hplain, hasTerms_spaced_iff.mpr hvalue, hterms⟩

theorem answers_value {name : String} (ht : t.kind = .ident name) {blanks : List Token}
    (h : Blanks (kinds blanks)) {colon : Token} (hcolon : colon.kind = .colon) (value : List Token) :
    Answers (t :: (blanks ++ colon :: value)) (readValueOf t name value) := by
  have hdeclares (d : Declaration) : Declares (t :: (blanks ++ colon :: value)) d ↔
      name = d.property ∧ Gives value d := by
    rw [declares_ident ht h, skipBlanks_cons (by rw [hcolon]; rfl)]
    constructor
    · rintro ⟨hname, first, rest, hcons, -, hvalue⟩
      obtain ⟨-, rfl⟩ := List.cons.inj hcons
      exact ⟨hname, hvalue⟩
    · rintro ⟨hname, hvalue⟩
      exact ⟨hname, colon, value, rfl, hcolon, hvalue⟩
  have hread := answers_readValueOf t name value
  cases hentry : readValueOf t name value with
  | declared d =>
    rw [hentry] at hread
    exact (hdeclares d).mpr ⟨hread.1.symm, hread.2⟩
  | malformed f =>
    rw [hentry] at hread
    exact fun d hd => hread d ((hdeclares d).mp hd).2

theorem not_declares_ident {name : String} (ht : t.kind = .ident name) {blanks : List Token}
    (h : Blanks (kinds blanks)) (hus : ∀ u ∈ us.head?, u.kind ≠ .blank ∧ u.kind ≠ .colon) :
    ¬ Declares (t :: (blanks ++ us)) d := by
  rw [declares_ident ht h]
  rintro ⟨-, colon, value, hskip, hcolon, -⟩
  cases us with
  | nil => cases hskip
  | cons u us =>
    obtain ⟨hblank, hne⟩ := hus u rfl
    rw [skipBlanks_cons (not_isBlank_of_ne hblank)] at hskip
    obtain ⟨rfl, -⟩ := List.cons.inj hskip
    exact hne hcolon

theorem head?_splitSegment {u : Token} (curly : Bool) (stack : OpenBrackets)
    (h : u ∈ (splitSegment curly stack ts).1.head?) : u ∈ ts.head? := by
  obtain ⟨rest, hrest⟩ := prefix_splitSegment curly stack ts
  rw [← hrest, List.head?_append, Option.mem_def.mp h]
  rfl

/-- One declaration takes one segment and answers it. -/
theorem readDeclaration_segment (finish : Token) (hblank : t.kind.isBlank = false)
    (hcuts : cutsSegment [] t.kind = false) (hends : endsSegment true [] t.kind = false)
    (ts : List Token) :
    (readDeclaration finish true t ts).2 = (splitSegment true [] (t :: ts)).2 ∧
      Answers (splitSegment true [] (t :: ts)).1 (readDeclaration finish true t ts).1 := by
  unfold readDeclaration
  split
  next name ht =>
    obtain ⟨blanks, hblanks, hsplit⟩ := splitSegment_ident true ht ts
    rw [hsplit]
    cases hskip : skipBlanks ts with
    | nil => exact ⟨rfl, fun d => not_declares_ident ht hblanks (by simp [splitSegment])⟩
    | cons colon rest =>
      dsimp only
      split
      next hcolon =>
        have hpasses : splitSegment true [] (colon :: rest) =
            (colon :: (splitSegment true [] rest).1, (splitSegment true [] rest).2) :=
          splitSegment_colon true hcolon rest
        rw [hpasses]
        exact ⟨rfl, answers_value ht hblanks hcolon _⟩
      next hcolon =>
        refine ⟨rfl, fun d => not_declares_ident ht hblanks fun u hu => ?_⟩
        obtain rfl := Option.some.inj (head?_splitSegment true [] hu)
        exact ⟨Grammar.ne_blank_of_skipBlanks hskip, hcolon⟩
  next hident =>
    rw [splitSegment_of_passes hcuts hends]
    refine ⟨rfl, fun d hd => ?_⟩
    obtain ⟨property, more, -, -, hskip, hproperty, -⟩ := declares_iff.mp hd
    rw [skipBlanks_cons hblank] at hskip
    obtain ⟨rfl, -⟩ := List.cons.inj hskip
    exact hident _ hproperty

theorem spoken_blank (ht : t.kind.isBlank = true) : Spoken (t :: us) = Spoken us := by
  simp [Spoken, ht]

theorem answers_blank (ht : t.kind.isBlank = true) (e : Entry) (h : Answers us e) :
    Answers (t :: us) e := by
  cases e with
  | declared d => exact (declares_blank ht).mpr h
  | malformed f => exact fun d hd => h d ((declares_blank ht).mp hd)

/-- A blank in front of the first segment changes nothing, if it changes nothing in front of
any. -/
theorem forall₂_blank {α : Type} {R : List Token → α → Prop} (ht : t.kind.isBlank = true)
    {segments : List (List Token)} {results : List α}
    (h : List.Forall₂ R (segments.filter Spoken) results)
    (hR : ∀ us a, R us a → R (t :: us) a) :
    List.Forall₂ R ((segments.modifyHead (t :: ·)).filter Spoken) results := by
  cases segments with
  | nil => exact h
  | cons first rest =>
    rw [List.modifyHead_cons, List.filter_cons, spoken_blank ht]
    rw [List.filter_cons] at h
    split at h
    next hspoken =>
      cases h with
      | cons hfirst hrest =>
        rw [if_pos hspoken]
        exact .cons (hR _ _ hfirst) hrest
    next hspoken =>
      rw [if_neg hspoken]
      exact h

/-- A block is read segment by segment, and to its end. -/
theorem readDeclarations_segments (finish : Token) (ts : List Token) : ∃ entries,
    List.Forall₂ Answers ((segments [] (splitBlock [] ts).1).filter Spoken) entries ∧
    readDeclarations finish true ts =
      (entries ++ if (splitBlock [] ts).2 = []
          then [.malformed (Fault.ofToken .unclosedBlock finish)] else [],
        (splitBlock [] ts).2.drop 1) := by
  fun_induction readDeclarations finish true ts with
  | case1 => exact ⟨[], .nil, rfl⟩
  | case2 t ts h ih =>
    obtain ⟨entries, hentries, hread⟩ := ih
    rw [splitBlock_of_skips h]
    refine ⟨entries, ?_, hread⟩
    rcases Bool.or_eq_true_iff.mp h with hblank | hsemicolon
    · obtain ⟨hcuts, -, htrack⟩ := inert_blank.passes []
      rw [← eq_blank_of_isBlank hblank] at hcuts htrack
      rw [segments_of_not_cuts hcuts, htrack]
      exact forall₂_blank hblank hentries fun _ => answers_blank hblank
    · rw [segments_semicolon (by simpa using hsemicolon), List.filter_cons_of_neg (by simp [Spoken])]
      exact hentries
  | case3 t ts _ h =>
    have hends : endsSegment true [] t.kind = true := by simpa [endsSegment] using h
    rw [splitBlock_of_ends hends]
    exact ⟨[], .nil, rfl⟩
  | case4 t ts h h' first rest ih =>
    rw [Bool.or_eq_true, not_or] at h
    have hblank : t.kind.isBlank = false := by simpa using h.1
    have hcuts : cutsSegment [] t.kind = false := by simpa [cutsSegment] using h.2
    have hends : endsSegment true [] t.kind = false := by simpa [endsSegment] using h'
    obtain ⟨hrest, hfirst⟩ := readDeclaration_segment finish hblank hcuts hends ts
    obtain ⟨entries, hentries, hread⟩ := ih
    have hspoken : Spoken (splitSegment true [] (t :: ts)).1 = true := by
      rw [splitSegment_of_passes hcuts hends]
      simp [Spoken, hblank]
    have hcons : (first.1 :: rest.1, rest.2) = (first.1 :: (readDeclarations finish true first.2).1,
      (readDeclarations finish true first.2).2) := rfl
    rw [hcons, hread, show first.2 = _ from hrest]
    rw [show first.2 = _ from hrest] at hentries
    rcases splitBlock_splitSegment [] (t :: ts) with ⟨u, hsegments, hblock⟩ | ⟨hsegments, hblock, hhead⟩
    · rw [hblock, hsegments, List.filter_cons_of_pos hspoken]
      exact ⟨first.1 :: entries, .cons hfirst hentries, rfl⟩
    · rw [splitBlock_of_head hhead] at hentries ⊢
      rw [hblock, hsegments, List.filter_cons_of_pos hspoken]
      cases hentries
      exact ⟨[first.1], .cons hfirst .nil, rfl⟩

end Reading

end Styling
