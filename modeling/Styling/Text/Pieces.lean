/-! # Texts cut at a mark

A text and the pieces between the occurrences of a mark; there is always one piece more than
there are marks.
-/
namespace Styling

def piecesBy (p : Char → Bool) : List Char → List (List Char)
  | [] => [[]]
  | c :: cs =>
    if p c then [] :: piecesBy p cs
    else
      match piecesBy p cs with
      | [] => [[c]]
      | piece :: rest => (c :: piece) :: rest

def pieces (mark : Char) (cs : List Char) : List (List Char) := piecesBy (· == mark) cs

def joinPieces (mark : Char) (ps : List (List Char)) : List Char := [mark].intercalate ps

theorem piecesBy_ne_nil (p : Char → Bool) (cs : List Char) : piecesBy p cs ≠ [] := by
  cases cs with
  | nil => simp [piecesBy]
  | cons c cs =>
    unfold piecesBy
    split
    · simp
    · split <;> simp

theorem joinPieces_cons (mark : Char) (p q : List Char) (ps : List (List Char)) :
    joinPieces mark (p :: q :: ps) = p ++ mark :: joinPieces mark (q :: ps) := by
  simp [joinPieces, List.intercalate]

theorem pieces_cons (mark c : Char) (cs : List Char) (h : c ≠ mark) :
    ∃ p ps, pieces mark cs = p :: ps ∧ pieces mark (c :: cs) = (c :: p) :: ps := by
  obtain ⟨p, ps, hp⟩ := List.exists_cons_of_ne_nil (piecesBy_ne_nil (· == mark) cs)
  refine ⟨p, ps, hp, ?_⟩
  simp [pieces, piecesBy, h, hp]

/-- Nothing is lost but the marks. -/
theorem joinPieces_pieces (mark : Char) (cs : List Char) :
    joinPieces mark (pieces mark cs) = cs := by
  induction cs with
  | nil => rfl
  | cons c cs ih =>
    by_cases h : c = mark
    · subst h
      obtain ⟨p, ps, hp⟩ := List.exists_cons_of_ne_nil (piecesBy_ne_nil (· == c) cs)
      have hc : pieces c (c :: cs) = [] :: pieces c cs := by simp [pieces, piecesBy]
      rw [hc, show pieces c cs = p :: ps from hp, joinPieces_cons, ← hp]
      exact congrArg (c :: ·) ih
    · obtain ⟨p, ps, hp, hcp⟩ := pieces_cons mark c cs h
      rw [hp] at ih
      rw [hcp]
      cases ps with
      | nil => simpa [joinPieces, List.intercalate] using ih
      | cons q ps =>
        rw [joinPieces_cons] at ih ⊢
        rw [← ih]
        rfl

section Append
variable {p : Char → Bool} {c : Char} {cs piece : List Char}

theorem piecesBy_append (hc : p c = true) (a cs : List Char) :
    piecesBy p (a ++ c :: cs) = piecesBy p a ++ piecesBy p cs := by
  induction a with
  | nil => simp [piecesBy, hc]
  | cons d a ih =>
    rw [List.cons_append, piecesBy, piecesBy.eq_2 p d a, ih]
    split
    · rfl
    · obtain ⟨first, rest, hpieces⟩ := List.exists_cons_of_ne_nil (piecesBy_ne_nil p a)
      simp [hpieces]

theorem pieces_append_slash (a cs : List Char) :
    pieces '/' (a ++ '/' :: cs) = pieces '/' a ++ pieces '/' cs :=
  piecesBy_append (by decide) a cs

theorem piecesBy_append_of_not (h : ∀ c ∈ cs, p c = false) (a : List Char) :
    ∃ front last, piecesBy p a = front ++ [last] ∧ piecesBy p (a ++ cs) = front ++ [last ++ cs] := by
  induction a with
  | nil =>
    refine ⟨[], [], rfl, ?_⟩
    induction cs with
    | nil => rfl
    | cons c cs ih =>
      have hrest := ih fun d hd => h d (List.mem_cons_of_mem c hd)
      simp only [List.nil_append] at hrest ⊢
      simp [piecesBy, h c List.mem_cons_self, hrest]
  | cons d a ih =>
    obtain ⟨front, last, ha, hacs⟩ := ih
    rw [List.cons_append]
    unfold piecesBy
    rw [ha, hacs]
    split
    · exact ⟨[] :: front, last, rfl, rfl⟩
    · cases front with
      | nil => exact ⟨[], d :: last, rfl, rfl⟩
      | cons f front => exact ⟨(d :: f) :: front, last, rfl, rfl⟩

theorem of_mem_piecesBy (hpiece : piece ∈ piecesBy p cs) (hc : c ∈ piece) :
    c ∈ cs ∧ p c = false := by
  induction cs generalizing piece with
  | nil =>
    obtain rfl := List.mem_singleton.mp hpiece
    cases hc
  | cons d cs ih =>
    unfold piecesBy at hpiece
    split at hpiece
    · rcases List.mem_cons.mp hpiece with rfl | hpiece
      · cases hc
      · exact (ih hpiece hc).imp_left (List.mem_cons_of_mem d)
    · rename_i hd
      obtain ⟨first, rest, hpieces⟩ := List.exists_cons_of_ne_nil (piecesBy_ne_nil p cs)
      rw [hpieces] at hpiece ih
      rcases List.mem_cons.mp hpiece with rfl | hpiece
      · rcases List.mem_cons.mp hc with rfl | hc
        · exact ⟨List.mem_cons_self, by simpa using hd⟩
        · exact (ih List.mem_cons_self hc).imp_left (List.mem_cons_of_mem d)
      · exact (ih (List.mem_cons_of_mem _ hpiece) hc).imp_left (List.mem_cons_of_mem d)

theorem piecesBy_congr {q : Char → Bool} (h : ∀ c ∈ cs, p c = q c) :
    piecesBy p cs = piecesBy q cs := by
  induction cs with
  | nil => rfl
  | cons c cs ih =>
    unfold piecesBy
    rw [h c List.mem_cons_self, ih fun d hd => h d (List.mem_cons_of_mem c hd)]

theorem mem_joinPieces {mark c : Char} {ps : List (List Char)} (h : c ∈ joinPieces mark ps) :
    c = mark ∨ ∃ p ∈ ps, c ∈ p := by
  induction ps with
  | nil => simp [joinPieces] at h
  | cons p ps ih =>
    cases ps with
    | nil => exact .inr ⟨p, List.mem_cons_self, by simpa [joinPieces, List.intercalate] using h⟩
    | cons q ps =>
      rw [joinPieces_cons] at h
      rcases List.mem_append.mp h with h | h
      · exact .inr ⟨p, List.mem_cons_self, h⟩
      rcases List.mem_cons.mp h with rfl | h
      · exact .inl rfl
      · rcases ih h with rfl | ⟨r, hr, hc⟩
        · exact .inl rfl
        · exact .inr ⟨r, List.mem_cons_of_mem p hr, hc⟩

end Append

end Styling
