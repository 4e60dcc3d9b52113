import Styling.Proofs.Token.Pointer
import Styling.Selector.Reader

/-! # Reading tokens from a list

A parser reads the tokens of a text through a cursor: it skips comments, and hands a token back
that it does not take. This is to read the significant tokens off a list, where a token that is
handed back stays in front.
-/
namespace Styling

/-- The tokens that a parser reads off a list when it takes a token or hands it back, once for
each flag, with `finish` behind the list. -/
def readsOff (finish : Token) : List Bool → List Token → List Token
  | [], _ => []
  | back :: flags, ts =>
    ts.head?.getD finish :: readsOff finish flags (if back then ts else ts.tail)

namespace Cursor
variable {text : String} {ts : List Token} {s : Cursor}

def readMany : List Bool → Cursor → List Token
  | [], _ => []
  | back :: flags, s =>
    let r := s.nextSignificant
    r.1 :: readMany flags (if back then r.2.handBack else r.2)

/-- What a cursor reads next, but for comments, are these tokens. -/
def Reads (text : String) (ts : List Token) (s : Cursor) : Prop :=
  ∃ p, Tracks text p s ∧ ts = ((tokens text.toList).drop p.index).filter (!·.kind.isComment)

theorem reads_ofText (text : String) : Reads text (significant text.toList) (ofText text) :=
  ⟨.start, tracks_start text, rfl⟩

/-- Handing back the token that was just read undoes reading it. -/
theorem Tracks.handBack_next {p : Pointer} (h : Tracks text p s) :
    ∃ q, Tracks text q s.next.2.handBack ∧ q.index = p.index := by
  obtain ⟨-, hnext⟩ := h.next
  obtain ⟨q, hstep, hback⟩ := hnext.handBack
  refine ⟨q, hback, ?_⟩
  cases hstep
  rfl

theorem drop_tokens (text : String) (i : Nat) :
    (tokens text.toList).drop i = stream text i :: (tokens text.toList).drop (i + 1) ∨
    (tokens text.toList).drop i = [] ∧ (tokens text.toList).drop (i + 1) = [] ∧
      stream text i = endToken text.toList := by
  rw [stream_eq]
  rcases Nat.lt_or_ge i (tokens text.toList).length with h | h
  · rw [List.getElem?_eq_getElem h]
    exact .inl (List.drop_eq_getElem_cons h)
  · rw [List.getElem?_eq_none h]
    exact .inr ⟨List.drop_of_length_le h, List.drop_of_length_le (Nat.le_succ_of_le h), rfl⟩

theorem filter_drop_comment {i : Nat} (h : (stream text i).kind.isComment = true) :
    ((tokens text.toList).drop i).filter (!·.kind.isComment) =
      ((tokens text.toList).drop (i + 1)).filter (!·.kind.isComment) := by
  rcases drop_tokens text i with hdrop | ⟨-, -, hend⟩
  · rw [hdrop, List.filter_cons_of_neg (by simp [h])]
  · rw [hend] at h
    cases h

theorem filter_drop_significant {i : Nat} (h : ¬(stream text i).kind.isComment = true) :
    stream text i =
      (((tokens text.toList).drop i).filter (!·.kind.isComment)).head?.getD
        (endToken text.toList) ∧
    (((tokens text.toList).drop i).filter (!·.kind.isComment)).tail =
      ((tokens text.toList).drop (i + 1)).filter (!·.kind.isComment) := by
  rcases drop_tokens text i with hdrop | ⟨hdrop, hrest, hend⟩
  · rw [hdrop, List.filter_cons_of_pos (by simp [h])]
    exact ⟨rfl, rfl⟩
  · rw [hdrop, hrest, hend]
    exact ⟨rfl, rfl⟩

/-- The next token is the first of the list. It is taken off the list, unless it is handed
back. -/
theorem Reads.next (h : Reads text ts s) :
    s.nextSignificant.1 = ts.head?.getD (endToken text.toList) ∧
    Reads text ts.tail s.nextSignificant.2 ∧ Reads text ts s.nextSignificant.2.handBack := by
  fun_induction nextSignificant s generalizing ts with
  | case1 s hcomment ih =>
    obtain ⟨p, hp, rfl⟩ := h
    obtain ⟨hread, hnext⟩ := hp.next
    rw [hread] at hcomment
    exact ih ⟨_, hnext, filter_drop_comment hcomment⟩
  | case2 s hcomment =>
    obtain ⟨p, hp, rfl⟩ := h
    obtain ⟨hread, hnext⟩ := hp.next
    obtain ⟨q, hback, hindex⟩ := hp.handBack_next
    rw [hread] at hcomment ⊢
    obtain ⟨hhead, htail⟩ := filter_drop_significant hcomment
    exact ⟨hhead, ⟨_, hnext, htail⟩, q, hback, by rw [hindex]⟩

/-- Whatever a parser takes and hands back, it reads the tokens off the list of those that are no
comments. -/
theorem readMany_eq_readsOff (text : String) (flags : List Bool) :
    (ofText text).readMany flags =
      readsOff (endToken text.toList) flags (significant text.toList) := by
  have hread (flags : List Bool) {ts : List Token} {s : Cursor} (h : Reads text ts s) :
      s.readMany flags = readsOff (endToken text.toList) flags ts := by
    induction flags generalizing ts s with
    | nil => rfl
    | cons back flags ih =>
      obtain ⟨hfirst, htaken, hback⟩ := h.next
      rw [readMany, readsOff, hfirst]
      cases back with
      | true => exact congrArg _ (ih hback)
      | false => exact congrArg _ (ih htaken)
  exact hread flags (reads_ofText text)

end Cursor
end Styling
