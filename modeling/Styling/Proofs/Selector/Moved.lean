import Styling.Proofs.Token.Joined
import Styling.Selector.Reader

/-! # Reading selectors elsewhere

The readers of selectors look at the kinds of tokens only, and not behind the tokens they leave.
So the same tokens further on in a text, with others behind them, are read in the same way, as
long as some are left or no others are behind.
-/
namespace Styling

/-- A place for tokens: how many characters and lines further on, and what stands behind them. -/
structure Move where
  chars : Nat
  lines : Nat
  behind : List Token

namespace Move

def token (m : Move) (t : Token) : Token := t.shift m.chars m.lines

def tokens (m : Move) (ts : List Token) : List Token := ts.map m.token ++ m.behind

def reading {α : Type} (m : Move) : Reading α → Reading α
  | .error e => .error ⟨e.cause, m.tokens e.rest⟩
  | .ok r => .ok (r.1, m.tokens r.2)

/-- What is left does not reach what stands behind. -/
def Keeps (m : Move) (rest : List Token) : Prop := rest = [] → m.behind = []

variable {m : Move} {t : Token} {ts rest : List Token}

theorem tokens_cons (m : Move) (t : Token) (ts : List Token) :
    m.tokens (t :: ts) = m.token t :: m.tokens ts := rfl

theorem kind_token (m : Move) (t : Token) : (m.token t).kind = t.kind := rfl

theorem tokens_nil (h : m.Keeps []) : m.tokens [] = [] := h rfl

theorem keeps_cons (m : Move) (t : Token) (ts : List Token) : m.Keeps (t :: ts) := nofun

theorem Keeps.suffix (h : m.Keeps rest) (hrest : rest <:+ ts) : m.Keeps ts := by
  rintro rfl
  exact h (List.suffix_nil.mp hrest)

theorem skipBlanks_tokens (h : m.Keeps (skipBlanks ts)) :
    skipBlanks (m.tokens ts) = m.tokens (skipBlanks ts) := by
  have hmap : skipBlanks (ts.map m.token) = (skipBlanks ts).map m.token := List.dropWhile_map
  unfold skipBlanks at h hmap ⊢
  rw [tokens, tokens, List.dropWhile_append, hmap]
  cases hrest : ts.dropWhile (·.kind.isBlank) with
  | nil => simp [h hrest]
  | cons t rest => rfl

end Move

namespace Reading

def left {α : Type} : Reading α → List Token
  | .error e => e.rest
  | .ok r => r.2

theorem Within.left {α : Type} {ts : List Token} {r : Reading α} (h : r.Within ts) :
    r.left <:+ ts := by
  cases r with
  | error e => exact h
  | ok r => exact h

end Reading

namespace Selector
open Move

variable {m : Move}

theorem expectIdent_move (cause : Cause) (ts : List Token)
    (h : m.Keeps (expectIdent cause ts).left) :
    expectIdent cause (m.tokens ts) = m.reading (expectIdent cause ts) := by
  cases ts with
  | nil => simp [expectIdent, reading, tokens_nil h]
  | cons t ts =>
    simp only [expectIdent, tokens_cons, kind_token]
    split <;> rfl

theorem readPseudoClass_move (ts : List Token) (h : m.Keeps (readPseudoClass ts).left) :
    readPseudoClass (m.tokens ts) = m.reading (readPseudoClass ts) := by
  cases ts with
  | nil => simp [readPseudoClass, reading, tokens_nil h]
  | cons t ts =>
    simp only [readPseudoClass, tokens_cons, kind_token]
    split <;> rfl

theorem readClass_move (ts : List Token) (h : m.Keeps (readClass ts).left) :
    readClass (m.tokens ts) = m.reading (readClass ts) := by
  have hname := expectIdent_move (m := m) .expectedClassName ts
  unfold readClass at h ⊢
  cases hread : expectIdent .expectedClassName ts <;>
  · rw [hread] at h hname
    rw [hname h]
    rfl

theorem readValue_move (ts : List Token) (h : m.Keeps (readValue ts).left) :
    readValue (m.tokens ts) = m.reading (readValue ts) := by
  have hblanks : m.Keeps (skipBlanks ts) := fun hnil => h (by rw [readValue, hnil]; rfl)
  unfold readValue at h ⊢
  rw [skipBlanks_tokens hblanks]
  cases hskip : skipBlanks ts with
  | nil => simp [reading, tokens_nil (hskip ▸ hblanks)]
  | cons t rest =>
    simp only [tokens_cons, kind_token]
    split <;> rfl

theorem closeAttribute_move (c : Condition) (ts : List Token)
    (h : m.Keeps (closeAttribute c ts).left) :
    closeAttribute c (m.tokens ts) = m.reading (closeAttribute c ts) := by
  have hblanks : m.Keeps (skipBlanks ts) := fun hnil => h (by rw [closeAttribute, hnil]; rfl)
  unfold closeAttribute at h ⊢
  rw [skipBlanks_tokens hblanks]
  cases hskip : skipBlanks ts with
  | nil => simp [reading, tokens_nil (hskip ▸ hblanks)]
  | cons t rest =>
    by_cases hclose : t.kind = .closing .square <;>
      simp [tokens_cons, kind_token, reading, hclose]

theorem readComparison_move (name : String) (op : Option MatchOp) (ts : List Token)
    (h : m.Keeps (readComparison name op ts).left) :
    readComparison name op (m.tokens ts) = m.reading (readComparison name op ts) := by
  have hvalue := readValue_move (m := m) ts
  unfold readComparison at h ⊢
  cases hread : readValue ts with
  | error e =>
    rw [hread] at h hvalue
    rw [hvalue h]
    rfl
  | ok r =>
    rw [hread] at h hvalue
    rw [hvalue (h.suffix (closeAttribute_within _ r.2).left)]
    exact closeAttribute_move _ r.2 h

theorem readAttribute_move (ts : List Token) (h : m.Keeps (readAttribute ts).left) :
    readAttribute (m.tokens ts) = m.reading (readAttribute ts) := by
  have hblanks : m.Keeps (skipBlanks ts) := fun hnil => h (by rw [readAttribute, hnil]; rfl)
  have hname := expectIdent_move (m := m) .expectedAttributeName (skipBlanks ts)
  unfold readAttribute at h ⊢
  rw [skipBlanks_tokens hblanks]
  cases hread : expectIdent .expectedAttributeName (skipBlanks ts) with
  | error e =>
    rw [hread] at h hname
    rw [hname h]
    rfl
  | ok r =>
    obtain ⟨name, after⟩ := r
    rw [hread] at h hname
    dsimp only at h
    have hafter : m.Keeps (skipBlanks after) := fun hnil => h (by rw [hnil]; rfl)
    rw [hname (hafter.suffix (skipBlanks_suffix after))]
    dsimp only [reading]
    rw [skipBlanks_tokens hafter]
    cases hskip : skipBlanks after with
    | nil => simp [tokens_nil (hskip ▸ hafter)]
    | cons t rest =>
      rw [hskip] at h
      dsimp only [tokens_cons] at h ⊢
      by_cases hclose : t.kind = .closing .square
      · rw [if_pos hclose, if_pos (show (m.token t).kind = _ from hclose)]
      · rw [if_neg hclose] at h
        rw [if_neg hclose, if_neg (show (m.token t).kind ≠ _ from hclose), kind_token]
        cases hop : operator? t.kind with
        | none => rfl
        | some op =>
          rw [hop] at h
          exact readComparison_move name op rest h

/-- Whether a condition begins does not depend on the place. -/
theorem readCondition_move (first : Bool) (t : Token) (ts : List Token)
    (h : ∀ r, readCondition first t ts = some r → m.Keeps r.left) :
    readCondition first (m.token t) (m.tokens ts) = (readCondition first t ts).map m.reading := by
  unfold readCondition at h ⊢
  simp only [kind_token]
  split
  · split <;> rfl
  · split <;> rfl
  · rfl
  next hk => exact congrArg some (readClass_move ts (h _ (by rw [hk]; rfl)))
  next hk => exact congrArg some (readPseudoClass_move ts (h _ (by rw [hk])))
  next hk => exact congrArg some (readAttribute_move ts (h _ (by rw [hk])))
  · rfl

theorem readCondition_move_some {first : Bool} {t : Token} {ts : List Token} {r : Reading Condition}
    (hr : readCondition first t ts = some r) (h : m.Keeps r.left) :
    readCondition first (m.token t) (m.tokens ts) = some (m.reading r) := by
  rw [readCondition_move, hr, Option.map_some]
  intro r' hr'
  cases hr.symm.trans hr'
  exact h

theorem readCondition_move_none {first : Bool} {t : Token} {ts : List Token}
    (hr : readCondition first t ts = none) :
    readCondition first (m.token t) (m.tokens ts) = none := by
  rw [readCondition_move _ _ _ (by simp [hr]), hr, Option.map_none]

theorem readMore_cons (t : Token) (ts : List Token) : readMore (t :: ts) =
    match readCondition false t ts with
    | none => .ok ([], t :: ts)
    | some (.error e) => .error e
    | some (.ok (c, after)) =>
      match readMore after with
      | .error e => .error e
      | .ok (more, after) => .ok (c :: more, after) := by
  rw [readMore]
  split
  next hc => rw [hc]
  next hc => rw [hc]
  next hc =>
    rewrite [hc]
    rfl

theorem readMore_move (ts : List Token) (h : m.Keeps (readMore ts).left) :
    readMore (m.tokens ts) = m.reading (readMore ts) := by
  fun_induction readMore ts with
  | case1 =>
    rw [tokens_nil h, readMore]
    simp [reading, tokens_nil h]
  | case2 t ts hc =>
    rw [tokens_cons, readMore_cons, readCondition_move_none hc]
    rfl
  | case3 t ts e hc =>
    rw [tokens_cons, readMore_cons, readCondition_move_some hc h]
    rfl
  | case4 t ts c after hc e he ih =>
    have hafter : m.Keeps after := h.suffix (he ▸ readMore_within after).left
    rw [he] at ih
    rw [tokens_cons, readMore_cons, readCondition_move_some hc hafter]
    dsimp only [reading]
    rw [ih h]
    rfl
  | case5 t ts c after hc more last hm ih =>
    have hafter : m.Keeps after := h.suffix (hm ▸ readMore_within after).left
    rw [hm] at ih
    rw [tokens_cons, readMore_cons, readCondition_move_some hc hafter]
    dsimp only [reading]
    rw [ih h]
    rfl

theorem readCompound_move (ts : List Token) (h : m.Keeps (readCompound ts).left) :
    readCompound (m.tokens ts) = m.reading (readCompound ts) := by
  cases ts with
  | nil => simp [readCompound, reading, tokens_nil h]
  | cons t ts =>
    unfold readCompound at h ⊢
    rw [tokens_cons]
    dsimp only at h ⊢
    cases hc : readCondition true t ts with
    | none =>
      rw [readCondition_move_none hc]
      rfl
    | some r =>
      cases r with
      | error e =>
        rw [hc] at h
        rw [readCondition_move_some hc h]
        rfl
      | ok r =>
        obtain ⟨first, after⟩ := r
        have hmore := readMore_move (m := m) after
        have hwithin := readMore_within after
        rw [hc] at h
        dsimp only at h
        cases hread : readMore after <;>
        · rw [hread] at h hmore hwithin
          rw [readCondition_move_some hc (h.suffix hwithin.left)]
          dsimp only [reading]
          rw [hmore h, hread]
          rfl

theorem readLink_of_nil {ts : List Token} (h : skipBlanks ts = []) : readLink ts = .ok none := by
  rw [readLink, h]

theorem readLink_move (ts : List Token) (hblanks : m.Keeps (skipBlanks ts))
    (h : ∀ c rest, readLink ts = .ok (some (c, rest)) → m.Keeps rest) :
    readLink (m.tokens ts) = match readLink ts with
      | .error e => .error ⟨e.cause, m.tokens e.rest⟩
      | .ok next => .ok (next.map fun link => (link.1, m.tokens link.2)) := by
  unfold readLink at h ⊢
  rw [skipBlanks_tokens hblanks]
  cases hskip : skipBlanks ts with
  | nil => rw [tokens_nil (hskip ▸ hblanks)]; rfl
  | cons t rest =>
    rw [hskip] at h
    dsimp only [tokens_cons] at h ⊢
    -- blanks before a compound are seen from the lengths
    have hlength : (m.tokens rest).length + 1 < (m.tokens ts).length ↔ rest.length + 1 < ts.length := by
      simp only [Move.tokens, List.length_append, List.length_map]
      omega
    cases hc : combinator? t.kind with
    | some c =>
      rw [hc] at h
      rw [kind_token, hc]
      dsimp only
      rw [skipBlanks_tokens (h c _ rfl)]
      rfl
    | none =>
      simp only [kind_token, hc, hlength]
      split
      · rfl
      split <;> rfl

theorem readLinks_eq (ts : List Token) : readLinks ts =
    match readLink ts with
    | .error e => .error e
    | .ok none => .ok ([], skipBlanks ts)
    | .ok (some (c, rest)) =>
      match readCompound rest with
      | .error e => .error e
      | .ok (s, after) =>
        match readLinks after with
        | .error e => .error e
        | .ok (links, after) => .ok ((c, s) :: links, after) := by
  rw [readLinks]
  split
  next hl => rw [hl]
  next hl => rw [hl]
  next hl =>
    rw [hl]
    dsimp only
    split
    next hc => rw [hc]
    next hc =>
      rewrite [hc]
      rfl

theorem readLinks_next {ts rest after : List Token} {c : Combinator} {s : Selector}
    (hl : readLink ts = .ok (some (c, rest))) (hc : readCompound rest = .ok (s, after)) :
    readLinks ts =
      match readLinks after with
      | .error e => .error e
      | .ok (links, last) => .ok ((c, s) :: links, last) := by
  rw [readLinks_eq, hl]
  dsimp only
  rw [hc]

theorem readLink_move_some {ts rest : List Token} {c : Combinator}
    (hl : readLink ts = .ok (some (c, rest))) (h : m.Keeps rest) :
    readLink (m.tokens ts) = .ok (some (c, m.tokens rest)) := by
  have hblanks : m.Keeps (skipBlanks ts) := by
    intro hnil
    rw [readLink_of_nil hnil] at hl
    cases hl
  rw [readLink_move ts hblanks, hl]
  · rfl
  · intro c' rest' hl'
    cases hl.symm.trans hl'
    exact h

theorem readLinks_move_next {ts rest after : List Token} {c : Combinator} {s : Selector}
    (hl : readLink ts = .ok (some (c, rest))) (hc : readCompound rest = .ok (s, after))
    (h : m.Keeps after) : readLinks (m.tokens ts) =
      match readLinks (m.tokens after) with
      | .error e => .error e
      | .ok (links, last) => .ok ((c, s) :: links, last) := by
  have hcompound := readCompound_move (m := m) rest
  have hrest := h.suffix (hc ▸ readCompound_within rest).left
  rw [hc] at hcompound
  exact readLinks_next (readLink_move_some hl hrest) (hcompound h)

theorem readLinks_move (ts : List Token) (h : m.Keeps (readLinks ts).left) :
    readLinks (m.tokens ts) = m.reading (readLinks ts) := by
  fun_induction readLinks ts with
  | case1 ts e hl =>
    have hblanks : m.Keeps (skipBlanks ts) := by
      intro hnil
      rw [readLink_of_nil hnil] at hl
      cases hl
    rw [readLinks_eq, readLink_move ts hblanks (by simp [hl]), hl]
    rfl
  | case2 ts hl =>
    rw [readLinks_eq, readLink_move ts h (by simp [hl]), hl]
    dsimp only [Option.map_none]
    rw [skipBlanks_tokens h]
    rfl
  | case3 ts c rest hl e hc =>
    have hmove := readCompound_move (m := m) rest
    rw [hc] at hmove
    have hrest := h.suffix (hc ▸ readCompound_within rest).left
    rw [readLinks_eq, readLink_move_some hl hrest]
    dsimp only
    rw [hmove h]
    rfl
  | case4 ts c rest hl s after hc e he ih =>
    have hafter := h.suffix (he ▸ readLinks_within after).left
    rw [he] at ih
    rw [readLinks_move_next hl hc hafter, ih h]
    rfl
  | case5 ts c rest hl s after hc links last hk ih =>
    have hafter := h.suffix (hk ▸ readLinks_within after).left
    rw [hk] at ih
    rw [readLinks_move_next hl hc hafter, ih h]
    rfl

theorem read_move (ts : List Token) (h : m.Keeps (read ts).left) :
    read (m.tokens ts) = m.reading (read ts) := by
  have hcompound := readCompound_move (m := m) (skipBlanks ts)
  have hwithin := readCompound_within (skipBlanks ts)
  unfold read at h ⊢
  cases hc : readCompound (skipBlanks ts) with
  | error e =>
    rw [hc] at h hcompound hwithin
    rw [skipBlanks_tokens (h.suffix hwithin.left), hcompound h]
    rfl
  | ok r =>
    obtain ⟨first, after⟩ := r
    have hlinks := readLinks_move (m := m) after
    have hwithin' := readLinks_within after
    rw [hc] at h hcompound hwithin
    dsimp only at h
    cases hread : readLinks after <;>
    · rw [hread] at h hlinks hwithin'
      have hafter := h.suffix hwithin'.left
      rw [skipBlanks_tokens (hafter.suffix hwithin.left), hcompound hafter]
      dsimp only [reading]
      rw [hlinks h, hread]
      rfl

end Selector

namespace SelectorGroup
open Move

variable {m : Move}

theorem read_eq (ts : List Token) : read ts =
    match Selector.read ts with
    | .error e => .error e
    | .ok (s, []) => .ok ([s], [])
    | .ok (s, t :: rest) =>
      if t.kind = .comma then
        match read rest with
        | .error e => .error e
        | .ok (g, last) => .ok (s :: g, last)
      else .ok ([s], t :: rest) := by
  rw [read]
  split
  next hs => rw [hs]
  next hs => rw [hs]
  next hs =>
    rewrite [hs]
    rfl

theorem read_next {ts rest : List Token} {s : Selector} {t : Token}
    (hs : Selector.read ts = .ok (s, t :: rest)) (ht : t.kind = .comma) :
    read ts =
      match read rest with
      | .error e => .error e
      | .ok (g, last) => .ok (s :: g, last) := by
  rw [read_eq, hs]
  dsimp only
  rw [if_pos ht]

/-- A group is read in the same way wherever it stands. -/
theorem read_move (ts : List Token) (h : m.Keeps (read ts).left) :
    read (m.tokens ts) = m.reading (read ts) := by
  have hmember := Selector.read_move (m := m) ts
  fun_induction read ts with
  | case1 ts e hs =>
    rw [hs] at hmember
    rw [read_eq, hmember h]
    rfl
  | case2 ts s hs =>
    rw [hs] at hmember
    rw [read_eq, hmember h]
    dsimp only [reading]
    rw [tokens_nil h]
  | case3 ts s t rest hs ht e he ih =>
    rw [hs] at hmember
    have hrest := ih (he ▸ h) (Selector.read_move rest)
    rw [he] at hrest
    have hcomma : Selector.read (m.tokens ts) = .ok (s, m.token t :: m.tokens rest) :=
      hmember (keeps_cons m t rest)
    rw [read_next hcomma ht, hrest]
    rfl
  | case4 ts s t rest hs ht g last hk ih =>
    rw [hs] at hmember
    have hrest := ih (hk ▸ h) (Selector.read_move rest)
    rw [hk] at hrest
    have hcomma : Selector.read (m.tokens ts) = .ok (s, m.token t :: m.tokens rest) :=
      hmember (keeps_cons m t rest)
    rw [read_next hcomma ht, hrest]
    rfl
  | case5 ts s t rest hs ht =>
    rw [hs] at hmember
    rw [read_eq, hmember (keeps_cons m t rest)]
    dsimp only [reading, tokens_cons]
    rw [if_neg (show (m.token t).kind ≠ _ from ht)]

end SelectorGroup
end Styling
