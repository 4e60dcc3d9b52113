import Styling.Token.Lexer

/-! # A cursor over the tokens of a text

Tokens are read when they are asked for, and the token read last can be handed back, once. The
place of the cursor is how far the text has been scanned, so handing a token back does not move
it. A run reads on to the end of the text and keeps what it reads.
-/
namespace Styling

structure Cursor where
  ahead : List Char
  place : Nat
  line : Nat
  last : Option Token
  handedBack : Option Token
  /-- The tokens that runs have read, in the order read. -/
  collected : List Token

namespace Cursor

def ofText (text : String) : Cursor := ⟨text.toList, 0, 1, none, none, []⟩

/-- Reads a token from the text itself; at its end, the end token again and again. -/
def scanNext (s : Cursor) : Token × Cursor :=
  match s.ahead with
  | [] => (⟨.eof, s.place, s.place, s.line⟩, s)
  | c :: cs =>
    let next := Lexer.scan c cs
    let size := cs.length + 1 - next.2.length
    let newlines := ((c :: cs).take size).count '\n'
    (⟨next.1, s.place, s.place + size, s.line⟩,
      { s with ahead := next.2, place := s.place + size, line := s.line + newlines })

def next (s : Cursor) : Token × Cursor :=
  match s.handedBack with
  | some t => (t, { s with last := some t, handedBack := none })
  | none =>
    let r := s.scanNext
    (r.1, { r.2 with last := some r.1 })

/-- Hands the last token back. Without a token read since, this changes nothing. -/
def handBack (s : Cursor) : Cursor :=
  match s.handedBack with
  | some _ => s
  | none => { s with handedBack := s.last, last := none }

/-- What is left to read: characters, and a token that was handed back. -/
def left (s : Cursor) : Nat := s.ahead.length + s.handedBack.toList.length

theorem length_scanNext {s : Cursor} {c : Char} {cs : List Char} (h : s.ahead = c :: cs) :
    s.scanNext.2.ahead.length < s.ahead.length := by
  unfold scanNext
  rw [h]
  exact Nat.lt_succ_of_le (Lexer.scan_length_le c cs)

theorem next_eof_or_lt (s : Cursor) : s.next.1.kind = .eof ∨ s.next.2.left < s.left := by
  unfold next left
  cases hb : s.handedBack with
  | some t => exact .inr (by simp)
  | none =>
    have hstay : s.scanNext.2.handedBack = none := by
      unfold scanNext
      cases s.ahead <;> exact hb
    cases hs : s.ahead with
    | nil =>
      refine .inl ?_
      simp only [scanNext, hs]
    | cons c cs =>
      have hlength := length_scanNext hs
      simp only [hstay]
      exact .inr (hs ▸ hlength)

def nextSignificant (s : Cursor) : Token × Cursor :=
  if s.next.1.kind.isComment then nextSignificant s.next.2 else s.next
termination_by s.left
decreasing_by
  rename_i hcomment
  refine (next_eof_or_lt s).resolve_left fun heof => ?_
  rw [heof] at hcomment
  cases hcomment

/-- Reads from a text and keeps what it reads, at most one token per character and the end. -/
def runFor : Nat → Cursor → Cursor
  | 0, s => s
  | fuel + 1, s =>
    let r := s.next
    let s := { r.2 with collected := r.2.collected ++ [r.1] }
    if r.1.kind.isEof then s else runFor fuel s

def run (s : Cursor) : Cursor := runFor (s.ahead.length + 2) s

end Cursor
end Styling
