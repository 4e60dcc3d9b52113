import Mathlib.Order.Basic
import Styling.Proofs.Token.Tiling
import Styling.Token.Cursor

/-! # A cursor points into the tokens of its text

The tokens of a text, and behind them its end again and again, are a stream. What a cursor has
scanned, the token read last and the token handed back are three ways to hold one place in this
stream: reading moves the place on, handing back moves it back by one if a token was read since,
and a run reads up to the next end. No token is lost, repeated or moved.
-/
namespace Styling
open Lexer

/-- The tokens of a text; behind them its end, for ever. -/
def stream (text : String) (n : Nat) : Token := (tokenize text)[n]?.getD (endToken text.toList)

inductive Request
  | next | handBack | run
  deriving DecidableEq, Repr

structure Pointer where
  index : Nat
  /-- Whether the last request read a token. -/
  justRead : Bool
  collected : List Token

namespace Pointer

def start : Pointer := ⟨0, false, []⟩

variable {s : Nat → Token} {p p' q q' : Pointer} {a a' : Option Token} {r : Request}

/-- What a request does to a pointer, and the token that it answers with. -/
inductive Step (s : Nat → Token) : Pointer → Request → Option Token → Pointer → Prop
  | next (i : Nat) (read : Bool) (ts : List Token) :
      Step s ⟨i, read, ts⟩ .next (some (s i)) ⟨i + 1, true, ts⟩
  | handBack (i : Nat) (ts : List Token) : Step s ⟨i, true, ts⟩ .handBack none ⟨i - 1, false, ts⟩
  | handBackAgain (i : Nat) (ts : List Token) :
      Step s ⟨i, false, ts⟩ .handBack none ⟨i, false, ts⟩
  /-- A run collects the tokens up to the first end. -/
  | run {i j : Nat} (read : Bool) (ts : List Token) (hij : i ≤ j) (hend : (s j).kind = .eof)
      (hfirst : ∀ n, i ≤ n → n < j → (s n).kind ≠ .eof) :
      Step s ⟨i, read, ts⟩ .run none ⟨j + 1, true, ts ++ (List.range' i (j + 1 - i)).map s⟩

inductive Serves (s : Nat → Token) :
    Pointer → List Request → List (Option Token) → Pointer → Prop
  | nil (p : Pointer) : Serves s p [] [] p
  | cons {p q p' : Pointer} {r : Request} {a : Option Token} {rs : List Request}
      {answers : List (Option Token)} (first : Step s p r a q) (rest : Serves s q rs answers p') :
      Serves s p (r :: rs) (a :: answers) p'

theorem Step.unique (h : Step s p r a q) (h' : Step s p r a' q') : a = a' ∧ q = q' := by
  cases h with
  | next | handBack | handBackAgain =>
    cases h'
    exact ⟨rfl, rfl⟩
  | @run i j read ts hij hend hfirst =>
    cases h' with
    | @run _ j' _ _ hij' hend' hfirst' =>
      have hj : j = j' := by
        rcases Nat.lt_trichotomy j j' with hlt | heq | hlt
        · exact absurd hend (hfirst' j hij hlt)
        · exact heq
        · exact absurd hend' (hfirst j' hij' hlt)
      subst hj
      exact ⟨rfl, rfl⟩

theorem Serves.unique {rs : List Request} {answers answers' : List (Option Token)}
    (h : Serves s p rs answers q) (h' : Serves s p rs answers' q') :
    answers = answers' ∧ q = q' := by
  induction h generalizing answers' with
  | nil =>
    cases h'
    exact ⟨rfl, rfl⟩
  | cons first _ ih =>
    cases h' with
    | cons first' rest' =>
      obtain ⟨rfl, rfl⟩ := first.unique first'
      obtain ⟨rfl, rfl⟩ := ih rest'
      exact ⟨rfl, rfl⟩

end Pointer

theorem Kind.isEof_iff {k : Kind} : k.isEof = true ↔ k = .eof := by
  cases k <;> simp [isEof]

theorem stream_eq (text : String) (n : Nat) :
    stream text n = (tokens text.toList)[n]?.getD (endToken text.toList) := by
  rw [stream, tokenize, List.getElem?_append]
  split
  · rfl
  next h =>
    rw [List.getElem?_eq_none (Nat.not_lt.mp h)]
    cases n - (tokens text.toList).length <;> rfl

theorem stream_of_eof {text : String} {k n : Nat} (h : (stream text k).kind = .eof) (hn : k ≤ n) :
    stream text n = endToken text.toList := by
  have hk : (tokens text.toList).length ≤ k := by
    by_contra hlt
    rw [stream_eq, List.getElem?_eq_getElem (Nat.not_le.mp hlt), Option.getD_some] at h
    have hmem := List.getElem_mem (Nat.not_le.mp hlt)
    obtain ⟨before, l, after, hls, heq⟩ := eq_of_mem_place hmem
    have hl : l ∈ lexemes text.toList := by simp [hls]
    rw [heq] at h
    exact kind_ne_eof_of_mem_lexemes hl h
  rw [stream_eq, List.getElem?_eq_none (hk.trans hn), Option.getD_none]

namespace Cursor
variable {text : String} {s : Cursor} {p : Pointer} {k : Nat}

def serve (s : Cursor) : Request → Option Token × Cursor
  | .next => (some s.next.1, s.next.2)
  | .handBack => (none, s.handBack)
  | .run => (none, s.run)

def serveAll (s : Cursor) : List Request → List (Option Token) × Cursor
  | [] => ([], s)
  | r :: rs =>
    let first := s.serve r
    let rest := first.2.serveAll rs
    (first.1 :: rest.1, rest.2)

def pending (s : Cursor) : List Token :=
  Lexer.place s.place s.line (lexemes s.ahead ++ [endLexeme])

theorem pending_of_nil (h : s.ahead = []) : s.pending = [s.scanNext.1] ∧ s.scanNext.2 = s := by
  unfold pending scanNext
  rw [h, lexemes]
  exact ⟨rfl, rfl⟩

theorem pending_of_cons {c : Char} {cs : List Char} (h : s.ahead = c :: cs) :
    s.pending = s.scanNext.1 :: s.scanNext.2.pending := by
  have hle : (cs.length + 1 - (scan c cs).2.length) ≤ (c :: cs).length := Nat.sub_le _ _
  unfold pending scanNext
  rw [h, lexemes, List.cons_append, Lexer.place, List.length_take_of_le hle]

/-- What is still to be scanned is the stream from an index on. -/
def Scans (text : String) (k : Nat) (s : Cursor) : Prop :=
  ∀ n, stream text (k + n) = s.pending[n]?.getD (endToken text.toList)

theorem scans_ofText (text : String) : Scans text 0 (ofText text) := by
  intro n
  rw [Nat.zero_add, stream, tokenize_eq_place]
  rfl

theorem Scans.scanNext (h : Scans text k s) :
    s.scanNext.1 = stream text k ∧ Scans text (k + 1) s.scanNext.2 := by
  have hfirst := h 0
  cases hs : s.ahead with
  | nil =>
    -- at the end of the text the same end is scanned again and again
    obtain ⟨hpending, hstay⟩ := pending_of_nil hs
    rw [hpending] at hfirst
    have hend : (stream text k).kind = .eof := by
      rw [show stream text k = s.scanNext.1 from hfirst, Cursor.scanNext, hs]
    refine ⟨hfirst.symm, fun n => ?_⟩
    rw [stream_of_eof hend (by omega), hstay, hpending]
    cases n with
    | zero => exact (stream_of_eof hend (le_refl k)).symm.trans hfirst
    | succ n => rfl
  | cons c cs =>
    have hpending := pending_of_cons hs
    rw [hpending] at hfirst
    refine ⟨hfirst.symm, fun n => ?_⟩
    rw [Nat.add_assoc, Nat.add_comm 1 n, h (n + 1), hpending, List.getElem?_cons_succ]

/-- A cursor stands where a pointer points. A token that was handed back is scanned already. -/
structure Tracks (text : String) (p : Pointer) (s : Cursor) : Prop where
  scans : Scans text (p.index + s.handedBack.toList.length) s
  handedBack : ∀ t ∈ s.handedBack, t = stream text p.index ∧ p.justRead = false
  last : s.handedBack = none →
    s.last = if p.justRead then some (stream text (p.index - 1)) else none
  positive : p.justRead = true → 0 < p.index
  collected : s.collected = p.collected

theorem tracks_start (text : String) : Tracks text .start (ofText text) :=
  ⟨scans_ofText text, by simp [ofText], fun _ => rfl, by simp [Pointer.start], rfl⟩

theorem Tracks.next (h : Tracks text p s) :
    s.next.1 = stream text p.index ∧ Tracks text ⟨p.index + 1, true, p.collected⟩ s.next.2 := by
  obtain ⟨hscans, hback, hlast, -, hcollected⟩ := h
  cases hb : s.handedBack with
  | some t =>
    rw [hb] at hscans hback
    obtain ⟨rfl, -⟩ := hback t rfl
    simp only [Cursor.next, hb]
    exact ⟨trivial, hscans, by simp, by simp, by simp, hcollected⟩
  | none =>
    rw [hb] at hscans
    obtain ⟨hread, hrest⟩ := Scans.scanNext hscans
    have hkept : s.scanNext.2.handedBack = none ∧ s.scanNext.2.collected = s.collected := by
      unfold Cursor.scanNext
      cases s.ahead <;> exact ⟨hb, rfl⟩
    simp only [Cursor.next, hb]
    exact ⟨hread, by rw [hkept.1]; exact hrest, by simp [hkept.1], by simp [hread], by simp,
      hkept.2.trans hcollected⟩

theorem Tracks.handBack (h : Tracks text p s) :
    ∃ q, Pointer.Step (stream text) p .handBack none q ∧ Tracks text q s.handBack := by
  obtain ⟨i, read, ts⟩ := p
  have hsame := h
  obtain ⟨hscans, hback, hlast, hpositive, hcollected⟩ := h
  cases hb : s.handedBack with
  | some t =>
    obtain ⟨-, rfl⟩ := hback t hb
    refine ⟨_, .handBackAgain i ts, ?_⟩
    simpa only [Cursor.handBack, hb] using hsame
  | none =>
    have hlast := hlast hb
    rw [hb] at hscans
    cases read with
    | true =>
      have hi : 0 < i := hpositive rfl
      refine ⟨_, .handBack i ts, ?_⟩
      simp only [Cursor.handBack, hb, hlast, if_true]
      refine ⟨?_, by simp, by simp, by simp, hcollected⟩
      rw [show i - 1 + (some (stream text (i - 1))).toList.length = i from Nat.sub_add_cancel hi]
      exact hscans
    | false =>
      refine ⟨_, .handBackAgain i ts, ?_⟩
      simp only [Cursor.handBack, hb, hlast]
      exact ⟨hscans, by simp, by simp, by simp, hcollected⟩

theorem Tracks.runFor (h : Tracks text p s) {fuel : Nat}
    (hfuel : s.left < fuel) :
    ∃ j, p.index ≤ j ∧ (stream text j).kind = .eof ∧
      (∀ n, p.index ≤ n → n < j → (stream text n).kind ≠ .eof) ∧
      Tracks text ⟨j + 1, true, p.collected ++
        (List.range' p.index (j + 1 - p.index)).map (stream text)⟩ (s.runFor fuel) := by
  -- what is left to read bounds the fuel, and every read but that of the end makes it less
  induction fuel generalizing p s with
  | zero => exact absurd hfuel (Nat.not_lt_zero _)
  | succ fuel ih =>
    obtain ⟨i, read, ts⟩ := p
    obtain ⟨hread, hscans, hback, hlast, hpositive, hcollected⟩ := h.next
    have hkept : Tracks text ⟨i + 1, true, ts ++ [stream text i]⟩
        { s.next.2 with collected := s.next.2.collected ++ [stream text i] } :=
      ⟨hscans, hback, hlast, hpositive, by rw [hcollected]⟩
    rw [Cursor.runFor, hread]
    by_cases hend : (stream text i).kind = .eof
    · refine ⟨i, le_refl i, hend, fun n hn hlt => absurd hn (Nat.not_le.mpr hlt), ?_⟩
      rw [if_pos (Kind.isEof_iff.mpr hend), Nat.add_sub_cancel_left]
      exact hkept
    · have hless := (next_eof_or_lt s).resolve_left (hread ▸ hend)
      obtain ⟨j, hij, hj, hfirst, htracks⟩ := ih hkept (by
        show s.next.2.left < fuel
        omega)
      have hij : i + 1 ≤ j := hij
      refine ⟨j, by dsimp only; omega, hj, fun n hn hlt => ?_, ?_⟩
      · rcases Nat.eq_or_lt_of_le hn with rfl | hn
        · exact hend
        · exact hfirst n hn hlt
      · have hrange : List.range' i (j + 1 - i) = i :: List.range' (i + 1) (j + 1 - (i + 1)) := by
          rw [show j + 1 - i = j + 1 - (i + 1) + 1 by omega, List.range'_succ]
        rw [if_neg (by simpa [Kind.isEof_iff] using hend)]
        dsimp only at htracks ⊢
        rw [hrange, List.map_cons]
        simpa using htracks

/-- Whatever is asked of a cursor, it does what its pointer does. -/
theorem Tracks.serve (h : Tracks text p s) (r : Request) :
    ∃ q, Pointer.Step (stream text) p r (s.serve r).1 q ∧ Tracks text q (s.serve r).2 := by
  cases r with
  | next =>
    obtain ⟨hread, hnext⟩ := h.next
    refine ⟨_, ?_, hnext⟩
    rw [Cursor.serve, hread]
    exact .next p.index p.justRead p.collected
  | handBack => exact h.handBack
  | run =>
    have hfuel : s.left < s.ahead.length + 2 := by
      unfold left
      cases s.handedBack <;> simp
    obtain ⟨j, hij, hend, hfirst, htracks⟩ := h.runFor hfuel
    exact ⟨_, .run p.justRead p.collected hij hend hfirst, htracks⟩

theorem Tracks.serveAll (h : Tracks text p s) (rs : List Request) :
    ∃ q, Pointer.Serves (stream text) p rs (s.serveAll rs).1 q ∧
      Tracks text q (s.serveAll rs).2 := by
  induction rs generalizing p s with
  | nil => exact ⟨p, .nil p, h⟩
  | cons r rs ih =>
    obtain ⟨q, hfirst, hq⟩ := h.serve r
    obtain ⟨q', hrest, hq'⟩ := ih hq
    exact ⟨q', .cons hfirst hrest, hq'⟩

/-- A cursor that is asked this and that answers like a pointer into the stream of its text, and
collects the same tokens: this is all that the stream allows. -/
theorem serves_stream (text : String) (requests : List Request)
    (answers : List (Option Token)) (collected : List Token) :
    (∃ p, p.collected = collected ∧
      Pointer.Serves (stream text) .start requests answers p) ↔
    answers = ((ofText text).serveAll requests).1 ∧
      collected = ((ofText text).serveAll requests).2.collected := by
  obtain ⟨q, hserves, htracks⟩ := (tracks_start text).serveAll requests
  constructor
  · rintro ⟨p, rfl, h⟩
    obtain ⟨rfl, rfl⟩ := h.unique hserves
    exact ⟨rfl, htracks.collected.symm⟩
  · rintro ⟨rfl, rfl⟩
    exact ⟨q, htracks.collected.symm, hserves⟩

end Cursor
end Styling
