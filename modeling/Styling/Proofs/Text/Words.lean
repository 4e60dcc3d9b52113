import Mathlib.Data.List.Basic
import Styling.Text.Words

/-! # The words of joined texts

A text that is joined from others with spaces has their words, in the same order. A word has
characters, and no white space among them, so a text is found among the words just if it is one
word itself.
-/
namespace Styling

def IsWord (text : String) : Prop := text ≠ "" ∧ ∀ c ∈ text.toList, isWhiteSpace c = false

instance (text : String) : Decidable (IsWord text) :=
  decidable_of_iff (text ≠ "" ∧ text.toList.all (!isWhiteSpace ·) = true) (by simp [IsWord])

section Chars
variable {c : Char} {cs w : List Char}

theorem wordChars_ne_nil (hc : isWhiteSpace c = false) (cs : List Char) : wordChars (c :: cs) ≠ [] := by
  rw [wordChars, if_neg (by simp [hc])]
  unfold consWord
  split <;> simp

theorem consWord_append {glued : Bool} {ws : List (List Char)} (h : glued = true → ws ≠ [])
    (more : List (List Char)) : consWord c glued (ws ++ more) = consWord c glued ws ++ more := by
  cases glued with
  | false => rfl
  | true =>
    cases ws with
    | nil => exact absurd rfl (h rfl)
    | cons w ws => rfl

/-- White space parts the words of a text. -/
theorem wordChars_append (hc : isWhiteSpace c = true) (cs ds : List Char) :
    wordChars (cs ++ c :: ds) = wordChars cs ++ wordChars ds := by
  induction cs with
  | nil => simp [wordChars, hc]
  | cons d cs ih =>
    have hglued : (cs ++ c :: ds).head?.any (!isWhiteSpace ·) = cs.head?.any (!isWhiteSpace ·) := by
      cases cs with
      | nil => simp [hc]
      | cons e cs => rfl
    have hword : cs.head?.any (!isWhiteSpace ·) = true → wordChars cs ≠ [] := by
      cases cs with
      | nil => simp
      | cons e cs => exact fun he => wordChars_ne_nil (by simpa using he) cs
    rw [List.cons_append, wordChars, wordChars, ih, hglued, consWord_append hword]
    split <;> rfl

theorem wordChars_intercalate (texts : List (List Char)) :
    wordChars ([' '].intercalate texts) = texts.flatMap wordChars := by
  induction texts with
  | nil => rfl
  | cons text texts ih =>
    cases texts with
    | nil => simp
    | cons text' texts =>
      rw [List.intercalate_cons_cons, List.append_assoc, List.singleton_append,
        wordChars_append (by decide), ih]
      rfl

theorem wordChars_eq_singleton (hw : w ≠ []) (h : ∀ c ∈ w, isWhiteSpace c = false) :
    wordChars w = [w] := by
  induction w with
  | nil => exact absurd rfl hw
  | cons c w ih =>
    obtain ⟨hc, hrest⟩ := List.forall_mem_cons.mp h
    rw [wordChars, if_neg (by simp [hc])]
    cases w with
    | nil => rfl
    | cons d w =>
      rw [ih (by simp) hrest, List.head?_cons, Option.any_some, hrest d (by simp)]
      rfl

theorem of_mem_wordChars (h : w ∈ wordChars cs) : w ≠ [] ∧ ∀ c ∈ w, isWhiteSpace c = false := by
  induction cs generalizing w with
  | nil => cases h
  | cons c cs ih =>
    rw [wordChars] at h
    split at h
    next => exact ih h
    next hc =>
      have hc : isWhiteSpace c = false := by simpa using hc
      unfold consWord at h
      split at h
      next first rest _ hws =>
        rcases List.mem_cons.mp h with rfl | hmem
        · have hfirst := (ih (w := first) (by rw [hws]; simp)).2
          exact ⟨by simp, List.forall_mem_cons.mpr ⟨hc, hfirst⟩⟩
        · exact ih (by rw [hws]; exact List.mem_cons_of_mem _ hmem)
      next =>
        rcases List.mem_cons.mp h with rfl | hmem
        · exact ⟨by simp, by simpa using hc⟩
        · exact ih hmem

end Chars

/-- Of texts that are joined with spaces, those that are words are found again as words. -/
theorem mem_words_intercalate {name : String} {names : List String} (h : name ∈ names) :
    name ∈ words (" ".intercalate names) ↔ IsWord name := by
  have hwords : words (" ".intercalate names) =
      (names.flatMap fun n => wordChars n.toList).map String.ofList := by
    rw [words, String.toList_intercalate, show " ".toList = [' '] from rfl, wordChars_intercalate,
      List.flatMap_map]
  rw [hwords, List.mem_map]
  constructor
  · rintro ⟨w, hw, rfl⟩
    obtain ⟨n, -, hmem⟩ := List.mem_flatMap.mp hw
    obtain ⟨hne, hspace⟩ := of_mem_wordChars hmem
    refine ⟨fun hempty => hne ?_, by rwa [String.toList_ofList]⟩
    rw [← String.toList_ofList (l := w), hempty]
    rfl
  · rintro ⟨hne, hspace⟩
    refine ⟨name.toList, List.mem_flatMap.mpr ⟨name, h, ?_⟩, String.ofList_toList⟩
    rw [wordChars_eq_singleton (fun hnil => hne (String.toList_inj.mp hnil)) hspace]
    exact List.mem_singleton_self _

end Styling
