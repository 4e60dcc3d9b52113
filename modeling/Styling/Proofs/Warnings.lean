import Mathlib.Data.List.Induction
import Styling.Warning

/-! # Which warnings are given

A record keeps texts of warnings, so it tells two warnings apart if their texts differ. The text
of a warning does not always say where its component ends: if a component holds the closing
bracket and the blank, what follows them may also belong to the message. Main statement: a record
gives each warning once between two clearings exactly if no two such warnings meet there.
-/
namespace Styling

namespace Warning
variable {v w : Warning}

/-- The component of `w` is that of `v` and goes on, behind a bracket, with what begins the
message of `v`. -/
def Overruns (v w : Warning) : Prop :=
  ∃ s, w.component = v.component ++ "] " ++ s ∧ v.message = s ++ "] " ++ w.message

def Clashes (v w : Warning) : Prop := v.Overruns w ∨ w.Overruns v

theorem Overruns.text_eq (h : v.Overruns w) : v.text = w.text := by
  obtain ⟨s, hcomponent, hmessage⟩ := h
  rw [text, text, hcomponent, hmessage]
  simp only [String.append_assoc]

theorem Overruns.ne (h : v.Overruns w) : v ≠ w := by
  rintro rfl
  obtain ⟨s, hcomponent, -⟩ := h
  have hlength := congrArg String.length hcomponent
  simp only [String.length_append] at hlength
  have htwo : "] ".length = 2 := by decide
  omega

theorem Clashes.text_eq (h : v.Clashes w) : v.text = w.text :=
  h.elim Overruns.text_eq fun h => h.text_eq.symm

theorem Clashes.ne (h : v.Clashes w) : v ≠ w :=
  h.elim Overruns.ne fun h => h.ne.symm

/-- A text that ends later in `w` than in `v` ends there with a bracket and a blank. -/
theorem overruns_of_append {extra : List Char}
    (hcomponent : w.component.toList = v.component.toList ++ extra)
    (hrest : [']', ' '] ++ v.message.toList = extra ++ ([']', ' '] ++ w.message.toList)) :
    v = w ∨ v.Overruns w := by
  match extra with
  | [] =>
    left
    have hc : v.component = w.component := String.toList_inj.mp (by simpa using hcomponent.symm)
    have hm : v.message = w.message := String.toList_inj.mp (by simpa using hrest)
    cases v
    cases w
    cases hc
    cases hm
    rfl
  | [a] => exact absurd (List.cons.inj (List.cons.inj hrest).2).1 (by decide)
  | a :: b :: s =>
    right
    obtain ⟨ha, hrest⟩ := List.cons.inj hrest
    obtain ⟨hb, hrest⟩ := List.cons.inj hrest
    subst ha hb
    have hsep : "] ".toList = [']', ' '] := by decide
    refine ⟨String.ofList s, String.toList_inj.mp ?_, String.toList_inj.mp ?_⟩
    · simpa [hsep] using hcomponent
    · simpa [hsep] using hrest

theorem text_eq_iff : v.text = w.text ↔ v = w ∨ v.Clashes w := by
  constructor
  · intro h
    have hsep : "] ".toList = [']', ' '] := by decide
    have hchars := congrArg String.toList h
    simp only [text, String.toList_append, hsep, List.append_assoc] at hchars
    obtain ⟨extra, hcomponent, hrest⟩ | ⟨extra, hcomponent, hrest⟩ :=
      List.append_eq_append_iff.mp (List.append_cancel_left hchars)
    · exact (overruns_of_append hcomponent hrest).imp_right Or.inl
    · exact (overruns_of_append hcomponent hrest).imp Eq.symm Or.inr
  · rintro (rfl | h)
    · rfl
    · exact h.text_eq

end Warning

inductive WarningCall
  | warn (w : Warning)
  | clear
  deriving DecidableEq, Repr

namespace WarningRecord
variable {calls : List WarningCall} {v w : Warning}

def serve (r : WarningRecord) : WarningCall → WarningRecord
  | .warn w => (r.give [w]).2
  | .clear => empty

/-- The record after calls that were made one after the other, the first of an empty record. -/
def after (calls : List WarningCall) : WarningRecord := calls.foldl serve empty

/-- Whether a warning is given when it is asked for after other calls. -/
def Gives (calls : List WarningCall) (w : Warning) : Prop := ((after calls).give [w]).1 = [w]

/-- The calls have asked for the warning since they cleared the record last. -/
def Asked (calls : List WarningCall) (w : Warning) : Prop :=
  ∃ earlier later, calls = earlier ++ .warn w :: later ∧ .clear ∉ later

theorem after_concat (calls : List WarningCall) (c : WarningCall) :
    after (calls ++ [c]) = (after calls).serve c := by
  rw [after, List.foldl_append]
  rfl

theorem not_asked_nil : ¬Asked [] w := by
  rintro ⟨earlier, later, h, -⟩
  simp at h

theorem not_asked_clear : ¬Asked (calls ++ [.clear]) w := by
  rintro ⟨earlier, later, h, hlater⟩
  cases later using List.reverseRecOn with
  | nil => simp at h
  | append_singleton later c =>
    rw [← List.cons_append, ← List.append_assoc] at h
    obtain ⟨-, hc⟩ := List.append_inj' h rfl
    cases hc
    exact hlater (by simp)

theorem asked_warn_iff : Asked (calls ++ [.warn v]) w ↔ Asked calls w ∨ w = v := by
  constructor
  · rintro ⟨earlier, later, h, hlater⟩
    cases later using List.reverseRecOn with
    | nil =>
      obtain ⟨-, hc⟩ := List.append_inj' h rfl
      cases hc
      exact .inr rfl
    | append_singleton later c =>
      rw [← List.cons_append, ← List.append_assoc] at h
      obtain ⟨hcalls, -⟩ := List.append_inj' h rfl
      exact .inl ⟨earlier, later, hcalls, fun hmem => hlater (List.mem_append_left _ hmem)⟩
  · rintro (⟨earlier, later, rfl, hlater⟩ | rfl)
    · exact ⟨earlier, later ++ [.warn v], by simp, by simpa using hlater⟩
    · exact ⟨calls, [], rfl, by simp⟩

theorem mem_note {r : WarningRecord} {t : String} :
    t ∈ (r.note w).given ↔ t ∈ r.given ∨ t = w.text := by
  unfold note isNew
  by_cases h : w.text ∈ r.given
  · have hold : t = w.text → t ∈ r.given := fun ht => ht ▸ h
    simpa [h] using hold
  · simp [h, or_comm]

/-- The record holds the texts of the warnings asked for since it was cleared. -/
theorem mem_given_iff (t : String) :
    t ∈ (after calls).given ↔ ∃ w, Asked calls w ∧ w.text = t := by
  induction calls using List.reverseRecOn with
  | nil => simp [after, empty, not_asked_nil]
  | append_singleton calls c ih =>
    rw [after_concat]
    cases c with
    | clear => simp [serve, empty, not_asked_clear]
    | warn v =>
      show t ∈ ((after calls).note v).given ↔ _
      rw [mem_note, ih]
      constructor
      · rintro (⟨w, hw, rfl⟩ | rfl)
        · exact ⟨w, asked_warn_iff.mpr (.inl hw), rfl⟩
        · exact ⟨v, asked_warn_iff.mpr (.inr rfl), rfl⟩
      · rintro ⟨w, hw, rfl⟩
        rcases asked_warn_iff.mp hw with hw | rfl
        · exact .inl ⟨w, hw, rfl⟩
        · exact .inr rfl

/-- A warning is given if none that reads the same was asked for. -/
theorem gives_iff : Gives calls w ↔ ∀ v, Asked calls v → v.text ≠ w.text := by
  have hnew : Gives calls w ↔ w.text ∉ (after calls).given := by
    unfold Gives give isNew
    by_cases h : w.text ∈ (after calls).given <;> simp [h, give]
  rw [hnew, mem_given_iff]
  simp only [not_exists, not_and]

/-- Where every warning is given at its first occurrence, no two warnings clash: the later one
of the first such pair would not be given. -/
theorem not_clashes_of_asked {p : List WarningCall} (hp : p <+: calls)
    (hfirst : ∀ earlier w later, calls = earlier ++ .warn w :: later →
      (Gives earlier w ↔ ¬Asked earlier w))
    (hv : Asked p v) (hw : Asked p w) : ¬v.Clashes w := by
  induction p using List.reverseRecOn with
  | nil => exact absurd hv not_asked_nil
  | append_singleton p c ih =>
    have ih := ih ((List.prefix_append p [c]).trans hp)
    cases c with
    | clear => exact absurd hv not_asked_clear
    | warn u =>
      obtain ⟨rest, hcalls⟩ := hp
      rw [List.append_assoc] at hcalls
      have hu : Asked p u ∨ ∀ v, Asked p v → v.text ≠ u.text := by
        by_cases h : Asked p u
        · exact .inl h
        · exact .inr (gives_iff.mp ((hfirst p u rest hcalls.symm).mpr h))
      rcases asked_warn_iff.mp hv with hv' | rfl <;> rcases asked_warn_iff.mp hw with hw' | rfl
      · exact ih hv' hw'
      · exact hu.elim (fun hu => ih hv' hu) fun hu h => hu v hv' h.text_eq
      · exact hu.elim (fun hu => ih hu hw') fun hu h => hu w hw' h.text_eq.symm
      · exact fun h => h.ne rfl

/-- Whatever is asked of a record, each warning is given exactly when it is asked for the first
time since the last clearing if and only if no two warnings between two clearings clash. -/
theorem gives_first_iff (calls : List WarningCall) :
    (∀ earlier w later, calls = earlier ++ .warn w :: later →
      (Gives earlier w ↔ ¬Asked earlier w)) ↔
    ∀ earlier v between w later,
      calls = earlier ++ .warn v :: (between ++ .warn w :: later) → .clear ∉ between →
        ¬v.Clashes w := by
  constructor
  · rintro hfirst earlier v between w later rfl hbetween
    have hprefix : earlier ++ .warn v :: between ++ [.warn w] <+:
        earlier ++ .warn v :: (between ++ .warn w :: later) := ⟨later, by simp⟩
    refine not_clashes_of_asked hprefix hfirst ?_ (asked_warn_iff.mpr (.inr rfl))
    exact asked_warn_iff.mpr (.inl ⟨earlier, between, rfl, hbetween⟩)
  · rintro hclash earlier w later rfl
    rw [gives_iff]
    constructor
    · exact fun hnew hasked => hnew w hasked rfl
    · intro hnot v hasked htext
      have hsplit := hasked
      obtain ⟨first, between, rfl, hbetween⟩ := hsplit
      rcases Warning.text_eq_iff.mp htext with rfl | h
      · exact hnot hasked
      · exact hclash first v between w later (by simp) hbetween h

/-- A warning that was never asked for may fail to be given, because another one reads the same. -/
theorem not_gives_first_bracket :
    ¬(Gives [.warn ⟨"a", "b] c"⟩] ⟨"a] b", "c"⟩ ↔
      ¬Asked [.warn ⟨"a", "b] c"⟩] ⟨"a] b", "c"⟩) := by
  have hasked : ¬Asked [.warn ⟨"a", "b] c"⟩] ⟨"a] b", "c"⟩ := by
    rw [← List.nil_append [WarningCall.warn _], asked_warn_iff]
    rintro (h | h)
    · exact not_asked_nil h
    · exact absurd h (by decide)
  intro h
  exact gives_iff.mp (h.mpr hasked) _ ⟨[], [], rfl, by simp⟩ (by decide)

end WarningRecord
end Styling
