import Mathlib.Data.List.Forall2
import Mathlib.Data.List.Nodup
import Styling.Proofs.Cascade.Buckets
import Styling.Proofs.Cascade.LastWins

/-! # Sheets that failed

A sheet that could not be compiled stays in its bucket and is reported in its place. It takes no
other part: without the failed sheets a manager styles every element in the same way and reports
the same faults.
-/
namespace Styling

/-- Where an entry stands among the sheets of a manager. -/
structure Slot where
  origin : Origin
  index : Nat

/-- By origin, then by the order of the bucket. -/
def Slot.Before (p q : Slot) : Prop :=
  p.origin.rank < q.origin.rank ∨ p.origin = q.origin ∧ p.index < q.index

def SheetEntry.Failed (o : Origin) (e : SheetEntry) (report : Origin × Source × LoadError) : Prop :=
  ∃ error, e.outcome = .error error ∧ report = (o, e.key, error)

def SheetEntry.Faulty (o : Origin) (e : SheetEntry) (report : Origin × Source × List Fault) :
    Prop :=
  ∃ sheet, e.outcome = .ok sheet ∧ sheet.faults ≠ [] ∧ report = (o, e.key, sheet.faults)

def SheetEntry.isCompiled (e : SheetEntry) : Bool := e.outcome.isOk

/-- What is found by going through a list belongs, in order, to the positions where something is
found. -/
theorem forall₂_filterMap {α β γ : Type} (f : α → Option β) (position : α → γ) (l : List α) :
    List.Forall₂ (fun p b => ∃ a ∈ l, position a = p ∧ f a = some b)
      ((l.filter fun a => (f a).isSome).map position) (l.filterMap f) := by
  induction l with
  | nil => exact .nil
  | cons a l ih =>
    -- what is found in `l` is found in the longer list, at the same positions
    have hrest : List.Forall₂ (fun p b => ∃ a' ∈ a :: l, position a' = p ∧ f a' = some b)
        ((l.filter fun a => (f a).isSome).map position) (l.filterMap f) :=
      ih.imp fun p b ⟨a', ha', h⟩ => ⟨a', List.mem_cons_of_mem a ha', h⟩
    cases h : f a with
    | none => simpa [h] using hrest
    | some b =>
      rw [List.filter_cons_of_pos (by simp [h]), List.map_cons, List.filterMap_cons_some h]
      exact .cons ⟨a, List.mem_cons_self, rfl, h⟩ hrest

theorem map_filterMap_sublist {α β γ : Type} {f : α → Option β} {g : β → γ} {name : α → γ}
    (h : ∀ a b, f a = some b → g b = name a) (l : List α) :
    ((l.filterMap f).map g).Sublist (l.map name) := by
  induction l with
  | nil => exact .slnil
  | cons a l ih =>
    cases hf : f a with
    | none => simpa [hf] using ih.cons (name a)
    | some b => simpa [hf, h a b hf] using ih

/-- Where some members of a list give nothing, the others give the same without them. -/
theorem flatMap_filter {α β : Type} {f : α → List β} {keep : α → Bool}
    (h : ∀ a, keep a = false → f a = []) (l : List α) :
    (l.filter keep).flatMap f = l.flatMap f := by
  induction l with
  | nil => rfl
  | cons a l ih =>
    cases ha : keep a with
    | true => simp [ha, ih]
    | false => simp [ha, ih, h a ha]

namespace Manager
variable (m : Manager)

def entryAt? (q : Slot) : Option SheetEntry := (m.bucket q.origin)[q.index]?

/-- Reports on the entries that a relation asks for: one for each of these entries, in the order
of their slots. -/
def Lists {α : Type} (reports : List α) (asked : Origin → SheetEntry → α → Prop) : Prop :=
  ∃ slots : List Slot, slots.Pairwise Slot.Before ∧
    (∀ q, q ∈ slots ↔ ∃ e report, m.entryAt? q = some e ∧ asked q.origin e report) ∧
    List.Forall₂ (fun q report => ∃ e, m.entryAt? q = some e ∧ asked q.origin e report)
      slots reports

def withoutFailed : Manager :=
  { m with buckets := fun o => (m.buckets o).map (List.filter SheetEntry.isCompiled) }

def slotted : List (Slot × SheetEntry) :=
  Origin.all.flatMap fun o => (m.bucket o).zipIdx.map fun x => (⟨o, x.2⟩, x.1)

theorem mem_slotted (x : Slot × SheetEntry) : x ∈ m.slotted ↔ m.entryAt? x.1 = some x.2 := by
  obtain ⟨⟨o, i⟩, e⟩ := x
  simp only [slotted, entryAt?, List.mem_flatMap, List.mem_map]
  constructor
  · rintro ⟨o', -, x, hx, heq⟩
    cases heq
    exact List.mem_zipIdx_iff_getElem?.mp hx
  · intro h
    exact ⟨o, o.mem_all, (e, i), List.mem_zipIdx_iff_getElem?.mpr h, rfl⟩

theorem pairwise_slotted : m.slotted.Pairwise fun x y => x.1.Before y.1 := by
  apply Origin.pairwise_flatMap_all
  · intro o
    exact List.pairwise_map.mpr ((pairwise_zipIdx _).imp fun h => .inr ⟨rfl, h⟩)
  · intro o o' h x hx y hy
    obtain ⟨_, -, rfl⟩ := List.mem_map.mp hx
    obtain ⟨_, -, rfl⟩ := List.mem_map.mp hy
    exact .inl h

theorem entries_eq_map_slotted : m.entries = m.slotted.map fun x => (x.1.origin, x.2) := by
  simp only [entries, slotted, List.map_flatMap, List.map_map, Function.comp_def]
  refine List.flatMap_congr fun o _ => ?_
  conv_lhs => rw [← List.zipIdx_map_fst 0 (m.bucket o), List.map_map]
  rfl

theorem lists_filterMap {α : Type} {f : Origin × SheetEntry → Option α}
    {asked : Origin → SheetEntry → α → Prop}
    (h : ∀ x report, f x = some report ↔ asked x.1 x.2 report) :
    m.Lists (m.entries.filterMap f) asked := by
  rw [entries_eq_map_slotted, List.filterMap_map]
  refine ⟨(m.slotted.filter fun x => (f (x.1.origin, x.2)).isSome).map Prod.fst, ?_, ?_, ?_⟩
  · exact List.pairwise_map.mpr (m.pairwise_slotted.filter _)
  · intro q
    simp only [List.mem_map, List.mem_filter, mem_slotted, Option.isSome_iff_exists, h]
    constructor
    · rintro ⟨x, ⟨hx, report, hreport⟩, rfl⟩
      exact ⟨x.2, report, hx, hreport⟩
    · rintro ⟨e, report, he, hreport⟩
      exact ⟨(q, e), ⟨he, report, hreport⟩, rfl⟩
  · refine (forall₂_filterMap (f ∘ fun x => (x.1.origin, x.2)) Prod.fst m.slotted).imp ?_
    rintro _ report ⟨x, hx, rfl, hreport⟩
    exact ⟨x.2, (m.mem_slotted x).mp hx, (h ..).mp hreport⟩

theorem failures_eq_filterMap : ∃ f, (∀ m : Manager, m.failures = m.entries.filterMap f) ∧
    ∀ x report, f x = some report ↔ x.2.Failed x.1 report := by
  refine ⟨_, fun _ => rfl, ?_⟩
  intro x report
  unfold SheetEntry.Failed
  cases h : x.2.outcome <;> simp [h, eq_comm]

theorem faults_eq_filterMap : ∃ f, (∀ m : Manager, m.faults = m.entries.filterMap f) ∧
    ∀ x report, f x = some report ↔ x.2.Faulty x.1 report := by
  refine ⟨_, fun _ => rfl, ?_⟩
  intro x report
  unfold SheetEntry.Faulty
  cases h : x.2.outcome with
  | error error => simp [h]
  | ok sheet =>
    by_cases hfaults : sheet.faults = []
    · simp [h, hfaults]
    · simp [h, hfaults, eq_comm (a := report)]

theorem lists_failures : m.Lists m.failures SheetEntry.Failed := by
  obtain ⟨f, hfailures, hfailed⟩ := failures_eq_filterMap
  exact hfailures m ▸ m.lists_filterMap hfailed

theorem lists_faults : m.Lists m.faults SheetEntry.Faulty := by
  obtain ⟨f, hfaults, hfaulty⟩ := faults_eq_filterMap
  exact hfaults m ▸ m.lists_filterMap hfaulty

def nameOf (x : Origin × SheetEntry) : Origin × Source := (x.1, x.2.key)

variable {m}

theorem nodup_names (h : ∀ o, (m.sources o).Nodup) : (m.entries.map nameOf).Nodup := by
  have hnames (o : Origin) : ((m.bucket o).map fun e => (o, e)).map nameOf =
      (m.sources o).map (Prod.mk o) := by
    simp only [nameOf, sources, Bucket.keys, List.map_map, Function.comp_def]
  rw [entries, List.map_flatMap]
  simp only [hnames]
  apply Origin.pairwise_flatMap_all
  · intro o
    exact (h o).map fun _ _ heq => (Prod.mk.inj heq).2
  · -- a key may stand under two origins, so here the names are told apart by their origins
    rintro o o' hrank name hname name' hname' rfl
    obtain ⟨key, -, rfl⟩ := List.mem_map.mp hname
    obtain ⟨key', -, heq⟩ := List.mem_map.mp hname'
    rw [(Prod.mk.inj heq).1] at hrank
    exact Nat.lt_irrefl _ hrank

/-- No entry is reported twice, nor both as failed and as faulty. -/
theorem nodup_reports (h : ∀ o, (m.sources o).Nodup) :
    (m.failures.map (fun x => (x.1, x.2.1)) ++ m.faults.map fun x => (x.1, x.2.1)).Nodup := by
  obtain ⟨f, hfailures, hfailed⟩ := failures_eq_filterMap
  obtain ⟨g, hfaults, hfaulty⟩ := faults_eq_filterMap
  have hnames := nodup_names h
  rw [hfailures, hfaults]
  refine List.nodup_append.mpr ⟨?_, ?_, ?_⟩
  · apply (map_filterMap_sublist _ _).nodup hnames
    intro x report hreport
    obtain ⟨_, -, rfl⟩ := (hfailed ..).mp hreport
    rfl
  · apply (map_filterMap_sublist _ _).nodup hnames
    intro x report hreport
    obtain ⟨_, -, -, rfl⟩ := (hfaulty ..).mp hreport
    rfl
  · simp only [List.mem_map, List.mem_filterMap]
    rintro _ ⟨_, ⟨x, hx, hreport⟩, rfl⟩ _ ⟨_, ⟨y, hy, hreport'⟩, rfl⟩ heq
    obtain ⟨error, hx', rfl⟩ := (hfailed ..).mp hreport
    obtain ⟨sheet, hy', -, rfl⟩ := (hfaulty ..).mp hreport'
    -- Two entries of one name are one entry, and it has only one outcome.
    obtain rfl : x = y := List.inj_on_of_nodup_map hnames hx hy heq
    rw [hx'] at hy'
    cases hy'

theorem bucket_withoutFailed (o : Origin) :
    m.withoutFailed.bucket o = (m.bucket o).filter SheetEntry.isCompiled := by
  unfold bucket withoutFailed
  cases h : m.buckets o <;> simp [h]

theorem entries_withoutFailed :
    m.withoutFailed.entries = m.entries.filter fun x => x.2.isCompiled := by
  simp only [entries, bucket_withoutFailed, List.filter_flatMap, List.filter_map,
    Function.comp_def]

theorem isCompiled_eq_false_iff {e : SheetEntry} :
    e.isCompiled = false ↔ ∃ error, e.outcome = .error error := by
  unfold SheetEntry.isCompiled
  cases e.outcome <;> simp [Except.isOk, Except.toBool]

theorem failures_withoutFailed : m.withoutFailed.failures = [] := by
  obtain ⟨f, hfailures, hfailed⟩ := failures_eq_filterMap
  rw [hfailures, entries_withoutFailed, List.filterMap_eq_nil_iff]
  intro x hx
  apply Option.eq_none_iff_forall_ne_some.mpr
  intro report hreport
  obtain ⟨error, herror, -⟩ := (hfailed x report).mp hreport
  simpa [isCompiled_eq_false_iff.mpr ⟨error, herror⟩] using List.of_mem_filter hx

theorem faults_withoutFailed : m.withoutFailed.faults = m.faults := by
  obtain ⟨f, hfaults, hfaulty⟩ := faults_eq_filterMap
  rw [hfaults, hfaults, List.filterMap_eq_flatMap_toList, List.filterMap_eq_flatMap_toList,
    entries_withoutFailed]
  apply flatMap_filter
  intro x hx
  obtain ⟨error, herror⟩ := isCompiled_eq_false_iff.mp hx
  apply Option.toList_eq_nil_iff.mpr
  apply Option.eq_none_iff_forall_ne_some.mpr
  intro report hreport
  obtain ⟨sheet, hsheet, -⟩ := (hfaulty x report).mp hreport
  rw [herror] at hsheet
  cases hsheet

section Styles
variable {ε : Type} [BEq ε] (model : Model ε) (overrides : Overrides ε) (element : ε)

theorem matching_withoutFailed : m.withoutFailed.matching model overrides element =
    m.matching model overrides element := by
  unfold matching
  rw [entries_withoutFailed]
  apply flatMap_filter
  intro x hx
  obtain ⟨error, herror⟩ := isCompiled_eq_false_iff.mp hx
  simp [rulesetsOf, herror]

/-- The styles come from the rulesets that match and from the element itself. -/
theorem apply_withoutFailed : m.withoutFailed.apply model overrides element =
    m.apply model overrides element := by
  rw [apply_eq_foldl, apply_eq_foldl, reaching, reaching, matching_withoutFailed]
  rfl

end Styles

/-- Whatever was done before, every sheet that failed and every sheet with faults is reported in
its place, none of them twice. Removing the failed sheets changes no style, no ruleset that
matches and no fault. -/
theorem failed_isolated [AddressLibrary] (settings : Settings)
    (changes : List (TextReader × Change)) :
    let m := after settings changes
    m.Lists m.failures SheetEntry.Failed ∧ m.Lists m.faults SheetEntry.Faulty ∧
    (m.failures.map (fun x => (x.1, x.2.1)) ++ m.faults.map fun x => (x.1, x.2.1)).Nodup ∧
    m.withoutFailed.failures = [] ∧ m.withoutFailed.faults = m.faults ∧
    ∀ {ε : Type} [BEq ε] (model : Model ε) (overrides : Overrides ε) (element : ε),
      m.withoutFailed.apply model overrides element = m.apply model overrides element ∧
      m.withoutFailed.matching model overrides element =
        m.matching model overrides element := by
  intro m
  have hnodup : ∀ o, (m.sources o).Nodup := by
    intro o
    rw [sources_after]
    exact nodup_replays _
  exact ⟨m.lists_failures, m.lists_faults, nodup_reports hnodup, failures_withoutFailed,
    faults_withoutFailed, fun model overrides element =>
      ⟨apply_withoutFailed model overrides element, matching_withoutFailed model overrides element⟩⟩

end Manager
end Styling
