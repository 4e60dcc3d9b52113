import Mathlib.Data.List.Induction
import Styling.Address.Library
import Styling.Cascade.Manager

/-! # The keys of the origins

Whatever is done to a manager, the keys of an origin are an ordered list without repetition: adding
a sheet appends its key unless it is there, setting the sheets keeps the first of each key, and
clearing drops them. What is done to one origin changes nothing of the others.
-/
namespace Styling

inductive Change
  | add (origin : Origin) (home : Option String) (reference : String)
  | addLiteral (origin : Origin) (text : String)
  | set (origin : Origin) (home : Option String) (sources : List Source)
  /-- Drops the sheets of an origin, or of all. -/
  | clear (origin : Option Origin)

namespace Change

def concerns (o : Origin) : Change → Bool
  | add o' _ _ | addLiteral o' _ | set o' _ _ | clear (some o') => o' == o
  | clear none => true

def replay [AddressLibrary] (keys : List Source) : Change → List Source
  | add _ home reference => append keys ((Source.location reference).resolve home)
  | addLiteral _ text => append keys (.literal text)
  | set _ home sources => (sources.map (Source.resolve home)).eraseDups
  | clear _ => []
where
  append (keys : List Source) (key : Source) : List Source :=
    if key ∈ keys then keys else keys ++ [key]

end Change

theorem nodup_eraseDups (keys : List Source) : keys.eraseDups.Nodup := by
  induction hn : keys.length using Nat.strongRecOn generalizing keys with
  | ind n ih =>
    cases keys with
    | nil => simp
    | cons key keys =>
      rw [List.eraseDups_cons, List.nodup_cons, List.mem_eraseDups]
      refine ⟨by simp, ih _ ?_ _ rfl⟩
      have hle := List.length_filter_le (fun other => !other == key) keys
      rw [← hn, List.length_cons]
      omega

namespace Change

theorem nodup_append {keys : List Source} (h : keys.Nodup) (key : Source) :
    (replay.append keys key).Nodup := by
  unfold replay.append
  split
  next => exact h
  next hkey =>
    refine List.nodup_append.mpr ⟨h, List.pairwise_singleton _ _, ?_⟩
    rintro a ha b hb rfl
    exact hkey (List.mem_singleton.mp hb ▸ ha)

theorem nodup_replay [AddressLibrary] {keys : List Source} (h : keys.Nodup) (c : Change) :
    (c.replay keys).Nodup := by
  cases c with
  | add o home reference => exact nodup_append h _
  | addLiteral o text => exact nodup_append h _
  | set o home sources => exact nodup_eraseDups _
  | clear o => exact .nil

end Change

namespace Bucket

/-- Collecting adds the first of each key that is not there yet. -/
theorem keys_collect [AddressLibrary] (read : TextReader) (previous done : Bucket)
    (keys : List Source) :
    (Bucket.collect read previous done keys).keys =
      done.keys ++ (keys.removeAll done.keys).eraseDups := by
  induction keys generalizing done with
  | nil => simp [collect]
  | cons key keys ih =>
    have hkeys : Bucket.keys (done ++ [renew read previous key]) = done.keys ++ [key] := by
      simp [Bucket.keys, key_renew]
    rw [collect, List.cons_removeAll]
    split
    next h => rw [ih, if_neg (by simp only [h, Bool.true_eq_false, not_false_eq_true])]
    next h =>
      have hfilter : keys.removeAll (done.keys ++ [key]) =
          (keys.removeAll done.keys).filter (fun other => !other == key) := by
        simp only [List.removeAll, List.filter_filter]
        refine List.filter_congr fun other _ => ?_
        rw [List.elem_eq_contains, List.elem_eq_contains, List.contains_append, List.contains_cons,
          List.contains_nil, Bool.or_false, Bool.not_or, Bool.and_comm]
      rw [ih, hkeys, hfilter, if_pos (by simpa using h), List.eraseDups_cons]
      simp

end Bucket

namespace Manager

/-- A change, with what can be read from files at that time. -/
def change [AddressLibrary] (m : Manager) (read : TextReader) : Change → Manager
  | .add o home reference => m.addStylesheet read o home reference
  | .addLiteral o text => m.addLiteral read o text
  | .set o home sources => m.setStylesheets read o home sources
  | .clear o => m.clear o

def after [AddressLibrary] (settings : Settings) (changes : List (TextReader × Change)) :
    Manager :=
  changes.foldl (fun m x => m.change x.1 x.2) (new settings)

theorem bucket_setBucket (m : Manager) (o o' : Origin) (b : Option Bucket) :
    (m.setBucket o b).bucket o' = if o' = o then b.getD [] else m.bucket o' := by
  unfold bucket setBucket
  split <;> simp_all

theorem sources_setBucket (m : Manager) (o : Origin) (b : Bucket) :
    (m.setBucket o (some b)).sources o = b.keys := by
  simp [sources, bucket_setBucket]

section Changes
variable [AddressLibrary]

theorem sources_add (read : TextReader) (m : Manager) (o : Origin) (key : Source) :
    (m.add read o key).sources o = Change.replay.append (m.sources o) key := by
  rw [add, sources_setBucket, Bucket.keys_put]
  rfl

/-- What a change does to the keys of an origin it concerns. -/
theorem sources_change {c : Change} {o : Origin} (h : c.concerns o = true) (m : Manager)
    (read : TextReader) : (m.change read c).sources o = c.replay (m.sources o) := by
  cases c with
  | add o' home reference =>
    obtain rfl : o' = o := by simpa [Change.concerns] using h
    exact sources_add ..
  | addLiteral o' text =>
    obtain rfl : o' = o := by simpa [Change.concerns] using h
    exact sources_add ..
  | set o' home sources =>
    obtain rfl : o' = o := by simpa [Change.concerns] using h
    rw [change, setStylesheets, sources_setBucket, Bucket.keys_collect]
    exact congrArg List.eraseDups List.removeAll_nil
  | clear o' =>
    cases o' with
    | none => rfl
    | some o' =>
      obtain rfl : o' = o := by simpa [Change.concerns] using h
      simp [change, clear, sources, bucket_setBucket, Change.replay, Bucket.keys]

/-- A change leaves the sheets of an origin alone that it does not concern. -/
theorem bucket_change {c : Change} {o : Origin} (h : c.concerns o = false) (m : Manager)
    (read : TextReader) : (m.change read c).bucket o = m.bucket o := by
  have hother {o' : Origin} (ho : (o' == o) = false) (b : Option Bucket) :
      (m.setBucket o' b).bucket o = m.bucket o := by
    rw [bucket_setBucket, if_neg]
    rintro rfl
    simp at ho
  cases c with
  | add o' home reference => exact hother h _
  | addLiteral o' text => exact hother h _
  | set o' home sources => exact hother h _
  | clear o' =>
    cases o' with
    | none => cases h
    | some o' => exact hother h _

theorem sources_after (settings : Settings) (changes : List (TextReader × Change)) (o : Origin) :
    (after settings changes).sources o =
      ((changes.map Prod.snd).filter (Change.concerns o)).foldl Change.replay [] := by
  induction changes using List.reverseRecOn with
  | nil => rfl
  | append_singleton changes x ih =>
    have hstep : after settings (changes ++ [x]) = (after settings changes).change x.1 x.2 := by
      simp [after]
    rw [hstep, List.map_append, List.filter_append, List.foldl_append, ← ih]
    cases h : x.2.concerns o with
    | true => simp [h, sources_change h]
    | false => simp [h, sources, bucket_change h]

theorem nodup_replays (changes : List Change) : (changes.foldl Change.replay []).Nodup := by
  induction changes using List.reverseRecOn with
  | nil => exact .nil
  | append_singleton changes c ih =>
    rw [List.foldl_append]
    exact c.nodup_replay ih

end Changes

/-- The keys of an origin are those that its changes leave, none of them twice, and no other
change touches them or what they were compiled to. -/
theorem sources_replay [AddressLibrary] (settings : Settings)
    (changes : List (TextReader × Change)) (o : Origin) :
    ((after settings changes).sources o).Nodup ∧
    (after settings changes).sources o =
      ((changes.map Prod.snd).filter (Change.concerns o)).foldl Change.replay [] ∧
    ∀ read (c : Change), c.concerns o = false →
      ((after settings changes).change read c).sources o = (after settings changes).sources o ∧
      ∀ key, ((after settings changes).change read c).compiled? o key =
        (after settings changes).compiled? o key := by
  refine ⟨?_, sources_after settings changes o, fun read c hc => ?_⟩
  · rw [sources_after]
    exact nodup_replays _
  · have hbucket := bucket_change hc (after settings changes) read
    exact ⟨congrArg Bucket.keys hbucket, fun key => by rw [compiled?, compiled?, hbucket]⟩

/-- A text that is added again stays in its place, also when another origin is cleared. -/
theorem sources_added_again :
    let changes : List (TextReader × Change) :=
      [.set .userAgent none [.literal "u", .literal "v", .literal "u"], .addLiteral .author "a",
        .addLiteral .author "b", .addLiteral .author "a"].map fun c => (fun _ => .error .missing, c)
    (after .default changes).sources .userAgent = [.literal "u", .literal "v"] ∧
    (Change.clear (some .userAgent)).concerns .author = false ∧
    ((after .default changes).change (fun _ => .error .missing) (.clear (some .userAgent))).sources
      .author = [.literal "a", .literal "b"] := by
  intro changes
  obtain ⟨-, hauthor, hothers⟩ := sources_replay .default changes .author
  refine ⟨(sources_replay .default changes .userAgent).2.1.trans (by decide), by decide, ?_⟩
  exact ((hothers _ _ (by decide)).1.trans hauthor).trans (by decide)

end Manager
end Styling
