import Styling.Proofs.Cascade.Buckets

/-! # Sheets that are set anew

Setting the sheets of an origin keeps what a text was compiled to before. This saves work and
changes no answer: a text is always compiled to itself, so the manager answers as if the origin
had been cleared and its sheets added one by one, and locations are read at that time.
-/
namespace Styling

namespace Bucket

def KeepsTexts (b : Bucket) : Prop :=
  ∀ e ∈ b, ∀ text, e.key = .literal text → e.outcome = .ok (ParsedSheet.ofText text)

def Current [AddressLibrary] (read : TextReader) (b : Bucket) : Prop :=
  ∀ e ∈ b, e.outcome = e.key.compile read

variable {read : TextReader} {b previous done : Bucket} {key : Source}

theorem keepsTexts_nil : KeepsTexts [] := by simp [KeepsTexts]

theorem mem_put {e : SheetEntry} {outcome : Outcome} (h : e ∈ Bucket.put key outcome b) :
    e = ⟨key, outcome⟩ ∨ e ∈ b := by
  induction b with
  | nil => exact .inl (List.mem_singleton.mp h)
  | cons e' rest ih =>
    rw [put] at h
    split at h
    · exact (List.mem_cons.mp h).imp_right (List.mem_cons_of_mem _)
    · rcases List.mem_cons.mp h with rfl | h
      · exact .inr List.mem_cons_self
      · exact (ih h).imp_right (List.mem_cons_of_mem _)

theorem put_of_not_mem {outcome : Outcome} (h : key ∉ b.keys) :
    Bucket.put key outcome b = b ++ [⟨key, outcome⟩] := by
  induction b with
  | nil => rfl
  | cons e rest ih =>
    rw [keys, List.map_cons, List.mem_cons, not_or] at h
    rw [put, if_neg (Ne.symm h.1), ih h.2, List.cons_append]

section Compiling
variable [AddressLibrary]

theorem current_nil (read : TextReader) : Current read [] := by simp [Current]

/-- What can be read from files has no part in what a text is compiled to. -/
theorem Current.keepsTexts (h : b.Current read) : b.KeepsTexts := by
  intro e he text hkey
  rw [h e he, hkey, Source.compile_literal]

theorem KeepsTexts.put (h : b.KeepsTexts) (read : TextReader) (key : Source) :
    (Bucket.put key (key.compile read) b).KeepsTexts := by
  intro e he text hkey
  rcases mem_put he with rfl | he
  · rw [show key = .literal text from hkey, Source.compile_literal]
  · exact h e he text hkey

/-- Of a bucket that keeps its texts nothing is kept that compiling would not give again. -/
theorem KeepsTexts.renew (h : previous.KeepsTexts) (read : TextReader) (key : Source) :
    renew read previous key = ⟨key, key.compile read⟩ := by
  cases key with
  | location reference => rfl
  | literal text =>
    cases hfind : previous.find? (.literal text) with
    | none => simp [Bucket.renew, kept?, Source.isLiteral, hfind]
    | some e =>
      have hkey : e.key = .literal text := by simpa using List.find?_some hfind
      have houtcome := h e (List.mem_of_find?_eq_some hfind) text hkey
      obtain ⟨key, outcome⟩ := e
      simp only at hkey houtcome
      subst hkey houtcome
      simp [Bucket.renew, kept?, Source.isLiteral, hfind, Source.compile_literal]

/-- Adding a source again that is there and current changes nothing. -/
theorem Current.put_of_mem (h : b.Current read) (hkey : key ∈ b.keys) :
    Bucket.put key (key.compile read) b = b := by
  induction b with
  | nil => cases hkey
  | cons e rest ih =>
    obtain ⟨hfirst, hrest⟩ := List.forall_mem_cons.mp h
    rw [put]
    split
    next heq =>
      subst heq
      rw [← hfirst]
    next hne =>
      rw [keys, List.map_cons, List.mem_cons] at hkey
      rw [ih hrest (hkey.resolve_left (Ne.symm hne))]

theorem Current.append (h : done.Current read) (key : Source) :
    Current read (done ++ [⟨key, key.compile read⟩]) := by
  intro e he
  rcases List.mem_append.mp he with he | he
  · exact h e he
  · rw [List.mem_singleton.mp he]

/-- Collecting sources, with the texts of a bucket kept, is adding them one by one. -/
theorem KeepsTexts.collect (h : previous.KeepsTexts) (hdone : done.Current read)
    (keys : List Source) : Bucket.collect read previous done keys =
      keys.foldl (fun b key => Bucket.put key (key.compile read) b) done := by
  induction keys generalizing done with
  | nil => rfl
  | cons key keys ih =>
    rw [Bucket.collect, List.foldl_cons]
    split
    next hkey => rw [hdone.put_of_mem (by simpa using hkey), ih hdone]
    next hkey =>
      rw [h.renew, ih (hdone.append key), put_of_not_mem (by simpa using hkey)]

theorem KeepsTexts.current_collect (h : previous.KeepsTexts) (hdone : done.Current read)
    (keys : List Source) : (Bucket.collect read previous done keys).Current read := by
  induction keys generalizing done with
  | nil => exact hdone
  | cons key keys ih =>
    rw [Bucket.collect]
    split
    · exact ih hdone
    · rw [h.renew]
      exact ih (hdone.append key)

end Compiling
end Bucket

namespace Manager

/-- Two managers that no question tells apart. -/
structure SameAnswers (m m' : Manager) : Prop where
  sources : ∀ o, m.sources o = m'.sources o
  compiled : ∀ o key, m.compiled? o key = m'.compiled? o key
  applied : ∀ {ε : Type} [BEq ε] (model : Model ε) (overrides : Overrides ε) (element : ε),
    m.apply model overrides element = m'.apply model overrides element
  matching : ∀ {ε : Type} [BEq ε] (model : Model ε) (overrides : Overrides ε) (element : ε),
    m.matching model overrides element = m'.matching model overrides element
  failures : m.failures = m'.failures
  faults : m.faults = m'.faults

/-- Every answer is found in the settings and the buckets. -/
theorem sameAnswers_of_bucket {m m' : Manager} (hsettings : m.settings = m'.settings)
    (hbucket : ∀ o, m.bucket o = m'.bucket o) : SameAnswers m m' := by
  have hentries : m.entries = m'.entries := by simp only [entries, hbucket]
  constructor
  · intro o
    rw [Manager.sources, Manager.sources, hbucket]
  · intro o key
    rw [compiled?, compiled?, hbucket]
  · intro ε _ model overrides element
    simp only [apply, ownDeclarations, hentries, hsettings]
  · intro ε _ model overrides element
    rw [Manager.matching, Manager.matching, hentries]
  · rw [Manager.failures, Manager.failures, hentries]
  · rw [Manager.faults, Manager.faults, hentries]

def addSource [AddressLibrary] (read : TextReader) (m : Manager) (o : Origin)
    (home : Option String) : Source → Manager
  | .location reference => m.addStylesheet read o home reference
  | .literal text => m.addLiteral read o text

/-- Clears an origin and adds sheets to it one by one. -/
def rebuild [AddressLibrary] (read : TextReader) (m : Manager) (o : Origin)
    (home : Option String) (sources : List Source) : Manager :=
  sources.foldl (fun m s => m.addSource read o home s) (m.clear (some o))

def KeepsTexts (m : Manager) : Prop := ∀ o, (m.bucket o).KeepsTexts

theorem KeepsTexts.setBucket {m : Manager} (h : m.KeepsTexts) (o : Origin) {b : Option Bucket}
    (hb : (b.getD []).KeepsTexts) : (m.setBucket o b).KeepsTexts := by
  intro o'
  rw [bucket_setBucket]
  split
  · exact hb
  · exact h o'

section Rebuilding
variable [AddressLibrary] (read : TextReader) (m : Manager) (o : Origin) (home : Option String)

theorem addSource_eq (s : Source) : m.addSource read o home s = m.add read o (s.resolve home) := by
  cases s <;> rfl

theorem bucket_add (key : Source) (o' : Origin) : (m.add read o key).bucket o' =
    if o' = o then Bucket.put key (key.compile read) (m.bucket o) else m.bucket o' :=
  bucket_setBucket ..

theorem bucket_foldl_addSource (sources : List Source) (o' : Origin) :
    (sources.foldl (fun m s => m.addSource read o home s) m).settings = m.settings ∧
    (sources.foldl (fun m s => m.addSource read o home s) m).bucket o' =
      if o' = o then (sources.map (Source.resolve home)).foldl
        (fun b key => Bucket.put key (key.compile read) b) (m.bucket o)
      else m.bucket o' := by
  induction sources generalizing m with
  | nil =>
    refine ⟨rfl, ?_⟩
    split
    next h => rw [h]; rfl
    next => rfl
  | cons s sources ih =>
    obtain ⟨hsettings, hbucket⟩ := ih (m.addSource read o home s)
    rw [addSource_eq] at hsettings hbucket
    rw [List.foldl_cons, List.map_cons, List.foldl_cons, addSource_eq]
    refine ⟨hsettings, hbucket.trans ?_⟩
    split
    next => rw [bucket_add, if_pos rfl]
    next h => rw [bucket_add, if_neg h]

variable {m}

/-- No change puts another sheet in the place of a text. -/
theorem KeepsTexts.change (h : m.KeepsTexts) (c : Change) : (m.change read c).KeepsTexts := by
  cases c with
  | add o home reference => exact h.setBucket o ((h o).put read _)
  | addLiteral o text => exact h.setBucket o ((h o).put read _)
  | set o home sources =>
    exact h.setBucket o ((h o).current_collect (Bucket.current_nil read) _).keepsTexts
  | clear o =>
    cases o with
    | none => exact fun _ => Bucket.keepsTexts_nil
    | some o => exact h.setBucket o Bucket.keepsTexts_nil

theorem keepsTexts_after (settings : Settings) (changes : List (TextReader × Change)) :
    (after settings changes).KeepsTexts := by
  induction changes using List.reverseRecOn with
  | nil => exact fun _ => Bucket.keepsTexts_nil
  | append_singleton changes x ih =>
    have hstep : after settings (changes ++ [x]) = (after settings changes).change x.1 x.2 := by
      simp [after]
    rw [hstep]
    exact ih.change x.1 x.2

theorem KeepsTexts.sameAnswers_rebuild (h : m.KeepsTexts) (sources : List Source) :
    SameAnswers (m.setStylesheets read o home sources) (m.rebuild read o home sources) := by
  have hrebuild (o' : Origin) := bucket_foldl_addSource read (m.clear (some o)) o home sources o'
  refine sameAnswers_of_bucket (hrebuild o).1.symm fun o' => ?_
  rw [rebuild, (hrebuild o').2, setStylesheets, bucket_setBucket]
  simp only [clear, bucket_setBucket, if_true, Option.getD_none, Option.getD_some]
  split
  · rw [(h o).collect (Bucket.current_nil read)]
  · rfl

/-- A source that is set is compiled from what can be read at that time. -/
theorem KeepsTexts.compiled_setStylesheets (h : m.KeepsTexts) {sources : List Source} {s : Source}
    (hs : s ∈ sources) : (m.setStylesheets read o home sources).compiled? o (s.resolve home) =
      some ((s.resolve home).compile read) := by
  have hall := (h o).current_collect (Bucket.current_nil read) (sources.map (Source.resolve home))
  have hmem : s.resolve home ∈
      (Bucket.collect read (m.bucket o) [] (sources.map (Source.resolve home))).keys := by
    rw [Bucket.keys_collect]
    simpa [Bucket.keys] using ⟨s, hs, rfl⟩
  obtain ⟨e, he, hkey⟩ := List.mem_map.mp hmem
  rw [compiled?, setStylesheets, bucket_setBucket, if_pos rfl, Option.getD_some, Bucket.find?]
  cases hfind : List.find? (·.key = s.resolve home)
      (Bucket.collect read (m.bucket o) [] (sources.map (Source.resolve home))) with
  | none => simpa [hkey] using List.find?_eq_none.mp hfind e he
  | some e' =>
    have hkey' : e'.key = s.resolve home := by simpa using List.find?_some hfind
    rw [Option.map_some, hall e' (List.mem_of_find?_eq_some hfind), hkey']

end Rebuilding

/-- Whatever was done before, setting the sheets of an origin answers every question like clearing
it and adding the sheets one by one. Texts are compiled to the sheets that they are, and what is
set is compiled from what can be read at that time. -/
theorem set_answers_as_rebuilt [AddressLibrary] (settings : Settings)
    (changes : List (TextReader × Change)) (read : TextReader) (o : Origin)
    (home : Option String) (sources : List Source) :
    SameAnswers ((after settings changes).setStylesheets read o home sources)
      ((after settings changes).rebuild read o home sources) ∧
    (∀ o', ∀ e ∈ (after settings changes).bucket o', ∀ text, e.key = .literal text →
      e.outcome = .ok (ParsedSheet.ofText text)) ∧
    ∀ s ∈ sources, ((after settings changes).setStylesheets read o home sources).compiled? o
      (s.resolve home) = some ((s.resolve home).compile read) := by
  have hkeeps := keepsTexts_after settings changes
  exact ⟨hkeeps.sameAnswers_rebuild read o home sources, hkeeps,
    fun s hs => hkeeps.compiled_setStylesheets read o home hs⟩

/-- A file that was not there is read when it is set again, and a text answers as before. -/
theorem set_after_missing :
    let missing : TextReader := fun _ => .error .missing
    let found : TextReader := fun _ => .ok "a { b: c }"
    let changes : List (TextReader × Change) :=
      [(missing, .add .author none "a.css"), (missing, .addLiteral .author "d")]
    let set := (after .default changes).setStylesheets found .author none
      [.literal "d", .location "a.css"]
    (after .default changes).compiled? .author (.location "a.css") =
      some (.error (.unreadable "a.css" .missing)) ∧
    set.compiled? .author (.location "a.css") = some (.ok (ParsedSheet.ofText "a { b: c }")) ∧
    set.compiled? .author (.literal "d") = some (.ok (ParsedSheet.ofText "d")) := by
  intro missing found changes set
  have hresolve : Reference.resolve "a.css" none = "a.css" := by simp [Reference.resolve]
  have hisSome : (Reference.path? "a.css").isSome = true := by decide +kernel
  obtain ⟨path, hpath⟩ := Option.isSome_iff_exists.mp hisSome
  have hmissing : (Source.location "a.css").compile missing =
      .error (.unreadable "a.css" .missing) := by
    simp [Source.compile, Source.text?, hpath, missing, Except.map]
  have hfound : (Source.location "a.css").compile found =
      .ok (ParsedSheet.ofText "a { b: c }") := by
    simp [Source.compile, Source.text?, hpath, found, Except.map]
  obtain ⟨-, -, hset⟩ := set_answers_as_rebuilt .default changes found .author none
    [.literal "d", .location "a.css"]
  have hfile := hset (.location "a.css") (by simp)
  rw [Source.resolve, hresolve, hfound] at hfile
  refine ⟨?_, hfile, hset (.literal "d") (by simp)⟩
  rw [← hmissing]
  simp only [changes, after, List.foldl_cons, List.foldl_nil, change, addStylesheet, Source.resolve,
    hresolve]
  rfl

end Manager
end Styling
