import Styling.Cascade.Applied
import Styling.Cascade.Settings
import Styling.Cascade.Source
import Styling.Selector.Matching

/-! # The cascade

A manager keeps the style sheets of each origin in order, without repeating a source, and applies
them to elements: weaker origins first, then in the order of the sheets, then in the order of the
text, and an element's own declarations last. The last declaration of a property wins, whatever
the selectors and whether it is important. A sheet that cannot be read takes no part.
-/
namespace Styling

structure SheetEntry where
  key : Source
  outcome : Outcome

/-- The sheets of one origin, in order. -/
abbrev Bucket := List SheetEntry

namespace Bucket

def keys (b : Bucket) : List Source := b.map SheetEntry.key

def find? (b : Bucket) (key : Source) : Option SheetEntry := List.find? (·.key = key) b

def put (key : Source) (outcome : Outcome) : Bucket → Bucket
  | [] => [⟨key, outcome⟩]
  | e :: rest => if e.key = key then ⟨key, outcome⟩ :: rest else e :: put key outcome rest

/-- The entry that is kept for a key when a bucket is set anew: a text has only one outcome,
but a file may have changed. -/
def kept? (b : Bucket) (key : Source) : Option SheetEntry :=
  if key.isLiteral then b.find? key else none

def renew [AddressLibrary] (read : TextReader) (previous : Bucket) (key : Source) : SheetEntry :=
  (previous.kept? key).getD ⟨key, key.compile read⟩

/-- The entries for some keys after those in `done`, each key once. -/
def collect [AddressLibrary] (read : TextReader) (previous : Bucket) :
    Bucket → List Source → Bucket
  | done, [] => done
  | done, key :: keys =>
    if (Bucket.keys done).contains key then collect read previous done keys
    else collect read previous (done ++ [renew read previous key]) keys

theorem keys_put (b : Bucket) (key : Source) (outcome : Outcome) :
    (Bucket.put key outcome b).keys = if key ∈ b.keys then b.keys else b.keys ++ [key] := by
  induction b with
  | nil => rfl
  | cons e rest ih =>
    by_cases h : e.key = key
    · subst h
      simp [put, keys]
    · have hk : key ≠ e.key := Ne.symm h
      simp only [put, h, if_false, keys, List.map_cons, List.mem_cons, hk, false_or] at ih ⊢
      rw [ih]
      by_cases hr : key ∈ rest.map SheetEntry.key <;> simp [hr]

theorem key_renew [AddressLibrary] (read : TextReader) (previous : Bucket) (key : Source) :
    (renew read previous key).key = key := by
  unfold renew kept?
  split
  · cases h : previous.find? key with
    | none => rfl
    | some e => simpa using List.find?_some h
  · rfl

end Bucket

structure Manager where
  settings : Settings
  /-- The sheets of an origin, if there ever were any since it was last cleared. -/
  buckets : Origin → Option Bucket

structure MatchedRuleset where
  origin : Origin
  source : Source
  ruleset : Ruleset
  deriving DecidableEq, Repr

namespace Manager

def new (settings : Settings) : Manager := ⟨settings, fun _ => none⟩

def bucket (m : Manager) (o : Origin) : Bucket := (m.buckets o).getD []

def setBucket (m : Manager) (o : Origin) (b : Option Bucket) : Manager :=
  { m with buckets := fun o' => if o' = o then b else m.buckets o' }

/-- Adds a sheet under its key; a sheet with that key is replaced in place. -/
def add [AddressLibrary] (read : TextReader) (m : Manager) (o : Origin) (key : Source) : Manager :=
  m.setBucket o (some ((m.bucket o).put key (key.compile read)))

def addStylesheet [AddressLibrary] (read : TextReader) (m : Manager) (o : Origin)
    (home : Option String) (reference : String) : Manager :=
  m.add read o ((Source.location reference).resolve home)

def addLiteral [AddressLibrary] (read : TextReader) (m : Manager) (o : Origin) (text : String) :
    Manager :=
  m.add read o (.literal text)

def setStylesheets [AddressLibrary] (read : TextReader) (m : Manager) (o : Origin)
    (home : Option String) (sources : List Source) : Manager :=
  m.setBucket o
    (some (Bucket.collect read (m.bucket o) [] (sources.map (Source.resolve home))))

def clear (m : Manager) : Option Origin → Manager
  | some o => m.setBucket o none
  | none => { m with buckets := fun _ => none }

def sources (m : Manager) (o : Origin) : List Source := (m.bucket o).keys

def compiled? (m : Manager) (o : Origin) (key : Source) : Option Outcome :=
  ((m.bucket o).find? key).map SheetEntry.outcome

def entries (m : Manager) : List (Origin × SheetEntry) :=
  Origin.all.flatMap fun o => (m.bucket o).map fun e => (o, e)

def failures (m : Manager) : List (Origin × Source × LoadError) :=
  m.entries.filterMap fun (o, e) =>
    match e.outcome with
    | .ok _ => none
    | .error error => some (o, e.key, error)

def faults (m : Manager) : List (Origin × Source × List Fault) :=
  m.entries.filterMap fun (o, e) =>
    match e.outcome with
    | .ok sheet => if sheet.faults.isEmpty then none else some (o, e.key, sheet.faults)
    | .error _ => none

def rulesetsOf (e : SheetEntry) : List Ruleset :=
  match e.outcome with
  | .ok sheet => sheet.stylesheet.rulesets
  | .error _ => []

def matching {ε : Type} [BEq ε] (m : Manager) (model : Model ε) (overrides : Overrides ε)
    (element : ε) : List MatchedRuleset :=
  m.entries.flatMap fun (o, e) =>
    ((rulesetsOf e).filter fun r =>
      SelectorGroup.accepts (model.overlay overrides) r.selectors element).map
        fun r => ⟨o, e.key, r⟩

def ownDeclarations {ε : Type} (m : Manager) (model : Model ε) (element : ε) :
    List Declaration :=
  match m.settings.styleAttribute.bind (model.attribute? element) with
  | some text => declarationsOf (parseDeclarations text)
  | none => []

def applySheet {ε : Type} (model : Model ε) (element : ε) (styles : AppliedStyles)
    (entry : Origin × SheetEntry) : AppliedStyles :=
  (rulesetsOf entry.2).foldl (fun styles r =>
    if SelectorGroup.accepts model r.selectors element then
      r.declarations.foldl (fun styles d => styles.set ⟨entry.1, d⟩) styles
    else styles) styles

/-- The winning declaration of each property of an element. -/
def apply {ε : Type} [BEq ε] (m : Manager) (model : Model ε) (overrides : Overrides ε)
    (element : ε) : AppliedStyles :=
  let styles := m.entries.foldl (applySheet (model.overlay overrides) element) .empty
  (m.ownDeclarations model element).foldl (fun styles d => styles.set ⟨.inline, d⟩) styles

/-- Hands the winning declarations of an element to a sink, in the order of their properties. -/
def applyInto {ε σ : Type} [BEq ε] (m : Manager) (model : Model ε) (overrides : Overrides ε)
    (element : ε) (give : σ → AppliedDeclaration → σ) (sink : σ) : σ :=
  (m.apply model overrides element).entries.foldl (fun sink x => give sink x.2) sink

def label (m : Manager) : String :=
  let bucketText (o : Origin) : Option String := (m.buckets o).map fun b =>
    o.label ++ ": [" ++ ", ".intercalate ((Bucket.keys b).map Source.label) ++ "]"
  "\x7b" ++ ", ".intercalate (Origin.all.filterMap bucketText) ++ "\x7d"

end Manager
end Styling
