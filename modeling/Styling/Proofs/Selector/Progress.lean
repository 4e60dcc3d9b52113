import Styling.Proofs.Selector.Grammar

/-! # How far a group has been read

The progress of reading a group, one kind of token after the other, and the grammar of what has
been read so far. Every progress can still become a group, a kind without a next progress cannot
stand where it stands, and the groups of the grammar are the runs that may end.
-/
namespace Styling.Grammar

/-- Where in a member reading stands. In a compound, `s?` is what is already there. -/
inductive Stage
  /-- Before a compound. -/
  | start
  | inside (s : Selector)
  /-- Behind a compound and at least one blank. -/
  | after (s : Selector)
  | dot (s? : Option Selector)
  | colon (s? : Option Selector)
  /-- In an attribute test, before its name. -/
  | bracket (s? : Option Selector)
  | named (s? : Option Selector) (name : String)
  | compared (s? : Option Selector) (name : String) (op : Option MatchOp)
  | valued (s? : Option Selector) (c : Condition)

structure Progress where
  /-- The members before the last comma. -/
  members : List Selector
  /-- What the current compound is linked to. -/
  left : Option (Selector × Combinator)
  stage : Stage

def extend (s? : Option Selector) (c : Condition) : Selector :=
  match s? with
  | none => .simple c
  | some s => .combined .and s (.simple c)

def joined (left : Option (Selector × Combinator)) (s : Selector) : Selector :=
  match left with
  | none => s
  | some (l, c) => .combined c l s

def openPart (s? : Option Selector) : Kind → Option Stage
  | .hash value _ => some (.inside (extend s? (.id value)))
  | .delim '.' => some (.dot s?)
  | .colon => some (.colon s?)
  | .opening .square => some (.bracket s?)
  | _ => none

def openCompound : Kind → Option Stage
  | .ident name => some (.inside (.simple (.type name)))
  | .delim '*' => some (.inside (.simple .universal))
  | k => openPart none k

namespace Progress

def start : Progress := ⟨[], none, .start⟩

/-- A combinator or a comma after the member that ends in the compound `s`. -/
def leave (p : Progress) (s : Selector) (k : Kind) : Option Progress :=
  match k with
  | .comma => some ⟨p.members ++ [joined p.left s], none, .start⟩
  | k => (Selector.combinator? k).map fun c => { p with left := some (joined p.left s, c), stage := .start }

def step (p : Progress) (k : Kind) : Option Progress :=
  match p.stage with
  | .start =>
    if k = .blank then some p else (openCompound k).map fun stage => { p with stage }
  | .inside s =>
    if k = .blank then some { p with stage := .after s }
    else (p.leave s k).or ((openPart (some s) k).map fun stage => { p with stage })
  | .after s =>
    if k = .blank then some p
    else (p.leave s k).or ((openCompound k).map fun stage =>
      { p with left := some (joined p.left s, .descendant), stage })
  | .dot s? =>
    match k with
    | .ident name => some { p with stage := .inside (extend s? (.styleClass name)) }
    | _ => none
  | .colon s? =>
    match k with
    | .ident name => some { p with stage := .inside (extend s? (.pseudoClass name)) }
    | _ => none
  | .bracket s? =>
    match k with
    | .blank => some p
    | .ident name => some { p with stage := .named s? name }
    | _ => none
  | .named s? name =>
    match k with
    | .blank => some p
    | .closing .square => some { p with stage := .inside (extend s? (.hasAttribute name)) }
    | k => (Selector.operator? k).map fun op => { p with stage := .compared s? name op }
  | .compared s? name op =>
    match k with
    | .blank => some p
    | .ident value | .string value =>
      some { p with stage := .valued s? (.attributeTest name op value) }
    | _ => none
  | .valued s? c =>
    match k with
    | .blank => some p
    | .closing .square => some { p with stage := .inside (extend s? c) }
    | _ => none

def run (p : Progress) (ks : List Kind) : Option Progress := ks.foldlM step p

def group? (p : Progress) : Option SelectorGroup :=
  match p.stage with
  | .inside s | .after s => some (p.members ++ [joined p.left s])
  | _ => none

theorem run_cons (p : Progress) (k : Kind) (ks : List Kind) :
    p.run (k :: ks) = (p.step k).bind (·.run ks) := by
  simp [run]

theorem run_append (p : Progress) (ks ks' : List Kind) :
    p.run (ks ++ ks') = (p.run ks).bind (·.run ks') := by
  simp [run]

theorem run_singleton (p : Progress) (k : Kind) : p.run [k] = p.step k := by
  simp [run]

theorem step_eof (p : Progress) : p.step .eof = none := by
  obtain ⟨members, left, stage⟩ := p
  cases stage <;> rfl

theorem run_blanks {p : Progress} (h : p.step .blank = some p) {s : List Kind} (hs : Blanks s) :
    p.run s = some p := by
  induction s with
  | nil => rfl
  | cons k s ih =>
    obtain rfl := hs k List.mem_cons_self
    rw [run_cons, h]
    exact ih fun k hk => hs k (List.mem_cons_of_mem _ hk)

def last? (p : Progress) : Option Selector :=
  match p.stage with
  | .inside s | .after s => some s
  | _ => none

theorem group?_eq (p : Progress) :
    p.group? = p.last?.map fun s => p.members ++ [joined p.left s] := by
  obtain ⟨members, left, stage⟩ := p
  cases stage <;> rfl

theorem step_leave {p q : Progress} {s : Selector} {k : Kind} (hp : p.last? = some s)
    (h : p.leave s k = some q) : p.step k = some q := by
  have hk : k ≠ .blank := by
    rintro rfl
    cases h
  obtain ⟨members, left, stage⟩ := p
  cases stage with
  | inside s' | after s' =>
    cases hp
    simp only [step, if_neg hk]
    rw [h]
    rfl
  | _ => cases hp

theorem step_comma {p : Progress} {g : SelectorGroup} (h : p.group? = some g) :
    p.step .comma = some ⟨g, none, .start⟩ := by
  rw [group?_eq] at h
  obtain ⟨s, hs, rfl⟩ := Option.map_eq_some_iff.mp h
  exact step_leave hs rfl

theorem step_curly (p : Progress) : p.step (.opening .curly) = none := by
  obtain ⟨members, left, stage⟩ := p
  cases stage <;> rfl

end Progress

section Opening
variable {members : List Selector} {left : Option (Selector × Combinator)} {s : Selector}
  {k : Kind} {stage : Stage}

theorem openCompound_of_openPart (h : openPart none k = some stage) :
    openCompound k = some stage := by
  unfold openCompound
  split
  · cases h
  · cases h
  · exact h

/-- A kind that opens a compound ends no member. -/
theorem leave_of_openCompound {p : Progress} (h : openCompound k = some stage) :
    p.leave s k = none := by
  unfold openCompound openPart at h
  split at h
  · rfl
  · rfl
  · split at h <;> first | rfl | cases h

theorem step_inside (h : openPart (some s) k = some stage) :
    Progress.step ⟨members, left, .inside s⟩ k = some ⟨members, left, stage⟩ := by
  have hleave : Progress.leave ⟨members, left, .inside s⟩ s k = none := by
    unfold openPart at h
    split at h <;> first | rfl | cases h
  have hk : k ≠ .blank := by
    rintro rfl
    cases h
  simp only [Progress.step, if_neg hk]
  rw [hleave, h]
  rfl

theorem step_start (h : openCompound k = some stage) :
    Progress.step ⟨members, left, .start⟩ k = some ⟨members, left, stage⟩ := by
  have hk : k ≠ .blank := by
    rintro rfl
    cases h
  simp only [Progress.step, if_neg hk]
  rw [h]
  rfl

theorem step_after (h : openCompound k = some stage) :
    Progress.step ⟨members, left, .after s⟩ k =
      some ⟨members, some (joined left s, .descendant), stage⟩ := by
  have hk : k ≠ .blank := by
    rintro rfl
    cases h
  simp only [Progress.step, if_neg hk]
  rw [leave_of_openCompound h, h]
  rfl

end Opening

section Runs
variable {ks : List Kind} {c : Condition} {s : Selector} {members : List Selector}
  {left : Option (Selector × Combinator)}
open Progress

theorem AttributeTest.run (h : AttributeTest ks c) (s? : Option Selector) :
    ∃ rest, ks = .opening .square :: rest ∧ ∀ members left,
      Progress.run ⟨members, left, .bracket s?⟩ rest =
        some ⟨members, left, .inside (extend s? c)⟩ := by
  cases h with
  | @has s₁ s₂ name h₁ h₂ =>
    refine ⟨s₁ ++ .ident name :: (s₂ ++ [.closing .square]), by simp, fun members left => ?_⟩
    have hname : Progress.step ⟨members, left, .bracket s?⟩ (.ident name) =
      some ⟨members, left, .named s? name⟩ := rfl
    rw [run_append, run_blanks rfl h₁, Option.bind_some, run_cons, hname, Option.bind_some,
      run_append, run_blanks rfl h₂]
    rfl
  | @compares s₁ s₂ s₃ s₄ o v op value name h₁ h₂ ho h₃ hv h₄ =>
    refine ⟨s₁ ++ .ident name :: (s₂ ++ o :: (s₃ ++ v :: (s₄ ++ [.closing .square]))), by simp,
      fun members left => ?_⟩
    have hname : Progress.step ⟨members, left, .bracket s?⟩ (.ident name) =
      some ⟨members, left, .named s? name⟩ := rfl
    have hop : Progress.step ⟨members, left, .named s? name⟩ o =
        some ⟨members, left, .compared s? name op⟩ := by
      cases ho <;> rfl
    have hvalue : Progress.step ⟨members, left, .compared s? name op⟩ v =
        some ⟨members, left, .valued s? (.attributeTest name op value)⟩ := by
      cases hv <;> rfl
    rw [run_append, run_blanks rfl h₁, Option.bind_some, run_cons, hname, Option.bind_some,
      run_append, run_blanks rfl h₂, Option.bind_some, run_cons, hop, Option.bind_some,
      run_append, run_blanks rfl h₃, Option.bind_some, run_cons, hvalue, Option.bind_some,
      run_append, run_blanks rfl h₄]
    rfl

/-- A condition opens with its first kind, and what follows completes it. -/
theorem Part.run (h : Part ks c) (s? : Option Selector) : ∃ k rest stage, ks = k :: rest ∧
    openPart s? k = some stage ∧ ∀ members left, Progress.run ⟨members, left, stage⟩ rest =
      some ⟨members, left, .inside (extend s? c)⟩ := by
  cases h with
  | id value kind => exact ⟨_, _, _, rfl, rfl, fun _ _ => rfl⟩
  | styleClass name => exact ⟨_, _, _, rfl, rfl, fun _ _ => rfl⟩
  | pseudoClass name => exact ⟨_, _, _, rfl, rfl, fun _ _ => rfl⟩
  | attributeTest h =>
    obtain ⟨rest, rfl, hrun⟩ := h.run s?
    exact ⟨_, rest, _, rfl, rfl, hrun⟩

theorem Head.run (h : Head ks c) : ∃ k rest stage, ks = k :: rest ∧
    openCompound k = some stage ∧ ∀ members left, Progress.run ⟨members, left, stage⟩ rest =
      some ⟨members, left, .inside (.simple c)⟩ := by
  cases h with
  | type name => exact ⟨_, _, _, rfl, rfl, fun _ _ => rfl⟩
  | universal => exact ⟨_, _, _, rfl, rfl, fun _ _ => rfl⟩
  | part h =>
    obtain ⟨k, rest, stage, rfl, hopen, hrun⟩ := h.run none
    exact ⟨k, rest, stage, rfl, openCompound_of_openPart hopen, hrun⟩

theorem Compound.run (h : Compound ks s) : ∃ k rest stage, ks = k :: rest ∧
    openCompound k = some stage ∧ ∀ members left, Progress.run ⟨members, left, stage⟩ rest =
      some ⟨members, left, .inside s⟩ := by
  induction h with
  | head h => exact h.run
  | more _ hp ih =>
    obtain ⟨k, rest, stage, rfl, hopen, hrun⟩ := ih
    obtain ⟨k', rest', stage', rfl, hopen', hrun'⟩ := hp.run (some _)
    refine ⟨k, rest ++ k' :: rest', stage, by simp, hopen, fun members left => ?_⟩
    rw [run_append, hrun, Option.bind_some, run_cons, step_inside hopen', Option.bind_some, hrun']
    rfl

variable (members left s) in
/-- Behind a compound, blanks keep it as the last one. -/
theorem run_inside_blanks {b : List Kind} (hb : Blanks b) :
    Progress.run ⟨members, left, .inside s⟩ b =
      some ⟨members, left, if b = [] then .inside s else .after s⟩ := by
  cases b with
  | nil => rfl
  | cons k b =>
    obtain rfl := hb k List.mem_cons_self
    have hstep : Progress.step ⟨members, left, .inside s⟩ .blank =
      some ⟨members, left, .after s⟩ := rfl
    rw [run_cons, hstep, Option.bind_some,
      run_blanks rfl fun k hk => hb k (List.mem_cons_of_mem _ hk)]
    rfl

variable (members left s) in
/-- Behind a combinator a compound can be opened, which is linked to what came before. -/
theorem Link.run {link : List Kind} {c : Combinator} (h : Link link c) :
    ∃ p, Progress.run ⟨members, left, .inside s⟩ link = some p ∧
      ∀ k stage, openCompound k = some stage →
        p.step k = some ⟨members, some (joined left s, c), stage⟩ := by
  cases h with
  | descendant hb hne =>
    refine ⟨_, run_inside_blanks _ _ _ hb, fun k stage hopen => ?_⟩
    rw [if_neg hne]
    exact step_after hopen
  | @mark b _ k c hb hm hb' =>
    refine ⟨⟨members, some (joined left s, c), .start⟩, ?_, fun k stage hopen => step_start hopen⟩
    have hlast : (⟨members, left, if b = [] then .inside s else .after s⟩ : Progress).last? =
        some s := by
      split <;> rfl
    have hleave : (⟨members, left, if b = [] then .inside s else .after s⟩ : Progress).leave s k =
        some ⟨members, some (joined left s, c), .start⟩ := by
      cases hm <;> rfl
    rw [List.append_assoc, run_append, run_inside_blanks _ _ _ hb, Option.bind_some, run_append,
      run_singleton, step_leave hlast hleave, Option.bind_some, run_blanks rfl hb']

theorem Chain.run (h : Chain ks s) (members : List Selector) : ∃ left right,
    Progress.run ⟨members, none, .start⟩ ks = some ⟨members, left, .inside right⟩ ∧
      joined left right = s := by
  induction h with
  | @first b _ right hb hc =>
    obtain ⟨k, rest, stage, rfl, hopen, hrun⟩ := hc.run
    refine ⟨none, right, ?_, rfl⟩
    rw [run_append, run_blanks rfl hb, Option.bind_some, run_cons, step_start hopen,
      Option.bind_some, hrun]
  | @next _ _ _ l right c _ hl hc ih =>
    obtain ⟨left, r, hleft, rfl⟩ := ih
    obtain ⟨k, rest, stage, rfl, hopen, hrun⟩ := hc.run
    obtain ⟨p, hlink, hstep⟩ := hl.run r members left
    refine ⟨some (joined left r, c), right, ?_, rfl⟩
    rw [run_append, run_append, hleft, Option.bind_some, hlink, Option.bind_some, run_cons,
      hstep k stage hopen, Option.bind_some, hrun]

theorem Member.run (h : Member ks s) (members : List Selector) : ∃ p,
    Progress.run ⟨members, none, .start⟩ ks = some p ∧ p.group? = some (members ++ [s]) := by
  obtain ⟨front, back, rfl, hc, hb⟩ := h
  obtain ⟨left, right, hrun, rfl⟩ := hc.run members
  refine ⟨_, by rw [run_append, hrun, Option.bind_some, run_inside_blanks _ _ _ hb], ?_⟩
  rw [group?_eq]
  split <;> rfl

/-- A group of the grammar is read to its end. -/
theorem Group.run {g : SelectorGroup} (h : Group ks g) :
    ∃ p, start.run ks = some p ∧ p.group? = some g := by
  induction h with
  | one hm => exact hm.run []
  | more _ hm ih =>
    obtain ⟨p, hrun, hg⟩ := ih
    obtain ⟨q, hrun', hg'⟩ := hm.run _
    refine ⟨q, ?_, hg'⟩
    rw [run_append, run_append, hrun, Option.bind_some, run_singleton, step_comma hg,
      Option.bind_some, hrun']

end Runs

/-! ### What has been read -/

def LeftRead (left : Option (Selector × Combinator)) (ks : List Kind) : Prop :=
  match left with
  | none => Blanks ks
  | some (s, c) => ∃ front link, ks = front ++ link ∧ Chain front s ∧ Link link c

def Begun (s? : Option Selector) (ks : List Kind) : Prop :=
  match s? with
  | none => ks = []
  | some s => Compound ks s

/-- The kinds of the current compound and of what stands behind it. -/
def Stage.Read (stage : Stage) (ks : List Kind) : Prop :=
  match stage with
  | start => ks = []
  | inside s => Compound ks s
  | after s => ∃ front back, ks = front ++ back ∧ Compound front s ∧ Blanks back ∧ back ≠ []
  | dot s? => ∃ front, ks = front ++ [.delim '.'] ∧ Begun s? front
  | colon s? => ∃ front, ks = front ++ [.colon] ∧ Begun s? front
  | bracket s? => ∃ front s₁, ks = front ++ ([.opening .square] ++ s₁) ∧ Begun s? front ∧ Blanks s₁
  | named s? name => ∃ front s₁ s₂,
    ks = front ++ ([.opening .square] ++ s₁ ++ [.ident name] ++ s₂) ∧ Begun s? front ∧
      Blanks s₁ ∧ Blanks s₂
  | compared s? name op => ∃ front s₁ s₂ o s₃,
    ks = front ++ ([.opening .square] ++ s₁ ++ [.ident name] ++ s₂ ++ [o] ++ s₃) ∧
      Begun s? front ∧ Blanks s₁ ∧ Blanks s₂ ∧ Operator o op ∧ Blanks s₃
  | valued s? c => ∃ front test, ks = front ++ test ∧ Begun s? front ∧
    ∀ back, Blanks back → AttributeTest (test ++ back ++ [.closing .square]) c

def MembersRead (members : List Selector) (ks : List Kind) : Prop :=
  (members = [] ∧ ks = []) ∨ ∃ front, ks = front ++ [.comma] ∧ Group front members

def Progress.Read (p : Progress) (ks : List Kind) : Prop :=
  ∃ a b c, ks = a ++ b ++ c ∧ MembersRead p.members a ∧ LeftRead p.left b ∧ p.stage.Read c

section Read
variable {ks part : List Kind} {k : Kind} {s? : Option Selector} {c : Condition} {s : Selector}
  {left : Option (Selector × Combinator)} {stage : Stage}

theorem Begun.extend (h : Begun s? ks) (hp : Part part c) :
    Compound (ks ++ part) (extend s? c) := by
  cases s? with
  | none =>
    obtain rfl := h
    exact .head (.part hp)
  | some s => exact .more h hp

theorem LeftRead.joined (h : LeftRead left ks) {back : List Kind} (hc : Compound back s) :
    Chain (ks ++ back) (joined left s) := by
  cases left with
  | none => exact .first h hc
  | some link =>
    obtain ⟨front, link, rfl, hf, hl⟩ := h
    exact .next hf hl hc

theorem MembersRead.member {members : List Selector} (h : MembersRead members ks)
    {member : List Kind} (hm : Member member s) : Group (ks ++ member) (members ++ [s]) := by
  rcases h with ⟨rfl, rfl⟩ | ⟨front, rfl, hg⟩
  · exact .one hm
  · exact .more hg hm

theorem Stage.read_openPart (h : openPart s? k = some stage) (hs : Begun s? ks) :
    stage.Read (ks ++ [k]) := by
  unfold openPart at h
  split at h <;> cases h
  · exact hs.extend (.id _ _)
  · exact ⟨ks, rfl, hs⟩
  · exact ⟨ks, rfl, hs⟩
  · exact ⟨ks, [], by simp, hs, .nil⟩

theorem Stage.read_openCompound (h : openCompound k = some stage) : stage.Read [k] := by
  unfold openCompound at h
  split at h
  · cases h
    exact .head (.type _)
  · cases h
    exact .head .universal
  · exact Stage.read_openPart h rfl

/-- The kinds of a member that may end here: its chain, and blanks. -/
theorem Progress.Read.member {p : Progress} (h : p.Read ks) (hs : p.last? = some s) :
    ∃ a front back, ks = a ++ (front ++ back) ∧ MembersRead p.members a ∧
      Chain front (joined p.left s) ∧ Blanks back ∧
        (back = [] ∨ p.stage = .after s) := by
  obtain ⟨members, left, stage⟩ := p
  obtain ⟨a, b, c, rfl, ha, hb, hc⟩ := h
  cases stage with
  | inside s' =>
    cases hs
    exact ⟨a, b ++ c, [], by simp, ha, LeftRead.joined hb hc, .nil, .inl rfl⟩
  | after s' =>
    cases hs
    obtain ⟨front, back, rfl, hfront, hback, -⟩ := hc
    exact ⟨a, b ++ front, back, by simp, ha, LeftRead.joined hb hfront, hback, .inr rfl⟩
  | _ => cases hs

theorem Progress.Read.group {p : Progress} (h : p.Read ks) {g : SelectorGroup}
    (hg : p.group? = some g) : Group ks g := by
  rw [group?_eq] at hg
  obtain ⟨s, hs, rfl⟩ := Option.map_eq_some_iff.mp hg
  obtain ⟨a, front, back, rfl, ha, hc, hb, -⟩ := h.member hs
  exact ha.member ⟨front, back, rfl, hc, hb⟩

theorem Progress.Read.leave {p q : Progress} (h : p.Read ks) (hs : p.last? = some s)
    (hq : p.leave s k = some q) : q.Read (ks ++ [k]) := by
  have hgroup : p.group? = some (p.members ++ [joined p.left s]) := by simp [group?_eq, hs]
  obtain ⟨a, front, back, heq, ha, hc, hb, -⟩ := h.member hs
  unfold Progress.leave at hq
  split at hq
  · cases hq
    exact ⟨ks ++ [.comma], [], [], by simp, .inr ⟨ks, rfl, h.group hgroup⟩, .nil, rfl⟩
  · obtain ⟨c, hk, rfl⟩ := Option.map_eq_some_iff.mp hq
    have hmark : Mark k c := by
      unfold Selector.combinator? at hk
      split at hk <;> cases hk <;> constructor
    exact ⟨a, front ++ (back ++ [k] ++ []), [], by simp [heq], ha,
      ⟨front, _, rfl, hc, .mark hb hmark .nil⟩, rfl⟩

theorem Link.blank {c : Combinator} (h : Link ks c) : Link (ks ++ [.blank]) c := by
  cases h with
  | descendant hb _ => exact .descendant (hb.append .blank) (by simp)
  | mark hb hm hb' =>
    rw [List.append_assoc]
    exact .mark hb hm (hb'.append .blank)

theorem LeftRead.blank (h : LeftRead left ks) : LeftRead left (ks ++ [.blank]) := by
  cases left with
  | none => exact Blanks.append h .blank
  | some l =>
    obtain ⟨front, link, rfl, hf, hl⟩ := h
    exact ⟨front, link ++ [.blank], by simp, hf, hl.blank⟩

/-! Inside a condition every kind stays in the current compound: only its stage changes. -/

section Condition
variable {members : List Selector} {q : Progress}

theorem Stage.Read.step_dot (h : (dot s?).Read ks)
    (hq : Progress.step ⟨members, left, .dot s?⟩ k = some q) :
    ∃ stage', q = ⟨members, left, stage'⟩ ∧ stage'.Read (ks ++ [k]) := by
  obtain ⟨front, rfl, hbegun⟩ := h
  simp only [Progress.step] at hq
  split at hq <;> cases hq
  refine ⟨_, rfl, ?_⟩
  rw [List.append_assoc]
  exact hbegun.extend (.styleClass _)

theorem Stage.Read.step_colon (h : (colon s?).Read ks)
    (hq : Progress.step ⟨members, left, .colon s?⟩ k = some q) :
    ∃ stage', q = ⟨members, left, stage'⟩ ∧ stage'.Read (ks ++ [k]) := by
  obtain ⟨front, rfl, hbegun⟩ := h
  simp only [Progress.step] at hq
  split at hq <;> cases hq
  refine ⟨_, rfl, ?_⟩
  rw [List.append_assoc]
  exact hbegun.extend (.pseudoClass _)

theorem Stage.Read.step_bracket (h : (bracket s?).Read ks)
    (hq : Progress.step ⟨members, left, .bracket s?⟩ k = some q) :
    ∃ stage', q = ⟨members, left, stage'⟩ ∧ stage'.Read (ks ++ [k]) := by
  obtain ⟨front, s₁, rfl, hbegun, h₁⟩ := h
  simp only [Progress.step] at hq
  split at hq <;> cases hq
  · exact ⟨_, rfl, front, s₁ ++ [.blank], by simp, hbegun, h₁.append .blank⟩
  · exact ⟨_, rfl, front, s₁, [], by simp, hbegun, h₁, .nil⟩

theorem Stage.Read.step_named {name : String} (h : (named s? name).Read ks)
    (hq : Progress.step ⟨members, left, .named s? name⟩ k = some q) :
    ∃ stage', q = ⟨members, left, stage'⟩ ∧ stage'.Read (ks ++ [k]) := by
  obtain ⟨front, s₁, s₂, rfl, hbegun, h₁, h₂⟩ := h
  simp only [Progress.step] at hq
  split at hq
  · cases hq
    exact ⟨_, rfl, front, s₁, s₂ ++ [.blank], by simp, hbegun, h₁, h₂.append .blank⟩
  · cases hq
    refine ⟨_, rfl, ?_⟩
    rw [List.append_assoc]
    exact hbegun.extend (.attributeTest (.has name h₁ h₂))
  · obtain ⟨op, hop, rfl⟩ := Option.map_eq_some_iff.mp hq
    have ho : Operator k op := by
      unfold Selector.operator? at hop
      split at hop <;> cases hop <;> constructor
    exact ⟨_, rfl, front, s₁, s₂, k, [], by simp, hbegun, h₁, h₂, ho, .nil⟩

theorem Stage.Read.valued {name : String} {op : Option MatchOp}
    (h : (compared s? name op).Read ks) {value : String} (hv : Value k value) :
    (Stage.valued s? (.attributeTest name op value)).Read (ks ++ [k]) := by
  obtain ⟨front, s₁, s₂, o, s₃, rfl, hbegun, h₁, h₂, ho, h₃⟩ := h
  exact ⟨front, _, by rw [List.append_assoc], hbegun, fun back hback =>
    .compares name h₁ h₂ ho h₃ hv hback⟩

theorem Stage.Read.step_compared {name : String} {op : Option MatchOp}
    (h : (compared s? name op).Read ks)
    (hq : Progress.step ⟨members, left, .compared s? name op⟩ k = some q) :
    ∃ stage', q = ⟨members, left, stage'⟩ ∧ stage'.Read (ks ++ [k]) := by
  simp only [Progress.step] at hq
  split at hq <;> cases hq
  · obtain ⟨front, s₁, s₂, o, s₃, rfl, hbegun, h₁, h₂, ho, h₃⟩ := h
    exact ⟨_, rfl, front, s₁, s₂, o, s₃ ++ [.blank], by simp, hbegun, h₁, h₂, ho,
      h₃.append .blank⟩
  · exact ⟨_, rfl, h.valued (.ident _)⟩
  · exact ⟨_, rfl, h.valued (.string _)⟩

theorem Stage.Read.step_valued (h : (Stage.valued s? c).Read ks)
    (hq : Progress.step ⟨members, left, .valued s? c⟩ k = some q) :
    ∃ stage', q = ⟨members, left, stage'⟩ ∧ stage'.Read (ks ++ [k]) := by
  obtain ⟨front, test, rfl, hbegun, htest⟩ := h
  simp only [Progress.step] at hq
  split at hq <;> cases hq
  · refine ⟨_, rfl, front, test ++ [.blank], by simp, hbegun, fun back hback => ?_⟩
    rw [List.append_assoc test]
    exact htest _ (Blanks.blank.append hback)
  · refine ⟨_, rfl, ?_⟩
    have ht := htest [] .nil
    rw [List.append_nil] at ht
    rw [List.append_assoc]
    exact hbegun.extend (.attributeTest ht)

end Condition

/-- One more kind, and the grammar of what has been read goes along. -/
theorem Progress.Read.step {p q : Progress} (h : p.Read ks) (hq : p.step k = some q) :
    q.Read (ks ++ [k]) := by
  obtain ⟨members, left, stage⟩ := p
  have hleave (s : Selector) := h.leave (s := s) (k := k) (q := q)
  obtain ⟨a, b, c, rfl, ha, hb, hc⟩ := h
  -- Most kinds belong to what is open in the current compound.
  have hmore {stage' : Stage} (hr : stage'.Read (c ++ [k])) :
      Progress.Read ⟨members, left, stage'⟩ (a ++ b ++ c ++ [k]) :=
    ⟨a, b, c ++ [k], by simp, ha, hb, hr⟩
  have hwithin : (∃ stage', q = ⟨members, left, stage'⟩ ∧ stage'.Read (c ++ [k])) →
      q.Read (a ++ b ++ c ++ [k]) := by
    rintro ⟨stage', rfl, hr⟩
    exact hmore hr
  cases stage with
  | start =>
    obtain rfl := hc
    simp only [Progress.step] at hq
    split at hq
    next hk =>
      cases hq
      subst hk
      exact ⟨a, b ++ [.blank], [], by simp, ha, hb.blank, rfl⟩
    · obtain ⟨stage', hopen, rfl⟩ := Option.map_eq_some_iff.mp hq
      exact hmore (Stage.read_openCompound hopen)
  | inside s =>
    simp only [Progress.step] at hq
    split at hq
    next hk =>
      cases hq
      subst hk
      exact hmore ⟨c, [.blank], rfl, hc, .blank, by simp⟩
    · rcases Option.or_eq_some_iff.mp hq with hq | ⟨-, hq⟩
      · exact hleave s rfl hq
      · obtain ⟨stage', hopen, rfl⟩ := Option.map_eq_some_iff.mp hq
        exact hmore (Stage.read_openPart hopen hc)
  | after s =>
    obtain ⟨front, back, rfl, hfront, hback, hne⟩ := hc
    simp only [Progress.step] at hq
    split at hq
    next hk =>
      cases hq
      subst hk
      exact hmore ⟨front, back ++ [.blank], by simp, hfront, hback.append .blank, by simp⟩
    · rcases Option.or_eq_some_iff.mp hq with hq | ⟨-, hq⟩
      · exact hleave s rfl hq
      · obtain ⟨stage', hopen, rfl⟩ := Option.map_eq_some_iff.mp hq
        exact ⟨a, b ++ front ++ back, [k], by simp, ha,
          ⟨b ++ front, back, rfl, LeftRead.joined hb hfront, .descendant hback hne⟩,
          Stage.read_openCompound hopen⟩
  | dot s? => exact hwithin (hc.step_dot hq)
  | colon s? => exact hwithin (hc.step_colon hq)
  | bracket s? => exact hwithin (hc.step_bracket hq)
  | named s? name => exact hwithin (hc.step_named hq)
  | compared s? name op => exact hwithin (hc.step_compared hq)
  | valued s? c' => exact hwithin (hc.step_valued hq)

theorem Progress.Read.run {p q : Progress} (h : p.Read ks) {ks' : List Kind}
    (hq : p.run ks' = some q) : q.Read (ks ++ ks') := by
  induction ks' generalizing p ks with
  | nil =>
    cases hq
    rwa [List.append_nil]
  | cons k ks' ih =>
    rw [run_cons] at hq
    obtain ⟨p', hp, hq⟩ := Option.bind_eq_some_iff.mp hq
    have hread := ih (h.step hp) hq
    rwa [List.append_assoc, List.singleton_append] at hread

theorem Progress.read_start : Progress.Read .start [] :=
  ⟨[], [], [], rfl, .inl ⟨rfl, rfl⟩, .nil, rfl⟩

/-- The runs that may end are the groups of the grammar. -/
theorem group_iff {g : SelectorGroup} :
    Group ks g ↔ ∃ p, Progress.start.run ks = some p ∧ p.group? = some g := by
  constructor
  · exact Group.run
  · rintro ⟨p, hrun, hg⟩
    exact (Progress.read_start.run hrun).group hg

/-- Whatever has been read can become a group. -/
theorem Progress.completes (p : Progress) :
    ∃ ks q g, p.run ks = some q ∧ q.group? = some g := by
  obtain ⟨members, left, stage⟩ := p
  cases stage with
  | inside s | after s => exact ⟨[], _, _, rfl, rfl⟩
  | start | dot _ | colon _ => exact ⟨[.ident ""], _, _, rfl, rfl⟩
  | named _ _ | valued _ _ => exact ⟨[.closing .square], _, _, rfl, rfl⟩
  | bracket _ | compared _ _ _ => exact ⟨[.ident "", .closing .square], _, _, rfl, rfl⟩

/-- Kinds are viable if they are read, or if they are a group and its end. -/
theorem viable_iff : Viable ks ↔ (∃ p, Progress.start.run ks = some p) ∨
    ∃ front g, ks = front ++ [.eof] ∧ Group front g := by
  constructor
  · rintro ⟨full, g, hg, hpre⟩
    rcases List.prefix_concat_iff.mp hpre with rfl | ⟨rest, rfl⟩
    · exact .inr ⟨full, g, rfl, hg⟩
    · obtain ⟨q, hrun, -⟩ := hg.run
      rw [Progress.run_append] at hrun
      obtain ⟨p, hp, -⟩ := Option.bind_eq_some_iff.mp hrun
      exact .inl ⟨p, hp⟩
  · rintro (⟨p, hp⟩ | ⟨front, g, rfl, hg⟩)
    · obtain ⟨rest, q, g, hrun, hg⟩ := p.completes
      refine ⟨ks ++ rest, g, group_iff.mpr ⟨q, ?_, hg⟩, ⟨rest ++ [.eof], by simp⟩⟩
      rw [Progress.run_append, hp]
      exact hrun
    · exact ⟨front, g, hg, ⟨[], List.append_nil _⟩⟩

end Read

end Styling.Grammar
