import Mathlib.Data.List.TakeWhile
import Styling.Proofs.Selector.Progress
import Styling.Proofs.Token.Lexical

/-! # Which token is blamed

The readers of selectors make the progress of the grammar: what a reader takes leads from one
progress to another, and where it fails there is no next one. So a text is read as a group exactly
if it is one, and otherwise the first token is blamed that no group can go on with.
-/
namespace Styling.Grammar

def kinds (ts : List Token) : List Kind := ts.map Token.kind

/-- What comes next cannot stand here; if nothing comes next, reading may not end here. -/
def Blocked (p : Progress) (ts : List Token) : Prop :=
  match ts with
  | [] => p.group? = none
  | t :: _ => p.step t.kind = none

/-- A reader gives up: it is blocked, and no group ends before the block that may come next. -/
def Stuck (p : Progress) (ts : List Token) : Prop :=
  Blocked p ts ∧ ((∀ t ∈ ts.head?, t.kind = .opening .curly) → p.group? = none)

/-- A reader follows the grammar from `p`: if it succeeds its value and the progress it makes are
related, and if it fails it is stuck. -/
def Follows {α : Type} (p : Progress) (ts : List Token)
    (result : α → List Token → Progress → Prop) : Reading α → Prop
  | .ok (a, rest) => ∃ used q, ts = used ++ rest ∧ p.run (kinds used) = some q ∧ result a rest q
  | .error e => ∃ used q, ts = used ++ e.rest ∧ p.run (kinds used) = some q ∧ Stuck q e.rest

section Follows
variable {α β : Type} {p q : Progress} {ts rest : List Token} {t : Token}
  {result : α → List Token → Progress → Prop} {r : Reading α}

theorem kinds_append (ts us : List Token) : kinds (ts ++ us) = kinds ts ++ kinds us :=
  List.map_append

theorem Follows.ok {a : α} (h : result a ts p) : Follows p ts result (.ok (a, ts)) :=
  ⟨[], p, rfl, rfl, h⟩

theorem Follows.stuck {e : Failure} (he : e.rest = ts) (h : Stuck p ts) :
    Follows p ts result (.error e) :=
  ⟨[], p, by simp [he], rfl, he ▸ h⟩

theorem Follows.prepend {used : List Token} (hrun : p.run (kinds used) = some q)
    (h : Follows q rest result r) : Follows p (used ++ rest) result r := by
  cases r with
  | error e =>
    obtain ⟨used', q', rfl, hrun', hst⟩ := h
    refine ⟨used ++ used', q', by simp, ?_, hst⟩
    rw [kinds_append, Progress.run_append, hrun]
    exact hrun'
  | ok r =>
    obtain ⟨used', q', rfl, hrun', hres⟩ := h
    refine ⟨used ++ used', q', by simp, ?_, hres⟩
    rw [kinds_append, Progress.run_append, hrun]
    exact hrun'

theorem Follows.cons (hstep : p.step t.kind = some q) (h : Follows q rest result r) :
    Follows p (t :: rest) result r :=
  h.prepend (show p.run (kinds [t]) = some q from (Progress.run_singleton p t.kind).trans hstep)

theorem exists_blanks (ts : List Token) :
    ∃ front, ts = front ++ skipBlanks ts ∧ Blanks (kinds front) := by
  refine ⟨ts.takeWhile (·.kind.isBlank), List.takeWhile_append_dropWhile.symm, fun k hk => ?_⟩
  obtain ⟨t, ht, rfl⟩ := List.mem_map.mp hk
  have hblank := List.mem_takeWhile_imp ht
  cases hk : t.kind with
  | blank => rfl
  | _ => simp [hk, Kind.isBlank] at hblank

theorem Follows.skipBlanks (hstep : p.step .blank = some p)
    (h : Follows p (skipBlanks ts) result r) : Follows p ts result r := by
  obtain ⟨front, hts, hb⟩ := exists_blanks ts
  rw [hts]
  exact h.prepend (Progress.run_blanks hstep hb)

theorem ne_blank_of_skipBlanks {ts rest : List Token} {t : Token}
    (h : Styling.skipBlanks ts = t :: rest) : t.kind ≠ .blank := by
  intro hk
  have hhead := List.head?_dropWhile_not (fun t : Token => t.kind.isBlank) ts
  rw [show ts.dropWhile (·.kind.isBlank) = t :: rest from h] at hhead
  simp [hk, Kind.isBlank] at hhead

/-- What a reader does with the value of another. -/
theorem Follows.andThen {r' : Reading β} {result' : β → List Token → Progress → Prop} {a : α}
    (h : Follows p ts result (.ok (a, rest)))
    (hr : ∀ q, result a rest q → Follows q rest result' r') : Follows p ts result' r' := by
  obtain ⟨used, q, rfl, hrun, hres⟩ := h
  exact (hr q hres).prepend hrun

theorem Follows.fail {e : Failure} {result' : β → List Token → Progress → Prop}
    (h : Follows p ts result (.error e)) : Follows p ts result' (.error e) := h

end Follows

section Readers
variable {members : List Selector} {left : Option (Selector × Combinator)} {ts : List Token}

def Extends (members : List Selector) (left : Option (Selector × Combinator)) (s? : Option Selector)
    (c : Condition) (_rest : List Token) (q : Progress) : Prop :=
  q = ⟨members, left, .inside (extend s? c)⟩

theorem follows_pseudoClass (s? : Option Selector) (ts : List Token) :
    Follows ⟨members, left, .colon s?⟩ ts (Extends members left s?)
      (Selector.readPseudoClass ts) := by
  cases ts with
  | nil => exact .stuck rfl ⟨rfl, fun _ => rfl⟩
  | cons t rest =>
    obtain ⟨k, start, stop, line⟩ := t
    cases k with
    | ident name => exact .cons rfl (.ok rfl)
    | _ => exact .stuck rfl ⟨rfl, fun _ => rfl⟩

theorem follows_ident {p : Progress} {next : String → Progress} {cause : Cause}
    (hend : p.group? = none) (hident : ∀ name, p.step (.ident name) = some (next name))
    (hother : ∀ t rest, ts = t :: rest → (∀ name, t.kind ≠ .ident name) → p.step t.kind = none) :
    Follows p ts (fun name _ q => q = next name) (Selector.expectIdent cause ts) := by
  cases ts with
  | nil => exact .stuck rfl ⟨hend, fun _ => hend⟩
  | cons t rest =>
    have hstep := hother t rest rfl
    obtain ⟨k, start, stop, line⟩ := t
    cases k with
    | ident name => exact .cons (hident name) (.ok rfl)
    | _ => exact .stuck rfl ⟨hstep (by simp), fun _ => hend⟩

theorem follows_class (s? : Option Selector) (ts : List Token) :
    Follows ⟨members, left, .dot s?⟩ ts (Extends members left s?) (Selector.readClass ts) := by
  have hname : Follows ⟨members, left, .dot s?⟩ ts
      (fun name _ q => q = ⟨members, left, .inside (extend s? (.styleClass name))⟩)
      (Selector.expectIdent .expectedClassName ts) := by
    refine follows_ident rfl (fun _ => rfl) fun t rest _ ht => ?_
    cases hk : t.kind with
    | ident name => exact absurd hk (ht name)
    | _ => rfl
  unfold Selector.readClass
  split
  next he =>
    rw [he] at hname
    exact hname.fail
  next he =>
    rw [he] at hname
    exact hname.andThen fun q hq => .ok hq

variable (members left) in
theorem follows_value (s? : Option Selector) (name : String) (op : Option MatchOp)
    (ts : List Token) :
    Follows ⟨members, left, .compared s? name op⟩ ts
      (fun value _ q => q = ⟨members, left, .valued s? (.attributeTest name op value)⟩)
      (Selector.readValue ts) := by
  refine .skipBlanks rfl ?_
  unfold Selector.readValue
  cases hts : skipBlanks ts with
  | nil => exact .stuck rfl ⟨rfl, fun _ => rfl⟩
  | cons t rest =>
    have hne := ne_blank_of_skipBlanks hts
    obtain ⟨k, start, stop, line⟩ := t
    cases k with
    | ident value => exact .cons rfl (.ok rfl)
    | string value => exact .cons rfl (.ok rfl)
    | blank => exact absurd rfl hne
    | _ => exact .stuck rfl ⟨rfl, fun _ => rfl⟩

theorem follows_closeAttribute (s? : Option Selector) (c : Condition) (ts : List Token) :
    Follows ⟨members, left, .valued s? c⟩ ts (Extends members left s?)
      (Selector.closeAttribute c ts) := by
  refine .skipBlanks rfl ?_
  unfold Selector.closeAttribute
  cases hts : skipBlanks ts with
  | nil => exact .stuck rfl ⟨rfl, fun _ => rfl⟩
  | cons t rest =>
    have hne := ne_blank_of_skipBlanks hts
    obtain ⟨k, start, stop, line⟩ := t
    cases k with
    | closing bracket =>
      cases bracket with
      | square => exact .cons rfl (.ok rfl)
      | _ => exact .stuck rfl ⟨rfl, fun _ => rfl⟩
    | blank => exact absurd rfl hne
    | _ => exact .stuck rfl ⟨rfl, fun _ => rfl⟩

theorem follows_comparison (s? : Option Selector) (name : String) (op : Option MatchOp)
    (ts : List Token) :
    Follows ⟨members, left, .compared s? name op⟩ ts (Extends members left s?)
      (Selector.readComparison name op ts) := by
  have hvalue := follows_value members left s? name op ts
  unfold Selector.readComparison
  split
  next he =>
    rw [he] at hvalue
    exact hvalue.fail
  next he =>
    rw [he] at hvalue
    exact hvalue.andThen fun q hq => hq ▸ follows_closeAttribute s? _ _

variable (members left) in
theorem step_named (s? : Option Selector) (name : String) {k : Kind} (hk : k ≠ .blank)
    (hk' : k ≠ .closing .square) :
    Progress.step ⟨members, left, .named s? name⟩ k =
      (Selector.operator? k).map fun op => ⟨members, left, .compared s? name op⟩ := by
  simp only [Progress.step]

theorem follows_attribute (s? : Option Selector) (ts : List Token) :
    Follows ⟨members, left, .bracket s?⟩ ts (Extends members left s?)
      (Selector.readAttribute ts) := by
  have hname : Follows ⟨members, left, .bracket s?⟩ (skipBlanks ts)
      (fun name _ q => q = ⟨members, left, .named s? name⟩)
      (Selector.expectIdent .expectedAttributeName (skipBlanks ts)) := by
    refine follows_ident rfl (fun _ => rfl) fun t rest hts ht => ?_
    have hne := ne_blank_of_skipBlanks hts
    cases hk : t.kind with
    | ident name => exact absurd hk (ht name)
    | blank => exact absurd hk hne
    | _ => rfl
  refine .skipBlanks rfl ?_
  unfold Selector.readAttribute
  split
  next he =>
    rw [he] at hname
    exact hname.fail
  next name after he =>
    rw [he] at hname
    refine hname.andThen fun q hq => ?_
    subst hq
    refine .skipBlanks rfl ?_
    cases hts : skipBlanks after with
    | nil => exact .stuck rfl ⟨rfl, fun _ => rfl⟩
    | cons t rest =>
      have hne := ne_blank_of_skipBlanks hts
      dsimp only
      split
      next hk => exact .cons (by rw [hk]; rfl) (.ok rfl)
      next hk =>
        have hstep := step_named members left s? name hne hk
        cases hop : Selector.operator? t.kind with
        | none => exact .stuck rfl ⟨hstep.trans (by rw [hop]; rfl), fun _ => rfl⟩
        | some op => exact .cons (hstep.trans (by rw [hop]; rfl)) (follows_comparison s? name op rest)

/-- What the first kind of a condition leads to, in a compound that is not begun or is. -/
def openCondition (s? : Option Selector) (k : Kind) : Option Stage :=
  match s? with
  | none => openCompound k
  | some _ => openPart s? k

/-- A reader that is tried on the kind `k`: it opens a condition exactly if the grammar does. -/
def Opens (s? : Option Selector) (k : Kind) (ts : List Token) : Option (Reading Condition) → Prop
  | none => openCondition s? k = none
  | some r => ∃ stage, openCondition s? k = some stage ∧
    ∀ members left, Follows ⟨members, left, stage⟩ ts (Extends members left s?) r

theorem openCondition_of_openPart {s? : Option Selector} {k : Kind} {stage : Stage}
    (h : openPart s? k = some stage) : openCondition s? k = some stage := by
  cases s? with
  | none => exact openCompound_of_openPart h
  | some s => exact h

theorem openCondition_eq_none (s? : Option Selector) {k : Kind} (hident : ∀ name, k ≠ .ident name)
    (hstar : k ≠ .delim '*') (hhash : ∀ value kind, k ≠ .hash value kind) (hdot : k ≠ .delim '.')
    (hcolon : k ≠ .colon) (hopen : k ≠ .opening .square) : openCondition s? k = none := by
  have hpart : openPart s? k = none := by
    unfold openPart
    split
    next => exact absurd rfl (hhash _ _)
    next => exact absurd rfl hdot
    next => exact absurd rfl hcolon
    next => exact absurd rfl hopen
    · rfl
  cases s? with
  | some s => exact hpart
  | none =>
    show openCompound k = none
    unfold openCompound
    split
    next => exact absurd rfl (hident _)
    next => exact absurd rfl hstar
    · exact hpart

theorem opens_condition (s? : Option Selector) (t : Token) (ts : List Token) :
    Opens s? t.kind ts (Selector.readCondition s?.isNone t ts) := by
  unfold Selector.readCondition
  split
  next name hk =>
    rw [hk]
    cases s? with
    | none => exact ⟨_, rfl, fun _ _ => .ok rfl⟩
    | some s => rfl
  next hk =>
    rw [hk]
    cases s? with
    | none => exact ⟨_, rfl, fun _ _ => .ok rfl⟩
    | some s => rfl
  next hk =>
    rw [hk]
    exact ⟨_, openCondition_of_openPart rfl, fun _ _ => .ok rfl⟩
  next hk =>
    rw [hk]
    exact ⟨_, openCondition_of_openPart rfl, fun _ _ => follows_class s? ts⟩
  next hk =>
    rw [hk]
    exact ⟨_, openCondition_of_openPart rfl, fun _ _ => follows_pseudoClass s? ts⟩
  next hk =>
    rw [hk]
    exact ⟨_, openCondition_of_openPart rfl, fun _ _ => follows_attribute s? ts⟩
  next hident hstar hhash hdot hcolon hopen =>
    exact openCondition_eq_none s? hident hstar hhash hdot hcolon hopen

def NoPart (ts : List Token) : Prop := ∀ t ∈ ts.head?, ∀ s : Selector, openPart (some s) t.kind = none

variable (members left) in
/-- One more condition of a compound. -/
theorem follows_part (s : Selector) {t : Token} {rest : List Token} {r : Reading Condition}
    (hc : Selector.readCondition false t rest = some r) :
    Follows ⟨members, left, .inside s⟩ (t :: rest) (Extends members left (some s)) r := by
  have hf := opens_condition (some s) t rest
  rw [Option.isNone_some, hc] at hf
  obtain ⟨stage, hopen, hf⟩ := hf
  exact .cons (step_inside hopen) (hf members left)

variable (members left) in
theorem follows_more (s : Selector) (ts : List Token) :
    Follows ⟨members, left, .inside s⟩ ts
      (fun more rest q => q = ⟨members, left, .inside
        (more.foldl (fun l c => .combined .and l (.simple c)) s)⟩ ∧ NoPart rest)
      (Selector.readMore ts) := by
  fun_induction Selector.readMore ts generalizing s with
  | case1 => exact .ok ⟨rfl, by simp [NoPart]⟩
  | case2 t rest hc =>
    refine .ok ⟨rfl, fun t' ht s => ?_⟩
    have hf := opens_condition (some s) t rest
    obtain rfl := Option.some.inj ht
    rw [Option.isNone_some, hc] at hf
    exact hf
  | case3 t rest e hc => exact (follows_part members left s hc).fail
  | case4 t rest c after hc e he ih =>
    have ih := ih (.combined .and s (.simple c))
    rw [he] at ih
    refine (follows_part members left s hc).andThen fun q hq => ?_
    subst hq
    exact ih.fail
  | case5 t rest c after hc more last hm ih =>
    have ih := ih (.combined .and s (.simple c))
    rw [hm] at ih
    refine (follows_part members left s hc).andThen fun q hq => ?_
    subst hq
    exact ih.andThen fun q hq => .ok hq

/-- A compound may come next, and is then linked to `left`; anything else is stuck. -/
structure Ready (p : Progress) (members : List Selector) (left : Option (Selector × Combinator))
    (ts : List Token) : Prop where
  goes : ∀ k stage, openCompound k = some stage → p.step k = some ⟨members, left, stage⟩
  sticks : ∀ t ∈ ts.head?, openCompound t.kind = none → p.step t.kind = none
  ends : (∀ t ∈ ts.head?, t.kind = .opening .curly) → p.group? = none

variable (members left) in
theorem ready_start (ts : List Token) :
    Ready ⟨members, left, .start⟩ members left (skipBlanks ts) := by
  refine ⟨fun k stage => step_start, fun t ht hnone => ?_, fun _ => rfl⟩
  cases hts : skipBlanks ts with
  | nil => simp [hts] at ht
  | cons t' rest =>
    obtain rfl : t' = t := by simpa [hts] using ht
    simp only [Progress.step, if_neg (ne_blank_of_skipBlanks hts), hnone, Option.map_none]

theorem Ready.follows_compound {p : Progress} (h : Ready p members left ts) :
    Follows p ts (fun s rest q => q = ⟨members, left, .inside s⟩ ∧ NoPart rest)
      (Selector.readCompound ts) := by
  unfold Selector.readCompound
  cases ts with
  | nil => exact .stuck rfl ⟨h.ends (by simp), h.ends⟩
  | cons t rest =>
    have hf := opens_condition none t rest
    dsimp only
    split
    next hc =>
      rw [Option.isNone_none, hc] at hf
      exact .stuck rfl ⟨h.sticks t rfl hf, h.ends⟩
    next hc =>
      rw [Option.isNone_none, hc] at hf
      obtain ⟨stage, hopen, hf⟩ := hf
      exact .cons (h.goes _ _ hopen) (hf members left).fail
    next first after hc =>
      rw [Option.isNone_none, hc] at hf
      obtain ⟨stage, hopen, hf⟩ := hf
      refine .cons (h.goes _ _ hopen) ((hf members left).andThen fun q hq => ?_)
      subst hq
      have hm := follows_more members left (.simple first) after
      split
      next he =>
        rw [he] at hm
        exact hm.fail
      next hk =>
        rw [hk] at hm
        exact hm.andThen fun q hq => .ok hq

def Ends (g : SelectorGroup) (rest : List Token) (q : Progress) : Prop :=
  q.group? = some g ∧ ∀ t ∈ rest.head?, Selector.endsSelector t.kind = true

/-- Behind a compound: the end of the member, a link, or a token that cannot stand there. -/
def Links (members : List Selector) (s : Selector) (p : Progress) (ts : List Token) :
    Except Failure (Option (Combinator × List Token)) → Prop
  | .error e => e.rest = ts ∧ Stuck p ts
  | .ok none => Follows p ts (fun _ => Ends (members ++ [s])) (.ok ((), skipBlanks ts))
  | .ok (some (c, rest)) => ∃ used q, ts = used ++ rest ∧ p.run (kinds used) = some q ∧
    Ready q members (some (s, c)) rest

theorem leave_eq_none {p : Progress} {s : Selector} {k : Kind} (hc : Selector.combinator? k = none)
    (he : Selector.endsSelector k = false) : p.leave s k = none := by
  unfold Progress.leave
  split
  · cases he
  · rw [hc]
    rfl

theorem leave_eq_some {p : Progress} {s : Selector} {k : Kind} {c : Combinator}
    (hc : Selector.combinator? k = some c) :
    p.leave s k = some ⟨p.members, some (joined p.left s, c), .start⟩ := by
  unfold Progress.leave
  split
  · cases hc
  · rw [hc]
    rfl

variable (members left) in
/-- Behind a compound and a blank, what neither links nor ends stands for a descendant. -/
theorem ready_after (s : Selector) {t : Token} {rest : List Token} (hne : t.kind ≠ .blank)
    (hc : Selector.combinator? t.kind = none) (he : Selector.endsSelector t.kind = false) :
    Ready ⟨members, left, .after s⟩ members (some (joined left s, .descendant)) (t :: rest) := by
  refine ⟨fun k stage => step_after, fun t' ht hnone => ?_, fun hk => ?_⟩
  · obtain rfl := Option.some.inj ht
    simp only [Progress.step, if_neg hne, leave_eq_none hc he, hnone, Option.map_none,
      Option.or_none]
  · rw [hk t rfl] at he
    cases he

variable (members left) in
/-- Right behind a compound, what neither goes on with it nor links nor ends cannot stand. -/
theorem stuck_inside (s : Selector) {t : Token} {rest : List Token} (hts : NoPart (t :: rest))
    (hne : t.kind ≠ .blank) (hc : Selector.combinator? t.kind = none)
    (he : Selector.endsSelector t.kind = false) :
    Stuck ⟨members, left, .inside s⟩ (t :: rest) := by
  refine ⟨?_, fun hk => ?_⟩
  · simp only [Blocked, Progress.step, if_neg hne, leave_eq_none hc he, hts t rfl s,
      Option.map_none, Option.or_none]
  · rw [hk t rfl] at he
    cases he

variable (members left) in
theorem links_readLink (s : Selector) (hts : NoPart ts) :
    Links members (joined left s) ⟨members, left, .inside s⟩ ts (Selector.readLink ts) := by
  obtain ⟨front, hfront, hblanks⟩ := exists_blanks ts
  have hrun := run_inside_blanks s members left hblanks
  have hlast : (⟨members, left, if kinds front = [] then .inside s else .after s⟩ :
      Progress).last? = some s := by
    split <;> rfl
  have hgroup : (⟨members, left, if kinds front = [] then .inside s else .after s⟩ :
      Progress).group? = some (members ++ [joined left s]) := by
    rw [Progress.group?_eq, hlast]
    rfl
  unfold Selector.readLink
  cases hrest : skipBlanks ts with
  | nil => exact ⟨front, _, hfront, hrun, hgroup, by simp [hrest]⟩
  | cons t rest =>
    have hne := ne_blank_of_skipBlanks hrest
    dsimp only
    split
    next c hc =>
      obtain ⟨front', hfront', hblanks'⟩ := exists_blanks rest
      refine ⟨front ++ t :: front', _, ?_, ?_, ready_start _ _ rest⟩
      · rw [hfront, hrest, List.append_assoc, List.cons_append, ← hfront']
      · rw [kinds_append, Progress.run_append, hrun, Option.bind_some]
        refine (Progress.run_cons _ t.kind (kinds front')).trans ?_
        rw [Progress.step_leave hlast (leave_eq_some hc), Option.bind_some,
          Progress.run_blanks rfl hblanks']
    next hc =>
      split
      next he => exact ⟨front, _, hfront, hrun, hgroup, by simp [hrest, he]⟩
      next he =>
        have he := Bool.eq_false_iff.mpr he
        have hlen := congrArg List.length hfront
        rw [hrest, List.length_append, List.length_cons] at hlen
        split
        next hlt =>
          have hf : kinds front ≠ [] := by
            intro hnil
            rw [List.map_eq_nil_iff.mp hnil, List.length_nil] at hlen
            omega
          rw [if_neg hf] at hrun
          exact ⟨front, _, hrest ▸ hfront, hrun, ready_after members left s hne hc he⟩
        next hge =>
          obtain rfl : front = [] := List.length_eq_zero_iff.mp (by omega)
          rw [hrest, List.nil_append] at hfront
          subst hfront
          exact ⟨rfl, stuck_inside members left s hts hne hc he⟩

variable (members left) in
theorem follows_linked (s : Selector) (hts : NoPart ts) {c : Combinator} {rest : List Token}
    (hl : Selector.readLink ts = .ok (some (c, rest))) :
    Follows ⟨members, left, .inside s⟩ ts
      (fun s' after q => q = ⟨members, some (joined left s, c), .inside s'⟩ ∧ NoPart after)
      (Selector.readCompound rest) := by
  have h := links_readLink members left s hts
  rw [hl] at h
  obtain ⟨used, q, rfl, hrun, hready⟩ := h
  exact .prepend hrun hready.follows_compound

variable (members left) in
theorem follows_links (s : Selector) (hts : NoPart ts) :
    Follows ⟨members, left, .inside s⟩ ts
      (fun links => Ends (members ++ [Selector.chain (joined left s) links]))
      (Selector.readLinks ts) := by
  fun_induction Selector.readLinks ts generalizing left s with
  | case1 ts e hl =>
    have h := links_readLink members left s hts
    rw [hl] at h
    exact .stuck h.1 h.2
  | case2 ts hl =>
    have h := links_readLink members left s hts
    rw [hl] at h
    exact Follows.andThen h fun q hq => .ok hq
  | case3 ts c rest hl e hc =>
    have hcompound := follows_linked members left s hts hl
    rw [hc] at hcompound
    exact hcompound.fail
  | case4 ts c rest hl s' after hc e he ih =>
    have hcompound := follows_linked members left s hts hl
    rw [hc] at hcompound
    refine hcompound.andThen fun q hq => ?_
    obtain ⟨rfl, hafter⟩ := hq
    have hlinks := ih (some (joined left s, c)) s' hafter
    rw [he] at hlinks
    exact hlinks.fail
  | case5 ts c rest hl s' after hc links last hk ih =>
    have hcompound := follows_linked members left s hts hl
    rw [hc] at hcompound
    refine hcompound.andThen fun q hq => ?_
    obtain ⟨rfl, hafter⟩ := hq
    have hlinks := ih (some (joined left s, c)) s' hafter
    rw [hk] at hlinks
    exact hlinks.andThen fun q hq => .ok hq

variable (members) in
theorem follows_selector (ts : List Token) :
    Follows ⟨members, none, .start⟩ ts (fun s => Ends (members ++ [s])) (Selector.read ts) := by
  refine .skipBlanks rfl ?_
  have hcompound := (ready_start members none ts).follows_compound
  unfold Selector.read
  split
  next he =>
    rw [he] at hcompound
    exact hcompound.fail
  next first after hc =>
    rw [hc] at hcompound
    refine hcompound.andThen fun q hq => ?_
    obtain ⟨rfl, hafter⟩ := hq
    have hlinks := follows_links members none first hafter
    split
    next he =>
      rw [he] at hlinks
      exact hlinks.fail
    next hk =>
      rw [hk] at hlinks
      exact hlinks.andThen fun q hq => .ok hq

variable (members) in
theorem follows_group (ts : List Token) :
    Follows ⟨members, none, .start⟩ ts
      (fun g rest q => q.group? = some (members ++ g) ∧
        ∀ t ∈ rest.head?, t.kind = .opening .curly)
      (SelectorGroup.read ts) := by
  have hmember := follows_selector members ts
  fun_induction SelectorGroup.read ts generalizing members with
  | case1 ts e h =>
    rw [h] at hmember
    exact hmember.fail
  | case2 ts s h =>
    rw [h] at hmember
    exact hmember.andThen fun q hq => .ok ⟨hq.1, by simp⟩
  | case3 ts s t rest h ht e he ih =>
    rw [h] at hmember
    have hrest := ih _ (follows_selector (members ++ [s]) rest)
    rw [he] at hrest
    exact hmember.andThen fun q hq => .cons (ht ▸ Progress.step_comma hq.1) hrest.fail
  | case4 ts s t rest h ht g last hk ih =>
    rw [h] at hmember
    have hrest := ih _ (follows_selector (members ++ [s]) rest)
    rw [hk] at hrest
    refine hmember.andThen fun q hq => .cons (ht ▸ Progress.step_comma hq.1) ?_
    exact hrest.andThen fun q' hq' => .ok ⟨by simpa using hq'.1, hq'.2⟩
  | case5 ts s t rest h ht =>
    rw [h] at hmember
    refine hmember.andThen fun q hq => .ok ⟨hq.1, fun t' ht' => ?_⟩
    obtain rfl := Option.some.inj ht'
    have hends := hq.2 t rfl
    unfold Selector.endsSelector at hends
    split at hends
    next hk => exact absurd hk ht
    next hk => exact hk
    · cases hends

end Readers

/-- A whole text as a group: the group is read to its end, or reading is blocked at the fault. -/
theorem follows_readAll (ts : List Token) :
    match SelectorGroup.readAll ts with
    | .ok g => ∃ q, Progress.start.run (kinds ts) = some q ∧ q.group? = some g
    | .error e => ∃ used q, ts = used ++ e.rest ∧ Progress.start.run (kinds used) = some q ∧
      Blocked q e.rest := by
  have hgroup := follows_group [] ts
  unfold SelectorGroup.readAll
  cases hread : SelectorGroup.read ts with
  | error e =>
    rw [hread] at hgroup
    obtain ⟨used, q, hts, hrun, hstuck⟩ := hgroup
    exact ⟨used, q, hts, hrun, hstuck.1⟩
  | ok r =>
    obtain ⟨g, rest⟩ := r
    rw [hread] at hgroup
    obtain ⟨used, q, rfl, hrun, hg, hrest⟩ := hgroup
    cases rest with
    | nil => exact ⟨q, by rwa [List.append_nil], hg⟩
    | cons t rest =>
      refine ⟨used, q, rfl, hrun, ?_⟩
      exact (congrArg q.step (hrest t rfl)).trans q.step_curly

/-- What is read of a group and a block is a part of the group. -/
theorem run_split {used rest before after : List Token} {t : Token} {p q : Progress}
    (ht : t.kind = .opening .curly) (hrun : p.run (kinds before) = some q)
    (heq : used ++ t :: rest = before ++ after) :
    ∃ more, used = before ++ more ∧ after = more ++ t :: rest := by
  rcases List.append_eq_append_iff.mp heq with ⟨more, rfl, hmore⟩ | ⟨more, rfl, rfl⟩
  · cases more with
    | nil => exact ⟨[], by simp, by simpa using hmore.symm⟩
    | cons u more =>
      obtain ⟨rfl, -⟩ := List.cons.inj hmore
      rw [kinds_append, Progress.run_append] at hrun
      obtain ⟨q', -, hq'⟩ := Option.bind_eq_some_iff.mp hrun
      rw [kinds, List.map_cons, Progress.run_cons, ht, q'.step_curly] at hq'
      cases hq'
  · exact ⟨more, rfl, rfl⟩

theorem read_group_eq {used rest : List Token} {t : Token} {g : SelectorGroup}
    (hg : Group (kinds used) g) (ht : t.kind = .opening .curly) :
    SelectorGroup.read (used ++ t :: rest) = .ok (g, t :: rest) := by
  obtain ⟨p, hp, hpg⟩ := group_iff.mp hg
  have hfollows : Follows .start _ _ _ := follows_group [] (used ++ t :: rest)
  cases hread : SelectorGroup.read (used ++ t :: rest) with
  | error e =>
    rw [hread] at hfollows
    obtain ⟨before, q, heq, hrun, hblocked, hends⟩ := hfollows
    obtain ⟨more, rfl, hrest⟩ := run_split ht hrun heq
    rw [kinds_append, Progress.run_append, hrun, Option.bind_some] at hp
    cases more with
    | nil =>
      cases hp
      rw [hends (by simp [hrest, ht])] at hpg
      cases hpg
    | cons u more =>
      rw [kinds, List.map_cons, Progress.run_cons] at hp
      rw [hrest] at hblocked
      rw [show q.step u.kind = none from hblocked] at hp
      cases hp
  | ok r =>
    obtain ⟨g', after⟩ := r
    rw [hread] at hfollows
    obtain ⟨before, q, heq, hrun, hqg, hafter⟩ := hfollows
    obtain ⟨more, rfl, rfl⟩ := run_split ht hrun heq
    rw [kinds_append, Progress.run_append, hrun, Option.bind_some] at hp
    cases more with
    | nil =>
      cases hp
      rw [hpg] at hqg
      cases hqg
      rfl
    | cons u more =>
      rw [kinds, List.map_cons, Progress.run_cons, hafter u rfl, q.step_curly] at hp
      cases hp

/-- What is viable goes on to be read, unless it ends. -/
theorem not_viable_of_blocked {p : Progress} {ts rest : List Token} {t : Token}
    (hrun : Progress.start.run (kinds ts) = some p) (hblocked : Blocked p rest)
    (ht : rest.head? = some t ∧ t.kind ≠ .eof ∨ rest = [] ∧ t.kind = .eof) :
    ¬ Viable (kinds (ts ++ [t])) := by
  have hkinds : kinds (ts ++ [t]) = kinds ts ++ [t.kind] := kinds_append ts [t]
  have hstep : p.step t.kind = none := by
    rcases ht with ⟨ht, -⟩ | ⟨-, ht⟩
    · cases rest with
      | nil => cases ht
      | cons t' rest =>
        obtain rfl := Option.some.inj ht
        exact hblocked
    · rw [ht]
      exact p.step_eof
  rw [viable_iff, hkinds]
  rintro (⟨q, hq⟩ | ⟨front, g, heq, hg⟩)
  · rw [Progress.run_append, hrun, Option.bind_some, Progress.run_singleton, hstep] at hq
    cases hq
  · obtain ⟨hfront, heof⟩ := List.append_inj' heq rfl
    rcases ht with ⟨-, ht⟩ | ⟨rfl, -⟩
    · exact ht (List.cons.inj heof).1
    · obtain ⟨q, hq, hqg⟩ := group_iff.mp (hfront ▸ hg)
      rw [hrun] at hq
      cases hq
      rw [show p.group? = none from hblocked] at hqg
      cases hqg

theorem kinds_significant (cs : List Char) :
    kinds (significant cs) = (kinds (tokens cs)).filter (!·.isComment) := by
  rw [kinds, kinds, List.filter_map]
  rfl

theorem kind_ne_eof_of_mem_significant {cs : List Char} {t : Token} (h : t ∈ significant cs) :
    t.kind ≠ .eof := by
  intro hk
  have hlexical := lexical_of_mem_tokens (List.mem_filter.mp h).1
  rw [hk] at hlexical
  exact hlexical

/-- A text is read as a group exactly if its kinds are that group in the grammar. Otherwise the
fault lies at the first token, or at the end, with which no group can begin. -/
theorem parse_iff_group (text : String) :
    (∀ g, SelectorGroup.parse text = .ok g ↔ Group (kinds (significant text.toList)) g) ∧
    ∀ f, SelectorGroup.parse text = .error f → ∃ pre t post,
      significant text.toList ++ [endToken text.toList] = pre ++ t :: post ∧
      f.offset = t.start ∧ f.line = t.line ∧
      Viable (kinds pre) ∧ ¬ Viable (kinds (pre ++ [t])) := by
  have hall := follows_readAll (significant text.toList)
  unfold SelectorGroup.parse
  cases hread : SelectorGroup.readAll (significant text.toList) with
  | ok g =>
    rw [hread] at hall
    obtain ⟨q, hrun, hg⟩ := hall
    refine ⟨fun g' => ⟨?_, fun hg' => ?_⟩, fun f hf => by cases hf⟩
    · rintro ⟨⟩
      exact group_iff.mpr ⟨q, hrun, hg⟩
    · obtain ⟨q', hrun', hqg⟩ := group_iff.mp hg'
      rw [hrun] at hrun'
      cases hrun'
      rw [hg] at hqg
      cases hqg
      rfl
  | error e =>
    rw [hread] at hall
    obtain ⟨used, q, hused, hrun, hblocked⟩ := hall
    have hviable : Viable (kinds used) := viable_iff.mpr (.inl ⟨q, hrun⟩)
    obtain ⟨t, post, hsplit, hfirst, hnot⟩ : ∃ t post,
        significant text.toList ++ [endToken text.toList] = used ++ t :: post ∧
        e.rest.headD (endToken text.toList) = t ∧ ¬ Viable (kinds (used ++ [t])) := by
      cases hrest : e.rest with
      | nil =>
        exact ⟨endToken text.toList, [], by rw [hused, hrest, List.append_nil], rfl,
          not_viable_of_blocked hrun hblocked (.inr ⟨hrest, rfl⟩)⟩
      | cons t rest =>
        have ht : t.kind ≠ .eof := kind_ne_eof_of_mem_significant (by rw [hused, hrest]; simp)
        exact ⟨t, rest ++ [endToken text.toList], by simp [hused, hrest], rfl,
          not_viable_of_blocked hrun hblocked (.inl ⟨by rw [hrest]; rfl, ht⟩)⟩
    constructor
    · intro g
      constructor
      · intro h
        cases h
      · intro hg
        refine absurd ⟨_, g, hg, kinds post, ?_⟩ hnot
        rw [← kinds_append, List.append_assoc, List.singleton_append, ← hsplit, kinds_append]
        rfl
    · rintro f ⟨⟩
      exact ⟨used, t, post, hsplit, congrArg Token.start hfirst, congrArg Token.line hfirst,
        hviable, hnot⟩

end Styling.Grammar
