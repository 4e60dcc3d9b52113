import Mathlib.Data.List.Infix
import Styling.Proofs.Selector.Blame
import Styling.Proofs.Sheet.Moved

/-! # Rulesets that are skipped

A ruleset whose selectors are malformed is skipped with its block, and costs one fault. The fault
lies before the block or at its bracket, since no selector reaches into a block, and skipping
counts the brackets of blocks from there on. Whatever else stands in the block makes no difference.
-/
namespace Styling
open Grammar (kinds Group Progress)

def Kind.isMargin : Kind → Bool
  | blank | cdo | cdc => true
  | _ => false

/-- Every block is closed that is opened, and only those. -/
structure BlocksClosed (ks : List Kind) : Prop where
  opened : ∀ front, front <+: ks → front.count (.closing .curly) ≤ front.count (.opening .curly)
  closed : ks.count (.opening .curly) = ks.count (.closing .curly)

instance (ks : List Kind) : Decidable (BlocksClosed ks) :=
  decidable_of_iff ((∀ front ∈ ks.inits,
      front.count (.closing .curly) ≤ front.count (.opening .curly)) ∧
    ks.count (.opening .curly) = ks.count (.closing .curly))
    ⟨fun h => ⟨fun front hfront => h.1 front ((List.mem_inits front ks).mpr hfront), h.2⟩,
      fun h => ⟨fun front hfront => h.opened front ((List.mem_inits front ks).mp hfront), h.closed⟩⟩

section Skipping
variable {ts : List Token} {depth : Nat}

theorem skipBlock_of_not_mem (hopen : .opening .curly ∉ kinds ts)
    (hclose : .closing .curly ∉ kinds ts) (depth : Nat) (rest : List Token) :
    skipBlock depth (ts ++ rest) = skipBlock depth rest := by
  induction ts with
  | nil => rfl
  | cons t ts ih =>
    obtain ⟨hopen', hopen⟩ := not_or.mp (List.mem_cons.not.mp hopen)
    obtain ⟨hclose', hclose⟩ := not_or.mp (List.mem_cons.not.mp hclose)
    rw [List.cons_append, skipBlock, if_neg (Ne.symm hopen'), if_neg (Ne.symm hclose')]
    exact ih hopen hclose

/-- Skipping passes tokens that leave a block open all along, and counts their brackets. -/
theorem skipBlock_of_open
    (h : ∀ front, front <+: kinds ts →
      front.count (.closing .curly) < depth + front.count (.opening .curly))
    (rest : List Token) : skipBlock depth (ts ++ rest) = skipBlock (depth +
      (kinds ts).count (.opening .curly) - (kinds ts).count (.closing .curly)) rest := by
  induction ts generalizing depth with
  | nil => rfl
  | cons t ts ih =>
    have hfront (front : List Kind) (hf : front <+: kinds ts) :
        (t.kind :: front).count (.closing .curly) <
          depth + (t.kind :: front).count (.opening .curly) :=
      h _ (List.cons_prefix_cons.mpr ⟨rfl, hf⟩)
    have hkinds : kinds (t :: ts) = t.kind :: kinds ts := rfl
    rw [hkinds, List.cons_append, skipBlock]
    by_cases hopen : t.kind = .opening .curly
    · simp only [hopen, List.count_cons_self, List.count_cons_of_ne, ne_eq, reduceCtorEq,
        not_false_eq_true, if_true] at hfront ⊢
      rw [ih fun front hf => by have := hfront front hf; omega]
      congr 1
      omega
    by_cases hclose : t.kind = .closing .curly
    · simp only [hclose, List.count_cons_self, List.count_cons_of_ne, ne_eq, reduceCtorEq,
        not_false_eq_true, if_false, if_true] at hfront ⊢
      -- the bracket closes an inner block, since one is still open behind it
      have hinner := hfront [] List.nil_prefix
      simp only [List.count_nil] at hinner
      rw [if_neg (by omega), ih fun front hf => by have := hfront front hf; omega]
      congr 1
      omega
    · simp only [List.count_cons_of_ne hopen, List.count_cons_of_ne hclose, if_neg hopen,
        if_neg hclose] at hfront ⊢
      exact ih hfront

end Skipping

section Statements
variable {margin ts : List Token} {t : Token}

theorem readStatements_margin (hmargin : ∀ t ∈ margin, t.kind.isMargin = true) (finish : Token)
    (ts : List Token) : readStatements finish (margin ++ ts) = readStatements finish ts := by
  induction margin with
  | nil => rfl
  | cons t margin ih =>
    obtain ⟨ht, hmargin⟩ := List.forall_mem_cons.mp hmargin
    rw [List.cons_append, readStatements]
    cases hk : t.kind with
    | blank | cdo | cdc => exact ih hmargin
    | _ => simp [hk, Kind.isMargin] at ht

theorem readStatements_of_not_margin (ht : t.kind.isMargin = false)
    (hat : ∀ name, t.kind ≠ .atKeyword name) (finish : Token) (ts : List Token) :
    readStatements finish (t :: ts) = (readRuleset finish (t :: ts)).1 ::
      readStatements finish (readRuleset finish (t :: ts)).2 := by
  refine Move.readStatements_ruleset finish ?_ ?_ ?_ hat ts <;>
  · intro hk
    simp [hk, Kind.isMargin] at ht

end Statements

section Malformed
variable {front body : List Token} {opening closing : Token}

section Blocks
variable (hopen : .opening .curly ∉ kinds front) (hclose : .closing .curly ∉ kinds front)
  (hopening : opening.kind = .opening .curly) (hclosing : closing.kind = .closing .curly)
  (hbody : BlocksClosed (kinds body))
include hopen hclose hopening hclosing hbody

/-- A block is skipped up to and including its closing bracket, with what stands before it. -/
theorem skipBlock_block (rest : List Token) :
    skipBlock 0 (front ++ opening :: (body ++ closing :: rest)) = rest := by
  have hinside (ks : List Kind) (hks : ks <+: kinds body) :
      ks.count (.closing .curly) < 1 + ks.count (.opening .curly) := by
    have := hbody.opened ks hks
    omega
  have hdepth : 1 + (kinds body).count (.opening .curly) -
      (kinds body).count (.closing .curly) = 1 := by
    rw [hbody.closed, Nat.add_sub_cancel]
  rw [skipBlock_of_not_mem hopen hclose, skipBlock, if_pos hopening, Nat.zero_add,
    skipBlock_of_open hinside, hdepth, skipBlock, if_neg (by simp [hclosing]), if_pos hclosing,
    if_pos (Nat.le_refl 1)]

/-- A ruleset with malformed selectors gives one fault, which blames one of the tokens up to the
bracket of its block, and is skipped with the block. -/
theorem readRuleset_malformed (hgroup : ∀ g, ¬ Group (kinds front) g) (finish : Token)
    (rest : List Token) : ∃ cause, ∃ t ∈ front ++ [opening],
      readRuleset finish (front ++ opening :: (body ++ closing :: rest)) =
        (.malformed (Fault.ofToken cause t), rest) := by
  have hfollows := Grammar.follows_group [] (front ++ opening :: (body ++ closing :: rest))
  unfold readRuleset
  cases hread : SelectorGroup.read (front ++ opening :: (body ++ closing :: rest)) with
  | error e =>
    rw [hread] at hfollows
    obtain ⟨used, q, heq, hrun, -⟩ := hfollows
    obtain ⟨more, rfl, hrest⟩ := Grammar.run_split hopening hrun heq
    have hkinds : kinds (used ++ more) = kinds used ++ kinds more := Grammar.kinds_append used more
    rw [hkinds, List.mem_append, not_or] at hopen hclose
    refine ⟨e.cause, e.rest.headD finish, ?_, ?_⟩
    · rw [hrest]
      cases more <;> simp
    · dsimp only
      rw [hrest, skipBlock_block hopen.2 hclose.2 hopening hclosing hbody, ← hrest]
      rfl
  | ok r =>
    -- the group that is read ends at the bracket, so it would be all that stands before it
    obtain ⟨g, after⟩ := r
    rw [hread] at hfollows
    obtain ⟨used, q, heq, hrun, hq, hafter⟩ := hfollows
    obtain ⟨more, rfl, rfl⟩ := Grammar.run_split hopening hrun heq
    cases more with
    | nil =>
      rw [List.append_nil] at hgroup
      exact absurd (Grammar.group_iff.mpr ⟨q, hrun, hq⟩) (hgroup _)
    | cons t more =>
      have ht : t.kind = .opening .curly := hafter t rfl
      refine absurd (List.mem_map.mpr ⟨t, ?_, ht⟩) hopen
      simp

/-- What stands behind the block is read as if the malformed ruleset were not there. -/
theorem readStatements_malformed (hgroup : ∀ g, ¬ Group (kinds front) g)
    (hmargin : ∀ t ∈ front.head?, t.kind.isMargin = false)
    (hat : ∀ t ∈ front.head?, ∀ name, t.kind ≠ .atKeyword name) (finish : Token)
    (rest : List Token) : ∃ cause, ∃ t ∈ front ++ [opening],
      readStatements finish (front ++ opening :: (body ++ closing :: rest)) =
        .malformed (Fault.ofToken cause t) :: readStatements finish rest := by
  obtain ⟨cause, t, ht, hread⟩ :=
    readRuleset_malformed hopen hclose hopening hclosing hbody hgroup finish rest
  refine ⟨cause, t, ht, ?_⟩
  cases front with
  | nil =>
    rw [List.nil_append] at hread ⊢
    rw [readStatements_of_not_margin (by simp [hopening, Kind.isMargin]) (by simp [hopening]), hread]
  | cons u front =>
    rw [List.cons_append] at hread ⊢
    rw [readStatements_of_not_margin (hmargin u rfl) (hat u rfl), hread]

end Blocks

/-- A sheet that is one block behind malformed selectors has no ruleset and one fault, at one of the
tokens up to the bracket of the block. -/
theorem ParsedSheet.ofText_malformed {text : String}
    (htokens : significant text.toList = front ++ opening :: (body ++ [closing]))
    (hopen : .opening .curly ∉ kinds front) (hclose : .closing .curly ∉ kinds front)
    (hat : ∀ name, ((kinds front).dropWhile Kind.isMargin).head? ≠ some (.atKeyword name))
    (hgroup : ∀ g, ¬ Group ((kinds front).dropWhile Kind.isMargin) g)
    (hopening : opening.kind = .opening .curly) (hclosing : closing.kind = .closing .curly)
    (hbody : BlocksClosed (kinds body)) :
    (ofText text).stylesheet.rulesets = [] ∧ ∃ f, (ofText text).faults = [f] ∧
      ∃ t ∈ front ++ [opening], f.offset = t.start ∧ f.line = t.line := by
  let margin := front.takeWhile (·.kind.isMargin)
  let selectors := front.dropWhile (·.kind.isMargin)
  have hfront : front = margin ++ selectors := List.takeWhile_append_dropWhile.symm
  have hmargin : ∀ t ∈ margin, t.kind.isMargin = true := by
    intro t ht
    have hmargin := List.mem_takeWhile_imp ht
    exact hmargin
  have hkinds : kinds selectors = (kinds front).dropWhile Kind.isMargin := by
    rw [kinds, kinds, List.dropWhile_map]
    rfl
  have hsuffix : kinds selectors <:+ kinds front := hkinds ▸ List.dropWhile_suffix _
  have hfirst (t : Token) (ht : t ∈ selectors.head?) : t.kind.isMargin = false := by
    have hfirst := List.head?_dropWhile_not (fun t : Token => t.kind.isMargin) front
    rw [show (front.dropWhile fun t => t.kind.isMargin).head? = some t from ht] at hfirst
    simpa using hfirst
  have hat' (t : Token) (ht : t ∈ selectors.head?) (name : String) : t.kind ≠ .atKeyword name := by
    intro hname
    apply hat name
    rw [← hkinds, kinds, List.head?_map, Option.mem_def.mp ht, Option.map_some, hname]
  obtain ⟨cause, t, ht, hread⟩ := readStatements_malformed (fun h => hopen (hsuffix.subset h))
    (fun h => hclose (hsuffix.subset h)) hopening hclosing hbody (hkinds ▸ hgroup) hfirst hat'
    (endToken text.toList) []
  have hstatements : (ofText text).statements = [.malformed (Fault.ofToken cause t)] := by
    rw [ofText, htokens, hfront, List.append_assoc, readStatements_margin hmargin, hread,
      readStatements]
  refine ⟨?_, Fault.ofToken cause t, ?_, t, ?_, rfl, rfl⟩
  · rw [stylesheet, hstatements]
    rfl
  · rw [faults, hstatements]
    rfl
  · rw [hfront, List.append_assoc]
    exact List.mem_append_right margin ht

/-- The attribute test is not closed before the block, in which a round and a square bracket stay
open and a string holds a curly one. -/
theorem ParsedSheet.ofText_malformed_attribute : ∃ front opening body closing,
    significant "<!-- a[b \x7bc:(;'\x7d' [\x7bd\x7d e\x7d".toList =
        front ++ opening :: (body ++ [closing]) ∧
      kinds front = [.cdo, .blank, .ident "a", .opening .square, .ident "b", .blank] ∧
      (∀ g, ¬ Group ((kinds front).dropWhile Kind.isMargin) g) ∧ BlocksClosed (kinds body) ∧
      (ofText "<!-- a[b \x7bc:(;'\x7d' [\x7bd\x7d e\x7d").stylesheet.rulesets = [] ∧
      ∃ f, (ofText "<!-- a[b \x7bc:(;'\x7d' [\x7bd\x7d e\x7d").faults = [f] ∧
        ∃ t ∈ front ++ [opening], f.offset = t.start ∧ f.line = t.line := by
  have htokens : significant "<!-- a[b \x7bc:(;'\x7d' [\x7bd\x7d e\x7d".toList =
        [⟨.cdo, 0, 4, 1⟩, ⟨.blank, 4, 5, 1⟩, ⟨.ident "a", 5, 6, 1⟩, ⟨.opening .square, 6, 7, 1⟩,
          ⟨.ident "b", 7, 8, 1⟩, ⟨.blank, 8, 9, 1⟩] ++ ⟨.opening .curly, 9, 10, 1⟩ ::
        ([⟨.ident "c", 10, 11, 1⟩, ⟨.colon, 11, 12, 1⟩, ⟨.opening .round, 12, 13, 1⟩,
          ⟨.semicolon, 13, 14, 1⟩, ⟨.string "\x7d", 14, 17, 1⟩, ⟨.blank, 17, 18, 1⟩,
          ⟨.opening .square, 18, 19, 1⟩, ⟨.opening .curly, 19, 20, 1⟩, ⟨.ident "d", 20, 21, 1⟩,
          ⟨.closing .curly, 21, 22, 1⟩, ⟨.blank, 22, 23, 1⟩, ⟨.ident "e", 23, 24, 1⟩] ++
        [⟨.closing .curly, 24, 25, 1⟩]) := by
    decide +kernel
  have hgroup : ∀ g, ¬ Group [.ident "a", .opening .square, .ident "b", .blank] g := by
    intro g hg
    obtain ⟨p, hrun, hp⟩ := Grammar.group_iff.mp hg
    cases hrun
    cases hp
  refine ⟨_, _, _, _, htokens, rfl, hgroup, by decide, ?_⟩
  exact ofText_malformed htokens (by decide) (by decide) nofun hgroup rfl rfl (by decide)

end Malformed

end Styling
