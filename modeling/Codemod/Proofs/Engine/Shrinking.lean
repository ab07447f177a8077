import Codemod.Proofs.Engine.Applications
import Codemod.Proofs.Engine.Course
import Codemod.Proofs.Match.Inheritance
import Codemod.Proofs.Match.Weight

/-!
# Shrinking catalogs

A rule shrinks what it rewrites if its template copies no capture more often than the pattern names
it and spells out less syntax. Every application of such a rule makes the whole tree smaller, so
rewriting comes to an end.
-/

namespace Codemod

/-- The template repeats no name more often than the pattern and spells out fewer trees. -/
structure Rule.Shrinking (rule : Rule) : Prop where
  plain : rule.pattern.shape.Plain
  linear : ∀ name,
    ((Term.holesAll rule.template.shape.terms).map Hole.name).count name ≤
      ((Term.holesAll rule.pattern.shape.terms).map Hole.name).count name
  smaller : Term.concreteAll rule.template.shape.terms <
    Term.concreteAll rule.pattern.shape.terms

instance (rule : Rule) : Decidable rule.Shrinking :=
  decidable_of_iff
    (rule.pattern.shape.Plain ∧
      ((Term.holesAll rule.template.shape.terms).map Hole.name).Subperm
        ((Term.holesAll rule.pattern.shape.terms).map Hole.name) ∧
      Term.concreteAll rule.template.shape.terms < Term.concreteAll rule.pattern.shape.terms)
    ⟨fun ⟨plain, linear, smaller⟩ => ⟨plain, List.subperm_iff_count.mp linear, smaller⟩,
      fun ⟨plain, linear, smaller⟩ => ⟨plain, List.subperm_iff_count.mpr linear, smaller⟩⟩

section Sites

variable {language : Language} {found : Match} {span : Span} {trees : List Tree}

private theorem weigh_of_matchNode {tree : Tree} (plain : found.rule.pattern.shape.Plain)
    (compiled : found.rule.pattern.Compiled language)
    (matched : found.rule.pattern.matchNode language tree = some found.bindings) :
    Term.concreteAll found.rule.pattern.shape.terms +
      found.bindings.weigh (Term.holesAll found.rule.pattern.shape.terms) ≤ tree.size := by
  have checked := compiled.checkAll_captures
  rw [Shape.Plain] at plain
  rw [Pattern.matchNode] at matched
  split at matched
  · rename_i term node
    rw [node] at plain checked ⊢
    obtain ⟨_, first, _⟩ := Term.checkAll_cons_ok checked
    obtain ⟨termPlain, _⟩ := List.forall_mem_append.mp plain
    have weighs := Term.weigh_of_unify term termPlain first (.empty language) matched (.refl _)
    simpa [Shape.terms, Term.concreteAll, Term.holesAll] using weighs
  · contradiction

private theorem weigh_of_matchWindow {statements : List Tree} {start : Nat} {extent : Extent}
    (plain : found.rule.pattern.shape.Plain) (compiled : found.rule.pattern.Compiled language)
    (matched : found.rule.pattern.matchWindow language statements start =
      some (found.bindings, extent)) :
    Term.concreteAll found.rule.pattern.shape.terms +
        found.bindings.weigh (Term.holesAll found.rule.pattern.shape.terms) ≤
      Tree.sizeAll (extent.slice statements) := by
  have checked := compiled.checkAll_captures
  rw [Shape.Plain] at plain
  rw [Pattern.matchWindow] at matched
  split at matched
  · contradiction
  · rename_i terms window
    rw [window] at plain checked ⊢
    split at matched
    · obtain ⟨⟨bound, used⟩, unified, result⟩ := Option.map_eq_some_iff.mp matched
      cases result
      rw [Extent.slice, Extent.length, Nat.add_sub_cancel_left]
      exact Term.weigh_of_unifyAll _ plain checked (.empty language) unified (.refl _)
    · contradiction

private theorem Rule.Shrinking.size_lt {weight : Nat} (shrinking : found.rule.Shrinking)
    (filled : found.rule.template.instantiate found.bindings span = .ok trees)
    (weighs : Term.concreteAll found.rule.pattern.shape.terms +
      found.bindings.weigh (Term.holesAll found.rule.pattern.shape.terms) ≤ weight) :
    Tree.sizeAll trees < weight := by
  have size := Term.size_of_fillAll _ _ _ filled
  have linear := Bindings.weigh_le_of_count found.bindings shrinking.linear
  have smaller := shrinking.smaller
  omega

/-- A step of a shrinking rule makes the tree smaller. -/
theorem Rewrites.size_lt {anchor before after : Tree} {path : List Nat}
    (rewrites : Rewrites language found anchor path before after)
    (compiled : found.rule.pattern.Compiled language) (shrinking : found.rule.Shrinking) :
    after.size < before.size := by
  induction rewrites with
  | node single matched filled differs =>
    have weighs := weigh_of_matchNode shrinking.plain compiled matched
    simpa using shrinking.size_lt (Template.instantiate_of_instantiateNode filled) weighs
  | @window block last extent new isBlock matched starts ends filled differs =>
    have weighs := weigh_of_matchWindow shrinking.plain compiled matched
    have smaller := shrinking.size_lt filled weighs
    obtain ⟨_, proper, _⟩ := Pattern.matchWindow_root compiled matched
    have front := Tree.sizeAll_take_add_drop block.children extent.start
    rw [← Extent.slice_append_drop extent block.children (Nat.le_of_lt proper),
      Tree.sizeAll_append] at front
    rw [Tree.size_withChildren, Tree.sizeAll_append, Tree.sizeAll_append, block.size_eq]
    omega
  | @child tree old new before after path stands inner ih =>
    rw [Tree.size_withChildren, tree.size_eq, stands, Tree.sizeAll_append, Tree.sizeAll_append,
      Tree.sizeAll_cons, Tree.sizeAll_cons]
    omega

end Sites

namespace Engine

variable {engine : Engine} {unit : CompilationUnit}

/-- A chain of shrinking steps is no longer than the size it takes away. -/
theorem length_add_size_le {catalog : Catalog} (coherent : catalog.Coherent)
    (shrinking : ∀ rule ∈ catalog.rules, rule.Shrinking) {applied : List Applied}
    {before after : Tree} (chain : Chain (Step catalog) applied before after) :
    applied.length + after.size ≤ before.size := by
  induction chain with
  | nil tree => exact Nat.le_of_eq (Nat.zero_add _)
  | cons first _ ih =>
    obtain ⟨found, anchor, place, here, rewrites⟩ := first
    have smaller := rewrites.size_lt (coherent.rules _ _ here).compiled
      (shrinking _ (List.mem_of_getElem? here))
    rw [List.length_cons]
    omega

private theorem le_length_history {passes : Nat}
    (busy : ∀ count < passes, engine.quietAt unit count = false) :
    passes ≤ (engine.history unit passes).applied.length := by
  induction passes with
  | zero => exact Nat.zero_le _
  | succ passes ih =>
    have before := ih fun count below => busy count (Nat.lt_succ_of_lt below)
    have last : (engine.passTrace unit passes).applied ≠ [] := by
      have := busy passes (Nat.lt_succ_self passes)
      simpa [quietAt] using this
    have some_last := List.length_pos_of_ne_nil last
    rw [history_succ, Trace.applied_append, List.length_append]
    omega

private theorem passes_le_of_courseOf {stop : Nat → Bool} {passes : Nat} {ending : Ending}
    (taken : engine.courseOf unit stop = (passes, ending)) :
    passes ≤ (engine.history unit passes).applied.length + 1 := by
  cases passes with
  | zero => exact Nat.zero_le _
  | succ passes =>
    have busy : ∀ count < passes, engine.quietAt unit count = false := by
      intro count below
      by_contra quiet
      rw [Bool.not_eq_false] at quiet
      have := (last_of_quiet taken (Nat.zero_le count) (Nat.lt_succ_of_lt below) quiet).1
      omega
    have applied := le_length_history busy
    rw [history_succ, Trace.applied_append, List.length_append]
    omega

private theorem maxPasses_le_of_exhausted {stop : Nat → Bool} {passes : Nat}
    (taken : engine.courseOf unit stop = (passes, .exhausted)) :
    engine.maxPasses ≤ (engine.history unit passes).applied.length := by
  have made := (course_add_of_exhausted taken).1
  have busy : ∀ count < passes, engine.quietAt unit count = false := by
    intro count below
    by_contra quiet
    rw [Bool.not_eq_false] at quiet
    have := (last_of_quiet taken (Nat.zero_le count) below quiet).2
    contradiction
  have applied := le_length_history busy
  omega

/-- Shrinking rules apply fewer times than the tree has nodes, and with as many passes allowed they
come to a fixed point. -/
theorem shrinking_catalog_settles (language : Language) (calls : List Builder.Call)
    (maxPasses : Nat) (unit : CompilationUnit) (stop : Nat → Bool)
    (shrinking : ∀ rule ∈ (Catalog.load language calls).rules, rule.Shrinking) :
    let engine : Engine := { catalog := .load language calls, maxPasses }
    let run := engine.run unit stop
    run.report.applied.length + run.report.root.size ≤ unit.root.size ∧
      run.report.applied.length < unit.root.size ∧
      run.report.passes ≤ run.report.applied.length + 1 ∧
      (unit.root.size ≤ maxPasses → (∀ passes, stop passes = false) →
        run.stopRequested = false → run.report.outcome = .fixedPoint) := by
  intro engine run
  have coherent : engine.catalog.Coherent := Catalog.coherent_load language calls
  have sound : (engine.replacing unit).Sound := sound_replacing coherent rfl unit
  have ⟨root_eq, applied_eq⟩ := report_eq_passes engine unit stop
  have chain := chain_passes sound run.report.passes
  rw [← applied_eq, ← root_eq] at chain
  have total := length_add_size_le coherent shrinking chain
  have fewer : run.report.applied.length < unit.root.size :=
    Nat.lt_of_lt_of_le (Nat.lt_add_of_pos_right run.report.root.one_le_size) total
  have took := took_run engine unit stop
  cases taken : engine.courseOf unit stop with
  | mk passes ending =>
    rw [taken] at took
    have applied : run.report.applied = (engine.history unit passes).applied := took.applied_eq
    have made : run.report.passes = passes := took.passes_eq
    refine ⟨total, fewer, ?_, ?_⟩
    · rw [applied, made]
      exact passes_le_of_courseOf taken
    · intro enough outside inside
      have finished : run.report.outcome ≠ .cancelled :=
        (ends_continueRun stop maxPasses (reached_start engine unit)).ne_cancelled outside inside
      have outcome : run.report.outcome = engine.outcomeOf unit (passes, ending) := took.outcome_eq
      rw [outcome] at finished ⊢
      cases ending with
      | stopped => exact absurd rfl finished
      | quiet => rfl
      | exhausted =>
        have used : maxPasses ≤ run.report.applied.length :=
          applied ▸ maxPasses_le_of_exhausted taken
        omega

/-- A rule that drops the second of two equal operands. -/
def mergeDraft : RuleDraft :=
  { name := "merge"
    pattern := .node (.branch "and" [.hole (.capturing "x" .expression),
      .hole (.referringTo "x")])
    template := .ofShape (.node (.hole (.capturing "x" .expression))) }

theorem merge_shrinks :
    let engine : Engine :=
      { catalog := .load ({} : Roles).language [.add mergeDraft], maxPasses := 7 }
    let twice : Tree := .branch "and" [.leaf Tree.nameKind "y", .leaf Tree.nameKind "y"]
    let unit : CompilationUnit := { name := "unit", root := .branch "and" [twice, twice] }
    let run := engine.run unit fun _ => false
    (∀ rule ∈ engine.catalog.rules, rule.Shrinking) ∧ run.report.applied.length = 3 ∧
      run.report.root.size = 1 ∧ run.report.passes = 2 ∧ run.report.outcome = .fixedPoint := by
  intro engine twice unit run
  have shrinking : ∀ rule ∈ engine.catalog.rules, rule.Shrinking := by decide +kernel
  have inside : run.stopRequested = false := by decide +kernel
  have enough : unit.root.size ≤ 7 := by decide +kernel
  obtain ⟨_, _, _, settles⟩ := shrinking_catalog_settles ({} : Roles).language [.add mergeDraft] 7
    unit (fun _ => false) shrinking
  exact ⟨shrinking, by decide +kernel, by decide +kernel, by decide +kernel,
    settles enough (fun _ => rfl) inside⟩

end Engine

end Codemod
