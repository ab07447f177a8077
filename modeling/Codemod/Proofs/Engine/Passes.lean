import Codemod.Proofs.Pass.Steps

/-!
# The passes of a run

Each pass starts from what the one before it left. A run is told by how many passes it made: they
determine its tree and everything it applied.
-/

namespace Codemod

theorem Catalog.mem_rules_of_candidate {catalog : Catalog} {tree : Tree} {rule : Rule}
    (candidate : rule ∈ catalog.candidates tree) : rule ∈ catalog.rules := by
  obtain ⟨id, _, here⟩ := List.mem_filterMap.mp candidate
  exact List.mem_of_getElem? here

/-- A pass is sound when it tries what a coherent catalog offers. -/
theorem Pass.sound_of_coherent {pass : Pass} (coherent : pass.catalog.Coherent)
    (lookup : pass.lookup = pass.catalog.candidates) : pass.Sound := by
  refine ⟨coherent.rules, fun tree rule tried => ?_⟩
  rw [lookup] at tried
  exact Catalog.mem_rules_of_candidate tried

namespace Engine

variable {engine : Engine} {unit : CompilationUnit}

/-- The tree that a pass of a run starts from, with the passes counted from zero. -/
def passStart (engine : Engine) (unit : CompilationUnit) : Nat → Tree
  | 0 => unit.root
  | count + 1 => ((engine.replacing unit).run (engine.passStart unit count)).value

/-- What a pass of a run applies. -/
def passApplied (engine : Engine) (unit : CompilationUnit) (count : Nat) : List Applied :=
  ((engine.replacing unit).run (engine.passStart unit count)).trace.applied

/-- The state of a run is that after its passes. -/
structure Reached (engine : Engine) (unit : CompilationUnit) (progress : Progress) : Prop where
  root_eq : progress.root = engine.passStart unit progress.passes
  applied_eq : progress.applied = (List.range progress.passes).flatMap (engine.passApplied unit)

theorem reached_start (engine : Engine) (unit : CompilationUnit) :
    engine.Reached unit { root := unit.root } :=
  ⟨rfl, rfl⟩

private theorem Reached.record {progress : Progress} (reached : engine.Reached unit progress)
    (record : LogRecord) : engine.Reached unit (progress.record record) :=
  ⟨reached.root_eq, reached.applied_eq⟩

private theorem Reached.afterPass {progress : Progress} (reached : engine.Reached unit progress)
    (name : String) : engine.Reached unit
      (progress.afterPass name ((engine.replacing unit).run progress.root)) := by
  constructor
  · show ((engine.replacing unit).run progress.root).value =
      ((engine.replacing unit).run (engine.passStart unit progress.passes)).value
    rw [reached.root_eq]
  · show progress.applied ++ ((engine.replacing unit).run progress.root).trace.applied =
      (List.range (progress.passes + 1)).flatMap (engine.passApplied unit)
    rw [List.range_succ, List.flatMap_append, List.flatMap_singleton, ← reached.applied_eq,
      passApplied, ← reached.root_eq]

private theorem Reached.endOfPasses {progress : Progress} (reached : engine.Reached unit progress) :
    engine.Reached unit (engine.endOfPasses unit progress).1 := by
  unfold Engine.endOfPasses
  simp only
  split <;> exact ⟨reached.root_eq, reached.applied_eq⟩

/-- How a run ends: it is stopped, a pass replaces nothing, or its passes run out. -/
inductive Ends (engine : Engine) (unit : CompilationUnit) (stop : Nat → Bool) :
    Progress × Outcome → Prop where
  | stopped {last : Progress} (record : LogRecord) (reached : engine.Reached unit last)
      (requested : (last.stopRequested || stop last.passes) = true) :
      Ends engine unit stop (last.record record, .cancelled)
  | quiet {last : Progress} (reached : engine.Reached unit last)
      (nothing : ((engine.replacing unit).run last.root).trace.applied = []) :
      Ends engine unit stop
        (last.afterPass unit.name ((engine.replacing unit).run last.root), .fixedPoint)
  | exhausted {last : Progress} (reached : engine.Reached unit last) :
      Ends engine unit stop (engine.endOfPasses unit last)

theorem ends_continueRun (stop : Nat → Bool) (remaining : Nat) {progress : Progress}
    (reached : engine.Reached unit progress) :
    engine.Ends unit stop (engine.continueRun unit stop remaining progress) := by
  induction remaining generalizing progress with
  | zero =>
    rw [continueRun]
    split
    · rename_i requested
      exact .stopped _ reached requested
    · exact .exhausted reached
  | succ more ih =>
    rw [continueRun]
    split
    · rename_i requested
      exact .stopped _ reached requested
    · simp only
      split
      · rename_i nothing
        exact .quiet reached (List.isEmpty_iff.mp nothing)
      · exact ih (reached.afterPass unit.name)

private theorem Ends.reached {stop : Nat → Bool} {result : Progress × Outcome}
    (ends : engine.Ends unit stop result) : engine.Reached unit result.1 := by
  cases ends with
  | stopped record reached _ => exact reached.record record
  | quiet reached _ => exact reached.afterPass unit.name
  | exhausted reached => exact reached.endOfPasses

/-- The report of a run tells of the passes made, however the run stopped. -/
theorem report_eq_passes (engine : Engine) (unit : CompilationUnit) (stop : Nat → Bool) :
    (engine.run unit stop).report.root =
        engine.passStart unit (engine.run unit stop).report.passes ∧
      (engine.run unit stop).report.applied =
        (List.range (engine.run unit stop).report.passes).flatMap (engine.passApplied unit) := by
  have reached := (ends_continueRun stop engine.maxPasses (reached_start engine unit)).reached
  exact ⟨reached.root_eq, reached.applied_eq⟩

theorem sound_replacing (coherent : engine.catalog.Coherent)
    (lookup : engine.lookup = engine.catalog.candidates) (unit : CompilationUnit) :
    (engine.replacing unit).Sound :=
  Pass.sound_of_coherent coherent lookup

end Engine

end Codemod
