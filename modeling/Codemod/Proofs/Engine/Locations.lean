import Codemod.Proofs.Catalog.Candidates
import Codemod.Proofs.Engine.Declarations
import Codemod.Proofs.Pass.Places
import Codemod.Proofs.Pass.Repeats

/-!
# Locations in reports

Each pass of a run locates what it reports in the tree it started from, and so does the survey at
the end of a run. None of them tells the same about one place twice.
-/

namespace Codemod

namespace Engine

/-- What is told of a pass over a tree stands in that tree, and no diagnostic is repeated. -/
structure Located (language : Language) (rules : List Rule) (root : Tree) (trace : Trace) :
    Prop where
  applied : ∀ entry ∈ trace.applied, ∃ rule, rules[entry.rule]? = some rule ∧
    rule.AppliedAt language root entry.location
  diagnostics : ∀ diagnostic ∈ trace.diagnostics, diagnostic.location.Stands language root
  distinct : trace.diagnostics.Pairwise fun a b => ¬a.Repeats b

theorem located_run {pass : Pass} (coherent : pass.catalog.Coherent)
    (lookup : pass.lookup = pass.catalog.candidates) (root : Tree) :
    Located pass.language pass.catalog.rules root (pass.run root).trace := by
  have sound := Pass.sound_of_coherent coherent lookup
  have once : pass.TriesOnce := by
    intro tree
    rw [lookup]
    exact (coherent.pairwise_candidates tree).imp Nat.ne_of_lt
  have placed := Pass.placed_run sound root
  exact ⟨placed.applied, placed.diagnostics, Pass.distinct_run sound once root⟩

/-- The diagnostics of a run are those of its last pass or of the survey after it. -/
theorem diagnostics_told (engine : Engine) (unit : CompilationUnit) (stop : Nat → Bool) :
    let report := (engine.run unit stop).report
    report.diagnostics = (engine.lastTrace unit report.passes).diagnostics ∨
      report.diagnostics = (engine.surveyTrace unit report.passes).diagnostics := by
  intro report
  have took := took_run engine unit stop
  have passes : report.passes = (engine.courseOf unit stop).1 := took.passes_eq
  have diagnostics : report.diagnostics =
      (engine.closing unit (engine.courseOf unit stop)).diagnostics := took.diagnostics_eq
  rw [diagnostics, passes]
  obtain ⟨_, _ | _ | _⟩ := engine.courseOf unit stop
  · exact .inl rfl
  · exact .inl rfl
  · exact .inr rfl

/-- What all passes over all trees diagnose, the report of a run does. -/
theorem forall_diagnostics_run {engine : Engine} {unit : CompilationUnit}
    {holds : Diagnostic → Prop}
    (each : ∀ mode root, ∀ diagnostic ∈ ((⟨engine.catalog, engine.lookup, unit.platform, mode⟩ :
      Pass).run root).trace.diagnostics, holds diagnostic) (stop : Nat → Bool) :
    ∀ diagnostic ∈ (engine.run unit stop).report.diagnostics, holds diagnostic := by
  intro diagnostic told
  rcases diagnostics_told engine unit stop with last | survey
  · rw [last] at told
    cases passes : (engine.run unit stop).report.passes with
    | zero =>
      rw [passes] at told
      contradiction
    | succ count =>
      rw [passes] at told
      exact each .replace _ diagnostic told
  · rw [survey] at told
    exact each .survey _ diagnostic told

/-- What all passes over all trees apply, the report of a run does. -/
theorem forall_applied_run {engine : Engine} {unit : CompilationUnit} {holds : Applied → Prop}
    (each : ∀ root, ∀ entry ∈ ((engine.replacing unit).run root).trace.applied, holds entry)
    (stop : Nat → Bool) : ∀ entry ∈ (engine.run unit stop).report.applied, holds entry := by
  intro entry told
  rw [(report_eq_passes engine unit stop).2] at told
  obtain ⟨count, _, told⟩ := List.mem_flatMap.mp told
  exact each _ entry told

/-- All that a run reports is located in the tree that the pass or survey in question started
from, and no pass or survey repeats a diagnostic. -/
theorem reports_located_once (language : Language) (calls : List Builder.Call) (maxPasses : Nat)
    (unit : CompilationUnit) (stop : Nat → Bool) :
    let engine : Engine := { catalog := .load language calls, maxPasses }
    let report := (engine.run unit stop).report
    report.applied = (List.range report.passes).flatMap (engine.passApplied unit) ∧
      (report.diagnostics = (engine.lastTrace unit report.passes).diagnostics ∨
        report.diagnostics = (engine.surveyTrace unit report.passes).diagnostics) ∧
      ∀ count,
        Located language engine.catalog.rules (engine.passStart unit count)
          (engine.passTrace unit count) ∧
        Located language engine.catalog.rules (engine.passStart unit count)
          (engine.surveyTrace unit count) := by
  intro engine report
  have coherent : engine.catalog.Coherent := Catalog.coherent_load language calls
  have sameLanguage : engine.catalog.language = language := Catalog.language_load language calls
  refine ⟨(report_eq_passes engine unit stop).2, diagnostics_told engine unit stop, ?_⟩
  intro count
  rw [← sameLanguage]
  exact ⟨@located_run (engine.replacing unit) coherent rfl _,
    @located_run (engine.surveying unit) coherent rfl _⟩

end Engine

end Codemod
