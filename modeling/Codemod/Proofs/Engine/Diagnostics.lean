import Codemod.Proofs.Engine.Locations
import Codemod.Proofs.Engine.Resumption

/-!
# Diagnostics and the tree they are about

A run that comes to its end diagnoses the tree it gives back. A cancelled run gives back the tree
that its last pass made, but its diagnostics are about the tree which that pass started from.
-/

namespace Codemod.Engine

variable {engine : Engine} {unit : CompilationUnit} {stop : Nat → Bool}

private theorem stands_of_finished (coherent : engine.catalog.Coherent)
    (lookup : engine.lookup = engine.catalog.candidates)
    (finished : (engine.run unit stop).report.outcome ≠ .cancelled) :
    ∀ diagnostic ∈ (engine.run unit stop).report.diagnostics,
      diagnostic.location.Stands engine.catalog.language (engine.run unit stop).report.root := by
  have sound : (engine.replacing unit).Sound := sound_replacing coherent lookup unit
  have surveyed := (run_verdict sound finished).1
  rw [surveyed]
  exact (@located_run (engine.surveying unit) coherent lookup _).diagnostics

/-- The diagnostics of a cancelled run are those of its last pass. -/
theorem diagnostics_of_cancelled
    (cancelled : (engine.run unit stop).report.outcome = .cancelled) :
    (engine.run unit stop).report.root =
        engine.passStart unit (engine.run unit stop).report.passes ∧
      (engine.run unit stop).report.diagnostics =
        (engine.lastTrace unit (engine.run unit stop).report.passes).diagnostics := by
  have took := took_run engine unit stop
  rw [(busy_of_cancelled cancelled).1] at took
  exact ⟨took.root_eq, took.diagnostics_eq⟩

private theorem stands_of_lastTrace (coherent : engine.catalog.Coherent)
    (lookup : engine.lookup = engine.catalog.candidates) (passes : Nat) :
    ∀ diagnostic ∈ (engine.lastTrace unit passes).diagnostics,
      diagnostic.location.Stands engine.catalog.language (engine.passStart unit (passes - 1)) := by
  cases passes with
  | zero =>
    intro diagnostic member
    contradiction
  | succ count => exact (@located_run (engine.replacing unit) coherent lookup _).diagnostics

/-- Every diagnostic of a run that was not cancelled stands in the tree of the report. Those of a
cancelled run stand in the tree that the last pass started from, and so one pass behind. -/
theorem diagnostics_stand (language : Language) (calls : List Builder.Call) (maxPasses : Nat)
    (unit : CompilationUnit) (stop : Nat → Bool) :
    let engine : Engine := { catalog := .load language calls, maxPasses }
    let report := (engine.run unit stop).report
    (report.outcome ≠ .cancelled →
        ∀ diagnostic ∈ report.diagnostics, diagnostic.location.Stands language report.root) ∧
      (report.outcome = .cancelled →
        report.root = engine.passStart unit report.passes ∧
          ∀ diagnostic ∈ report.diagnostics,
            diagnostic.location.Stands language (engine.passStart unit (report.passes - 1))) := by
  intro engine report
  have coherent : engine.catalog.Coherent := Catalog.coherent_load language calls
  have sameLanguage : engine.catalog.language = language := Catalog.language_load language calls
  constructor
  · intro finished
    have stands := stands_of_finished coherent rfl finished
    rwa [sameLanguage] at stands
  · intro cancelled
    obtain ⟨root, diagnostics⟩ := diagnostics_of_cancelled cancelled
    have stands := @stands_of_lastTrace engine unit coherent rfl report.passes
    rw [sameLanguage, ← diagnostics] at stands
    exact ⟨root, stands⟩

/-- A rule that makes one statement of two and asks the engine to stop. -/
def haltingDraft : RuleDraft :=
  { name := "pair"
    pattern := .window [.leaf Tree.nameKind "a", .leaf Tree.nameKind "b"]
    template := .ofShape (.node (.leaf Tree.nameKind "c"))
    guard := some (.custom ⟨"halt", fun _ _ => .accept, fun _ _ => true⟩) }

/-- A rule that needs a version which no declaration states. -/
def unprovenDraft : RuleDraft :=
  { name := "late"
    pattern := .node (.leaf Tree.intKind "1")
    template := .ofShape (.node (.leaf Tree.intKind "2"))
    guard := some (.minVersion 28) }

/-- Three statements, the first two of which a halting rule replaces. -/
def haltedUnit : CompilationUnit :=
  { name := "unit"
    root := .branch "block"
      [.leaf Tree.nameKind "a", .leaf Tree.nameKind "b", .leaf Tree.intKind "1"] }

/-- Two statements were made into one, but the diagnostic of the pass that did so is still at the
third place. -/
theorem cancelled_diagnostic_out_of_tree :
    let engine : Engine :=
      { catalog := .load ({} : Roles).language [.add haltingDraft, .add unprovenDraft] }
    let report := (engine.run haltedUnit fun _ => false).report
    report.outcome = .cancelled ∧ ∃ diagnostic ∈ report.diagnostics,
      diagnostic.location.path = [2] ∧ report.root.at? diagnostic.location.path = none := by
  decide +kernel

theorem halted_diagnostics_stand :
    let calls : List Builder.Call := [.add haltingDraft, .add unprovenDraft]
    let engine (maxPasses : Nat) : Engine :=
      { catalog := .load ({} : Roles).language calls, maxPasses }
    let halted := ((engine 16).run haltedUnit fun _ => false).report
    let surveyed := ((engine 0).run haltedUnit fun _ => false).report
    halted.outcome = .cancelled ∧ surveyed.outcome ≠ .cancelled ∧
      (∃ diagnostic ∈ halted.diagnostics,
        diagnostic.location.Stands ({} : Roles).language haltedUnit.root) ∧
      ∃ diagnostic ∈ surveyed.diagnostics,
        diagnostic.location.Stands ({} : Roles).language surveyed.root := by
  intro calls engine halted surveyed
  have cancelled : halted.outcome = .cancelled := by decide +kernel
  have finished : surveyed.outcome ≠ .cancelled := by decide +kernel
  have behind := (diagnostics_stand ({} : Roles).language calls 16 haltedUnit fun _ => false).2
    cancelled
  have passes : halted.passes = 1 := by decide +kernel
  have told := (diagnostics_stand ({} : Roles).language calls 0 haltedUnit fun _ => false).1
    finished
  have some_halted : halted.diagnostics ≠ [] := by decide +kernel
  have some_surveyed : surveyed.diagnostics ≠ [] := by decide +kernel
  obtain ⟨first, listed⟩ := List.exists_mem_of_ne_nil _ some_halted
  obtain ⟨other, reported⟩ := List.exists_mem_of_ne_nil _ some_surveyed
  have stands := behind.2 first listed
  rw [show ((engine 16).run haltedUnit _).report.passes = 1 from passes] at stands
  exact ⟨cancelled, finished, ⟨first, listed, stands⟩, other, reported, told other reported⟩

end Codemod.Engine
