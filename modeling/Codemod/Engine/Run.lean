import Codemod.Engine.Basic

/-!
# Runs

Passes are repeated until one replaces nothing, until they run out, or until the run is cancelled,
which is looked at before each pass. When the passes run out a survey tells whether anything is
still pending.
-/

namespace Codemod

/-- The state of a run between two passes. -/
structure Progress where
  root : Tree
  applied : List Applied := []
  diagnostics : List Diagnostic := []
  imports : List String := []
  passes : Nat := 0
  statistics : Statistics := {}
  log : List LogRecord := []
  stopRequested : Bool := false

namespace Progress

def record (progress : Progress) (record : LogRecord) : Progress :=
  { progress with log := progress.log ++ [record] }

/-- The state after one more pass. -/
def afterPass (progress : Progress) (name : String) (pass : Traced Tree) : Progress :=
  let passes := progress.passes + 1
  let applied := pass.trace.applied
  let diagnostics := pass.trace.diagnostics
  let summary : LogRecord := ⟨.debug, s!"Pass {passes} over {name}: " ++
    s!"{applied.length} rewrites, {diagnostics.length} diagnostics"⟩
  { root := pass.value
    applied := progress.applied ++ applied
    diagnostics
    imports := addAllNew progress.imports pass.trace.imports
    passes
    statistics := progress.statistics.union pass.trace.statistics
    log := progress.log ++ pass.trace.log ++ [summary]
    stopRequested := progress.stopRequested || pass.trace.requestsStop }

/-- The state after a survey, whose diagnostics take the place of the last pass's. -/
def afterSurvey (progress : Progress) (survey : Trace) : Progress :=
  { progress with
    diagnostics := survey.diagnostics
    statistics := progress.statistics.union survey.statistics
    log := progress.log ++ survey.log
    stopRequested := progress.stopRequested || survey.requestsStop }

end Progress

namespace Engine

/-- How many replacements a survey found pending. -/
def pending (survey : Trace) : Nat :=
  survey.diagnostics.countP (·.kind = .passLimitExceeded)

/-- Ends a run whose passes ran out. -/
def endOfPasses (engine : Engine) (unit : CompilationUnit) (progress : Progress) :
    Progress × Outcome :=
  let survey := ((engine.surveying unit).run progress.root).trace
  let surveyed := progress.afterSurvey survey
  match pending survey with
  | 0 => (surveyed, .fixedPoint)
  | count =>
    (surveyed.record ⟨.warn, s!"Pass limit of {engine.maxPasses} reached for {unit.name} " ++
      s!"with {count} rewrites pending"⟩, .passLimit)

/-- Makes at most the given number of further passes. The run is cancelled from outside when `stop`
holds for the number of passes made so far. -/
def continueRun (engine : Engine) (unit : CompilationUnit) (stop : Nat → Bool) (remaining : Nat)
    (progress : Progress) : Progress × Outcome :=
  if progress.stopRequested || stop progress.passes then
    (progress.record ⟨.info, s!"Cancelled {unit.name} after {progress.passes} passes"⟩,
      .cancelled)
  else match remaining with
    | 0 => engine.endOfPasses unit progress
    | more + 1 =>
      let pass := (engine.replacing unit).run progress.root
      let next := progress.afterPass unit.name pass
      if pass.trace.applied.isEmpty then (next, .fixedPoint)
      else engine.continueRun unit stop more next

/-- The report of a run, its log, and whether a custom guard asked to stop. -/
structure Run where
  report : Report
  log : List LogRecord
  stopRequested : Bool

def reportOf (unit : CompilationUnit) (progress : Progress) (outcome : Outcome) : Report :=
  { name := unit.name
    root := progress.root
    applied := progress.applied
    diagnostics := progress.diagnostics
    imports := progress.imports
    passes := progress.passes
    outcome
    statistics :=
      { progress.statistics with
        passes := progress.passes, updated := !progress.applied.isEmpty } }

/-- The last log record of a run. -/
def summary (report : Report) : LogRecord :=
  ⟨.info, s!"Rewrote {report.name}: {report.applied.length} rewrites in {report.passes} passes, " ++
    s!"{report.diagnostics.length} diagnostics ({report.outcome.label})"⟩

/-- Runs the engine on one unit. -/
def run (engine : Engine) (unit : CompilationUnit) (stop : Nat → Bool) : Run :=
  let (progress, outcome) :=
    engine.continueRun unit stop engine.maxPasses { root := unit.root }
  let report := reportOf unit progress outcome
  ⟨report, progress.log ++ [summary report], progress.stopRequested⟩

/-- Runs the engine on units in order. Once a custom guard asked to stop, the units after it are
cancelled. -/
def runAll (engine : Engine) (cancelled : Bool) : List CompilationUnit → List Run
  | [] => []
  | unit :: rest =>
    let run := engine.run unit fun _ => cancelled
    run :: engine.runAll (cancelled || run.stopRequested) rest

end Engine

end Codemod
