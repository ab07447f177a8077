import Codemod.Proofs.Engine.FixedPoint
import Codemod.Proofs.Pass.Mirror

/-!
# The course of a run

The loop of a run only asks, pass by pass, whether the run was told to stop and whether the pass was
quiet. These answers decide how many passes are made and how the loop is left, and with that
everything that the report tells.
-/

namespace Codemod

theorem Trace.imports_append (first second : Trace) :
    Trace.imports (first ++ second) = addAllNew first.imports second.imports := by
  simp only [imports, List.flatMap_append]
  exact distinct_append _ _

theorem Trace.imports_eq_nil_of_applied {trace : Trace} (nothing : trace.applied = []) :
    trace.flatMap Event.imports = [] := by
  rw [List.flatMap_eq_nil_iff]
  intro event member
  have untold := List.filterMap_eq_nil_iff.mp nothing event member
  cases event with
  | applied => contradiction
  | _ => rfl

theorem Trace.requestsStop_append (first second : Trace) :
    Trace.requestsStop (first ++ second) = (first.requestsStop || second.requestsStop) :=
  List.any_append

namespace Engine

/-- How a run leaves its loop. -/
inductive Ending where
  | stopped
  /-- The last pass replaced nothing. -/
  | quiet
  | exhausted
deriving DecidableEq, Repr

/-- The passes that are made in the end and how the loop is left, when some passes were made and
some are left. -/
def course (stopped quiet : Nat → Bool) (remaining made : Nat) : Nat × Ending :=
  if stopped made then (made, .stopped)
  else match remaining with
    | 0 => (made, .exhausted)
    | more + 1 =>
      if quiet made then (made + 1, .quiet) else course stopped quiet more (made + 1)

/-- What a pass of a run tells. -/
def passTrace (engine : Engine) (unit : CompilationUnit) (count : Nat) : Trace :=
  ((engine.replacing unit).run (engine.passStart unit count)).trace

/-- What the first passes of a run tell. -/
def history (engine : Engine) (unit : CompilationUnit) (passes : Nat) : Trace :=
  (List.range passes).flatMap (engine.passTrace unit)

/-- Whether a run is told to stop before a pass, by a custom guard or from outside. -/
def stopsAt (engine : Engine) (unit : CompilationUnit) (stop : Nat → Bool) (passes : Nat) : Bool :=
  (engine.history unit passes).requestsStop || stop passes

/-- Whether a pass of a run replaces nothing. -/
def quietAt (engine : Engine) (unit : CompilationUnit) (count : Nat) : Bool :=
  (engine.passTrace unit count).applied.isEmpty

def surveyTrace (engine : Engine) (unit : CompilationUnit) (passes : Nat) : Trace :=
  ((engine.surveying unit).run (engine.passStart unit passes)).trace

/-- What the last pass of a run tells, and nothing before the first pass. -/
def lastTrace (engine : Engine) (unit : CompilationUnit) : Nat → Trace
  | 0 => []
  | count + 1 => engine.passTrace unit count

variable {engine : Engine} {unit : CompilationUnit}

theorem history_succ (engine : Engine) (unit : CompilationUnit) (passes : Nat) :
    engine.history unit (passes + 1) =
      engine.history unit passes ++ engine.passTrace unit passes := by
  rw [history, List.range_succ, List.flatMap_append, List.flatMap_singleton, ← history]

theorem quietAt_iff {count : Nat} :
    engine.quietAt unit count = true ↔ engine.Settled unit (engine.passStart unit count) :=
  List.isEmpty_iff

/-- The state of a run that has made some passes and goes on. -/
structure Stands (engine : Engine) (unit : CompilationUnit) (progress : Progress) : Prop where
  root_eq : progress.root = engine.passStart unit progress.passes
  applied_eq : progress.applied = (engine.history unit progress.passes).applied
  imports_eq : progress.imports = (engine.history unit progress.passes).imports
  diagnostics_eq : progress.diagnostics = (engine.lastTrace unit progress.passes).diagnostics
  stopRequested_eq : progress.stopRequested = (engine.history unit progress.passes).requestsStop

private theorem stands_start (engine : Engine) (unit : CompilationUnit) :
    engine.Stands unit { root := unit.root } :=
  ⟨rfl, rfl, rfl, rfl, rfl⟩

private theorem Stands.afterPass {progress : Progress} (stands : engine.Stands unit progress) :
    engine.Stands unit
      (progress.afterPass unit.name ((engine.replacing unit).run progress.root)) := by
  have told : ((engine.replacing unit).run progress.root).trace =
      engine.passTrace unit progress.passes := by
    rw [stands.root_eq, passTrace]
  have history := history_succ engine unit progress.passes
  constructor <;> simp only [Progress.afterPass, told]
  · rw [stands.root_eq]
    rfl
  · rw [history, Trace.applied_append, stands.applied_eq]
  · rw [history, Trace.imports_append, stands.imports_eq]
  · rfl
  · rw [history, Trace.requestsStop_append, stands.stopRequested_eq]

/-- What a run tells about its end. -/
def closing (engine : Engine) (unit : CompilationUnit) : Nat × Ending → Trace
  | (passes, .exhausted) => engine.surveyTrace unit passes
  | (passes, _) => engine.lastTrace unit passes

def outcomeOf (engine : Engine) (unit : CompilationUnit) : Nat × Ending → Outcome
  | (_, .stopped) => .cancelled
  | (_, .quiet) => .fixedPoint
  | (passes, .exhausted) =>
    if pending (engine.surveyTrace unit passes) = 0 then .fixedPoint else .passLimit

/-- Whether a run has asked to stop, in the survey at its end or before. -/
def asksToStop (engine : Engine) (unit : CompilationUnit) (ended : Nat × Ending) : Bool :=
  (engine.history unit ended.1).requestsStop ||
    (ended.2 = .exhausted && (engine.surveyTrace unit ended.1).requestsStop)

/-- The result of a run that took a course. -/
structure Took (engine : Engine) (unit : CompilationUnit) (ended : Nat × Ending)
    (result : Progress × Outcome) : Prop where
  root_eq : result.1.root = engine.passStart unit ended.1
  applied_eq : result.1.applied = (engine.history unit ended.1).applied
  imports_eq : result.1.imports = (engine.history unit ended.1).imports
  passes_eq : result.1.passes = ended.1
  diagnostics_eq : result.1.diagnostics = (engine.closing unit ended).diagnostics
  outcome_eq : result.2 = engine.outcomeOf unit ended
  stopRequested_eq : result.1.stopRequested = engine.asksToStop unit ended

private theorem Stands.took_stopped {progress : Progress} (stands : engine.Stands unit progress)
    (record : LogRecord) : engine.Took unit (progress.passes, .stopped)
      (progress.record record, .cancelled) :=
  { root_eq := stands.root_eq
    applied_eq := stands.applied_eq
    imports_eq := stands.imports_eq
    passes_eq := rfl
    diagnostics_eq := stands.diagnostics_eq
    outcome_eq := rfl
    stopRequested_eq := by
      show progress.stopRequested = _
      simp [asksToStop, stands.stopRequested_eq] }

private theorem Stands.took_quiet {progress : Progress} {count : Nat}
    (stands : engine.Stands unit progress) (made : progress.passes = count + 1) :
    engine.Took unit (count + 1, .quiet) (progress, .fixedPoint) :=
  { root_eq := made ▸ stands.root_eq
    applied_eq := made ▸ stands.applied_eq
    imports_eq := made ▸ stands.imports_eq
    passes_eq := made
    diagnostics_eq := made ▸ stands.diagnostics_eq
    outcome_eq := rfl
    stopRequested_eq := by simpa [asksToStop, made] using stands.stopRequested_eq }

private theorem Stands.took_exhausted {progress : Progress}
    (stands : engine.Stands unit progress) :
    engine.Took unit (progress.passes, .exhausted) (engine.endOfPasses unit progress) := by
  have told : ((engine.surveying unit).run progress.root).trace =
      engine.surveyTrace unit progress.passes := by
    rw [stands.root_eq, surveyTrace]
  cases found : pending (engine.surveyTrace unit progress.passes)
  all_goals
    simp only [endOfPasses, told, found]
    exact
      { root_eq := stands.root_eq
        applied_eq := stands.applied_eq
        imports_eq := stands.imports_eq
        passes_eq := rfl
        diagnostics_eq := rfl
        outcome_eq := by simp [outcomeOf, found]
        stopRequested_eq := by
          simp [Progress.afterSurvey, Progress.record, asksToStop, stands.stopRequested_eq] }

theorem took_continueRun (stop : Nat → Bool) (remaining : Nat) {progress : Progress}
    (stands : engine.Stands unit progress) :
    engine.Took unit
      (course (engine.stopsAt unit stop) (engine.quietAt unit) remaining progress.passes)
      (engine.continueRun unit stop remaining progress) := by
  induction remaining generalizing progress with
  | zero =>
    rw [continueRun, course, stands.stopRequested_eq, ← stopsAt]
    split
    · exact stands.took_stopped _
    · exact stands.took_exhausted
  | succ more ih =>
    have quiet : ((engine.replacing unit).run progress.root).trace.applied.isEmpty =
        engine.quietAt unit progress.passes := by
      rw [quietAt, passTrace, stands.root_eq]
    rw [continueRun, course, stands.stopRequested_eq, ← stopsAt]
    split
    · exact stands.took_stopped _
    · simp only [quiet]
      split
      · exact stands.afterPass.took_quiet rfl
      · exact ih stands.afterPass

/-- The course that a run takes from its start. -/
def courseOf (engine : Engine) (unit : CompilationUnit) (stop : Nat → Bool) : Nat × Ending :=
  course (engine.stopsAt unit stop) (engine.quietAt unit) engine.maxPasses 0

/-- A run is told by its course. -/
theorem took_run (engine : Engine) (unit : CompilationUnit) (stop : Nat → Bool) :
    engine.Took unit (engine.courseOf unit stop)
      (engine.continueRun unit stop engine.maxPasses { root := unit.root }) :=
  took_continueRun stop engine.maxPasses (stands_start engine unit)

section Courses

variable {stopped quiet : Nat → Bool} {remaining made : Nat}

private theorem course_of_told (told : stopped made = true) :
    course stopped quiet remaining made = (made, .stopped) := by
  unfold course
  rw [if_pos told]

theorem stopped_of_course {passes : Nat}
    (taken : course stopped quiet remaining made = (passes, .stopped)) :
    stopped passes = true ∧ ∀ count, made ≤ count → count < passes → quiet count = false := by
  induction remaining generalizing made with
  | zero =>
    rw [course] at taken
    split at taken
    · rename_i told
      cases taken
      exact ⟨told, fun count from_here below => by omega⟩
    · cases taken
  | succ more ih =>
    rw [course] at taken
    split at taken
    · rename_i told
      cases taken
      exact ⟨told, fun count from_here below => by omega⟩
    · split at taken
      · cases taken
      · rename_i busy
        obtain ⟨told, rest⟩ := ih taken
        refine ⟨told, fun count from_here below => ?_⟩
        rcases Nat.eq_or_lt_of_le from_here with rfl | later
        · exact Bool.eq_false_iff.mpr busy
        · exact rest count later below

theorem last_of_quiet {passes count : Nat} {ending : Ending}
    (taken : course stopped quiet remaining made = (passes, ending)) (from_here : made ≤ count)
    (below : count < passes) (told : quiet count = true) :
    passes = count + 1 ∧ ending = .quiet := by
  induction remaining generalizing made with
  | zero =>
    rw [course] at taken
    split at taken <;> cases taken <;> omega
  | succ more ih =>
    rw [course] at taken
    split at taken
    · cases taken
      omega
    · split at taken
      · cases taken
        exact ⟨by omega, rfl⟩
      · rename_i busy
        rcases Nat.eq_or_lt_of_le from_here with rfl | later
        · exact absurd told busy
        · exact ih taken later

theorem course_of_busy
    (busy : ∀ count, made ≤ count → count < made + remaining → quiet count = false)
    (goesOn : (course stopped quiet remaining made).2 ≠ .stopped) :
    course stopped quiet remaining made = (made + remaining, .exhausted) := by
  induction remaining generalizing made with
  | zero =>
    rw [course] at goesOn ⊢
    split
    · simp_all
    · rfl
  | succ more ih =>
    rw [course] at goesOn ⊢
    split
    · simp_all
    · rename_i untold
      have here : quiet made = false := busy made (Nat.le_refl made) (by omega)
      simp only [untold, here] at goesOn ⊢
      rw [if_neg (by simp)] at goesOn ⊢
      rw [ih (fun count from_here below => busy count (by omega) (by omega)) goesOn]
      congr 1
      omega

theorem course_ne_stopped (untold : ∀ count, stopped count = false) :
    (course stopped quiet remaining made).2 ≠ .stopped := by
  intro ended
  have told := (stopped_of_course (Prod.ext rfl ended)).1
  rw [untold] at told
  contradiction

/-- A loop that was exhausted goes on where it was left. -/
theorem course_add_of_exhausted {passes : Nat}
    (taken : course stopped quiet remaining made = (passes, .exhausted)) :
    passes = made + remaining ∧ stopped passes = false ∧ ∀ more,
      course stopped quiet (remaining + more) made = course stopped quiet more passes := by
  induction remaining generalizing made with
  | zero =>
    rw [course] at taken
    split at taken
    · cases taken
    · rename_i untold
      cases taken
      exact ⟨rfl, Bool.eq_false_iff.mpr untold, fun more => by rw [Nat.zero_add]⟩
  | succ fewer ih =>
    rw [course] at taken
    split at taken
    · cases taken
    · rename_i untold
      split at taken
      · cases taken
      · rename_i busy
        obtain ⟨total, ends, rest⟩ := ih taken
        refine ⟨by omega, ends, fun more => ?_⟩
        rw [← rest more, Nat.succ_add, course]
        simp only [untold, busy]
        rfl

/-- A loop that was left early does not change when it is allowed more passes. -/
theorem course_add_of_left
    (left : (course stopped quiet remaining made).2 ≠ .exhausted) (more : Nat) :
    course stopped quiet (remaining + more) made = course stopped quiet remaining made := by
  induction remaining generalizing made with
  | zero =>
    rw [course] at left
    split at left
    · rename_i told
      rw [course_of_told told, course_of_told told]
    · exact absurd rfl left
  | succ fewer ih =>
    rw [course] at left
    rw [Nat.succ_add, course, course]
    split
    · rfl
    · rename_i untold
      split
      · rfl
      · rename_i busy
        rw [if_neg untold, if_neg busy] at left
        exact ih left

/-- The course from some pass on is that of a loop which counts from there. -/
theorem course_shift (stopped quiet : Nat → Bool) (start remaining made : Nat) :
    course stopped quiet remaining (start + made) =
      let rest := course (fun count => stopped (start + count))
        (fun count => quiet (start + count)) remaining made
      (start + rest.1, rest.2) := by
  induction remaining generalizing made with
  | zero =>
    simp only
    rw [course, course]
    split <;> rfl
  | succ more ih =>
    simp only at ih ⊢
    rw [course, course]
    split
    · rfl
    · split
      · rfl
      · rw [Nat.add_assoc, ih]

theorem quiet_of_course {passes : Nat}
    (taken : course stopped quiet remaining made = (passes, .quiet)) :
    ∃ count, passes = count + 1 ∧ quiet count = true := by
  induction remaining generalizing made with
  | zero =>
    rw [course] at taken
    split at taken <;> cases taken
  | succ more ih =>
    rw [course] at taken
    split at taken
    · cases taken
    · split at taken
      · rename_i told
        cases taken
        exact ⟨made, rfl, told⟩
      · exact ih taken

end Courses

theorem sound_surveying (sound : (engine.replacing unit).Sound) :
    (engine.surveying unit).Sound :=
  ⟨sound.coherent, sound.lookup_mem⟩

/-- The runs of two engines, each over a unit of its own, start from like trees, and their passes
and surveys go over like trees alike. -/
structure Parallel (relation : TraceRelation) (trees : Tree → Tree → Prop)
    (engine other : Engine) (unit twin : CompilationUnit) : Prop where
  root : trees unit.root twin.root
  passes : ∀ {tree image}, trees tree image → Traced.Related relation trees
    ((engine.replacing unit).run tree) ((other.replacing twin).run image)
  surveys : ∀ {tree image}, trees tree image → Traced.Related relation trees
    ((engine.surveying unit).run tree) ((other.surveying twin).run image)

namespace Parallel

variable {relation : TraceRelation} {trees : Tree → Tree → Prop} {other : Engine}
  {twin : CompilationUnit}

theorem passStart (parallel : Parallel relation trees engine other unit twin) (count : Nat) :
    trees (engine.passStart unit count) (other.passStart twin count) := by
  induction count with
  | zero => exact parallel.root
  | succ count ih => exact (parallel.passes ih).1

private theorem same_passTrace (parallel : Parallel relation trees engine other unit twin)
    (count : Nat) : relation.same (engine.passTrace unit count) (other.passTrace twin count) :=
  (parallel.passes (parallel.passStart count)).2

private theorem same_surveyTrace (parallel : Parallel relation trees engine other unit twin)
    (passes : Nat) :
    relation.same (engine.surveyTrace unit passes) (other.surveyTrace twin passes) :=
  (parallel.surveys (parallel.passStart passes)).2

theorem same_history (parallel : Parallel relation trees engine other unit twin) (passes : Nat) :
    relation.same (engine.history unit passes) (other.history twin passes) :=
  relation.flatMap fun count _ => parallel.same_passTrace count

theorem same_closing (parallel : Parallel relation trees engine other unit twin)
    (ended : Nat × Ending) :
    relation.same (engine.closing unit ended) (other.closing twin ended) := by
  have last : relation.same (engine.lastTrace unit ended.1) (other.lastTrace twin ended.1) := by
    cases ended.1 with
    | zero => exact relation.nil
    | succ count => exact parallel.same_passTrace count
  obtain ⟨passes, stopped | quiet | exhausted⟩ := ended
  · exact last
  · exact last
  · exact parallel.same_surveyTrace passes

theorem quietAt_eq (parallel : Parallel relation trees engine other unit twin)
    (applies : ∀ first image, relation.same first image →
      (first.applied.isEmpty = image.applied.isEmpty)) :
    other.quietAt twin = engine.quietAt unit := by
  funext count
  exact (applies _ _ (parallel.same_passTrace count)).symm

/-- Runs that go alike take the same course, if stop requests and replacements are among what their
traces tell alike. -/
theorem courseOf_eq (parallel : Parallel relation trees engine other unit twin)
    (applies : ∀ first image, relation.same first image →
      (first.applied.isEmpty = image.applied.isEmpty))
    (stops : ∀ first image, relation.same first image →
      first.requestsStop = image.requestsStop)
    (limit : other.maxPasses = engine.maxPasses) (stop : Nat → Bool) :
    other.courseOf twin stop = engine.courseOf unit stop := by
  have stopsAt : other.stopsAt twin stop = engine.stopsAt unit stop := by
    funext passes
    rw [Engine.stopsAt, Engine.stopsAt, stops _ _ (parallel.same_history passes)]
  rw [courseOf, courseOf, parallel.quietAt_eq applies, stopsAt, limit]

theorem outcomeOf_eq (parallel : Parallel relation trees engine other unit twin)
    (applies : ∀ first image, relation.same first image →
      (first.applied.isEmpty = image.applied.isEmpty)) (ended : Nat × Ending) :
    other.outcomeOf twin ended = engine.outcomeOf unit ended := by
  have quiet := congrFun (parallel.quietAt_eq applies) ended.1
  have pending : pending (other.surveyTrace twin ended.1) = 0 ↔
      pending (engine.surveyTrace unit ended.1) = 0 := by
    rw [surveyTrace, surveyTrace, pending_eq_zero_iff, pending_eq_zero_iff, ← quietAt_iff,
      ← quietAt_iff, quiet]
  obtain ⟨passes, stopped | quiet | exhausted⟩ := ended
  · rfl
  · rfl
  · simp only [outcomeOf, pending]

end Parallel

/-- The passes and the surveys of two engines mirror each other. -/
structure Mirrors (relation : TraceRelation) (engine other : Engine) (unit : CompilationUnit) :
    Prop where
  passes : Pass.Mirrors relation (engine.replacing unit) (other.replacing unit)
  surveys : Pass.Mirrors relation (engine.surveying unit) (other.surveying unit)

/-- Runs of engines that mirror each other go alike over the same unit. -/
theorem Mirrors.parallel {relation : TraceRelation} {other : Engine}
    (mirrors : Mirrors relation engine other unit) :
    Parallel relation Eq engine other unit unit where
  root := rfl
  passes same := same ▸ mirrors.passes.run _
  surveys same := same ▸ mirrors.surveys.run _

end Engine

end Codemod
