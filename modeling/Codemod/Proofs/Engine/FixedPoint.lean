import Codemod.Proofs.Engine.Passes
import Codemod.Proofs.Pass.Survey

/-!
# Fixed points

A tree is settled when one more pass would apply nothing to it. A run that was not cancelled says
whether its tree is settled, and what it diagnoses is what a survey of its tree finds. Settled trees
stay as they are.
-/

namespace Codemod

namespace Engine

variable {engine : Engine} {unit : CompilationUnit} {tree : Tree}

/-- One more pass over the tree would apply nothing. -/
def Settled (engine : Engine) (unit : CompilationUnit) (tree : Tree) : Prop :=
  ((engine.replacing unit).run tree).trace.applied = []

theorem agree_survey (engine : Engine) (unit : CompilationUnit) (tree : Tree) :
    Agree ((engine.replacing unit).run tree) ((engine.surveying unit).run tree) :=
  Pass.agree_run (engine.replacing unit) tree

theorem pending_eq_zero_iff (engine : Engine) (unit : CompilationUnit) (tree : Tree) :
    pending ((engine.surveying unit).run tree).trace = 0 ↔ engine.Settled unit tree :=
  (agree_survey engine unit tree).pending_iff

theorem Settled.run_eq_survey (settled : engine.Settled unit tree) :
    (engine.replacing unit).run tree = (engine.surveying unit).run tree :=
  ((agree_survey engine unit tree).eq_of_quiet settled).1

/-- A pass that applies nothing gives back the same tree, spans and types included. -/
theorem Settled.value_eq (settled : engine.Settled unit tree)
    (sound : (engine.replacing unit).Sound) : ((engine.replacing unit).run tree).value = tree := by
  have chain := Pass.leads_run rfl sound tree
  rw [Pass.Leads] at chain
  rw [settled] at chain
  exact chain.eq_of_nil

private theorem endOfPasses_cases (engine : Engine) (unit : CompilationUnit) (progress : Progress) :
    (engine.endOfPasses unit progress).1.root = progress.root ∧
      (engine.endOfPasses unit progress).1.applied = progress.applied ∧
      (engine.endOfPasses unit progress).1.diagnostics =
        ((engine.surveying unit).run progress.root).trace.diagnostics ∧
      ((engine.Settled unit progress.root ∧
          (engine.endOfPasses unit progress).2 = .fixedPoint) ∨
        (¬engine.Settled unit progress.root ∧
          (engine.endOfPasses unit progress).2 = .passLimit)) := by
  have settled := pending_eq_zero_iff engine unit progress.root
  unfold endOfPasses
  simp only
  split
  · rename_i nothing
    exact ⟨rfl, rfl, rfl, .inl ⟨settled.mp nothing, rfl⟩⟩
  · rename_i some_pending
    exact ⟨rfl, rfl, rfl, .inr ⟨fun quiet => some_pending (settled.mpr quiet), rfl⟩⟩

/-- The last of a run is told by the tree it ends with, unless the run was cancelled. -/
theorem Ends.verdict {stop : Nat → Bool} {result : Progress × Outcome}
    (ends : engine.Ends unit stop result) (sound : (engine.replacing unit).Sound)
    (finished : result.2 ≠ .cancelled) :
    result.1.diagnostics = ((engine.surveying unit).run result.1.root).trace.diagnostics ∧
      ((engine.Settled unit result.1.root ∧ result.2 = .fixedPoint) ∨
        (¬engine.Settled unit result.1.root ∧ result.2 = .passLimit)) := by
  cases ends with
  | stopped => contradiction
  | @quiet last reached nothing =>
    have settled : engine.Settled unit last.root := nothing
    have same : (last.afterPass unit.name ((engine.replacing unit).run last.root)).root =
        last.root := settled.value_eq sound
    rw [same, ← settled.run_eq_survey]
    exact ⟨rfl, .inl ⟨settled, rfl⟩⟩
  | @exhausted last reached =>
    obtain ⟨root, _, diagnostics, verdict⟩ := endOfPasses_cases engine unit last
    rw [root]
    exact ⟨diagnostics, verdict⟩

theorem Ends.ne_cancelled {stop : Nat → Bool} {result : Progress × Outcome}
    (ends : engine.Ends unit stop result) (outside : ∀ passes, stop passes = false)
    (inside : result.1.stopRequested = false) : result.2 ≠ .cancelled := by
  cases ends with
  | @stopped last record reached requested =>
    have untold : last.stopRequested = false := inside
    rw [untold, outside] at requested
    contradiction
  | quiet => simp
  | @exhausted last reached =>
    obtain ⟨_, _, _, ⟨_, outcome⟩ | ⟨_, outcome⟩⟩ := endOfPasses_cases engine unit last <;>
      simp [outcome]

/-- What a run that was not cancelled says about the tree it ends with. -/
theorem run_verdict {stop : Nat → Bool} (sound : (engine.replacing unit).Sound)
    (finished : (engine.run unit stop).report.outcome ≠ .cancelled) :
    let report := (engine.run unit stop).report
    report.diagnostics = ((engine.surveying unit).run report.root).trace.diagnostics ∧
      ((engine.Settled unit report.root ∧ report.outcome = .fixedPoint) ∨
        (¬engine.Settled unit report.root ∧ report.outcome = .passLimit)) :=
  (ends_continueRun stop engine.maxPasses (reached_start engine unit)).verdict sound finished

/-- A settled tree stays as it is, however many passes are allowed. -/
theorem Settled.run (settled : engine.Settled unit unit.root)
    (sound : (engine.replacing unit).Sound) {stop : Nat → Bool} (starts : stop 0 = false) :
    (engine.run unit stop).report.applied = [] ∧
      (engine.run unit stop).report.root = unit.root ∧
      (engine.run unit stop).report.outcome = .fixedPoint ∧
      (engine.run unit stop).report.diagnostics =
        ((engine.surveying unit).run unit.root).trace.diagnostics := by
  simp only [Engine.run, reportOf]
  cases engine.maxPasses with
  | zero =>
    rw [continueRun, if_neg (by simp [starts])]
    obtain ⟨root, applied, diagnostics, ⟨_, outcome⟩ | ⟨unsettled, _⟩⟩ :=
      endOfPasses_cases engine unit { root := unit.root }
    · exact ⟨applied, root, outcome, diagnostics⟩
    · exact absurd settled unsettled
  | succ more =>
    rw [continueRun, if_neg (by simp [starts])]
    have quiet : ((engine.replacing unit).run unit.root).trace.applied.isEmpty = true :=
      List.isEmpty_iff.mpr settled
    simp only [quiet, if_true]
    refine ⟨settled, settled.value_eq sound, trivial, ?_⟩
    rw [← settled.run_eq_survey]
    rfl

/-- The outcome of a run that is never asked to stop is true, and a fixed point is one for good. -/
theorem outcome_tells_truth (language : Language) (calls : List Builder.Call) (maxPasses : Nat)
    (unit : CompilationUnit) (stop : Nat → Bool) (outside : ∀ passes, stop passes = false)
    (inside : (run { catalog := .load language calls, maxPasses } unit stop).stopRequested =
      false) :
    let engine : Engine := { catalog := .load language calls, maxPasses }
    let report := (engine.run unit stop).report
    (report.outcome = .passLimit ↔
        ((engine.replacing unit).run report.root).trace.applied ≠ []) ∧
      (report.outcome ≠ .passLimit → report.outcome = .fixedPoint) ∧
      report.diagnostics = ((engine.surveying unit).run report.root).trace.diagnostics ∧
      (report.outcome = .fixedPoint → ∀ more : Nat,
        let again := ({ engine with maxPasses := more }.run { unit with root := report.root }
          fun _ => false).report
        again.applied = [] ∧ again.root = report.root ∧ again.outcome = .fixedPoint ∧
          again.diagnostics = report.diagnostics) := by
  intro engine report
  have sound : (engine.replacing unit).Sound :=
    sound_replacing (Catalog.coherent_load language calls) rfl unit
  have ends := ends_continueRun stop maxPasses (reached_start engine unit)
  have finished : report.outcome ≠ .cancelled := ends.ne_cancelled outside inside
  obtain ⟨diagnostics, ⟨settled, fixed⟩ | ⟨unsettled, limited⟩⟩ := run_verdict sound finished
  · refine ⟨?_, fun _ => fixed, diagnostics, ?_⟩
    · rw [fixed]
      exact iff_of_false (by decide) fun applies => applies settled
    · intro _ more again
      rw [diagnostics]
      exact @Settled.run { engine with maxPasses := more } { unit with root := report.root } settled
        sound (fun _ => false) rfl
  · refine ⟨?_, fun other => absurd limited other, diagnostics, ?_⟩
    · rw [limited]
      exact iff_of_true rfl unsettled
    · rw [limited]
      intro fixed
      contradiction

def renameDraft : RuleDraft :=
  { name := "rename", pattern := .node (.leaf Tree.nameKind "x")
    template := .ofShape (.node (.leaf Tree.nameKind "y")) }

/-- Joins what opens and what closes a variable. -/
def useDraft : RuleDraft :=
  { name := "use"
    pattern := .window [.branch "open" [.hole (.capturing "v" .identifier)],
      .branch "close" [.hole (.referringTo "v")]]
    template := .ofShape (.window [.branch "use" [.hole (.referringTo "v")]]) }

def renameCalls : List Builder.Call := [.add renameDraft, .add useDraft]

def openedUnit : CompilationUnit :=
  { name := "unit"
    root := .branch "block" [.branch "open" [.leaf Tree.nameKind "x"],
      .branch "close" [.leaf Tree.nameKind "x"], .leaf Tree.nameKind "x"] }

theorem rename_settles :
    let engine (maxPasses : Nat) : Engine :=
      { catalog := .load ({} : Roles).language renameCalls, maxPasses }
    let run (maxPasses : Nat) : Run := (engine maxPasses).run openedUnit fun _ => false
    ((run 1).stopRequested = false ∧ (run 1).report.applied.length = 2 ∧
        (run 1).report.outcome = .passLimit ∧
        (((engine 1).replacing openedUnit).run (run 1).report.root).trace.applied ≠ []) ∧
      (run 4).stopRequested = false ∧ (run 4).report.applied.length = 3 ∧
        (run 4).report.outcome = .fixedPoint ∧ ∀ more : Nat,
          let again := ((engine more).run { openedUnit with root := (run 4).report.root }
            fun _ => false).report
          again.applied = [] ∧ again.root = (run 4).report.root := by
  intro engine run
  constructor
  · -- The variable of the joined statements is left to a second pass.
    have inside : (run 1).stopRequested = false := by decide +kernel
    have limited : (run 1).report.outcome = .passLimit := by decide +kernel
    obtain ⟨pending, _⟩ := outcome_tells_truth ({} : Roles).language renameCalls 1 openedUnit
      (fun _ => false) (fun _ => rfl) inside
    exact ⟨inside, by decide +kernel, limited, pending.mp limited⟩
  · have inside : (run 4).stopRequested = false := by decide +kernel
    have fixed : (run 4).report.outcome = .fixedPoint := by decide +kernel
    obtain ⟨_, _, _, again⟩ := outcome_tells_truth ({} : Roles).language renameCalls 4 openedUnit
      (fun _ => false) (fun _ => rfl) inside
    refine ⟨inside, by decide +kernel, fixed, ?_⟩
    intro more
    obtain ⟨nothing, same, _⟩ := again fixed more
    exact ⟨nothing, same⟩

end Engine

end Codemod
