import Codemod.Proofs.Engine.Course
import Codemod.Proofs.Pass.Translation

/-!
# Resumed and cancelled runs

A run can be cut in two, and a run that is cancelled is one that was allowed fewer passes. Which
passes are made before a run is cancelled depends on who asks for the stop and when, but what these
passes do does not.
-/

namespace Codemod

namespace Guard

variable (asks : CustomGuard → Bindings → Facts → Bool)

mutual

/-- The same guard where the custom guards ask the engine to stop at other times. -/
def reschedule : Guard → Guard
  | .custom guard => .custom { guard with cancels := asks guard }
  | .all guards => .all (rescheduleAll guards)
  | guard => guard

def rescheduleAll : List Guard → List Guard
  | [] => []
  | guard :: rest => reschedule guard :: rescheduleAll rest

end

mutual

private theorem evaluate_reschedule (bindings : Bindings) (facts : Facts) :
    ∀ guard : Guard, (reschedule asks guard).evaluate bindings facts =
      guard.evaluate bindings facts
  | .minVersion _ => rfl
  | .capability _ => rfl
  | .receiverType _ => rfl
  | .captureType _ _ => rfl
  | .unreferenced _ _ => rfl
  | .custom _ => rfl
  | .all guards => evaluateAll_reschedule bindings facts none guards

private theorem evaluateAll_reschedule (bindings : Bindings) (facts : Facts)
    (pending : Option Refusal) :
    ∀ guards : List Guard, evaluateAll bindings facts pending (rescheduleAll asks guards) =
      evaluateAll bindings facts pending guards
  | [] => rfl
  | guard :: rest => by
    rw [rescheduleAll, evaluateAll, evaluateAll, evaluate_reschedule bindings facts guard]
    simp only [evaluateAll_reschedule bindings facts _ rest]

end

mutual

private theorem reschedule_cancels : ∀ guard : Guard, reschedule CustomGuard.cancels guard = guard
  | .minVersion _ => rfl
  | .capability _ => rfl
  | .receiverType _ => rfl
  | .captureType _ _ => rfl
  | .unreferenced _ _ => rfl
  | .custom _ => rfl
  | .all guards => congrArg all (rescheduleAll_cancels guards)

private theorem rescheduleAll_cancels :
    ∀ guards : List Guard, rescheduleAll CustomGuard.cancels guards = guards
  | [] => rfl
  | guard :: rest => by
    rw [rescheduleAll, reschedule_cancels guard, rescheduleAll_cancels rest]

end

mutual

private theorem cancels_reschedule_never (bindings : Bindings) (facts : Facts) :
    ∀ guard : Guard,
      (reschedule (fun _ _ _ => false) guard).cancels bindings facts = false
  | .minVersion _ => rfl
  | .capability _ => rfl
  | .receiverType _ => rfl
  | .captureType _ _ => rfl
  | .unreferenced _ _ => rfl
  | .custom _ => rfl
  | .all guards => cancelsAny_reschedule_never bindings facts guards

private theorem cancelsAny_reschedule_never (bindings : Bindings) (facts : Facts) :
    ∀ guards : List Guard,
      cancelsAny bindings facts (rescheduleAll (fun _ _ _ => false) guards) = false
  | [] => rfl
  | guard :: rest => by
    rw [rescheduleAll, cancelsAny, cancels_reschedule_never bindings facts guard,
      cancelsAny_reschedule_never bindings facts rest, Bool.false_or, Bool.and_false]

end

end Guard

def Rule.reschedule (asks : CustomGuard → Bindings → Facts → Bool) (rule : Rule) : Rule :=
  { rule with guard := rule.guard.map (Guard.reschedule asks) }

/-- The same catalog where the custom guards ask the engine to stop at other times. -/
def Catalog.reschedule (asks : CustomGuard → Bindings → Facts → Bool) (catalog : Catalog) :
    Catalog :=
  { catalog with rules := catalog.rules.map (Rule.reschedule asks) }

private theorem Rule.reschedule_cancels (rule : Rule) :
    rule.reschedule CustomGuard.cancels = rule := by
  obtain ⟨_, _, _, guard, _, _, _, _⟩ := rule
  cases guard with
  | none => rfl
  | some guard => simp [reschedule, Guard.reschedule_cancels]

private theorem Catalog.reschedule_cancels (catalog : Catalog) :
    catalog.reschedule CustomGuard.cancels = catalog := by
  have each : Rule.reschedule CustomGuard.cancels = id := funext Rule.reschedule_cancels
  rw [reschedule, each, List.map_id]

private theorem Catalog.candidates_reschedule (asks : CustomGuard → Bindings → Facts → Bool)
    (catalog : Catalog) (tree : Tree) : (catalog.reschedule asks).candidates tree =
      (catalog.candidates tree).map (Rule.reschedule asks) := by
  have ids : (catalog.reschedule asks).candidateIds tree = catalog.candidateIds tree := rfl
  rw [candidates, candidates, ids, List.map_filterMap]
  simp only [reschedule, List.getElem?_map]

/-- Rules keep their ids when their guards ask to stop at other times. -/
def Translation.reschedule (asks : CustomGuard → Bindings → Facts → Bool) : Translation where
  rule := Rule.reschedule asks
  id number := number
  injective := Function.injective_id
  id_rule _ := rfl
  name_rule _ := rfl
  pattern_rule _ := rfl
  template_rule _ := rfl
  priority_rule _ := rfl
  verdict_rule original bindings facts := by
    simp only [Rule.verdict, Rule.reschedule]
    cases original.guard with
    | none => rfl
    | some guard => exact Guard.evaluate_reschedule asks bindings facts guard

/-- Two traces put the same in place. -/
def TraceRelation.effects : TraceRelation where
  same first image :=
    first.applied = image.applied ∧ first.flatMap Event.imports = image.flatMap Event.imports
  nil := ⟨rfl, rfl⟩
  append first second := by
    simp only [Trace.applied_append, List.flatMap_append]
    exact ⟨first.1 ▸ second.1 ▸ rfl, first.2 ▸ second.2 ▸ rfl⟩

private theorem TraceRelation.keeps_effects (asks : CustomGuard → Bindings → Facts → Bool) :
    effects.Keeps (.reschedule asks) where
  event event _ := by cases event <;> exact ⟨rfl, rfl⟩
  stop rule bindings facts := by
    cases rule.cancels bindings facts <;>
      cases Rule.cancels _ bindings facts <;> exact ⟨rfl, rfl⟩

/-- The second trace holds no request to stop. -/
def TraceRelation.calm : TraceRelation where
  same _ image := image.requestsStop = false
  nil := rfl
  append first second := by
    rw [Trace.requestsStop_append, first, second, Bool.or_false]

theorem TraceRelation.keeps_calm : calm.Keeps (.reschedule fun _ _ _ => false) where
  event event listed := by
    cases event with
    | stopRequested => exact listed.elim
    | _ => rfl
  stop rule bindings facts := by
    have untold : ((Translation.reschedule fun _ _ _ => false).rule rule).cancels bindings facts =
        false := by
      simp only [Translation.reschedule, Rule.cancels, Rule.reschedule]
      cases rule.guard with
      | none => rfl
      | some guard => exact Guard.cancels_reschedule_never bindings facts guard
    rw [untold]
    rfl

theorem Pass.translates_reschedule {relation : TraceRelation}
    {asks : CustomGuard → Bindings → Facts → Bool} (keeps : relation.Keeps (.reschedule asks))
    (catalog : Catalog) (platform : Platform) (mode : Mode) :
    Translates relation (.reschedule asks) ⟨catalog, catalog.candidates, platform, mode⟩
      ⟨catalog.reschedule asks, (catalog.reschedule asks).candidates, platform, mode⟩ where
  language_eq := rfl
  platform_eq := rfl
  mode_eq := rfl
  rules_eq id := List.getElem?_map
  claims sort find anchor scope locate _ := by
    apply related_claimsWith keeps
    · rfl
    · rfl
    · exact catalog.candidates_reschedule asks anchor

namespace Engine

variable {engine : Engine} {unit : CompilationUnit}

/-- The engine with another limit. -/
def withLimit (engine : Engine) (maxPasses : Nat) : Engine :=
  { engine with maxPasses }

@[simp] theorem passStart_withLimit (engine : Engine) (unit : CompilationUnit) (limit count : Nat) :
    (engine.withLimit limit).passStart unit count = engine.passStart unit count := by
  induction count with
  | zero => rfl
  | succ count ih =>
    rw [passStart, passStart, ih]
    rfl

private theorem passTrace_withLimit (engine : Engine) (unit : CompilationUnit) (limit : Nat) :
    (engine.withLimit limit).passTrace unit = engine.passTrace unit := by
  funext count
  rw [passTrace, passTrace, passStart_withLimit]
  rfl

private theorem history_withLimit (engine : Engine) (unit : CompilationUnit) (limit passes : Nat) :
    (engine.withLimit limit).history unit passes = engine.history unit passes := by
  rw [history, history, passTrace_withLimit]

private theorem surveyTrace_withLimit (engine : Engine) (unit : CompilationUnit)
    (limit passes : Nat) :
    (engine.withLimit limit).surveyTrace unit passes = engine.surveyTrace unit passes := by
  rw [surveyTrace, surveyTrace, passStart_withLimit]
  rfl

private theorem took_withLimit {limit : Nat} {ended : Nat × Ending} {result : Progress × Outcome}
    (took : (engine.withLimit limit).Took unit ended result) : engine.Took unit ended result := by
  have surveys := surveyTrace_withLimit engine unit limit
  have lasts : ∀ passes,
      (engine.withLimit limit).lastTrace unit passes = engine.lastTrace unit passes := by
    intro passes
    cases passes with
    | zero => rfl
    | succ count => exact congrFun (passTrace_withLimit engine unit limit) count
  obtain ⟨root, applied, imports, passes, diagnostics, outcome, stopRequested⟩ := took
  rw [passStart_withLimit] at root
  rw [history_withLimit] at applied imports
  rw [asksToStop, history_withLimit, surveys] at stopRequested
  refine ⟨root, applied, imports, passes, ?_, ?_, stopRequested⟩
  · rw [diagnostics]
    obtain ⟨passes, stopped | quiet | exhausted⟩ := ended <;> simp only [closing, lasts, surveys]
  · rw [outcome]
    obtain ⟨passes, stopped | quiet | exhausted⟩ := ended <;> simp only [outcomeOf, surveys]

/-- The unit with the tree that some passes have left. -/
def resumed (engine : Engine) (unit : CompilationUnit) (passes : Nat) : CompilationUnit :=
  { unit with root := engine.passStart unit passes }

private theorem passStart_resumed (engine : Engine) (unit : CompilationUnit) (start count : Nat) :
    engine.passStart (engine.resumed unit start) count = engine.passStart unit (start + count) := by
  induction count with
  | zero => rfl
  | succ count ih =>
    rw [passStart, ih]
    rfl

private theorem passTrace_resumed (engine : Engine) (unit : CompilationUnit) (start count : Nat) :
    engine.passTrace (engine.resumed unit start) count = engine.passTrace unit (start + count) := by
  rw [passTrace, passTrace, passStart_resumed]
  rfl

private theorem history_resumed (engine : Engine) (unit : CompilationUnit) (start passes : Nat) :
    engine.history unit (start + passes) =
      engine.history unit start ++ engine.history (engine.resumed unit start) passes := by
  have traces : engine.passTrace (engine.resumed unit start) =
      fun count => engine.passTrace unit (start + count) :=
    funext (passTrace_resumed engine unit start)
  rw [history, history, history, traces, List.range_add, List.flatMap_append, List.flatMap_map]

private theorem surveyTrace_resumed (engine : Engine) (unit : CompilationUnit)
    (start passes : Nat) : engine.surveyTrace (engine.resumed unit start) passes =
      engine.surveyTrace unit (start + passes) := by
  rw [surveyTrace, surveyTrace, passStart_resumed]
  rfl

private theorem courseOf_withLimit (engine : Engine) (unit : CompilationUnit) (limit : Nat)
    (stop : Nat → Bool) : (engine.withLimit limit).courseOf unit stop =
      course (engine.stopsAt unit stop) (engine.quietAt unit) limit 0 := by
  have stops : (engine.withLimit limit).stopsAt unit stop = engine.stopsAt unit stop := by
    funext passes
    rw [stopsAt, stopsAt, history_withLimit]
  have quiet : (engine.withLimit limit).quietAt unit = engine.quietAt unit := by
    funext count
    rw [quietAt, quietAt, passTrace_withLimit]
  rw [courseOf, stops, quiet]
  rfl

private theorem courseOf_add_of_exhausted {m passes : Nat}
    (taken : (engine.withLimit m).courseOf unit (fun _ => false) = (passes, .exhausted)) (n : Nat) :
    passes = m ∧ (engine.history unit m).requestsStop = false ∧
      (engine.withLimit (m + n)).courseOf unit (fun _ => false) =
        let rest := (engine.withLimit n).courseOf (engine.resumed unit m) fun _ => false
        (m + rest.1, rest.2) := by
  simp only [courseOf_withLimit] at taken ⊢
  obtain ⟨total, ends, goesOn⟩ := course_add_of_exhausted taken
  rw [Nat.zero_add] at total
  subst total
  rw [stopsAt, Bool.or_false] at ends
  have stops : (fun count => engine.stopsAt unit (fun _ => false) (passes + count)) =
      engine.stopsAt (engine.resumed unit passes) fun _ => false := by
    funext count
    rw [stopsAt, stopsAt, history_resumed, Trace.requestsStop_append, ends, Bool.false_or]
  have quiet : (fun count => engine.quietAt unit (passes + count)) =
      engine.quietAt (engine.resumed unit passes) := by
    funext count
    rw [quietAt, quietAt, passTrace_resumed]
  have shifted := course_shift (engine.stopsAt unit fun _ => false) (engine.quietAt unit) passes n 0
  rw [stops, quiet, Nat.add_zero] at shifted
  exact ⟨rfl, ends, (goesOn n).trans shifted⟩

private theorem courseOf_of_no_pass {limit : Nat}
    (none_made : ((engine.withLimit limit).courseOf unit fun _ => false).1 = 0) :
    ((engine.withLimit limit).courseOf unit fun _ => false).2 = .exhausted := by
  rw [courseOf_withLimit] at none_made ⊢
  cases taken : course (engine.stopsAt unit fun _ => false) (engine.quietAt unit) limit 0 with
  | mk passes ending =>
    rw [taken] at none_made
    cases none_made
    cases ending with
    | exhausted => rfl
    | stopped =>
      have told := (stopped_of_course taken).1
      contradiction
    | quiet =>
      obtain ⟨count, made, _⟩ := quiet_of_course taken
      contradiction

private theorem closing_resumed (engine : Engine) (unit : CompilationUnit) (start : Nat)
    {ended : Nat × Ending} (made : ended.1 = 0 → ended.2 = .exhausted) :
    engine.closing (engine.resumed unit start) ended =
      engine.closing unit (start + ended.1, ended.2) := by
  obtain ⟨passes, ending⟩ := ended
  cases ending with
  | exhausted => exact surveyTrace_resumed engine unit start passes
  | stopped | quiet =>
    cases passes with
    | zero => simp at made
    | succ count => exact passTrace_resumed engine unit start count

private theorem outcomeOf_resumed (engine : Engine) (unit : CompilationUnit) (start : Nat)
    (ended : Nat × Ending) : engine.outcomeOf (engine.resumed unit start) ended =
      engine.outcomeOf unit (start + ended.1, ended.2) := by
  obtain ⟨passes, stopped | quiet | exhausted⟩ := ended
  · rfl
  · rfl
  · simp only [outcomeOf, surveyTrace_resumed]

/-- A report continues another: it tells of the first part and then of the second. -/
structure Continues (first second whole : Report) : Prop where
  root_eq : whole.root = second.root
  applied_eq : whole.applied = first.applied ++ second.applied
  imports_eq : whole.imports = addAllNew first.imports second.imports
  diagnostics_eq : whole.diagnostics = second.diagnostics
  outcome_eq : whole.outcome = second.outcome

private theorem continues_of_quiet (sound : (engine.replacing unit).Sound) {count : Nat}
    (quiet : engine.quietAt unit count = true) {first whole : Progress × Outcome}
    (tookFirst : engine.Took unit (count + 1, .quiet) first)
    (tookWhole : engine.Took unit (count + 1, .quiet) whole) (n : Nat) :
    Continues (reportOf unit first.1 first.2)
      ((engine.withLimit n).run { unit with root := first.1.root } fun _ => false).report
      (reportOf unit whole.1 whole.2) := by
  have settled : engine.Settled unit (engine.passStart unit count) := quietAt_iff.mp quiet
  have stays : engine.passStart unit (count + 1) = engine.passStart unit count :=
    settled.value_eq sound
  have again : Settled (engine.withLimit n) { unit with root := first.1.root } first.1.root := by
    rw [tookFirst.root_eq, stays]
    exact settled
  have soundAgain : (replacing (engine.withLimit n) { unit with root := first.1.root }).Sound :=
    sound
  obtain ⟨applied, root, outcome, diagnostics⟩ :=
    @Settled.run (engine.withLimit n) { unit with root := first.1.root } again soundAgain
      (fun _ => false) rfl
  have second := took_run (engine.withLimit n) { unit with root := first.1.root } fun _ => false
  have silent := Trace.imports_eq_nil_of_applied (second.applied_eq.symm.trans applied)
  constructor
  · exact tookWhole.root_eq.trans (tookFirst.root_eq.symm.trans root.symm)
  · rw [applied, List.append_nil]
    exact tookWhole.applied_eq.trans tookFirst.applied_eq.symm
  · have nothing : ((engine.withLimit n).run { unit with root := first.1.root } fun _ =>
        false).report.imports = [] := second.imports_eq.trans (congrArg distinct silent)
    rw [nothing]
    exact tookWhole.imports_eq.trans tookFirst.imports_eq.symm
  · rw [diagnostics]
    refine tookWhole.diagnostics_eq.trans ?_
    show (engine.passTrace unit count).diagnostics =
      ((engine.surveying unit).run first.1.root).trace.diagnostics
    rw [tookFirst.root_eq, stays, ← settled.run_eq_survey]
    rfl
  · exact tookWhole.outcome_eq.trans outcome.symm

/-- A run whose passes ran out is continued by the passes after them. -/
private theorem continues_of_exhausted {m : Nat} {ended : Nat × Ending}
    (made : ended.1 = 0 → ended.2 = .exhausted) {first second whole : Progress × Outcome}
    (tookFirst : engine.Took unit (m, .exhausted) first)
    (tookSecond : engine.Took (engine.resumed unit m) ended second)
    (tookWhole : engine.Took unit (m + ended.1, ended.2) whole) :
    Continues (reportOf unit first.1 first.2)
      (reportOf (engine.resumed unit m) second.1 second.2)
      (reportOf unit whole.1 whole.2) := by
  constructor
  · rw [reportOf, reportOf]
    dsimp only
    rw [tookWhole.root_eq, tookSecond.root_eq, passStart_resumed]
  · rw [reportOf, reportOf, reportOf]
    dsimp only
    rw [tookWhole.applied_eq, tookFirst.applied_eq, tookSecond.applied_eq, history_resumed,
      Trace.applied_append]
  · rw [reportOf, reportOf, reportOf]
    dsimp only
    rw [tookWhole.imports_eq, tookFirst.imports_eq, tookSecond.imports_eq, history_resumed,
      Trace.imports_append]
  · rw [reportOf, reportOf]
    dsimp only
    rw [tookWhole.diagnostics_eq, tookSecond.diagnostics_eq, closing_resumed _ _ _ made]
  · rw [reportOf, reportOf]
    dsimp only
    rw [tookWhole.outcome_eq, tookSecond.outcome_eq, outcomeOf_resumed]

/-- A run with as many passes as two runs after each other reports what they report together. -/
theorem continues_run (sound : (engine.replacing unit).Sound) (m n : Nat)
    (unasked : ((engine.withLimit m).run unit fun _ => false).stopRequested = false) :
    Continues ((engine.withLimit m).run unit fun _ => false).report
      ((engine.withLimit n).run
        { unit with root := ((engine.withLimit m).run unit fun _ => false).report.root }
        fun _ => false).report
      ((engine.withLimit (m + n)).run unit fun _ => false).report := by
  have first := took_withLimit (took_run (engine.withLimit m) unit fun _ => false)
  have whole := took_withLimit (took_run (engine.withLimit (m + n)) unit fun _ => false)
  have silent := first.stopRequested_eq.symm.trans unasked
  cases taken : (engine.withLimit m).courseOf unit fun _ => false with
  | mk passes ending =>
    rw [taken] at first silent
    cases ending with
    | stopped =>
      rw [courseOf_withLimit] at taken
      have told := (stopped_of_course taken).1
      simp only [stopsAt, Bool.or_false] at told
      rw [asksToStop, told] at silent
      contradiction
    | quiet =>
      have left := taken
      rw [courseOf_withLimit] at left
      obtain ⟨count, rfl, quiet⟩ := quiet_of_course left
      have same : (engine.withLimit (m + n)).courseOf unit (fun _ => false) =
          (count + 1, .quiet) := by
        rw [courseOf_withLimit, course_add_of_left (by simp [left]) n, left]
      rw [same] at whole
      exact continues_of_quiet sound quiet first whole n
    | exhausted =>
      obtain ⟨rfl, _, goesOn⟩ := courseOf_add_of_exhausted taken n
      rw [goesOn] at whole
      have second := took_withLimit
        (took_run (engine.withLimit n) (engine.resumed unit passes) fun _ => false)
      have root : ((engine.withLimit passes).run unit fun _ => false).report.root =
          engine.passStart unit passes := first.root_eq
      rw [root]
      exact continues_of_exhausted courseOf_of_no_pass first second whole

private theorem outcomeOf_eq_cancelled {ended : Nat × Ending} :
    engine.outcomeOf unit ended = .cancelled ↔ ended.2 = .stopped := by
  obtain ⟨passes, stopped | quiet | exhausted⟩ := ended
  · exact iff_of_true rfl rfl
  · exact iff_of_false (by simp [outcomeOf]) (by simp)
  · refine iff_of_false ?_ (by simp)
    rw [outcomeOf]
    split <;> simp

/-- Every pass of a run that was cancelled replaced something. -/
theorem busy_of_cancelled {stop : Nat → Bool}
    (cancelled : (engine.run unit stop).report.outcome = .cancelled) :
    engine.courseOf unit stop = ((engine.run unit stop).report.passes, .stopped) ∧
      ∀ count < (engine.run unit stop).report.passes, engine.quietAt unit count = false := by
  have took := took_run engine unit stop
  have passes : (engine.run unit stop).report.passes = (engine.courseOf unit stop).1 :=
    took.passes_eq
  have stopped := outcomeOf_eq_cancelled.mp (took.outcome_eq.symm.trans cancelled)
  have taken : engine.courseOf unit stop = ((engine.run unit stop).report.passes, .stopped) :=
    Prod.ext passes.symm stopped
  exact ⟨taken, fun count below => (stopped_of_course taken).2 count (Nat.zero_le count) below⟩

private theorem mirrors_reschedule {relation : TraceRelation}
    {asks : CustomGuard → Bindings → Facts → Bool} (keeps : relation.Keeps (.reschedule asks))
    {catalog : Catalog} (coherent : catalog.Coherent) (limit other : Nat)
    (unit : CompilationUnit) : Mirrors relation { catalog, maxPasses := limit }
      { catalog := catalog.reschedule asks, maxPasses := other } unit := by
  have sound : (replacing { catalog, maxPasses := limit } unit).Sound :=
    sound_replacing coherent rfl unit
  constructor
  · exact (Pass.translates_reschedule keeps catalog unit.platform .replace).mirrors keeps sound
  · exact (Pass.translates_reschedule keeps catalog unit.platform .survey).mirrors keeps
      (sound_surveying sound)

/-- One report is cut short where another ends. -/
structure Truncates (cut full : Report) : Prop where
  root_eq : cut.root = full.root
  applied_eq : cut.applied = full.applied
  imports_eq : cut.imports = full.imports
  passes_eq : cut.passes = full.passes

/-- A cancelled run did what a run does that is allowed its passes and not cancelled, whoever asks
that one to stop and when. -/
theorem truncates_of_cancelled {catalog : Catalog} (coherent : catalog.Coherent) {maxPasses : Nat}
    {stop : Nat → Bool}
    (cancelled : (run { catalog, maxPasses } unit stop).report.outcome = .cancelled)
    (asks : CustomGuard → Bindings → Facts → Bool) (later : Nat → Bool) :
    let cut := (run { catalog, maxPasses } unit stop).report
    let full := (run { catalog := catalog.reschedule asks, maxPasses := cut.passes } unit
      later).report
    full.outcome ≠ .cancelled → Truncates cut full := by
  intro cut full finished
  have mirrors := mirrors_reschedule (TraceRelation.keeps_effects asks) coherent maxPasses
    cut.passes unit
  obtain ⟨taken, busy⟩ := busy_of_cancelled cancelled
  have short := took_run { catalog, maxPasses } unit stop
  have long := took_run { catalog := catalog.reschedule asks, maxPasses := cut.passes } unit later
  rw [taken] at short
  have goesOn : (courseOf { catalog := catalog.reschedule asks, maxPasses := cut.passes } unit
      later).2 ≠ .stopped := by
    intro ended
    exact finished (long.outcome_eq.trans (outcomeOf_eq_cancelled.mpr ended))
  have whole := course_of_busy (fun count _ below => ?_) goesOn
  · rw [courseOf, whole, Nat.zero_add] at long
    have histories := mirrors.parallel.same_history cut.passes
    constructor
    · exact short.root_eq.trans ((mirrors.parallel.passStart cut.passes).trans long.root_eq.symm)
    · exact short.applied_eq.trans (histories.1.trans long.applied_eq.symm)
    · exact short.imports_eq.trans ((congrArg distinct histories.2).trans long.imports_eq.symm)
    · exact long.passes_eq.symm
  · rw [mirrors.parallel.quietAt_eq fun first image same => congrArg List.isEmpty same.1]
    rw [Nat.zero_add] at below
    exact busy count below

private theorem finishes_of_never {catalog : Catalog} (coherent : catalog.Coherent)
    (maxPasses : Nat) (unit : CompilationUnit) :
    (run { catalog := catalog.reschedule fun _ _ _ => false, maxPasses } unit
      fun _ => false).report.outcome ≠ .cancelled := by
  have mirrors := mirrors_reschedule TraceRelation.keeps_calm coherent maxPasses maxPasses unit
  intro cancelled
  have took := took_run { catalog := catalog.reschedule fun _ _ _ => false, maxPasses } unit
    fun _ => false
  have ended := outcomeOf_eq_cancelled.mp (took.outcome_eq.symm.trans cancelled)
  apply course_ne_stopped _ ended
  intro count
  rw [stopsAt, Bool.or_false]
  exact mirrors.parallel.same_history count

/-- Two runs after each other report together what one run reports that is allowed the passes of
both, if no custom guard asked to stop. And a run that is cancelled, at whatever time, has done what
an uncancelled run does that is allowed the passes it made. -/
theorem run_resumes_and_truncates (language : Language) (calls : List Builder.Call)
    (unit : CompilationUnit) :
    let engine (maxPasses : Nat) : Engine := { catalog := .load language calls, maxPasses }
    (∀ m n,
      let first := (engine m).run unit fun _ => false
      let second := (engine n).run { unit with root := first.report.root } fun _ => false
      let whole := (engine (m + n)).run unit fun _ => false
      first.stopRequested = false → Continues first.report second.report whole.report) ∧
    ∀ maxPasses stop,
      let cut := ((engine maxPasses).run unit stop).report
      let full asks := run { catalog := (Catalog.load language calls).reschedule asks,
                             maxPasses := cut.passes } unit
      cut.outcome = .cancelled →
        (∀ asks later, (full asks later).report.outcome ≠ .cancelled →
          Truncates cut (full asks later).report) ∧
        (full (fun _ _ _ => false) fun _ => false).report.outcome ≠ .cancelled := by
  intro engine
  have coherent := Catalog.coherent_load language calls
  constructor
  · intro m n first second whole unasked
    have sound : ((engine 0).replacing unit).Sound := sound_replacing coherent rfl unit
    exact @continues_run (engine 0) unit sound m n unasked
  · intro maxPasses stop cut full cancelled
    refine ⟨?_, finishes_of_never coherent cut.passes unit⟩
    intro asks later
    exact truncates_of_cancelled coherent cancelled asks later

/-- A rule that turns one kind of leaf into another. -/
def relabelDraft (before after : String) : RuleDraft :=
  { name := before, pattern := .node (.leaf before "x")
    template := .ofShape (.node (.leaf after "x")) }

theorem relabel_resumes_and_truncates :
    let calls : List Builder.Call := [.add (relabelDraft "a" "b"), .add (relabelDraft "b" "c")]
    let engine (maxPasses : Nat) : Engine :=
      { catalog := .load ({} : Roles).language calls, maxPasses }
    let unit : CompilationUnit := { name := "unit", root := .leaf "a" "x" }
    let first := (engine 1).run unit fun _ => false
    let second := (engine 1).run { unit with root := first.report.root } fun _ => false
    let whole := (engine 2).run unit fun _ => false
    let cut := ((engine 4).run unit fun passes => passes = 1).report
    first.stopRequested = false ∧ Continues first.report second.report whole.report ∧
      whole.report.applied.length = 2 ∧ cut.outcome = .cancelled ∧
        cut.passes = 1 ∧ Truncates cut first.report := by
  intro calls engine unit first second whole cut
  have unasked : first.stopRequested = false := by decide +kernel
  have cancelled : cut.outcome = .cancelled := by decide +kernel
  have passes : cut.passes = 1 := by decide +kernel
  have finished : first.report.outcome ≠ .cancelled := by decide +kernel
  have applied : whole.report.applied.length = 2 := by decide +kernel
  obtain ⟨resumes, truncates⟩ := run_resumes_and_truncates ({} : Roles).language calls unit
  have truncated := (truncates 4 _ cancelled).1 CustomGuard.cancels fun _ => false
  simp only [Catalog.reschedule_cancels] at truncated
  rw [show ((engine 4).run unit _).report.passes = 1 from passes] at truncated
  exact ⟨unasked, resumes 1 1 unasked, applied, cancelled, passes, truncated finished⟩

end Engine

end Codemod
