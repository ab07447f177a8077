import Codemod.Proofs.Engine.Container

/-!
# Files split at their declarations

The run over a container goes on for as long as the slowest of its children needs, and passes over
children that have settled by then change nothing and report nothing new. So its report is put
together from the reports on the children.
-/

namespace Codemod

namespace Guard

variable (asks : CustomGuard → Bindings → Facts → Bool)

mutual

private theorem reschedule_of_builtIn : ∀ guard : Guard,
    (∀ leaf ∈ guard.leaves, leaf.isCustom = false) → guard.reschedule asks = guard
  | .all guards, builtIn => congrArg all (rescheduleAll_of_builtIn guards builtIn)
  | .custom _, builtIn => nomatch builtIn _ (List.mem_singleton_self _)
  | .minVersion _, _ | .capability _, _ | .receiverType _, _ | .captureType _ _, _
  | .unreferenced _ _, _ => rfl

private theorem rescheduleAll_of_builtIn : ∀ guards : List Guard,
    (∀ leaf ∈ leavesAll guards, leaf.isCustom = false) → rescheduleAll asks guards = guards
  | [], _ => rfl
  | guard :: rest, builtIn => by
    rw [leavesAll, List.forall_mem_append] at builtIn
    rw [rescheduleAll, reschedule_of_builtIn guard builtIn.1,
      rescheduleAll_of_builtIn rest builtIn.2]

end

end Guard

private theorem Catalog.reschedule_of_builtIn (asks : CustomGuard → Bindings → Facts → Bool)
    {catalog : Catalog}
    (builtIn : ∀ rule ∈ catalog.rules, ∀ leaf ∈ rule.leaves, leaf.isCustom = false) :
    catalog.reschedule asks = catalog := by
  have each : ∀ rule ∈ catalog.rules, Rule.reschedule asks rule = rule := by
    intro rule isRule
    have leaves := builtIn rule isRule
    rw [Rule.leaves] at leaves
    obtain ⟨_, _, _, guard, _, _, _, _⟩ := rule
    cases guard with
    | none => rfl
    | some guard => simp [Rule.reschedule, guard.reschedule_of_builtIn asks leaves]
  rw [reschedule, List.map_congr_left each, List.map_id']

/-- Without custom guards nothing in a pass asks the engine to stop. -/
theorem Pass.requestsStop_run {catalog : Catalog} {platform : Platform} {mode : Mode}
    (sound : Sound ⟨catalog, catalog.candidates, platform, mode⟩)
    (builtIn : ∀ rule ∈ catalog.rules, ∀ leaf ∈ rule.leaves, leaf.isCustom = false) (root : Tree) :
    (run ⟨catalog, catalog.candidates, platform, mode⟩ root).trace.requestsStop = false := by
  have translates := translates_reschedule TraceRelation.keeps_calm catalog platform mode
  have mirrors := translates.mirrors TraceRelation.keeps_calm sound
  rw [Catalog.reschedule_of_builtIn _ builtIn] at mirrors
  exact (mirrors.run root).2

private theorem Trace.applied_flatMap {α : Type} (items : List α) (told : α → Trace) :
    Trace.applied (items.flatMap told) = items.flatMap fun item => (told item).applied :=
  List.filterMap_flatMap

namespace Engine

variable {engine : Engine} {unit : CompilationUnit}

private theorem le_course {stopped quiet : Nat → Bool} {remaining made : Nat} :
    made ≤ (course stopped quiet remaining made).1 := by
  induction remaining generalizing made with
  | zero =>
    rw [course]
    split <;> exact Nat.le_refl made
  | succ more ih =>
    rw [course]
    split
    · exact Nat.le_refl made
    · split
      · exact Nat.le_succ made
      · exact Nat.le_of_succ_le ih

private theorem lt_course_iff {quiet : Nat → Bool} {remaining made count : Nat} :
    made + count < (course (fun _ => false) quiet remaining made).1 ↔
      count < remaining ∧ ∀ earlier < count, quiet (made + earlier) = false := by
  induction remaining generalizing made count with
  | zero => simp [course]
  | succ more ih =>
    rw [course, if_neg Bool.false_ne_true]
    cases count with
    | zero =>
      refine iff_of_true ?_ ⟨Nat.succ_pos more, fun earlier below => by omega⟩
      split
      · exact Nat.lt_succ_self made
      · exact le_course
    | succ count =>
      have later := @ih (made + 1) count
      simp only [Nat.add_right_comm made 1] at later
      simp only [Nat.forall_lt_succ_left', Nat.add_lt_add_iff_right, Nat.add_zero, ← Nat.add_assoc]
      cases quiet made with
      | true => simp
      | false => simpa using later

private theorem passStart_of_quiet (sound : (engine.replacing unit).Sound) {count later : Nat}
    (quiet : engine.quietAt unit count = true) (le : count ≤ later) :
    engine.passStart unit later = engine.passStart unit count := by
  induction later, le using Nat.le_induction with
  | base => rfl
  | succ later _ ih =>
    rw [passStart, ih]
    exact (quietAt_iff.mp quiet).value_eq sound

private theorem quietAt_of_quiet (sound : (engine.replacing unit).Sound) {count later : Nat}
    (quiet : engine.quietAt unit count = true) (le : count ≤ later) :
    engine.quietAt unit later = true := by
  rw [quietAt_iff, passStart_of_quiet sound quiet le]
  exact quietAt_iff.mp quiet

private theorem history_of_quiet {passes later : Nat}
    (quiet : ∀ count, passes ≤ count → engine.quietAt unit count = true) (le : passes ≤ later) :
    (engine.history unit later).applied = (engine.history unit passes).applied ∧
      (engine.history unit later).flatMap Event.imports =
        (engine.history unit passes).flatMap Event.imports := by
  induction later, le using Nat.le_induction with
  | base => exact ⟨rfl, rfl⟩
  | succ later from_here ih =>
    have nothing := List.isEmpty_iff.mp (quiet later from_here)
    rw [history_succ, Trace.applied_append, nothing, List.flatMap_append,
      Trace.imports_eq_nil_of_applied nothing, List.append_nil, List.append_nil]
    exact ih

/-- Nothing in the passes of a run asks the engine to stop. -/
def Calm (engine : Engine) (unit : CompilationUnit) : Prop :=
  ∀ passes, (engine.history unit passes).requestsStop = false

/-- The report on a tree, when nobody outside stops the run. -/
def reportOn (engine : Engine) (unit : CompilationUnit) (tree : Tree) : Report :=
  (engine.run { unit with root := tree } fun _ => false).report

private theorem lt_passes_iff (calm : engine.Calm unit) {count : Nat} :
    count < (engine.run unit fun _ => false).report.passes ↔
      count < engine.maxPasses ∧ ∀ earlier < count, engine.quietAt unit earlier = false := by
  have untold : engine.stopsAt unit (fun _ => false) = fun _ => false := by
    funext passes
    rw [stopsAt, calm, Bool.or_false]
  have passes : (engine.run unit fun _ => false).report.passes =
      (engine.courseOf unit fun _ => false).1 := (took_run engine unit fun _ => false).passes_eq
  have goes_on := @lt_course_iff (engine.quietAt unit) engine.maxPasses 0 count
  simp only [Nat.zero_add] at goes_on
  rw [passes, courseOf, untold, goes_on]

/-- What a run that reached a fixed point reports is what any longer run would. -/
structure Rests (engine : Engine) (unit : CompilationUnit) (report : Report) : Prop where
  quiet : ∀ count, report.passes ≤ count → engine.quietAt unit count = true
  root : ∀ count, report.passes ≤ count → engine.passStart unit count = report.root
  applied : ∀ count, report.passes ≤ count →
    (engine.history unit count).applied = report.applied
  imports : ∀ count, report.passes ≤ count →
    distinct ((engine.history unit count).flatMap Event.imports) = report.imports
  diagnostics : report.diagnostics = ((engine.surveying unit).run report.root).trace.diagnostics

/-- The number of its passes tells what a run has left, applied and imported. -/
theorem report_told (engine : Engine) (unit : CompilationUnit) (stop : Nat → Bool) :
    let report := (engine.run unit stop).report
    report.root = engine.passStart unit report.passes ∧
      report.applied = (engine.history unit report.passes).applied ∧
      report.imports = (engine.history unit report.passes).imports := by
  intro report
  have took := took_run engine unit stop
  have passes : report.passes = (engine.courseOf unit stop).1 := took.passes_eq
  rw [passes]
  exact ⟨took.root_eq, took.applied_eq, took.imports_eq⟩

private theorem reportOn_told (engine : Engine) (unit : CompilationUnit) (tree : Tree) :
    let report := engine.reportOn unit tree
    report.root = engine.passStart { unit with root := tree } report.passes ∧
      report.applied = (engine.history { unit with root := tree } report.passes).applied ∧
      report.imports = (engine.history { unit with root := tree } report.passes).imports :=
  report_told engine { unit with root := tree } fun _ => false

private theorem rests_of_fixedPoint (sound : (engine.replacing unit).Sound) {stop : Nat → Bool}
    (fixed : (engine.run unit stop).report.outcome = .fixedPoint) :
    engine.Rests unit (engine.run unit stop).report := by
  obtain ⟨root, applied, imports⟩ := report_told engine unit stop
  have finished : (engine.run unit stop).report.outcome ≠ .cancelled := by
    rw [fixed]
    decide
  obtain ⟨diagnostics, ⟨settled, _⟩ | ⟨_, limited⟩⟩ := run_verdict sound finished
  · rw [root, ← quietAt_iff] at settled
    have quiet (count : Nat) (later : (engine.run unit stop).report.passes ≤ count) :
        engine.quietAt unit count = true := quietAt_of_quiet sound settled later
    refine ⟨quiet, fun count later => ?_, fun count later => ?_, fun count later => ?_,
      diagnostics⟩
    · rw [root]
      exact passStart_of_quiet sound settled later
    · rw [applied]
      exact (history_of_quiet quiet later).1
    · rw [imports, Trace.imports, (history_of_quiet quiet later).2]
  · rw [fixed] at limited
    contradiction

/-- To the engine trees of a kind are containers, and what stands in them stands alone. -/
structure Contains (engine : Engine) (kind : String) : Prop where
  coherent : engine.catalog.Coherent
  indexed : engine.lookup = engine.catalog.candidates
  isLocal : ∀ rule ∈ engine.catalog.rules, rule.Local
  notBlock : engine.catalog.language.isBlock kind = false
  noRoot : ∀ rule ∈ engine.catalog.rules, ∀ root, rule.pattern.root? = some root →
    root.kind? ≠ some kind

namespace Contains

variable {kind : String} {file : Tree}

private theorem passive (contains : Contains engine kind) (platform : Platform) (mode : Mode) :
    Pass.Passive ⟨engine.catalog, engine.catalog.candidates, platform, mode⟩ kind := by
  refine ⟨contains.notBlock, ?_⟩
  intro tree isKind rule tried
  have isRule := Catalog.mem_rules_of_candidate tried
  rw [Option.eq_none_iff_forall_ne_some]
  intro bindings matched
  obtain ⟨root, isRoot, unified⟩ := Pattern.matchNode_root matched
  obtain ⟨_, compiled⟩ := contains.coherent.rules.getElem?_id isRule
  obtain ⟨other, _, alsoRoot, checked⟩ := compiled.exists_root
  rw [isRoot] at alsoRoot
  cases alsoRoot
  obtain ⟨spelled, isKind'⟩ := Pattern.isSome_kind_of_check checked
  have same := Term.kind_of_unify isKind' unified
  exact contains.noRoot rule isRule root isRoot (by rw [isKind', ← same, isKind])

private theorem sound (contains : Contains engine kind) (platform : Platform) (mode : Mode) :
    Pass.Sound ⟨engine.catalog, engine.catalog.candidates, platform, mode⟩ :=
  Pass.sound_of_coherent contains.coherent rfl

private theorem run (contains : Contains engine file.kind) (platform : Platform) (mode : Mode) :
    let pass : Pass := ⟨engine.catalog, engine.lookup, platform, mode⟩
    (pass.run file).value = file.withChildren (file.children.map fun child =>
        (pass.run child).value) ∧
      TraceRelation.reports.same
        (joinIdx (fun index child => (pass.run child).trace.relocate (.under index)) file.children)
        (pass.run file).trace := by
  intro pass
  have isLocal : ∀ tree, ∀ rule ∈ engine.catalog.candidates tree, rule.Local :=
    fun _ rule tried => contains.isLocal rule (Catalog.mem_rules_of_candidate tried)
  have split := Pass.run_container (contains.sound platform mode) isLocal
    (contains.passive platform mode)
  rwa [← contains.indexed] at split

private theorem calm (contains : Contains engine kind) (unit : CompilationUnit) :
    engine.Calm unit := by
  intro passes
  rw [history, Trace.requestsStop, List.any_flatMap, List.any_eq_false]
  intro count _
  have builtIn : ∀ rule ∈ engine.catalog.rules, ∀ leaf ∈ rule.leaves, leaf.isCustom = false :=
    fun rule isRule leaf member => (contains.isLocal rule isRule leaf member).2
  have untold := Pass.requestsStop_run (contains.sound unit.platform .replace) builtIn
    (engine.passStart unit count)
  rw [← contains.indexed] at untold
  exact Bool.eq_false_iff.mp untold

end Contains

private theorem reports_joinIdx {traces : Tree → Trace} {children : List Tree} {whole : Trace}
    (same : TraceRelation.reports.same
      (joinIdx (fun index child => (traces child).relocate (.under index)) children) whole) :
    whole.applied = joinIdx (fun index child =>
        (traces child).applied.map (Applied.relocate (.under index))) children ∧
      whole.diagnostics = joinIdx (fun index child =>
        (traces child).diagnostics.map (Diagnostic.relocate (.under index))) children ∧
      whole.flatMap Event.imports = joinIdx (fun _ child =>
        (traces child).flatMap Event.imports) children := by
  obtain ⟨applied, diagnostics, imports, _⟩ := same
  rw [← applied, ← diagnostics, ← imports,
    joinIdx_of_append Trace.applied rfl Trace.applied_append,
    joinIdx_of_append Trace.diagnostics rfl fun _ _ => List.filterMap_append,
    joinIdx_of_append (List.flatMap Event.imports) rfl fun _ _ => List.flatMap_append]
  simp only [Trace.applied_relocate, Trace.diagnostics_relocate, Trace.flatMap_imports_relocate,
    true_and]

section Splitting

variable {file : Tree}

private theorem passStart_container (contains : Contains engine file.kind) (unit : CompilationUnit)
    (count : Nat) : engine.passStart { unit with root := file } count =
      file.withChildren (file.children.map fun child =>
        engine.passStart { unit with root := child } count) := by
  induction count with
  | zero =>
    simp only [passStart, List.map_id', Tree.withChildren_children]
  | succ count ih =>
    rw [passStart, ih]
    have split := @Contains.run engine (file.withChildren (file.children.map fun child =>
      engine.passStart { unit with root := child } count)) contains unit.platform .replace
    refine split.1.trans ?_
    simp only [Tree.withChildren, List.map_map]
    rfl

private theorem reports_passTrace (contains : Contains engine file.kind) (unit : CompilationUnit)
    (count : Nat) : TraceRelation.reports.same
      (joinIdx (fun index child => (engine.passTrace { unit with root := child } count).relocate
        (.under index)) file.children) (engine.passTrace { unit with root := file } count) := by
  have split := (@Contains.run engine (file.withChildren (file.children.map fun child =>
    engine.passStart { unit with root := child } count)) contains unit.platform .replace).2
  rw [passTrace, passStart_container contains]
  simp only [Tree.withChildren, joinIdx_map] at split
  exact split

private theorem quietAt_container (contains : Contains engine file.kind) (unit : CompilationUnit)
    (count : Nat) : engine.quietAt { unit with root := file } count = true ↔
      ∀ child ∈ file.children, engine.quietAt { unit with root := child } count = true := by
  have applied := (reports_joinIdx (reports_passTrace contains unit count)).1
  simp only [quietAt, applied, List.isEmpty_iff]
  constructor
  · intro nothing child member
    obtain ⟨index, here⟩ := List.mem_iff_getElem?.mp member
    rw [List.eq_nil_iff_forall_not_mem] at nothing ⊢
    intro entry inPart
    exact nothing (entry.relocate (.under index))
      (mem_joinIdx.mpr ⟨index, child, here, List.mem_map_of_mem inPart⟩)
  · intro quiet
    rw [List.eq_nil_iff_forall_not_mem]
    intro entry member
    obtain ⟨index, child, here, inPart⟩ := mem_joinIdx.mp member
    rw [quiet child (List.mem_of_getElem? here)] at inPart
    contradiction

private theorem lt_passes_container (contains : Contains engine file.kind)
    (nonempty : file.children ≠ []) (unit : CompilationUnit) {count : Nat} :
    count < (engine.reportOn unit file).passes ↔
      ∃ child ∈ file.children, count < (engine.reportOn unit child).passes := by
  simp only [reportOn, lt_passes_iff (contains.calm _)]
  constructor
  · rintro ⟨below, busy⟩
    cases count with
    | zero =>
      obtain ⟨child, member⟩ := List.exists_mem_of_ne_nil _ nonempty
      exact ⟨child, member, below, fun earlier less => by omega⟩
    | succ last =>
      have unquiet := mt (quietAt_container contains unit last).mpr
        (Bool.eq_false_iff.mp (busy last (Nat.lt_succ_self last)))
      push Not at unquiet
      obtain ⟨child, member, loud⟩ := unquiet
      refine ⟨child, member, below, fun earlier less => ?_⟩
      rw [Bool.eq_false_iff]
      intro quiet
      exact loud (quietAt_of_quiet (sound_replacing contains.coherent contains.indexed _) quiet
        (Nat.le_of_lt_succ less))
  · rintro ⟨child, member, below, busy⟩
    refine ⟨below, fun earlier less => ?_⟩
    rw [Bool.eq_false_iff]
    intro quiet
    exact Bool.eq_false_iff.mp (busy earlier less)
      ((quietAt_container contains unit earlier).mp quiet child member)

private theorem filter_history (contains : Contains engine file.kind) (unit : CompilationUnit)
    {index : Nat} {child : Tree} (here : file.children[index]? = some child) (passes : Nat) :
    (engine.history { unit with root := file } passes).applied.filter
        (·.location.path.head? = some index) =
      (engine.history { unit with root := child } passes).applied.map
        (Applied.relocate (.under index)) := by
  simp only [history, Trace.applied_flatMap, List.filter_flatMap, List.map_flatMap]
  congr 1
  funext count
  rw [(reports_joinIdx (reports_passTrace contains unit count)).1]
  apply filter_joinIdx here
  · intro entry member
    obtain ⟨original, _, rfl⟩ := List.mem_map.mp member
    exact decide_eq_true rfl
  · intro other another differs entry member
    obtain ⟨original, _, rfl⟩ := List.mem_map.mp member
    exact decide_eq_false fun same => differs (Option.some.inj same)

private theorem mem_imports_history (contains : Contains engine file.kind) (unit : CompilationUnit)
    {passes : Nat} {name : String} :
    name ∈ (engine.history { unit with root := file } passes).flatMap Event.imports ↔
      ∃ child ∈ file.children,
        name ∈ (engine.history { unit with root := child } passes).flatMap Event.imports := by
  have told (count : Nat) := (reports_joinIdx (reports_passTrace contains unit count)).2.2
  simp only [history, List.flatMap_assoc, told, List.mem_flatMap, mem_joinIdx]
  constructor
  · rintro ⟨count, below, index, child, here, imported⟩
    exact ⟨child, List.mem_of_getElem? here, count, below, imported⟩
  · rintro ⟨child, member, count, below, imported⟩
    obtain ⟨index, here⟩ := List.mem_iff_getElem?.mp member
    exact ⟨count, below, index, child, here, imported⟩

end Splitting

/-- The report on a container is put together from the reports on its children. -/
structure Assembled (file : Tree) (parts : List Report) (report : Report) : Prop where
  outcome_eq : report.outcome = .fixedPoint
  root_eq : report.root = file.withChildren (parts.map (·.root))
  passes_eq : (parts.map (·.passes)).max? = some report.passes
  applied_filter : ∀ (index : Nat) (part : Report), parts[index]? = some part →
    report.applied.filter (·.location.path.head? = some index) =
      part.applied.map (Applied.relocate (.under index))
  nodup_imports : report.imports.Nodup
  mem_imports : ∀ name, name ∈ report.imports ↔ ∃ part ∈ parts, name ∈ part.imports
  diagnostics_eq : report.diagnostics = joinIdx (fun index part =>
    part.diagnostics.map (Diagnostic.relocate (.under index))) parts

private theorem ne_cancelled_of_calm (calm : engine.Calm unit) :
    (engine.run unit fun _ => false).report.outcome ≠ .cancelled := by
  have outcome : (engine.run unit fun _ => false).report.outcome =
      engine.outcomeOf unit (engine.courseOf unit fun _ => false) :=
    (took_run engine unit fun _ => false).outcome_eq
  have untold (passes : Nat) : engine.stopsAt unit (fun _ => false) passes = false := by
    rw [stopsAt, calm, Bool.or_false]
  have unstopped : (engine.courseOf unit fun _ => false).2 ≠ .stopped := course_ne_stopped untold
  rw [outcome]
  cases taken : engine.courseOf unit fun _ => false with
  | mk passes ending =>
    rw [taken] at unstopped
    cases ending with
    | stopped => exact absurd rfl unstopped
    | quiet => simp [outcomeOf]
    | exhausted =>
      rw [outcomeOf]
      split <;> simp

private theorem max?_of_lt_iff {numbers : List Nat} {total : Nat} (nonempty : numbers ≠ [])
    (below : ∀ count, count < total ↔ ∃ number ∈ numbers, count < number) :
    numbers.max? = some total := by
  have bound : ∀ number ∈ numbers, number ≤ total := by
    intro number member
    by_contra beyond
    exact Nat.lt_irrefl total ((below total).mpr ⟨number, member, Nat.lt_of_not_le beyond⟩)
  rw [List.max?_eq_some_iff]
  refine ⟨?_, bound⟩
  cases total with
  | zero =>
    obtain ⟨number, member⟩ := List.exists_mem_of_ne_nil _ nonempty
    exact Nat.le_zero.mp (bound number member) ▸ member
  | succ last =>
    obtain ⟨number, member, above⟩ := (below last).mp (Nat.lt_succ_self last)
    exact Nat.le_antisymm (bound number member) above ▸ member

section Assembling

variable {file : Tree}

private theorem passes_le_container (contains : Contains engine file.kind) {child : Tree}
    (member : child ∈ file.children) :
    (engine.reportOn unit child).passes ≤ (engine.reportOn unit file).passes := by
  by_contra beyond
  have more := (lt_passes_container contains (List.ne_nil_of_mem member) unit).mpr
    ⟨child, member, Nat.lt_of_not_le beyond⟩
  exact Nat.lt_irrefl _ more

private theorem root_container (contains : Contains engine file.kind)
    (rests : ∀ child ∈ file.children,
      engine.Rests { unit with root := child } (engine.reportOn unit child)) :
    (engine.reportOn unit file).root =
      file.withChildren (file.children.map fun child => (engine.reportOn unit child).root) := by
  obtain ⟨told, _, _⟩ := reportOn_told engine unit file
  rw [told, passStart_container contains]
  congr 1
  apply List.map_congr_left
  intro child member
  exact (rests child member).root _ (passes_le_container contains member)

private theorem fixedPoint_container (contains : Contains engine file.kind)
    (rests : ∀ child ∈ file.children,
      engine.Rests { unit with root := child } (engine.reportOn unit child)) :
    (engine.reportOn unit file).outcome = .fixedPoint := by
  have quiet : engine.quietAt { unit with root := file } (engine.reportOn unit file).passes =
      true := by
    rw [quietAt_container contains]
    intro child member
    exact (rests child member).quiet _ (passes_le_container contains member)
  obtain ⟨told, _, _⟩ := reportOn_told engine unit file
  rw [quietAt_iff, ← told] at quiet
  obtain ⟨_, ⟨_, outcome⟩ | ⟨unsettled, _⟩⟩ :=
    run_verdict (sound_replacing contains.coherent contains.indexed { unit with root := file })
      (ne_cancelled_of_calm (contains.calm _))
  · exact outcome
  · exact absurd quiet unsettled

private theorem applied_container (contains : Contains engine file.kind)
    (rests : ∀ child ∈ file.children,
      engine.Rests { unit with root := child } (engine.reportOn unit child))
    {index : Nat} {child : Tree} (here : file.children[index]? = some child) :
    (engine.reportOn unit file).applied.filter (·.location.path.head? = some index) =
      (engine.reportOn unit child).applied.map (Applied.relocate (.under index)) := by
  have member := List.mem_of_getElem? here
  obtain ⟨_, told, _⟩ := reportOn_told engine unit file
  rw [told, filter_history contains unit here,
    (rests child member).applied _ (passes_le_container contains member)]

private theorem mem_imports_container (contains : Contains engine file.kind)
    (rests : ∀ child ∈ file.children,
      engine.Rests { unit with root := child } (engine.reportOn unit child)) (name : String) :
    name ∈ (engine.reportOn unit file).imports ↔
      ∃ child ∈ file.children, name ∈ (engine.reportOn unit child).imports := by
  obtain ⟨_, _, told⟩ := reportOn_told engine unit file
  rw [told, Trace.imports, mem_distinct, mem_imports_history contains]
  apply exists_congr
  intro child
  apply and_congr_right
  intro member
  rw [← (rests child member).imports _ (passes_le_container contains member), mem_distinct]

private theorem diagnostics_container (contains : Contains engine file.kind)
    (rests : ∀ child ∈ file.children,
      engine.Rests { unit with root := child } (engine.reportOn unit child)) :
    (engine.reportOn unit file).diagnostics = joinIdx (fun index child =>
      (engine.reportOn unit child).diagnostics.map (Diagnostic.relocate (.under index)))
        file.children := by
  have surveyed := (reports_joinIdx (@Contains.run engine (file.withChildren
    (file.children.map fun child => (engine.reportOn unit child).root)) contains unit.platform
      .survey).2).2.1
  have rest := rests_of_fixedPoint
    (sound_replacing contains.coherent contains.indexed { unit with root := file })
    (fixedPoint_container contains rests)
  rw [← root_container contains rests] at surveyed
  refine rest.diagnostics.trans (surveyed.trans ?_)
  rw [root_container contains rests, Tree.withChildren, joinIdx_map]
  apply joinIdx_congr
  intro child member index
  rw [(rests child member).diagnostics]
  rfl

/-- A file can be split at its declarations: what a run reports about a container is what runs over
each child alone report. -/
theorem container_splits (language : Language) (calls : List Builder.Call) (maxPasses : Nat)
    (isLocal : ∀ rule ∈ (Catalog.load language calls).rules, rule.Local)
    (unit : CompilationUnit) (file : Tree) (nonempty : file.children ≠ [])
    (notBlock : language.isBlock file.kind = false)
    (noRoot : ∀ rule ∈ (Catalog.load language calls).rules, ∀ root,
      rule.pattern.root? = some root → root.kind? ≠ some file.kind) :
    let engine : Engine := { catalog := .load language calls, maxPasses }
    (∀ child ∈ file.children, (engine.reportOn unit child).outcome = .fixedPoint) →
      Assembled file (file.children.map (engine.reportOn unit)) (engine.reportOn unit file) := by
  intro engine fixed
  have contains : Contains engine file.kind :=
    { coherent := Catalog.coherent_load language calls
      indexed := rfl
      isLocal
      notBlock := (Catalog.language_load language calls).symm ▸ notBlock
      noRoot }
  have rests (child : Tree) (member : child ∈ file.children) :
      engine.Rests { unit with root := child } (engine.reportOn unit child) :=
    rests_of_fixedPoint (sound_replacing contains.coherent contains.indexed _) (fixed child member)
  constructor
  · exact fixedPoint_container contains rests
  · rw [root_container contains rests, List.map_map]
    rfl
  · rw [List.map_map]
    apply max?_of_lt_iff (by simpa using nonempty)
    intro count
    simp only [lt_passes_container contains nonempty, List.mem_map, Function.comp_apply,
      exists_exists_and_eq_and]
  · intro index part here
    rw [List.getElem?_map, Option.map_eq_some_iff] at here
    obtain ⟨child, here, rfl⟩ := here
    exact applied_container contains rests here
  · obtain ⟨_, _, told⟩ := reportOn_told engine unit file
    rw [told]
    exact nodup_distinct _
  · intro name
    simp only [mem_imports_container contains rests, List.mem_map, exists_exists_and_eq_and]
  · rw [diagnostics_container contains rests, joinIdx_map]

end Assembling

/-- A rule that changes the kind of a leaf where the platform is modern. -/
def advanceDraft (source target : String) : RuleDraft :=
  { name := source, pattern := .node (.leaf source "x")
    template := .ofShape (.node (.leaf target "x"))
    guard := some (.capability "modern") }

theorem advance_splits :
    let engine : Engine :=
      { catalog := .load ({} : Roles).language
          [.add (advanceDraft "old" "recent"), .add (advanceDraft "recent" "new")]
        maxPasses := 4 }
    let slow : Tree := .leaf "old" "x"
    let quick : Tree := .leaf "new" "x"
    let file : Tree := .branch "file" [slow, quick]
    let unit : CompilationUnit :=
      { name := "unit", root := file, platform := { capabilities := ["modern"] } }
    (engine.reportOn unit slow).passes = 3 ∧ (engine.reportOn unit quick).passes = 1 ∧
      Assembled file (file.children.map (engine.reportOn unit)) (engine.reportOn unit file) := by
  intro engine slow quick file unit
  have kinds : ∀ rule ∈ engine.catalog.rules,
      rule.pattern.root?.bind Term.kind? ≠ some file.kind := by decide +kernel
  refine ⟨by decide +kernel, by decide +kernel, ?_⟩
  apply container_splits ({} : Roles).language _ 4 (by decide +kernel) unit file (by decide)
    (by decide)
  · intro rule isRule root isRoot same
    apply kinds rule isRule
    rw [isRoot]
    exact same
  · decide +kernel

end Engine

end Codemod
