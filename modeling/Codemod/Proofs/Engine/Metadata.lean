import Codemod.Proofs.Engine.Exhaustive
import Codemod.Proofs.Pass.Resemblance

/-!
# Spans and types as metadata

Where no guard asks for static types, runs over structurally equal trees go alike: spans and types
decide nothing, and the reports differ in them only.
-/

namespace Codemod

private theorem Trace.pending_of_relocated {move look : Location → Location} {first image : Trace}
    (same : (TraceRelation.relocated move look).same first image) :
    Engine.pending first = Engine.pending image := by
  have kinds (place : Location → Location) (told : List Diagnostic) :
      (told.map (Diagnostic.relocate place)).countP (·.kind = .passLimitExceeded) =
        told.countP (·.kind = .passLimitExceeded) := List.countP_map
  have told := congrArg (List.countP (·.kind = .passLimitExceeded))
    (TraceRelation.diagnostics_of_relocated same)
  exact (kinds move _).symm.trans (told.trans (kinds look _))

/-- The states of two runs over like trees that have told the same up to where things are. -/
structure Progress.Alike (trees : Tree → Tree → Prop) (move look : Location → Location)
    (progress twin : Progress) : Prop where
  root : trees progress.root twin.root
  applied : progress.applied.map (Applied.relocate move) =
    twin.applied.map (Applied.relocate look)
  diagnostics : progress.diagnostics.map (Diagnostic.relocate move) =
    twin.diagnostics.map (Diagnostic.relocate look)
  imports_eq : twin.imports = progress.imports
  passes_eq : twin.passes = progress.passes
  statistics_eq : twin.statistics = progress.statistics
  stopRequested_eq : twin.stopRequested = progress.stopRequested

namespace Progress.Alike

variable {trees : Tree → Tree → Prop} {move look : Location → Location} {progress twin : Progress}

private theorem record (alike : progress.Alike trees move look twin) (record other : LogRecord) :
    (progress.record record).Alike trees move look (twin.record other) :=
  ⟨alike.root, alike.applied, alike.diagnostics, alike.imports_eq, alike.passes_eq,
    alike.statistics_eq, alike.stopRequested_eq⟩

private theorem afterPass (alike : progress.Alike trees move look twin) {pass image : Traced Tree}
    (related : Traced.Related (.relocated move look) trees pass image) (name other : String) :
    (progress.afterPass name pass).Alike trees move look (twin.afterPass other image) := by
  obtain ⟨root, told⟩ := related
  have imports : image.trace.imports = pass.trace.imports :=
    congrArg distinct (TraceRelation.imports_of_relocated told).symm
  have statistics := TraceRelation.statistics_of_relocated told
  have stops := TraceRelation.requestsStop_of_relocated told
  constructor <;> simp only [Progress.afterPass]
  · exact root
  · rw [List.map_append, List.map_append, alike.applied,
      TraceRelation.applied_of_relocated told]
  · exact TraceRelation.diagnostics_of_relocated told
  · rw [alike.imports_eq, imports]
  · rw [alike.passes_eq]
  · rw [alike.statistics_eq, statistics]
  · rw [alike.stopRequested_eq, stops]

private theorem afterSurvey (alike : progress.Alike trees move look twin) {survey image : Trace}
    (told : (TraceRelation.relocated move look).same survey image) :
    (progress.afterSurvey survey).Alike trees move look (twin.afterSurvey image) := by
  have statistics := TraceRelation.statistics_of_relocated told
  have stops := TraceRelation.requestsStop_of_relocated told
  constructor <;> simp only [Progress.afterSurvey]
  · exact alike.root
  · exact alike.applied
  · exact TraceRelation.diagnostics_of_relocated told
  · exact alike.imports_eq
  · exact alike.passes_eq
  · rw [alike.statistics_eq, statistics]
  · rw [alike.stopRequested_eq, stops]

end Progress.Alike

namespace Engine

variable {trees : Tree → Tree → Prop} {move look : Location → Location} {engine other : Engine}
  {unit twinUnit : CompilationUnit} {progress twin : Progress}

namespace Parallel

private theorem alike_endOfPasses
    (parallel : Parallel (.relocated move look) trees engine other unit twinUnit)
    (alike : progress.Alike trees move look twin) :
    (engine.endOfPasses unit progress).1.Alike trees move look
        (other.endOfPasses twinUnit twin).1 ∧
      (other.endOfPasses twinUnit twin).2 = (engine.endOfPasses unit progress).2 := by
  have told := (parallel.surveys alike.root).2
  have pending := Trace.pending_of_relocated told
  have surveyed := alike.afterSurvey told
  unfold endOfPasses
  simp only [pending]
  split
  · exact ⟨surveyed, rfl⟩
  · exact ⟨surveyed.record _ _, rfl⟩

theorem alike_continueRun
    (parallel : Parallel (.relocated move look) trees engine other unit twinUnit)
    (stop : Nat → Bool) (remaining : Nat) (alike : progress.Alike trees move look twin) :
    (engine.continueRun unit stop remaining progress).1.Alike trees move look
        (other.continueRun twinUnit stop remaining twin).1 ∧
      (other.continueRun twinUnit stop remaining twin).2 =
        (engine.continueRun unit stop remaining progress).2 := by
  induction remaining generalizing progress twin with
  | zero =>
    rw [continueRun, continueRun, alike.stopRequested_eq, alike.passes_eq]
    split
    · exact ⟨alike.record _ _, rfl⟩
    · exact parallel.alike_endOfPasses alike
  | succ more ih =>
    rw [continueRun, continueRun, alike.stopRequested_eq, alike.passes_eq]
    split
    · exact ⟨alike.record _ _, rfl⟩
    · have related := parallel.passes alike.root
      have next := alike.afterPass related unit.name twinUnit.name
      have quiet : ((other.replacing twinUnit).run twin.root).trace.applied.isEmpty =
          ((engine.replacing unit).run progress.root).trace.applied.isEmpty := by
        have lengths := congrArg List.isEmpty (TraceRelation.applied_of_relocated related.2)
        rw [List.isEmpty_map, List.isEmpty_map] at lengths
        exact lengths.symm
      simp only [quiet]
      split
      · exact ⟨next, rfl⟩
      · exact ih next

end Parallel

end Engine

def Location.withoutSpan (location : Location) : Location :=
  { location with span := .generated }

/-- Structurally equal trees at the same places. Locations are told without their spans. -/
def Correspondence.structural : Correspondence where
  toResemblance := .structural
  paths := Eq
  scopes := Eq
  left := Location.withoutSpan
  right := Location.withoutSpan
  path_concat := by
    rintro path _ rfl index
    rfl
  located := by
    rintro path _ span twinSpan rfl _ statements
    rfl

variable {r : Resemblance} {tree twin : Tree}

namespace Roles

private theorem statedVersion_eq (roles : Roles) (alike : r.trees tree twin) :
    roles.statedVersion twin = roles.statedVersion tree := by
  have children := r.children alike
  rw [statedVersion, statedVersion, r.kind_eq alike]
  generalize tree.children = arguments at children ⊢
  generalize twin.children = others at children ⊢
  cases children with
  | nil => rfl
  | @cons argument other _ _ first _ =>
    show (do guard (tree.kind = roles.versionMark); Text.uint32? (← other.text)) =
      do guard (tree.kind = roles.versionMark); Text.uint32? (← argument.text)
    rw [r.text_eq first]

private theorem declaredVersion_eq (roles : Roles) (alike : r.trees tree twin) :
    roles.language.declaredVersion twin = roles.language.declaredVersion tree := by
  have stated {children twins : List Tree} (each : List.Forall₂ r.trees children twins) :
      twins.filterMap roles.statedVersion = children.filterMap roles.statedVersion := by
    induction each with
    | nil => rfl
    | cons first _ ih =>
      rw [List.filterMap_cons, List.filterMap_cons, roles.statedVersion_eq first, ih]
  exact congrArg List.max? (stated (r.children alike))

end Roles

private theorem CallLayout.memberOf_eq (layoutOf : String → Option CallLayout)
    (alike : r.trees tree twin) : memberOf layoutOf twin = memberOf layoutOf tree := by
  rw [memberOf, memberOf, r.kind_eq alike]
  cases layoutOf tree.kind with
  | none => rfl
  | some layout =>
    have child := rel_getElem? (r.children alike) layout.member
    simp only [Option.bind_eq_bind, Option.bind_some]
    generalize tree.children[layout.member]? = found at child ⊢
    generalize twin.children[layout.member]? = other at child ⊢
    cases child with
    | none => rfl
    | some here => exact r.text_eq here

private theorem Catalog.lookupWords_eq {language : Language}
    (byLayout : language.member = CallLayout.memberOf language.callLayout)
    (alike : r.trees tree twin) : lookupWords language twin = lookupWords language tree := by
  rw [lookupWords, lookupWords, byLayout, CallLayout.memberOf_eq _ alike, r.kind_eq alike]

/-- What a rule requires involves neither static types nor tests from outside. -/
def Rule.Untyped (rule : Rule) : Prop :=
  ∀ leaf ∈ rule.leaves, leaf.readsType = false ∧ leaf.isCustom = false

instance (rule : Rule) : Decidable rule.Untyped :=
  inferInstanceAs (Decidable (∀ leaf ∈ rule.leaves, _ ∧ _))

namespace Catalog.Coherent

variable {catalog : Catalog}

private theorem receiver_eq_none (coherent : catalog.Coherent) {rule : Rule}
    (isRule : rule ∈ catalog.rules) (untyped : rule.Untyped) : rule.trigger.receiver = none := by
  obtain ⟨place, here⟩ := List.mem_iff_getElem?.mp isRule
  rcases (coherent.rules place rule here).receiver_cases with none_there | pinned
  · exact none_there
  · rw [pinned, Option.bind_eq_none_iff]
    intro guard required
    rw [Option.eq_none_iff_forall_ne_some]
    intro type asked
    have leaf : .receiverType type ∈ rule.leaves := by
      rw [Rule.leaves, required]
      exact Guard.receiverType_mem_leaves guard asked
    exact absurd (untyped _ leaf).1 (by simp [Guard.readsType])

private theorem candidates_eq (coherent : catalog.Coherent)
    (byLayout : catalog.language.member = CallLayout.memberOf catalog.language.callLayout)
    (untyped : ∀ rule ∈ catalog.rules, rule.Untyped) (alike : r.trees tree twin) :
    catalog.candidates twin = catalog.candidates tree := by
  rw [coherent.candidates_eq_filter, coherent.candidates_eq_filter]
  apply List.filter_congr
  intro rule isRule
  have unpinned := coherent.receiver_eq_none isRule (untyped rule isRule)
  simp only [Trigger.Fits, unpinned, lookupWords_eq byLayout alike, true_or, and_true]

end Catalog.Coherent

private theorem Pass.indifferent_structural {roles : Roles} {catalog : Catalog}
    (language : catalog.language = roles.language) (coherent : catalog.Coherent)
    (untyped : ∀ rule ∈ catalog.rules, rule.Untyped) (platform : Platform) (mode : Mode) :
    Indifferent .structural ⟨catalog, catalog.candidates, platform, mode⟩ where
  overlooks := by
    rw [Pass.language, language]
    exact roles.overlooks _
  lookup := coherent.candidates_eq (by rw [language]; rfl) untyped
  scope := by
    rintro scope _ tree twin rfl alike
    have declared := @Roles.declaredVersion_eq .structural _ _ roles alike
    simp only [Correspondence.structural, innerScope, Pass.language, language, declared]
  verdict := by
    rintro scope _ anchor twin rule bindings others tried rfl alike resembles
    apply Rule.verdict_congr
    intro leaf member
    have isRule := Catalog.mem_rules_of_candidate tried
    obtain ⟨noType, builtIn⟩ := untyped rule isRule leaf member
    cases leaf with
    | minVersion required => rfl
    | capability name => rfl
    | receiverType type => contradiction
    | captureType capture types => contradiction
    | unreferenced name within => exact Guard.checkUnreferenced_eq resembles name within
    | custom guard => contradiction
    | all inner => exact absurd member rule.all_notMem_leaves
  cancels := by
    intro scope twinScope anchor twin rule bindings others tried _ _ _
    have builtIn : ∀ leaf ∈ rule.leaves, leaf.isCustom = false := fun leaf member =>
      (untyped rule (Catalog.mem_rules_of_candidate tried) leaf member).2
    rw [rule.cancels_eq_false builtIn, rule.cancels_eq_false builtIn]

namespace Engine

/-- Two reports differ in spans and types only. -/
structure MetadataApart (report twin : Report) : Prop where
  root : report.root.same twin.root
  applied : report.applied.map (Applied.relocate Location.withoutSpan) =
    twin.applied.map (Applied.relocate Location.withoutSpan)
  diagnostics : report.diagnostics.map (Diagnostic.relocate Location.withoutSpan) =
    twin.diagnostics.map (Diagnostic.relocate Location.withoutSpan)
  imports_eq : twin.imports = report.imports
  passes_eq : twin.passes = report.passes
  outcome_eq : twin.outcome = report.outcome
  matchCounts_eq : twin.statistics.matchCounts = report.statistics.matchCounts
  appliedCounts_eq : twin.statistics.appliedCounts = report.statistics.appliedCounts

private theorem parallel_structural {roles : Roles} {engine : Engine}
    (language : engine.catalog.language = roles.language) (coherent : engine.catalog.Coherent)
    (indexed : engine.lookup = engine.catalog.candidates)
    (untyped : ∀ rule ∈ engine.catalog.rules, rule.Untyped) {unit twin : CompilationUnit}
    (context : twin.platform = unit.platform) (same : unit.root.same twin.root) :
    Parallel (.relocated Location.withoutSpan Location.withoutSpan)
      (fun tree twin => tree.same twin = true) engine engine unit twin := by
  have sound := sound_replacing coherent indexed unit
  have visits (mode : Mode)
      (sound : Pass.Sound ⟨engine.catalog, engine.lookup, unit.platform, mode⟩)
      {tree image : Tree} (alike : tree.same image = true) :
      Traced.Related (.relocated Location.withoutSpan Location.withoutSpan)
        (fun tree twin => tree.same twin = true)
        (Pass.run ⟨engine.catalog, engine.lookup, unit.platform, mode⟩ tree)
        (Pass.run ⟨engine.catalog, engine.lookup, unit.platform, mode⟩ image) := by
    rw [indexed] at sound ⊢
    have indifferent :=
      Pass.indifferent_structural language coherent untyped unit.platform mode
    exact (indifferent.simulates sound).visit rfl rfl alike
  refine ⟨same, fun alike => ?_, fun alike => ?_⟩
  · rw [replacing, replacing, context]
    exact visits .replace sound alike
  · rw [surveying, surveying, context]
    exact visits .survey (sound_surveying sound) alike

/-- Where no rule asks for types, the reports on structurally equal trees differ in spans and types
only. -/
theorem metadata_decides_nothing (roles : Roles) (calls : List Builder.Call) (maxPasses : Nat)
    (untyped : ∀ rule ∈ (Catalog.load roles.language calls).rules, rule.Untyped)
    (unit twin : CompilationUnit) (context : twin.platform = unit.platform)
    (same : unit.root.same twin.root) (stop : Nat → Bool) :
    let engine : Engine := { catalog := .load roles.language calls, maxPasses }
    MetadataApart (engine.run unit stop).report (engine.run twin stop).report := by
  intro engine
  have parallel := @parallel_structural roles engine
    (Catalog.language_load roles.language calls) (Catalog.coherent_load roles.language calls) rfl
    untyped unit twin context same
  have start : Progress.Alike (fun tree twin => tree.same twin = true) Location.withoutSpan
      Location.withoutSpan { root := unit.root } { root := twin.root } :=
    ⟨same, rfl, rfl, rfl, rfl, rfl, rfl⟩
  obtain ⟨alike, outcome⟩ := parallel.alike_continueRun stop maxPasses start
  have matched := congrArg Statistics.matchCounts alike.statistics_eq
  have applied := congrArg Statistics.appliedCounts alike.statistics_eq
  exact
    { root := alike.root
      applied := alike.applied
      diagnostics := alike.diagnostics
      imports_eq := alike.imports_eq
      passes_eq := alike.passes_eq
      outcome_eq := outcome
      matchCounts_eq := matched
      appliedCounts_eq := applied }

/-- A rule that drops the second of two equal operands where the platform is new enough. -/
def dropDraft : RuleDraft :=
  { name := "drop"
    pattern := .node (.branch "or" [.hole (.capturing "x" .expression),
      .hole (.referringTo "x")])
    template := .ofShape (.node (.hole (.capturing "x" .expression)))
    guard := some (.minVersion 3) }

theorem drop_ignores_types :
    let engine : Engine :=
      { catalog := .load ({} : Roles).language [.add dropDraft], maxPasses := 4 }
    let plain : Tree := .leaf Tree.nameKind "y"
    let typed : Tree := (plain.withType "Flag").withSpan ⟨⟨1, none, "y or y"⟩, 5, 6⟩
    let unit : CompilationUnit :=
      { name := "unit", root := .branch "or" [plain, typed], platform := { minVersion := some 4 } }
    let twin := { unit with root := .branch "or" [typed, plain] }
    unit.root.same twin.root ∧ (engine.run unit fun _ => false).report.root.type = none ∧
      (engine.run twin fun _ => false).report.root.type = some "Flag" ∧
        MetadataApart (engine.run unit fun _ => false).report
          (engine.run twin fun _ => false).report := by
  intro engine plain typed unit twin
  have same : unit.root.same twin.root := by decide +kernel
  exact ⟨same, by decide +kernel, by decide +kernel,
    metadata_decides_nothing ({} : Roles) [.add dropDraft] 4 (by decide +kernel) unit twin rfl same
      fun _ => false⟩

end Engine

end Codemod
