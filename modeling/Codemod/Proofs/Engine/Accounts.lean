import Codemod.Proofs.Catalog.RuleOrder
import Codemod.Proofs.Engine.Course
import Codemod.Proofs.Pass.Accounts

/-!
# Accounts of a run

Applications, imports and counts are kept apart during a run and put together pass by pass. They
tell of the same rules whenever the run stops, and the survey after the last pass adds only
matches.
-/

namespace Codemod

/-- What a run applied, imported and counted so far came of the same rules of a catalog. -/
structure Progress.Accounts (progress : Progress) (catalog : Catalog) (rules : List Rule) :
    Prop where
  isRule : ∀ rule ∈ rules, catalog.rules[rule.id]? = some rule
  ids : progress.applied.map (·.rule) = rules.map (·.id)
  names : progress.applied.map (·.name) = rules.map (·.name)
  imports : progress.imports = distinct (rules.flatMap (·.template.imports))
  applied : ∀ name, Tally.get progress.statistics.appliedCounts name =
    (rules.map (·.name)).count name
  matched : ∀ name, (rules.map (·.name)).count name ≤
    Tally.get progress.statistics.matchCounts name

private theorem Progress.accounts_start (root : Tree) (catalog : Catalog) :
    Progress.Accounts { root } catalog [] where
  isRule := List.forall_mem_nil _
  ids := rfl
  names := rfl
  imports := rfl
  applied _ := rfl
  matched _ := Nat.zero_le _

namespace Progress.Accounts

variable {progress : Progress} {pass : Pass} {rules : List Rule}

private theorem record {catalog : Catalog} (accounts : progress.Accounts catalog rules)
    (record : LogRecord) : (progress.record record).Accounts catalog rules :=
  ⟨accounts.isRule, accounts.ids, accounts.names, accounts.imports, accounts.applied,
    accounts.matched⟩

private theorem afterPass (accounts : progress.Accounts pass.catalog rules) (name : String)
    {told : Traced Tree} (balanced : pass.Balanced told.trace) :
    (progress.afterPass name told).Accounts pass.catalog (rules ++ told.trace.appliedRules) where
  isRule := List.forall_mem_append.mpr ⟨accounts.isRule, fun rule applied =>
    balanced.isRule rule (balanced.matched.subset applied)⟩
  ids := by
    simp only [Progress.afterPass, List.map_append, accounts.ids]
    rw [told.trace.map_applied fun _ _ => rfl]
  names := by
    simp only [Progress.afterPass, List.map_append, accounts.names]
    rw [told.trace.map_applied fun _ _ => rfl]
  imports := by
    simp only [Progress.afterPass, accounts.imports, Trace.imports, Trace.flatMap_imports]
    rw [List.flatMap_append, distinct_append]
  applied listed := by
    have unique := told.trace.keyed_statistics.appliedCounts
    simp only [Progress.afterPass, Statistics.union]
    rw [Tally.get_union _ unique, accounts.applied, Trace.get_appliedCounts, List.map_append,
      List.count_append]
  matched listed := by
    have unique := told.trace.keyed_statistics.matchCounts
    have here : (told.trace.appliedRules.map (·.name)).count listed ≤
        (told.trace.matchedRules.map (·.name)).count listed := by
      simp only [List.count, List.countP_map]
      exact balanced.matched.countP_le _
    simp only [Progress.afterPass, Statistics.union]
    rw [Tally.get_union _ unique, Trace.get_matchCounts, List.map_append, List.count_append]
    exact Nat.add_le_add (accounts.matched listed) here

private theorem afterSurvey {catalog : Catalog} (accounts : progress.Accounts catalog rules)
    {survey : Trace} (nothing : survey.appliedRules = []) :
    (progress.afterSurvey survey).Accounts catalog rules where
  isRule := accounts.isRule
  ids := accounts.ids
  names := accounts.names
  imports := accounts.imports
  applied listed := by
    have unique := survey.keyed_statistics.appliedCounts
    simp only [Progress.afterSurvey, Statistics.union]
    rw [Tally.get_union _ unique, accounts.applied, Trace.get_appliedCounts, nothing]
    rfl
  matched listed := by
    have unique := survey.keyed_statistics.matchCounts
    simp only [Progress.afterSurvey, Statistics.union]
    rw [Tally.get_union _ unique]
    exact Nat.le_add_right_of_le (accounts.matched listed)

end Progress.Accounts

namespace Engine

variable {engine : Engine} {unit : CompilationUnit}

theorem appliedRules_survey (sound : (engine.replacing unit).Sound) (root : Tree) :
    ((engine.surveying unit).run root).trace.appliedRules = [] :=
  (Pass.balanced_run (sound_surveying sound) root).surveyed rfl

private theorem accounts_endOfPasses (sound : (engine.replacing unit).Sound) {progress : Progress}
    {rules : List Rule} (accounts : progress.Accounts engine.catalog rules) :
    (engine.endOfPasses unit progress).1.Accounts engine.catalog rules ∧
      (engine.endOfPasses unit progress).1.passes = progress.passes := by
  have surveyed := accounts.afterSurvey (appliedRules_survey sound progress.root)
  unfold endOfPasses
  simp only
  split
  · exact ⟨surveyed, rfl⟩
  · exact ⟨surveyed.record _, rfl⟩

/-- The accounts of a run agree however it stops, and no pass is made beyond those allowed. -/
theorem accounts_continueRun (sound : (engine.replacing unit).Sound) (stop : Nat → Bool)
    (remaining : Nat) {progress : Progress} {rules : List Rule}
    (accounts : progress.Accounts engine.catalog rules) :
    let result := (engine.continueRun unit stop remaining progress).1
    (∃ all, result.Accounts engine.catalog all) ∧ result.passes ≤ progress.passes + remaining := by
  induction remaining generalizing progress rules with
  | zero =>
    rw [continueRun]
    split
    · exact ⟨⟨rules, accounts.record _⟩, Nat.le_refl _⟩
    · obtain ⟨ended, made⟩ := accounts_endOfPasses sound accounts
      exact ⟨⟨rules, ended⟩, Nat.le_of_eq made⟩
  | succ more ih =>
    have before : progress.Accounts (engine.replacing unit).catalog rules := accounts
    have passed := before.afterPass unit.name (Pass.balanced_run sound progress.root)
    rw [continueRun]
    split
    · exact ⟨⟨rules, accounts.record _⟩, Nat.le_add_right _ _⟩
    · simp only
      split
      · exact ⟨⟨_, passed⟩, by simp [Progress.afterPass]⟩
      · obtain ⟨ended, made⟩ := ih passed
        refine ⟨ended, made.trans ?_⟩
        simp only [Progress.afterPass]
        omega

private theorem count_name_eq {catalog : Catalog} (coherent : catalog.Coherent)
    (apart : catalog.rules.Pairwise Rule.Apart) {rules : List Rule}
    (isRule : ∀ rule ∈ rules, catalog.rules[rule.id]? = some rule) {rule : Rule}
    (listed : rule ∈ catalog.rules) :
    (rules.map (·.name)).count rule.name = (rules.map (·.id)).count rule.id := by
  simp only [List.count, List.countP_map]
  apply List.countP_congr
  intro other applied
  have here := isRule other applied
  simp only [Function.comp_apply, beq_iff_eq]
  constructor
  · intro same
    rw [List.inj_on_of_nodup_map (Rule.nodup_names apart) (List.mem_of_getElem? here) listed same]
  · intro same
    rw [same, (coherent.rules.getElem?_id listed).1, Option.some.injEq] at here
    rw [here]

/-- The imports and the statistics of a report account for what it says was applied, however the run
stopped; nothing else adds to them. -/
theorem report_accounts_for_applied (language : Language) (calls : List Builder.Call)
    (maxPasses : Nat) (unit : CompilationUnit) (stop : Nat → Bool) :
    let engine : Engine := { catalog := .load language calls, maxPasses }
    let report := (engine.run unit stop).report
    (∃ rules : List Rule,
        report.applied.map (fun entry => engine.catalog.rules[entry.rule]?) = rules.map some ∧
        report.applied.map (·.name) = rules.map (·.name) ∧
        report.imports = distinct (rules.flatMap (·.template.imports))) ∧
      (∀ rule ∈ engine.catalog.rules,
        let times := report.applied.countP (·.rule = rule.id)
        Tally.get report.statistics.appliedCounts rule.name = times ∧
          times ≤ Tally.get report.statistics.matchCounts rule.name) ∧
      (report.statistics.updated = true ↔ report.applied ≠ []) ∧
      report.statistics.passes = report.passes ∧ report.passes ≤ maxPasses ∧
      (∀ passes, (engine.surveyTrace unit passes).AddsNothing) ∧
      (∀ composite path scope tree,
        let decided := (engine.replacing unit).decideTree composite path scope tree
        decided.value = none ↔ decided.trace.AddsNothing) ∧
      ∀ path statements award,
        let settled := (engine.replacing unit).settleAward path statements award
        settled.value = none ↔ settled.trace.AddsNothing := by
  intro engine report
  have coherent := Catalog.coherent_load language calls
  have apart := Catalog.pairwise_apart_load language calls
  have sound : (engine.replacing unit).Sound := sound_replacing coherent rfl unit
  obtain ⟨⟨rules, accounts⟩, made⟩ := accounts_continueRun sound stop engine.maxPasses
    (Progress.accounts_start unit.root engine.catalog)
  refine ⟨⟨rules, ?_, accounts.names, accounts.imports⟩, ?_, ?_, rfl, ?_, ?_, ?_, ?_⟩
  · have looked_up := congrArg (List.map fun id => engine.catalog.rules[id]?) accounts.ids
    rw [List.map_map, List.map_map] at looked_up
    exact looked_up.trans (List.map_congr_left accounts.isRule)
  · intro rule listed times
    have counted : (rules.map (·.name)).count rule.name = times := by
      rw [count_name_eq coherent apart accounts.isRule listed, ← accounts.ids, List.count,
        List.countP_map]
      rfl
    rw [← counted]
    exact ⟨accounts.applied rule.name, accounts.matched rule.name⟩
  · show (!report.applied.isEmpty) = true ↔ report.applied ≠ []
    simp
  · exact made.trans_eq (Nat.zero_add maxPasses)
  · intro passes
    exact Trace.addsNothing_iff.mpr
      (Trace.appliedRules_eq_nil_iff.mp (appliedRules_survey sound _))
  · exact fun composite path scope tree => Pass.decideTree_eq_none_iff rfl composite path scope tree
  · exact fun path statements award => Pass.settleAward_eq_none_iff rfl path statements award

/-- A rule that makes a branch without children one of another kind. -/
def kindDraft (name kind target : String) (imports : List String) : RuleDraft :=
  { name, pattern := .node (.branch kind []), template := ⟨.node (.branch target []), imports⟩ }

/-- One rule rewrites, the next matches what the first makes, and the last changes nothing. -/
def kindCalls : List Builder.Call :=
  [.add (kindDraft "open" "shut" "wide" ["door", "wall"]),
    .add (kindDraft "close" "wide" "tight" ["door", "lock"]),
    .add (kindDraft "keep" "word" "word" ["pen"])]

def kindUnit : CompilationUnit :=
  { name := "unit"
    root := .branch "m" [.branch "shut" [], .branch "word" [], .branch "shut" []] }

theorem pending_matches_uncounted :
    let engine : Engine := { catalog := .load ({} : Roles).language kindCalls, maxPasses := 1 }
    let report := (engine.run kindUnit fun _ => false).report
    report.outcome = .passLimit ∧ report.applied.map (·.name) = ["open", "open"] ∧
      report.imports = ["door", "wall"] ∧
      ∃ rule ∈ engine.catalog.rules, rule.name = "close" ∧
        Tally.get report.statistics.matchCounts rule.name = 2 ∧
        let times := report.applied.countP (·.rule = rule.id)
        Tally.get report.statistics.appliedCounts rule.name = times ∧
          times ≤ Tally.get report.statistics.matchCounts rule.name := by
  intro engine report
  have second : (engine.catalog.rules[1]?).map (·.name) = some "close" := by decide +kernel
  obtain ⟨rule, here, named⟩ := Option.map_eq_some_iff.mp second
  have listed := List.mem_of_getElem? here
  have pending : Tally.get report.statistics.matchCounts rule.name = 2 := by
    rw [named]
    decide +kernel
  have accounts := (report_accounts_for_applied ({} : Roles).language kindCalls 1 kindUnit
    fun _ => false).2.1 rule listed
  refine ⟨by decide +kernel, by decide +kernel, by decide +kernel, rule, listed, named, ?_⟩
  exact ⟨pending, accounts⟩

end Engine

end Codemod
