import Codemod.Proofs.Engine.Passes
import Codemod.Proofs.Guard.Leaves
import Codemod.Proofs.Pass.Exclusion

/-!
# What a run applies

Whenever a run stops, what it applied leads step by step from the tree it was given to the tree it
reports, and each step had the consent of its guard for the place in the tree its pass started from.
No other step of the same pass reaches into what a composite rule claimed.
-/

namespace Codemod

namespace Engine

variable {engine : Engine} {unit : CompilationUnit}

private theorem chain_passApplied (sound : (engine.replacing unit).Sound) (count : Nat) :
    Chain ((engine.replacing unit).Performs (engine.passStart unit count) [])
      (engine.passApplied unit count) (engine.passStart unit count)
      (engine.passStart unit (count + 1)) :=
  Pass.leads_run rfl sound (engine.passStart unit count)

/-- A step of some rule of the catalog. -/
def Step (catalog : Catalog) (entry : Applied) (before after : Tree) : Prop :=
  ∃ found anchor place, catalog.rules[entry.rule]? = some found.rule ∧
    Rewrites catalog.language found anchor place before after

theorem chain_passes (sound : (engine.replacing unit).Sound) (passes : Nat) :
    Chain (Step engine.catalog) ((List.range passes).flatMap (engine.passApplied unit))
      unit.root (engine.passStart unit passes) := by
  induction passes with
  | zero => exact .nil unit.root
  | succ passes ih =>
    rw [List.range_succ, List.flatMap_append, List.flatMap_singleton]
    apply ih.append
    apply (chain_passApplied sound passes).imp
    rintro entry before after ⟨found, anchor, place, _, _, applies, _⟩
    exact ⟨found, anchor, place, applies.isRule, applies.rewrites⟩

/-- Every run is a chain of rewrites of one site each. -/
theorem run_rewrites_site_by_site (language : Language) (calls : List Builder.Call)
    (maxPasses : Nat) (unit : CompilationUnit) (stop : Nat → Bool) :
    let engine : Engine := { catalog := .load language calls, maxPasses }
    let report := (engine.run unit stop).report
    ∃ stage : Nat → Tree, stage 0 = unit.root ∧ stage report.applied.length = report.root ∧
      ∀ (index : Nat) (entry : Applied), report.applied[index]? = some entry →
        ∃ found anchor place, engine.catalog.rules[entry.rule]? = some found.rule ∧
          Rewrites language found anchor place (stage index) (stage (index + 1)) := by
  intro engine report
  have sound : (engine.replacing unit).Sound :=
    sound_replacing (Catalog.coherent_load language calls) rfl unit
  have ⟨root_eq, applied_eq⟩ := report_eq_passes engine unit stop
  have chain := chain_passes sound report.passes
  rw [← applied_eq, ← root_eq] at chain
  have sameLanguage : engine.catalog.language = language := Catalog.language_load language calls
  unfold Step at chain
  rw [sameLanguage] at chain
  exact chain.exists_stages

/-- What the guard of a match has accepted at a place with some trees around it. A version that it
asks for is met by one that the unit states or that a tree around the place declares. -/
structure Consented (language : Language) (platform : Platform) (found : Match) (anchor : Tree)
    (around : List Tree) (guard : Guard) : Prop where
  accepts : guard.evaluate found.bindings
    ⟨language.versionAround platform.minVersion around, platform.capabilities,
      language.receiverType anchor⟩ = .accept
  versions : ∀ required, .minVersion required ∈ guard.leaves →
    ∃ version, language.versionAround platform.minVersion around = some version ∧
      required ≤ version ∧
      (platform.minVersion = some version ∨
        ∃ tree ∈ around, language.declaredVersion tree = some version)
  capabilities : ∀ name, .capability name ∈ guard.leaves → name ∈ platform.capabilities
  receivers : ∀ type, .receiverType type ∈ guard.leaves →
    language.receiverType anchor = some type

private theorem consented_of_accept {language : Language} {platform : Platform} {found : Match}
    {anchor : Tree} {around : List Tree} {guard : Guard}
    (accepts : guard.evaluate found.bindings
      ⟨language.versionAround platform.minVersion around, platform.capabilities,
        language.receiverType anchor⟩ = .accept) :
    Consented language platform found anchor around guard := by
  have leaves := (Guard.evaluate_eq_accept_iff _ _ guard).mp accepts
  refine ⟨accepts, ?_, ?_, ?_⟩
  · intro required leaf
    obtain ⟨version, holds, enough⟩ := Guard.minVersion_accepts_iff.mp (leaves _ leaf)
    exact ⟨version, holds, enough, Language.exists_of_versionAround holds⟩
  · intro name leaf
    exact Guard.capability_accepts_iff.mp (leaves _ leaf)
  · intro type leaf
    exact Guard.receiverType_accepts_iff.mp (leaves _ leaf)

/-- Each application of a pass had the consent of its guard under the greatest version that the unit
states or a tree around its place declares in the tree the pass started from. -/
theorem applied_under_consent (language : Language) (calls : List Builder.Call) (maxPasses : Nat)
    (unit : CompilationUnit) (stop : Nat → Bool) :
    let engine : Engine := { catalog := .load language calls, maxPasses }
    let report := (engine.run unit stop).report
    report.applied = (List.range report.passes).flatMap (engine.passApplied unit) ∧
      report.root = engine.passStart unit report.passes ∧
      ∀ count, ∃ stage : Nat → Tree, stage 0 = engine.passStart unit count ∧
        stage (engine.passApplied unit count).length = engine.passStart unit (count + 1) ∧
        ∀ (index : Nat) (entry : Applied), (engine.passApplied unit count)[index]? = some entry →
          ∃ found anchor place, engine.catalog.rules[entry.rule]? = some found.rule ∧
            Rewrites language found anchor place (stage index) (stage (index + 1)) ∧
            Follows (engine.passStart unit count) entry.location.path (stage index) place ∧
            entry.location.statements.isSome = found.rule.pattern.isWindow ∧
            ∀ guard, found.rule.guard = some guard →
              Consented language unit.platform found anchor
                (entry.location.around (engine.passStart unit count)) guard := by
  intro engine report
  have sound : (engine.replacing unit).Sound :=
    sound_replacing (Catalog.coherent_load language calls) rfl unit
  have ⟨root_eq, applied_eq⟩ := report_eq_passes engine unit stop
  refine ⟨applied_eq, root_eq, ?_⟩
  intro count
  obtain ⟨stage, starts, ends, steps⟩ := (chain_passApplied sound count).exists_stages
  refine ⟨stage, starts, ends, ?_⟩
  intro index entry here
  obtain ⟨found, anchor, place, origin, path, applies, fromRoot, whole, follows⟩ :=
    steps index entry here
  cases fromRoot
  rw [List.nil_append] at whole
  have sameLanguage : (engine.replacing unit).language = language :=
    Catalog.language_load language calls
  refine ⟨found, anchor, place, applies.isRule, sameLanguage ▸ applies.rewrites, whole ▸ follows,
    applies.located, ?_⟩
  intro guard isGuard
  have accepts := applies.admits guard isGuard
  rw [Pass.factsAt, Pass.versionAt] at accepts
  rw [sameLanguage] at accepts
  exact consented_of_accept accepts

/-- Two applications of one pass are at different places, and the claim of a composite rule keeps
the others out. -/
theorem composite_claims_exclusive (language : Language) (calls : List Builder.Call)
    (maxPasses : Nat) (unit : CompilationUnit) (stop : Nat → Bool) :
    let engine : Engine := { catalog := .load language calls, maxPasses }
    let report := (engine.run unit stop).report
    report.applied = (List.range report.passes).flatMap (engine.passApplied unit) ∧
      ∀ (count first second : Nat) (a b : Applied), first ≠ second →
        (engine.passApplied unit count)[first]? = some a →
        (engine.passApplied unit count)[second]? = some b →
          ¬a.location.SamePlace b.location ∧
            ∃ rule, engine.catalog.rules[a.rule]? = some rule ∧
              (rule.pattern.composite = true → ¬b.location.ReachesInto a.location) := by
  intro engine report
  have sound : (engine.replacing unit).Sound :=
    sound_replacing (Catalog.coherent_load language calls) rfl unit
  refine ⟨(report_eq_passes engine unit stop).2, ?_⟩
  intro count first second a b apart here there
  have exclusive := exclusive_of_getElem?
    (Pass.exclusive_run rfl sound (engine.passStart unit count)) apart here there
  obtain ⟨_, _, _, steps⟩ := (chain_passApplied sound count).exists_stages
  obtain ⟨found, _, _, _, _, applies, _⟩ := steps first a here
  exact ⟨exclusive.differ, found.rule, applies.isRule, exclusive.first found.rule applies.isRule⟩

end Engine

end Codemod
