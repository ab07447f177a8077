import Codemod.Proofs.Catalog.Candidates
import Codemod.Proofs.Engine.Course
import Codemod.Proofs.Pass.Translation

/-!
# Trying every rule

An engine that tries all rules of its catalog everywhere does what the engine does that asks the
index. What it tries in vain leaves no trace but in the statistics and the log.
-/

namespace Codemod

/-- Nothing changes. -/
def Translation.refl : Translation where
  rule rule := rule
  id number := number
  injective _ _ same := same
  id_rule _ := rfl
  name_rule _ := rfl
  pattern_rule _ := rfl
  template_rule _ := rfl
  priority_rule _ := rfl
  verdict_rule _ _ _ := rfl

/-- Two traces report the same, whatever else was tried. -/
def TraceRelation.reports : TraceRelation where
  same first image :=
    first.applied = image.applied ∧ first.diagnostics = image.diagnostics ∧
      first.flatMap Event.imports = image.flatMap Event.imports ∧
        first.requestsStop = image.requestsStop
  nil := ⟨rfl, rfl, rfl, rfl⟩
  append first second := by
    simp only [Trace.applied_append, Trace.diagnostics, List.filterMap_append,
      List.flatMap_append, Trace.requestsStop_append]
    obtain ⟨applied, diagnostics, imports, stops⟩ := first
    obtain ⟨moreApplied, moreDiagnostics, moreImports, moreStops⟩ := second
    rw [Trace.diagnostics, Trace.diagnostics] at diagnostics moreDiagnostics
    rw [applied, diagnostics, imports, stops, moreApplied, moreDiagnostics, moreImports, moreStops]
    exact ⟨rfl, rfl, rfl, rfl⟩

private theorem TraceRelation.keeps_reports : reports.Keeps .refl where
  event event listed := by
    have same : Translation.refl.event event = event := by
      cases event with
      | diagnosed diagnostic =>
        rw [Event.Listed] at listed
        simp only [Translation.event, Translation.refl, List.map_id', listed]
      | _ => rfl
    rw [same]
    exact ⟨rfl, rfl, rfl, rfl⟩
  stop _ _ _ := ⟨rfl, rfl, rfl, rfl⟩

/-- No custom guard of the rule ever asks the engine to stop. -/
def Rule.NeverCancels (rule : Rule) : Prop :=
  ∀ bindings facts, rule.cancels bindings facts = false

namespace Pass

variable {relation : TraceRelation} {pass image : Pass}

/-- A rule that is ruled out claims nothing and reports nothing. -/
theorem claim_of_ruledOut {rule : Rule} {anchor : Tree}
    (ruledOut : rule.RuledOut pass.language anchor) (never : rule.NeverCancels)
    {find : Pattern → Option (Bindings × Extent)} (looks : LooksAt pass.language anchor find)
    (scope : Option Nat) (locate : Extent → Location) :
    (pass.claim rule (find rule.pattern) anchor scope locate).value = [] ∧
      TraceRelation.reports.same []
        (pass.claim rule (find rule.pattern) anchor scope locate).trace := by
  cases matched : find rule.pattern with
  | none => exact ⟨rfl, rfl, rfl, rfl, rfl⟩
  | some pair =>
    obtain ⟨bindings, extent⟩ := pair
    rcases ruledOut with ⟨notThere, notFrom⟩ | ⟨guard, isGuard, against⟩
    · cases looks with
      | node position => simp [notThere] at matched
      | window here => simp [notFrom _ _ here] at matched
    · obtain ⟨why, refuses⟩ := against bindings scope pass.platform.capabilities
      have verdict : rule.verdict bindings (pass.factsAt scope anchor) =
          .refuse (.unsatisfied why) := by
        rw [Rule.verdict, isGuard]
        exact refuses
      have accepts := pass.accepts_eq rule bindings anchor scope (locate extent)
      rw [verdict, never] at accepts
      simp only [claim, accepts]
      exact ⟨rfl, rfl, rfl, rfl, rfl⟩

private theorem related_collect_filter {α β : Type} {change : β → β}
    {steps looks : α → Traced (List β)} {keep : α → Bool} {items : List α}
    (kept : ∀ item ∈ items, keep item = true → Traced.Related relation
      (fun values others => others.Perm (values.map change)) (steps item) (looks item))
    (dropped : ∀ item ∈ items, keep item = false →
      (looks item).value = [] ∧ relation.same [] (looks item).trace) :
    Traced.Related relation (fun values others => others.Perm (values.map change))
      (Traced.collect steps (items.filter keep)) (Traced.collect looks items) := by
  induction items with
  | nil => exact ⟨.nil, relation.nil⟩
  | cons item rest ih =>
    have later := ih (fun other member => kept other (List.mem_cons_of_mem item member))
      (fun other member => dropped other (List.mem_cons_of_mem item member))
    simp only [Traced.Related, Traced.value_collect, Traced.trace_collect] at later ⊢
    cases kind : keep item with
    | true =>
      obtain ⟨values, traces⟩ := kept item List.mem_cons_self kind
      rw [List.filter_cons_of_pos kind]
      simp only [List.flatMap_cons, List.map_append]
      exact ⟨values.append later.1, relation.append traces later.2⟩
    | false =>
      obtain ⟨nothing, silent⟩ := dropped item List.mem_cons_self kind
      rw [List.filter_cons_of_neg (by simp [kind])]
      simp only [List.flatMap_cons, nothing, List.nil_append]
      exact ⟨later.1, relation.append silent later.2⟩

/-- A pass that tries all rules claims what a pass claims that tries those which are offered. -/
theorem translates_exhaustive {catalog : Catalog} (coherent : catalog.Coherent)
    (laidOut : catalog.language.CallsByLayout)
    (plain : ∀ rule ∈ catalog.rules, rule.pattern.shape.Plain)
    (never : ∀ rule ∈ catalog.rules, rule.NeverCancels) (platform : Platform) (mode : Mode) :
    Translates .reports .refl ⟨catalog, catalog.candidates, platform, mode⟩
      ⟨catalog, fun _ => catalog.rules, platform, mode⟩ where
  language_eq := rfl
  platform_eq := rfl
  mode_eq := rfl
  rules_eq id := Option.map_id'.symm
  claims sort find anchor scope locate looks := by
    simp only [claimsWith, coherent.candidates_eq_filter]
    rw [List.filter_comm]
    apply related_collect_filter
    · intro rule _ _
      have related := @related_claim .reports .refl
        ⟨catalog, catalog.candidates, platform, mode⟩
        ⟨catalog, fun _ => catalog.rules, platform, mode⟩ TraceRelation.keeps_reports rfl rfl rule
        (find rule.pattern) anchor scope locate
      exact ⟨.of_eq related.1, related.2⟩
    · intro rule member dropped
      have isRule := List.mem_of_mem_filter member
      have left : rule ∉ catalog.candidates anchor := by
        rw [coherent.mem_candidates_iff]
        exact fun both => of_decide_eq_false dropped both.2
      have ruledOut := coherent.ruledOut laidOut isRule (plain rule isRule) left
      exact @claim_of_ruledOut ⟨catalog, fun _ => catalog.rules, platform, mode⟩ rule anchor
        ruledOut (never rule isRule) find looks scope locate

end Pass

namespace Engine

/-- Two reports tell the same, but for names and statistics. -/
structure ReportsAlike (report other : Report) : Prop where
  root_eq : other.root = report.root
  applied_eq : other.applied = report.applied
  diagnostics_eq : other.diagnostics = report.diagnostics
  imports_eq : other.imports = report.imports
  passes_eq : other.passes = report.passes
  outcome_eq : other.outcome = report.outcome

private theorem reportsAlike_of_mirrors {engine other : Engine} {unit : CompilationUnit}
    (mirrors : Mirrors .reports engine other unit) (limit : other.maxPasses = engine.maxPasses)
    (stop : Nat → Bool) :
    ReportsAlike (engine.run unit stop).report (other.run unit stop).report := by
  have applies (first image : Trace) (same : TraceRelation.reports.same first image) :
      first.applied.isEmpty = image.applied.isEmpty := congrArg List.isEmpty same.1
  have course := mirrors.parallel.courseOf_eq applies (fun _ _ same => same.2.2.2) limit stop
  have one := took_run engine unit stop
  have two := took_run other unit stop
  rw [course] at two
  have histories := mirrors.parallel.same_history (engine.courseOf unit stop).1
  have closings := mirrors.parallel.same_closing (engine.courseOf unit stop)
  constructor
  · exact two.root_eq.trans ((mirrors.parallel.passStart _).symm.trans one.root_eq.symm)
  · exact two.applied_eq.trans (histories.1.symm.trans one.applied_eq.symm)
  · exact two.diagnostics_eq.trans (closings.2.1.symm.trans one.diagnostics_eq.symm)
  · exact two.imports_eq.trans
      ((congrArg distinct histories.2.2.1).symm.trans one.imports_eq.symm)
  · exact two.passes_eq.trans one.passes_eq.symm
  · exact two.outcome_eq.trans ((mirrors.parallel.outcomeOf_eq applies _).trans one.outcome_eq.symm)

/-- The trigger index leaves out nothing that could apply: the rules it offers come in catalog order,
any other rule is ruled out, and an engine that tries every rule everywhere reports the same. -/
theorem index_filters_losslessly (roles : Roles) (apart : roles.call ≠ roles.block)
    (calls : List Builder.Call)
    (plain : ∀ rule ∈ (Catalog.load roles.language calls).rules, rule.pattern.shape.Plain) :
    let catalog := Catalog.load roles.language calls
    (∀ tree, (catalog.candidates tree).Pairwise (fun a b => a.id < b.id) ∧
      ∀ rule ∈ catalog.rules, rule ∉ catalog.candidates tree →
        rule.RuledOut roles.language tree) ∧
    ((∀ rule ∈ catalog.rules, rule.NeverCancels) →
      ∀ maxPasses unit stop,
        ReportsAlike (run { catalog, maxPasses } unit stop).report
          (run { catalog, maxPasses, lookup := fun _ => catalog.rules } unit stop).report) := by
  intro catalog
  have coherent : catalog.Coherent := Catalog.coherent_load roles.language calls
  have language : catalog.language = roles.language := Catalog.language_load roles.language calls
  have laidOut : catalog.language.CallsByLayout := language ▸ Roles.callsByLayout apart
  constructor
  · intro tree
    refine ⟨coherent.pairwise_candidates tree, ?_⟩
    intro rule isRule left
    rw [← language]
    exact coherent.ruledOut laidOut isRule (plain rule isRule) left
  · intro never maxPasses unit stop
    have sound : (replacing { catalog, maxPasses } unit).Sound :=
      sound_replacing coherent rfl unit
    have translates := Pass.translates_exhaustive coherent laidOut plain never unit.platform
    have mirrors : Mirrors .reports { catalog, maxPasses }
        { catalog, maxPasses, lookup := fun _ => catalog.rules } unit :=
      ⟨(translates .replace).mirrors TraceRelation.keeps_reports sound,
        (translates .survey).mirrors TraceRelation.keeps_reports (sound_surveying sound)⟩
    exact reportsAlike_of_mirrors mirrors rfl stop

/-- A rule for the size of a list. -/
def sizeDraft : RuleDraft :=
  { name := "size"
    pattern := .node (.branch "call" [.hole (.capturing "list" .expression),
      .leaf Tree.nameKind "size"])
    template := .ofShape (.node (.leaf Tree.nameKind "length"))
    guard := some (.receiverType "List") }

/-- The rule that the draft makes. -/
def sizeRule : Rule :=
  { id := 0, name := "size"
    pattern := ⟨sizeDraft.pattern, ⟨[("list", .expression)]⟩, false⟩
    guard := sizeDraft.guard, template := sizeDraft.template, priority := 0
    trigger := ⟨some "List", "size"⟩, span := .generated }

/-- A call of the size of something that has a type. -/
def sizeCall (type : String) : Tree :=
  .branch "call" [(Tree.leaf Tree.nameKind "items").withType type, .leaf Tree.nameKind "size"]

theorem size_filtered :
    let catalog := Catalog.load ({} : Roles).language [.add sizeDraft]
    let unit : CompilationUnit :=
      { name := "unit", root := .branch "pair" [sizeCall "List", sizeCall "Set"] }
    let filtered := (run { catalog, maxPasses := 4 } unit fun _ => false).report
    let exhaustive := (run { catalog, maxPasses := 4, lookup := fun _ => catalog.rules } unit
      fun _ => false).report
    (catalog.candidates (sizeCall "List")).length = 1 ∧
      (∀ rule ∈ catalog.rules, rule.RuledOut ({} : Roles).language (sizeCall "Set")) ∧
        filtered.applied.length = 1 ∧ ReportsAlike filtered exhaustive := by
  intro catalog unit filtered exhaustive
  have rules : catalog.rules = [sizeRule] := rfl
  have plain : ∀ rule ∈ catalog.rules, rule.pattern.shape.Plain := by
    intro rule member
    rw [rules, List.mem_singleton] at member
    subst member
    intro hole inHoles
    obtain rfl := List.mem_singleton.mp inHoles
    intro isBackRef
    contradiction
  have nothing : catalog.candidates (sizeCall "Set") = [] := by
    apply List.isEmpty_iff.mp
    decide +kernel
  obtain ⟨filters, alike⟩ := index_filters_losslessly {} (by decide) [.add sizeDraft] plain
  refine ⟨by decide +kernel, ?_, by decide +kernel, ?_⟩
  · intro rule isRule
    apply (filters (sizeCall "Set")).2 rule isRule
    rw [nothing]
    exact List.not_mem_nil
  · apply alike
    intro rule isRule bindings facts
    rw [rules, List.mem_singleton] at isRule
    rw [isRule]
    rfl

end Engine

end Codemod
