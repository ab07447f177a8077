import Codemod.Proofs.Catalog.RuleOrder
import Codemod.Proofs.Engine.Course
import Codemod.Proofs.Pass.Translation
import Mathlib.Data.Finset.Dedup

/-!
# Runs under another order of rules

The order in which rules are added decides their ids and nothing else. With ids replaced by names a
run reports the same for every order, and its diagnostics at most in another order.
-/

namespace Codemod

def Applied.named (applied : Applied) : String × Location :=
  (applied.name, applied.location)

def Catalog.nameOf? (catalog : Catalog) (id : Nat) : Option String :=
  catalog.rules[id]?.map (·.name)

/-- A diagnostic that names its rules, in no order. -/
structure NamedDiagnostic where
  kind : DiagnosticKind
  rules : Finset (Option String)
  location : Location
deriving DecidableEq

def Diagnostic.named (catalog : Catalog) (diagnostic : Diagnostic) : NamedDiagnostic :=
  ⟨diagnostic.kind, (diagnostic.rules.map catalog.nameOf?).toFinset, diagnostic.location⟩

/-- Two traces report the same by name, whatever the order of their diagnostics. -/
def TraceRelation.byName (catalog other : Catalog) : TraceRelation where
  same first image :=
    image.applied.map Applied.named = first.applied.map Applied.named ∧
      (image.diagnostics.map (·.named other)).Perm (first.diagnostics.map (·.named catalog)) ∧
        image.flatMap Event.imports = first.flatMap Event.imports ∧
          image.requestsStop = first.requestsStop
  nil := ⟨rfl, .nil, rfl, rfl⟩
  append first second := by
    obtain ⟨applied, diagnostics, imports, stops⟩ := first
    obtain ⟨moreApplied, moreDiagnostics, moreImports, moreStops⟩ := second
    simp only [Trace.applied_append, Trace.diagnostics, List.filterMap_append, List.map_append,
      List.flatMap_append, Trace.requestsStop_append]
    refine ⟨?_, diagnostics.append moreDiagnostics, ?_, ?_⟩
    · rw [applied, moreApplied]
    · rw [imports, moreImports]
    · rw [stops, moreStops]

section Permutation

variable {rules others : List Rule}

/-- Rules move to their places in another order. -/
def Translation.permutation (apart : rules.Pairwise Rule.Apart) (perm : others.Perm rules) :
    Translation where
  rule rule := rule.withId (Rule.place rules others rule.id)
  id := Rule.place rules others
  injective := Rule.place_injective apart perm
  id_rule _ := rfl
  name_rule _ := rfl
  pattern_rule _ := rfl
  template_rule _ := rfl
  priority_rule _ := rfl
  verdict_rule _ _ _ := rfl

variable {language : Language} (apart : rules.Pairwise Rule.Apart) (perm : others.Perm rules)

/-- The catalog of rules in some order. -/
def Catalog.ofOrder (language : Language) (rules : List Rule) : Catalog :=
  (({ language } : Builder).withRules (Rule.number 0 rules)).build

private theorem Catalog.getElem?_ofOrder (id : Nat) :
    (ofOrder language others).rules[Rule.place rules others id]? =
      (ofOrder language rules).rules[id]?.map (Translation.permutation apart perm).rule := by
  show (Rule.number 0 others)[_]? = (Rule.number 0 rules)[id]?.map _
  rw [Rule.getElem?_number, Rule.getElem?_number, Rule.getElem?_place apart perm, Option.map_map]
  cases here : rules[id]? with
  | none => rfl
  | some rule => simp [Translation.permutation, Rule.withId]

include apart perm

private theorem Catalog.nameOf?_place (id : Nat) :
    (ofOrder language others).nameOf? (Rule.place rules others id) =
      (ofOrder language rules).nameOf? id := by
  rw [nameOf?, nameOf?, getElem?_ofOrder apart perm, Option.map_map]
  rfl

private theorem Diagnostic.named_permuted (kind : DiagnosticKind) (ids : List Nat)
    (location : Location) :
    (⟨kind, ascending (ids.map (Rule.place rules others)), location⟩ : Diagnostic).named
        (.ofOrder language others) =
      (⟨kind, ids, location⟩ : Diagnostic).named (.ofOrder language rules) := by
  have names : ((ascending (ids.map (Rule.place rules others))).map
        (Catalog.ofOrder language others).nameOf?).toFinset =
      (ids.map (Catalog.ofOrder language rules).nameOf?).toFinset := by
    ext name
    simp only [List.mem_toFinset, List.mem_map, mem_ascending]
    constructor
    · rintro ⟨_, ⟨id, member, rfl⟩, named⟩
      exact ⟨id, member, (Catalog.nameOf?_place apart perm id).symm.trans named⟩
    · rintro ⟨id, member, named⟩
      exact ⟨_, ⟨id, member, rfl⟩, (Catalog.nameOf?_place apart perm id).trans named⟩
  simp only [named, names]

private theorem TraceRelation.keeps_byName :
    (byName (.ofOrder language rules) (.ofOrder language others)).Keeps
      (.permutation apart perm) where
  event event listed := by
    cases event with
    | stopRequested => exact listed.elim
    | diagnosed diagnostic =>
      obtain ⟨kind, ids, location⟩ := diagnostic
      refine ⟨rfl, .of_eq ?_, rfl, rfl⟩
      exact congrArg (fun named => [named])
        (Diagnostic.named_permuted apart perm kind ids location)
    | _ => exact ⟨rfl, .nil, rfl, rfl⟩
  stop rule bindings facts := by
    have same : ((Translation.permutation apart perm).rule rule).cancels bindings facts =
        rule.cancels bindings facts := rfl
    rw [same]
    cases rule.cancels bindings facts <;> exact ⟨rfl, .nil, rfl, rfl⟩

omit apart perm in
private theorem Catalog.coherent_ofOrder {builder : Builder} (coherent : builder.Coherent language)
    (made : builder = ({ language } : Builder).withRules (Rule.number 0 rules)) :
    (ofOrder language rules).Coherent := by
  subst made
  exact ⟨coherent.2, rfl⟩

/-- The rules that are offered for a tree are the same in either order, under other ids. -/
theorem Catalog.perm_candidates (coherent : (ofOrder language rules).Coherent)
    (otherCoherent : (ofOrder language others).Coherent) (tree : Tree) :
    ((ofOrder language others).candidates tree).Perm
      (((ofOrder language rules).candidates tree).map
        (Translation.permutation apart perm).rule) := by
  rw [coherent.candidates_eq_filter, otherCoherent.candidates_eq_filter]
  have moved := (Rule.perm_number apart perm).filter fun rule =>
    decide (rule.trigger.Fits language tree)
  rw [List.filter_map] at moved
  exact moved

end Permutation

private theorem Pass.idle_claimsWith (pass : Pass) (sort : Pattern → Bool)
    (find : Pattern → Option (Bindings × Extent)) (anchor : Tree) (scope : Option Nat)
    (locate : Extent → Location) :
    (pass.claimsWith sort find anchor scope locate).trace.Idle := by
  simp only [claimsWith, Traced.trace_collect, Trace.idle_flatMap]
  intro rule _
  exact idle_claim pass rule _ _ scope _

private theorem Trace.Idle.of_perm {trace reordered : Trace} (idle : trace.Idle)
    (perm : reordered.Perm trace) : reordered.Idle :=
  fun event member => idle event (perm.mem_iff.mp member)

private theorem TraceRelation.byName_of_perm {catalog other : Catalog}
    {first image reordered : Trace}
    (same : (byName catalog other).same first image) (idle : image.Idle)
    (perm : reordered.Perm image) : (byName catalog other).same first reordered := by
  obtain ⟨applied, diagnostics, imports, stops⟩ := same
  have still := idle.of_perm perm
  refine ⟨?_, ?_, ?_, ?_⟩
  · rw [← applied, idle.applied_eq_nil, still.applied_eq_nil]
  · exact ((perm.filterMap Event.diagnostic?).map _).trans diagnostics
  · rw [← imports, Trace.imports_eq_nil_of_applied idle.applied_eq_nil,
      Trace.imports_eq_nil_of_applied still.applied_eq_nil]
  · rw [← stops, Trace.requestsStop, Trace.requestsStop, perm.any_eq]

private theorem Pass.perm_claimsWith {pass image : Pass} (language : image.language = pass.language)
    (platform : image.platform = pass.platform) (sort : Pattern → Bool)
    (find : Pattern → Option (Bindings × Extent)) {anchor : Tree}
    (tried : (image.lookup anchor).Perm (pass.lookup anchor)) (scope : Option Nat)
    (locate : Extent → Location) :
    (image.claimsWith sort find anchor scope locate).value.Perm
        (pass.claimsWith sort find anchor scope locate).value ∧
      (image.claimsWith sort find anchor scope locate).trace.Perm
        (pass.claimsWith sort find anchor scope locate).trace := by
  have facts : image.factsAt = pass.factsAt := by
    funext scope anchor
    rw [factsAt, factsAt, language, platform]
  have claims : image.claim = pass.claim := by
    funext rule found anchor scope locate
    simp only [claim, accepts_eq, facts]
  simp only [claimsWith, claims, Traced.value_collect, Traced.trace_collect]
  have sorted := tried.filter fun rule => sort rule.pattern
  exact ⟨sorted.flatMap_right _, sorted.flatMap_right _⟩

/-- A pass with the rules in another order claims the same under other ids. -/
theorem Pass.translates_permutation {language : Language} {rules others : List Rule}
    (apart : rules.Pairwise Rule.Apart) (perm : others.Perm rules)
    (coherent : (Catalog.ofOrder language rules).Coherent)
    (otherCoherent : (Catalog.ofOrder language others).Coherent) (platform : Platform)
    (mode : Mode) :
    Translates (.byName (.ofOrder language rules) (.ofOrder language others))
      (.permutation apart perm)
      ⟨.ofOrder language rules, (Catalog.ofOrder language rules).candidates, platform, mode⟩
      ⟨.ofOrder language others, (Catalog.ofOrder language others).candidates, platform, mode⟩ where
  language_eq := rfl
  platform_eq := rfl
  mode_eq := rfl
  rules_eq := Catalog.getElem?_ofOrder apart perm
  claims sort find anchor scope locate _ := by
    -- first the rules get their new ids, and then they are tried in the new order
    let renamed : Pass := ⟨.ofOrder language others,
      fun tree => ((Catalog.ofOrder language rules).candidates tree).map
        (Translation.permutation apart perm).rule, platform, mode⟩
    have keeps := @TraceRelation.keeps_byName rules others language apart perm
    have claimed := @related_claimsWith _ _
      ⟨.ofOrder language rules, (Catalog.ofOrder language rules).candidates, platform, mode⟩
      renamed keeps rfl rfl sort find anchor rfl scope locate
    obtain ⟨values, traces⟩ := @perm_claimsWith renamed
      ⟨.ofOrder language others, (Catalog.ofOrder language others).candidates, platform, mode⟩
      rfl rfl sort find anchor (Catalog.perm_candidates apart perm coherent otherCoherent anchor)
      scope locate
    have idle := renamed.idle_claimsWith sort find anchor scope locate
    exact ⟨values.trans claimed.1, TraceRelation.byName_of_perm claimed.2 idle traces⟩

namespace Engine

/-- Two reports tell the same by name, and the same diagnostics in some order. -/
structure SameByName (catalog other : Catalog) (report reordered : Report) : Prop where
  root_eq : reordered.root = report.root
  applied_eq : reordered.applied.map Applied.named = report.applied.map Applied.named
  diagnostics_perm : (reordered.diagnostics.map (·.named other)).Perm
    (report.diagnostics.map (·.named catalog))
  imports_eq : reordered.imports = report.imports
  passes_eq : reordered.passes = report.passes
  outcome_eq : reordered.outcome = report.outcome

private theorem sameByName_of_mirrors {engine other : Engine} {unit : CompilationUnit}
    (mirrors : Mirrors (.byName engine.catalog other.catalog) engine other unit)
    (limit : other.maxPasses = engine.maxPasses) (stop : Nat → Bool) :
    SameByName engine.catalog other.catalog (engine.run unit stop).report
      (other.run unit stop).report := by
  have applies (first image : Trace)
      (same : (TraceRelation.byName engine.catalog other.catalog).same first image) :
      first.applied.isEmpty = image.applied.isEmpty := by
    have named := congrArg List.isEmpty same.1
    simpa using named.symm
  have course := mirrors.parallel.courseOf_eq applies (fun _ _ same => same.2.2.2.symm) limit stop
  have one := took_run engine unit stop
  have two := took_run other unit stop
  rw [course] at two
  obtain ⟨applied, _, imports, _⟩ := mirrors.parallel.same_history (engine.courseOf unit stop).1
  obtain ⟨_, diagnostics, _⟩ := mirrors.parallel.same_closing (engine.courseOf unit stop)
  rw [← one.applied_eq, ← two.applied_eq] at applied
  rw [← one.diagnostics_eq, ← two.diagnostics_eq] at diagnostics
  constructor
  · exact two.root_eq.trans ((mirrors.parallel.passStart _).symm.trans one.root_eq.symm)
  · exact applied
  · exact diagnostics
  · exact two.imports_eq.trans ((congrArg distinct imports).trans one.imports_eq.symm)
  · exact two.passes_eq.trans one.passes_eq.symm
  · exact two.outcome_eq.trans ((mirrors.parallel.outcomeOf_eq applies _).trans one.outcome_eq.symm)

/-- Drafts that load do so in any order, and the order makes no difference to a run: by name it
reports the same, with its diagnostics in some order. -/
theorem rule_order_immaterial (language : Language) (drafts permuted : List RuleDraft)
    (perm : permuted.Perm drafts) (builder : Builder)
    (loads : ({ language } : Builder).addDrafts drafts = .ok builder) :
    ∃ reordered, ({ language } : Builder).addDrafts permuted = .ok reordered ∧
      ∀ maxPasses unit stop,
        SameByName builder.build reordered.build
          (run { catalog := builder.build, maxPasses } unit stop).report
          (run { catalog := reordered.build, maxPasses } unit stop).report := by
  obtain ⟨rules, others, same, apart, rfl, reloads⟩ := Builder.exists_addDrafts_of_perm perm loads
  refine ⟨_, reloads, ?_⟩
  intro maxPasses unit stop
  have coherent : (Catalog.ofOrder language rules).Coherent :=
    Catalog.coherent_ofOrder ((Builder.coherent_empty language).addDrafts loads) rfl
  have otherCoherent : (Catalog.ofOrder language others).Coherent :=
    Catalog.coherent_ofOrder ((Builder.coherent_empty language).addDrafts reloads) rfl
  have sound : (replacing { catalog := .ofOrder language rules, maxPasses } unit).Sound :=
    sound_replacing coherent rfl unit
  have translates := Pass.translates_permutation apart same coherent otherCoherent unit.platform
  have keeps := @TraceRelation.keeps_byName rules others language apart same
  have mirrors : Mirrors (.byName (.ofOrder language rules) (.ofOrder language others))
      { catalog := .ofOrder language rules, maxPasses }
      { catalog := .ofOrder language others, maxPasses } unit :=
    ⟨(translates .replace).mirrors keeps sound,
      (translates .survey).mirrors keeps (sound_surveying sound)⟩
  exact @sameByName_of_mirrors { catalog := .ofOrder language rules, maxPasses }
    { catalog := .ofOrder language others, maxPasses } unit mirrors rfl stop

/-- A rule for pairs with an x on the left or right. -/
def pairDraft (name : String) (left right : Term) : RuleDraft :=
  { name, pattern := .node (.branch "pair" [left, right])
    template := .ofShape (.node (.leaf Tree.nameKind name)) }

/-- Two rules that would be ambiguous on a pair of two x. -/
def pairDrafts : List RuleDraft :=
  [pairDraft "left" (.leaf Tree.nameKind "x") (.hole (.capturing "other" .expression)),
    pairDraft "right" (.hole (.capturing "other" .expression)) (.leaf Tree.nameKind "x")]

theorem pair_order_immaterial :
    let language := ({} : Roles).language
    ∃ builder reordered, ({ language } : Builder).addDrafts pairDrafts = .ok builder ∧
      ({ language } : Builder).addDrafts pairDrafts.reverse = .ok reordered ∧
        builder.rules.length = 2 ∧ ∀ maxPasses unit stop,
          SameByName builder.build reordered.build
            (run { catalog := builder.build, maxPasses } unit stop).report
            (run { catalog := reordered.build, maxPasses } unit stop).report := by
  intro language
  obtain ⟨builder, loads, length⟩ : ∃ builder,
      ({ language } : Builder).addDrafts pairDrafts = .ok builder ∧ builder.rules.length = 2 :=
    ⟨_, rfl, rfl⟩
  obtain ⟨reordered, reloads, same⟩ := rule_order_immaterial language pairDrafts
    pairDrafts.reverse (List.reverse_perm pairDrafts) builder loads
  exact ⟨builder, reordered, loads, reloads, length, same⟩

end Engine

end Codemod
