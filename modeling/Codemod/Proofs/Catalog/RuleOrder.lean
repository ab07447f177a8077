import Codemod.Proofs.Catalog.Candidates
import Codemod.Proofs.Catalog.Tables
import Mathlib.Data.List.Nodup

/-!
# The order of rules

Whether rules can be loaded together is a matter of each rule and of every two of them. So the order
in which they are added decides nothing but their ids.
-/

namespace Codemod

namespace Rule

def withId (rule : Rule) (id : Nat) : Rule :=
  { rule with id }

/-- Two rules can stand in one catalog: they differ in name, and in pattern or priority. -/
def Apart (rule other : Rule) : Prop :=
  rule.name ≠ other.name ∧ ¬(rule.overlapKey = other.overlapKey ∧ rule.priority = other.priority)

theorem Apart.symm {rule other : Rule} (apart : rule.Apart other) : other.Apart rule :=
  ⟨apart.1.symm, fun same => apart.2 ⟨same.1.symm, same.2.symm⟩⟩

/-- Rules with their places as ids. -/
def number (start : Nat) (rules : List Rule) : List Rule :=
  (rules.zipIdx start).map fun (rule, id) => rule.withId id

theorem getElem?_number (start : Nat) (rules : List Rule) (place : Nat) :
    (number start rules)[place]? = rules[place]?.map (·.withId (start + place)) := by
  rw [number, List.getElem?_map, List.getElem?_zipIdx, Option.map_map]
  rfl

end Rule

namespace RuleDraft

/-- The rule that a compiled draft makes at a place. -/
def rule (draft : RuleDraft) (id : Nat) (pattern : Pattern) (trigger : Trigger) : Rule :=
  { id, name := draft.name, pattern, guard := draft.guard, template := draft.template,
    priority := draft.priority, trigger, span := draft.span }

/-- The rule a draft stands for in an empty catalog. -/
def alone (language : Language) (draft : RuleDraft) : Except LoadError Rule :=
  ({ language } : Builder).ruleOf draft

end RuleDraft

namespace Builder

/-- Adds drafts up to the first that fails. -/
def addDrafts (builder : Builder) : List RuleDraft → Except LoadError Builder
  | [] => .ok builder
  | draft :: rest => do
    let (extended, _) ← builder.addRule draft
    extended.addDrafts rest

theorem addDrafts_cons_ok_iff {builder loaded : Builder} {draft : RuleDraft}
    {rest : List RuleDraft} :
    builder.addDrafts (draft :: rest) = .ok loaded ↔
      ∃ rule, builder.ruleOf draft = .ok rule ∧
        (builder.enter rule).addDrafts rest = .ok loaded := by
  constructor
  · intro loads
    obtain ⟨⟨extended, id⟩, added, loads⟩ := exists_of_bind_ok loads
    obtain ⟨rule, made, rfl, rfl⟩ := addRule_ok_iff.mp added
    exact ⟨rule, made, loads⟩
  · rintro ⟨rule, made, loads⟩
    rw [addDrafts, addRule_ok_iff.mpr ⟨rule, made, rfl, rfl⟩]
    exact loads

theorem Coherent.addDrafts {builder loaded : Builder} {language : Language}
    {drafts : List RuleDraft} (coherent : builder.Coherent language)
    (loads : builder.addDrafts drafts = .ok loaded) : loaded.Coherent language := by
  induction drafts generalizing builder with
  | nil =>
    cases loads
    exact coherent
  | cons draft rest ih =>
    obtain ⟨rule, made, loads⟩ := addDrafts_cons_ok_iff.mp loads
    exact ih (coherent.enter made) loads

variable {builder : Builder} {draft : RuleDraft}

private theorem compile_ok_iff (inStep : builder.InStep) {pattern : Pattern} :
    builder.compile draft = .ok pattern ↔
      (∀ other ∈ builder.rules, other.name ≠ draft.name) ∧
        draft.compile builder.language = .ok pattern := by
  have fresh_iff : builder.names.contains draft.name = false ↔
      ∀ other ∈ builder.rules, other.name ≠ draft.name := by
    rw [← Bool.not_eq_true, inStep.contains_name]
    push Not
    rfl
  rw [compile, ← fresh_iff]
  cases builder.names.contains draft.name with
  | true => simp
  | false => cases draft.compile builder.language <;> simp [Except.mapError]

private theorem ruleOf_ok_iff_compiled (inStep : builder.InStep) {rule : Rule} :
    builder.ruleOf draft = .ok rule ↔
      (∀ other ∈ builder.rules, other.name ≠ draft.name) ∧
        ∃ pattern trigger, draft.compile builder.language = .ok pattern ∧
          ({ language := builder.language } : Builder).triggerOf draft pattern = .ok trigger ∧
            rule = draft.rule builder.rules.length pattern trigger ∧
              ∀ other ∈ builder.rules,
                ¬(other.overlapKey = rule.overlapKey ∧ other.priority = rule.priority) := by
  constructor
  · intro made
    obtain ⟨pattern, compiled, made⟩ := exists_of_bind_ok made
    obtain ⟨trigger, triggered, made⟩ := exists_of_bind_ok made
    obtain ⟨fresh, sound⟩ := (compile_ok_iff inStep).mp compiled
    dsimp only at made
    split at made
    · contradiction
    · rename_i unrivalled
      cases made
      exact ⟨fresh, pattern, trigger, sound, triggered, rfl,
        inStep.rival?_eq_none_iff.mp unrivalled⟩
  · rintro ⟨fresh, pattern, trigger, sound, triggered, rfl, unrivalled⟩
    have compiled := (compile_ok_iff inStep).mpr ⟨fresh, sound⟩
    have none_found := inStep.rival?_eq_none_iff.mpr unrivalled
    have triggered : builder.triggerOf draft pattern = .ok trigger := triggered
    rw [RuleDraft.rule] at none_found
    simp only [ruleOf, compiled, triggered, bind, Except.bind, none_found, RuleDraft.rule]

end Builder

theorem RuleDraft.alone_ok_iff {language : Language} {draft : RuleDraft} {rule : Rule} :
    draft.alone language = .ok rule ↔
      ∃ pattern trigger, draft.compile language = .ok pattern ∧
        ({ language } : Builder).triggerOf draft pattern = .ok trigger ∧
          rule = draft.rule 0 pattern trigger := by
  simp [alone, Builder.ruleOf_ok_iff_compiled (Builder.inStep_empty language .empty)]

namespace Builder

variable {builder : Builder} {draft : RuleDraft}

private theorem ruleOf_ok_iff (inStep : builder.InStep) {rule : Rule} :
    builder.ruleOf draft = .ok rule ↔
      ∃ bare, draft.alone builder.language = .ok bare ∧ rule = bare.withId builder.rules.length ∧
        ∀ other ∈ builder.rules, other.Apart bare := by
  rw [ruleOf_ok_iff_compiled inStep]
  simp only [RuleDraft.alone_ok_iff]
  constructor
  · rintro ⟨fresh, pattern, trigger, sound, triggered, rfl, unrivalled⟩
    refine ⟨draft.rule 0 pattern trigger, ⟨pattern, trigger, sound, triggered, rfl⟩, rfl, ?_⟩
    exact fun other isRule => ⟨fresh other isRule, unrivalled other isRule⟩
  · rintro ⟨_, ⟨pattern, trigger, sound, triggered, rfl⟩, rfl, apart⟩
    refine ⟨fun other isRule => (apart other isRule).1, pattern, trigger, sound, triggered, rfl, ?_⟩
    exact fun other isRule => (apart other isRule).2

/-- Drafts load when each stands for a rule and these lie apart from each other and from the rules
before them. -/
theorem addDrafts_ok_iff (inStep : builder.InStep) {drafts : List RuleDraft} {loaded : Builder} :
    builder.addDrafts drafts = .ok loaded ↔
      ∃ rules, drafts.map (·.alone builder.language) = rules.map .ok ∧
        rules.Pairwise Rule.Apart ∧ (∀ other ∈ builder.rules, ∀ rule ∈ rules, other.Apart rule) ∧
          loaded = builder.withRules
            (builder.rules ++ Rule.number builder.rules.length rules) := by
  induction drafts generalizing builder with
  | nil =>
    constructor
    · rintro ⟨⟩
      exact ⟨[], rfl, .nil, by simp, by simp [Rule.number, inStep.withRules_self]⟩
    · rintro ⟨rules, made, _, _, rfl⟩
      obtain rfl := List.map_eq_nil_iff.mp made.symm
      simp [addDrafts, Rule.number, inStep.withRules_self]
  | cons draft rest ih =>
    constructor
    · intro loads
      obtain ⟨rule, made, loads⟩ := addDrafts_cons_ok_iff.mp loads
      have longer := inStep.enter made
      obtain ⟨bare, alone, rfl, apart⟩ := (ruleOf_ok_iff inStep).mp made
      rw [inStep.enter_eq] at longer loads
      obtain ⟨rules, made, pairwise, fresh, rfl⟩ := (ih longer).mp loads
      simp only [language_withRules, rules_withRules] at made fresh
      refine ⟨bare :: rules, ?_, ?_, ?_, ?_⟩
      · rw [List.map_cons, List.map_cons, alone, made]
      · refine List.pairwise_cons.mpr ⟨fun rule member => ?_, pairwise⟩
        exact fresh _ (List.mem_append_right _ (List.mem_singleton_self _)) rule member
      · intro other isRule rule member
        rcases List.mem_cons.mp member with rfl | later
        · exact apart other isRule
        · exact fresh other (List.mem_append_left _ isRule) rule later
      · simp [Rule.number, withRules]
    · rintro ⟨rules, made, pairwise, fresh, rfl⟩
      rw [List.map_cons] at made
      obtain ⟨bare, rules, rfl, alone, made⟩ := List.map_eq_cons_iff.mp made.symm
      obtain ⟨ahead, pairwise⟩ := List.pairwise_cons.mp pairwise
      have rule_made : builder.ruleOf draft = .ok (bare.withId builder.rules.length) :=
        (ruleOf_ok_iff inStep).mpr ⟨bare, alone.symm, rfl, fun other isRule =>
          fresh other isRule bare List.mem_cons_self⟩
      have longer := inStep.enter rule_made
      refine addDrafts_cons_ok_iff.mpr ⟨_, rule_made, ?_⟩
      rw [inStep.enter_eq] at longer ⊢
      apply (ih longer).mpr
      refine ⟨rules, made.symm, pairwise, ?_, by simp [Rule.number, withRules]⟩
      intro other isRule rule member
      rcases List.mem_append.mp isRule with earlier | here
      · exact fresh other earlier rule (List.mem_cons_of_mem _ member)
      · rw [List.mem_singleton.mp here]
        exact ahead rule member

end Builder

private theorem map_ok_filterMap {ε α : Type} {results : List (Except ε α)}
    (succeeded : ∀ result ∈ results, ∃ value, result = .ok value) :
    (results.filterMap Except.toOption).map .ok = results := by
  induction results with
  | nil => rfl
  | cons result rest ih =>
    obtain ⟨value, rfl⟩ := succeeded result List.mem_cons_self
    rw [List.filterMap_cons]
    simp only [Except.toOption, List.map_cons]
    rw [ih fun other member => succeeded other (List.mem_cons_of_mem _ member)]

/-- When drafts load, so do they in any other order, and they make the same rules. -/
theorem Builder.exists_addDrafts_of_perm {language : Language} {drafts permuted : List RuleDraft}
    (perm : permuted.Perm drafts) {loaded : Builder}
    (loads : ({ language } : Builder).addDrafts drafts = .ok loaded) :
    ∃ rules others, others.Perm rules ∧ rules.Pairwise Rule.Apart ∧
      loaded = ({ language } : Builder).withRules (Rule.number 0 rules) ∧
        ({ language } : Builder).addDrafts permuted =
          .ok (({ language } : Builder).withRules (Rule.number 0 others)) := by
  have inStep := inStep_empty language .empty
  obtain ⟨rules, made, pairwise, _, rfl⟩ := (addDrafts_ok_iff inStep).mp loads
  have alones := perm.map (·.alone language)
  rw [made] at alones
  have succeeded : ∀ result ∈ permuted.map (·.alone language), ∃ rule, result = .ok rule := by
    intro result member
    obtain ⟨rule, _, rfl⟩ := List.mem_map.mp (alones.mem_iff.mp member)
    exact ⟨rule, rfl⟩
  have others_perm := alones.filterMap Except.toOption
  have same : (rules.map (.ok : Rule → Except LoadError Rule)).filterMap Except.toOption =
      rules := by
    rw [List.filterMap_map]
    exact List.filterMap_some
  rw [same] at others_perm
  refine ⟨rules, _, others_perm, pairwise, rfl, ?_⟩
  refine (addDrafts_ok_iff inStep).mpr ⟨_, (map_ok_filterMap succeeded).symm, ?_, by simp, rfl⟩
  exact (others_perm.symm.pairwise_iff fun apart => apart.symm).mp pairwise

namespace Rule

/-- Where the rule at a place stands in another order. -/
def place (rules others : List Rule) (id : Nat) : Nat :=
  match rules[id]? with
  | none => id
  | some rule => (others.map (·.name)).idxOf rule.name

variable {rules others : List Rule}

theorem nodup_names (apart : rules.Pairwise Apart) : (rules.map (·.name)).Nodup :=
  List.pairwise_map.mpr (apart.imp And.left)

private theorem idxOf_name (unique : (others.map (·.name)).Nodup) {place : Nat} {rule : Rule}
    (here : others[place]? = some rule) : (others.map (·.name)).idxOf rule.name = place := by
  obtain ⟨inside, rfl⟩ := List.getElem?_eq_some_iff.mp here
  have at_place := unique.idxOf_getElem place (by simpa using inside)
  simpa using at_place

theorem getElem?_place (apart : rules.Pairwise Apart) (perm : others.Perm rules) (id : Nat) :
    others[place rules others id]? = rules[id]? := by
  have unique : (others.map (·.name)).Nodup :=
    (perm.map (·.name)).nodup_iff.mpr (nodup_names apart)
  rw [place]
  split
  · rename_i beyond
    rw [beyond, List.getElem?_eq_none_iff, perm.length_eq]
    exact List.getElem?_eq_none_iff.mp beyond
  · rename_i rule here
    obtain ⟨found, there⟩ := List.mem_iff_getElem?.mp
      (perm.mem_iff.mpr (List.mem_of_getElem? here))
    rw [idxOf_name unique there, there, here]

theorem place_injective (apart : rules.Pairwise Apart) (perm : others.Perm rules) :
    Function.Injective (place rules others) := by
  intro first second same
  have here := getElem?_place apart perm first
  rw [same, getElem?_place apart perm second] at here
  cases there : rules[first]? with
  | none =>
    rw [there] at here
    simpa [place, there, here] using same
  | some rule =>
    rw [there] at here
    have unique := nodup_names apart
    exact (idxOf_name unique there).symm.trans (idxOf_name unique here)

theorem perm_number (apart : rules.Pairwise Apart) (perm : others.Perm rules) :
    (number 0 others).Perm
      ((number 0 rules).map fun rule => rule.withId (place rules others rule.id)) := by
  have unique : (others.map (·.name)).Nodup :=
    (perm.map (·.name)).nodup_iff.mpr (nodup_names apart)
  let named (rule : Rule) : Rule := rule.withId ((others.map (·.name)).idxOf rule.name)
  have there : number 0 others = others.map named := by
    apply List.ext_getElem?
    intro index
    rw [getElem?_number, List.getElem?_map, Nat.zero_add]
    cases here : others[index]? with
    | none => rfl
    | some rule => simp only [Option.map_some, named, idxOf_name unique here]
  have here : ((number 0 rules).map fun rule => rule.withId (place rules others rule.id)) =
      rules.map named := by
    apply List.ext_getElem?
    intro index
    rw [List.getElem?_map, getElem?_number, List.getElem?_map, Nat.zero_add]
    cases here : rules[index]? with
    | none => rfl
    | some rule => simp only [Option.map_some, withId, place, here, named]
  rw [there, here]
  exact perm.map named

end Rule

/-- The rules of a loaded catalog lie apart. -/
theorem Catalog.pairwise_apart_load (language : Language) (calls : List Builder.Call) :
    (Catalog.load language calls).rules.Pairwise Rule.Apart := by
  have empty : ({ language } : Builder).InStep ∧
      ({ language } : Builder).rules.Pairwise Rule.Apart :=
    ⟨Builder.inStep_empty language .empty, List.Pairwise.nil⟩
  refine (Builder.keeps_foldl_after (fun builder => builder.InStep ∧
    builder.rules.Pairwise Rule.Apart) (fun _ kept => ⟨kept.1.registerGuard _, kept.2⟩) ?_ calls
    empty).2
  intro builder draft rule ⟨inStep, apart⟩ made
  refine ⟨inStep.enter made, ?_⟩
  obtain ⟨bare, _, rfl, fresh⟩ := (Builder.ruleOf_ok_iff inStep).mp made
  refine List.pairwise_append.mpr ⟨apart, List.pairwise_singleton _ _, ?_⟩
  intro other isRule _ last
  rw [List.mem_singleton.mp last]
  exact fresh other isRule

end Codemod
