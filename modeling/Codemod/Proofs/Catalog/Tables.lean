import Codemod.Proofs.Assoc
import Codemod.Proofs.Catalog.Loaded
import Mathlib.Data.List.Induction

/-!
# The tables of a builder

A builder looks names and rivals up in tables that it fills rule by rule. The tables stay in step
with the rules: they are those that the rules make, so that a lookup in them tells of all rules.
-/

namespace Codemod

namespace NameTable

def ofRules (rules : List Rule) : NameTable :=
  rules.foldl add .empty

private theorem ofRules_concat (rules : List Rule) (rule : Rule) :
    ofRules (rules ++ [rule]) = (ofRules rules).add rule := by
  rw [ofRules, List.foldl_append]
  rfl

private theorem contains_ofRules {rules : List Rule} {name : String} :
    (ofRules rules).contains name = true ↔ ∃ rule ∈ rules, rule.name = name := by
  induction rules using List.reverseRecOn with
  | nil => simp [ofRules, Assoc.contains]
  | append_singleton rules rule ih =>
    rw [ofRules_concat, Assoc.contains, add, Assoc.find?_insert]
    split
    · rename_i same
      simp [same]
    · rename_i differs
      rw [← Assoc.contains, ih]
      simp [Ne.symm differs]

theorem find?_ofRules {rules : List Rule} (unique : (rules.map (·.name)).Nodup) {name : String}
    {id : Nat} :
    (ofRules rules).find? name = some id ↔ ∃ rule ∈ rules, rule.name = name ∧ rule.id = id := by
  induction rules using List.reverseRecOn with
  | nil => simp [ofRules]
  | append_singleton rules rule ih =>
    rw [List.map_append, List.nodup_append] at unique
    obtain ⟨earlier, _, fresh⟩ := unique
    rw [ofRules_concat, add, Assoc.find?_insert]
    split
    · rename_i same
      subst same
      constructor
      · intro found
        exact ⟨rule, List.mem_append_right _ (List.mem_singleton_self rule), rfl,
          Option.some.inj found⟩
      · rintro ⟨other, isRule, sameName, rfl⟩
        rcases List.mem_append.mp isRule with before | last
        · exact absurd sameName
            (fresh _ (List.mem_map_of_mem before) _ (List.mem_singleton_self rule.name))
        · rw [List.mem_singleton.mp last]
    · rename_i differs
      rw [ih earlier]
      simp [Ne.symm differs]

end NameTable

namespace ShapeTable

def ofRules (rules : List Rule) : ShapeTable :=
  rules.foldl add .empty

private theorem ofRules_concat (rules : List Rule) (rule : Rule) :
    ofRules (rules ++ [rule]) = (ofRules rules).add rule := by
  rw [ofRules, List.foldl_append]
  rfl

theorem find?_ofRules (rules : List Rule) (key : Shape × Option String) :
    ((ofRules rules).find? key).getD [] = (rules.filter (·.overlapKey = key)).map (·.id) := by
  induction rules using List.reverseRecOn with
  | nil => rfl
  | append_singleton rules rule ih =>
    rw [ofRules_concat, add, Assoc.find?_alter, List.filter_append, List.map_append, ← ih]
    by_cases same : key = rule.overlapKey
    · simp [same]
    · simp [same, Ne.symm same]

end ShapeTable

namespace Builder

/-- The builder with other rules in place of its own. -/
def withRules (builder : Builder) (rules : List Rule) : Builder :=
  { builder with rules, names := .ofRules rules, shapes := .ofRules rules }

@[simp] theorem language_withRules (builder : Builder) (rules : List Rule) :
    (builder.withRules rules).language = builder.language := rfl

@[simp] theorem rules_withRules (builder : Builder) (rules : List Rule) :
    (builder.withRules rules).rules = rules := rfl

/-- Each rule's id is its place, and the tables are those that the rules make. -/
structure InStep (builder : Builder) : Prop where
  id_eq : ∀ (place : Nat) (rule : Rule), builder.rules[place]? = some rule → rule.id = place
  names_eq : builder.names = .ofRules builder.rules
  shapes_eq : builder.shapes = .ofRules builder.rules

theorem inStep_empty (language : Language) (customGuards : Assoc String CustomGuard) :
    ({ language, customGuards } : Builder).InStep :=
  ⟨fun place rule here => by simp at here, rfl, rfl⟩

variable {builder extended : Builder} {draft : RuleDraft} {rule : Rule}

theorem InStep.enter_eq (inStep : builder.InStep) (rule : Rule) :
    builder.enter rule = builder.withRules (builder.rules ++ [rule]) := by
  rw [enter, withRules, NameTable.ofRules_concat, ShapeTable.ofRules_concat, inStep.names_eq,
    inStep.shapes_eq]

theorem InStep.withRules_self (inStep : builder.InStep) :
    builder.withRules builder.rules = builder := by
  rw [withRules, ← inStep.names_eq, ← inStep.shapes_eq]

theorem InStep.enter (inStep : builder.InStep) (made : builder.ruleOf draft = .ok rule) :
    (builder.enter rule).InStep := by
  refine ⟨?_, ?_, ?_⟩
  · intro place other here
    simp only [Builder.enter] at here
    rw [List.getElem?_append] at here
    split at here
    · exact inStep.id_eq place other here
    · rw [List.getElem?_singleton] at here
      split at here
      · cases here
        rw [id_of_ruleOf made]
        omega
      · contradiction
  · rw [inStep.enter_eq]
    rfl
  · rw [inStep.enter_eq]
    rfl

private theorem InStep.getElem?_id (inStep : builder.InStep) (isRule : rule ∈ builder.rules) :
    builder.rules[rule.id]? = some rule := by
  obtain ⟨place, here⟩ := List.mem_iff_getElem?.mp isRule
  exact inStep.id_eq place rule here ▸ here

theorem InStep.contains_name (inStep : builder.InStep) {name : String} :
    builder.names.contains name = true ↔ ∃ rule ∈ builder.rules, rule.name = name := by
  rw [inStep.names_eq]
  exact NameTable.contains_ofRules

/-- The tables know every rule that agrees with another one. -/
theorem InStep.rival?_eq_none_iff (inStep : builder.InStep) :
    builder.rival? rule = none ↔ ∀ other ∈ builder.rules,
      ¬(other.overlapKey = rule.overlapKey ∧ other.priority = rule.priority) := by
  rw [rival?, List.findSome?_eq_none_iff, inStep.shapes_eq, ShapeTable.find?_ofRules]
  constructor
  · intro none_found other isRule ⟨sameKey, samePriority⟩
    have listed : other ∈ builder.rules.filter (·.overlapKey = rule.overlapKey) :=
      List.mem_filter.mpr ⟨isRule, by simpa using sameKey⟩
    have skipped := none_found other.id (List.mem_map_of_mem listed)
    rw [inStep.getElem?_id isRule] at skipped
    simp [samePriority] at skipped
  · intro unrivalled id listed
    obtain ⟨other, kept, rfl⟩ := List.mem_map.mp listed
    obtain ⟨isRule, sameKey⟩ := List.mem_filter.mp kept
    rw [inStep.getElem?_id isRule]
    have differs := unrivalled other isRule
    simp_all

theorem InStep.registerGuard (inStep : builder.InStep) (guard : CustomGuard) :
    (builder.registerGuard guard).InStep :=
  ⟨inStep.id_eq, inStep.names_eq, inStep.shapes_eq⟩

/-- The tables stay in step through all requests. -/
theorem InStep.foldl_after (inStep : builder.InStep) (calls : List Call) :
    (calls.foldl Builder.after builder).InStep :=
  keeps_foldl_after InStep (fun guard inStep => inStep.registerGuard guard)
    (fun inStep made => inStep.enter made) calls inStep

end Builder

end Codemod
