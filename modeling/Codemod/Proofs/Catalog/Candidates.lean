import Codemod.Proofs.Catalog.Lookup
import Codemod.Proofs.Contest.Renaming

/-!
# What the index leaves out

The rules that a catalog offers for a tree are exactly those whose trigger the tree spells out, in
catalog order. A rule that is left out would not match there, or its guard would say that the facts
are against it.
-/

namespace Codemod

namespace TriggerIndex

/-- What is filed under a trigger are rules of that trigger. -/
def Sourced (rules : List Rule) (index : TriggerIndex) : Prop :=
  ∀ (member : String) (bucket : Bucket), index.find? member = some bucket →
    ∀ (receiver : Option String) (ids : List Nat), (receiver, ids) ∈ bucket.entries →
      ∀ id ∈ ids, ∃ rule ∈ rules, rule.id = id ∧ rule.trigger = ⟨receiver, member⟩

private theorem Sourced.add {rules : List Rule} {index : TriggerIndex}
    (sourced : Sourced rules index)
    {rule : Rule} (isRule : rule ∈ rules) : Sourced rules (index.add rule) := by
  intro member bucket found receiver ids entry id listed
  rw [TriggerIndex.add, Assoc.find?_alter] at found
  split at found
  · rename_i sameMember
    subst sameMember
    cases found
    have earlier : ∀ old, (receiver, old) ∈
        ((index.find? rule.trigger.member).getD .empty).entries → id ∈ old →
          ∃ source ∈ rules, source.id = id ∧ source.trigger = ⟨receiver, rule.trigger.member⟩ := by
      intro old present inOld
      cases known : index.find? rule.trigger.member with
      | none =>
        rw [known] at present
        contradiction
      | some bucket =>
        rw [known] at present
        exact sourced _ bucket known receiver old present id inOld
    rcases Assoc.mem_entries_alter entry with present | ⟨rfl, new | ⟨old, present, changed⟩⟩
    · exact earlier ids present listed
    · simp only [new, Option.getD_none, List.nil_append, List.mem_singleton] at listed
      exact ⟨rule, isRule, listed.symm, rfl⟩
    · simp only [changed, Option.getD_some, List.mem_append, List.mem_singleton] at listed
      rcases listed with inOld | rfl
      · exact earlier old present inOld
      · exact ⟨rule, isRule, rfl, rfl⟩
  · exact sourced member bucket found receiver ids entry id listed

private theorem sourced_ofRules (rules : List Rule) : Sourced rules (ofRules rules) := by
  have folded : ∀ (part : List Rule) (index : TriggerIndex), part ⊆ rules → Sourced rules index →
      Sourced rules (part.foldl add index) := by
    intro part
    induction part with
    | nil => exact fun _ _ sourced => sourced
    | cons rule rest ih =>
      intro index sub sourced
      obtain ⟨isRule, rest_sub⟩ := List.cons_subset.mp sub
      exact ih _ rest_sub (sourced.add isRule)
  apply folded rules _ (List.Subset.refl rules)
  intro member bucket found
  contradiction

end TriggerIndex

/-- A tree spells a trigger out: it has the member, and no other receiver type than the trigger asks
for. -/
def Trigger.Fits (language : Language) (tree : Tree) (trigger : Trigger) : Prop :=
  trigger.member ∈ Catalog.lookupWords language tree ∧
    (trigger.receiver = none ∨ language.receiverType tree = none ∨
      trigger.receiver = language.receiverType tree)

instance (language : Language) (tree : Tree) (trigger : Trigger) :
    Decidable (trigger.Fits language tree) :=
  inferInstanceAs (Decidable (_ ∧ _))

private theorem TriggerIndex.exists_of_mem_lookup {rules : List Rule} {receiver : Option String}
    {member : String} {id : Nat} (listed : id ∈ (ofRules rules).lookup receiver member) :
    ∃ rule ∈ rules, rule.id = id ∧ rule.trigger.member = member ∧
      (rule.trigger.receiver = none ∨ receiver = none ∨ rule.trigger.receiver = receiver) := by
  cases found : (ofRules rules).find? member with
  | none =>
    simp only [lookup, found] at listed
    contradiction
  | some bucket =>
    have source := sourced_ofRules rules member bucket found
    simp only [lookup, found] at listed
    cases receiver with
    | none =>
      obtain ⟨⟨key, ids⟩, entry, inIds⟩ := List.mem_flatMap.mp listed
      obtain ⟨rule, isRule, same, trigger⟩ := source key ids entry id inIds
      exact ⟨rule, isRule, same, congrArg Trigger.member trigger, .inr (.inl rfl)⟩
    | some type =>
      obtain ⟨key, isKey, inIds⟩ := List.mem_flatMap.mp listed
      cases entry : bucket.find? key with
      | none =>
        rw [entry] at inIds
        contradiction
      | some ids =>
        rw [entry] at inIds
        obtain ⟨rule, isRule, same, trigger⟩ :=
          source key ids (Assoc.mem_entries_of_find? entry) id inIds
        refine ⟨rule, isRule, same, congrArg Trigger.member trigger, ?_⟩
        rw [trigger]
        simpa [or_assoc] using isKey

namespace Catalog.Coherent

variable {catalog : Catalog}

theorem mem_candidates_iff (coherent : catalog.Coherent) {rule : Rule} {tree : Tree} :
    rule ∈ catalog.candidates tree ↔
      rule ∈ catalog.rules ∧ rule.trigger.Fits catalog.language tree := by
  constructor
  · intro candidate
    obtain ⟨id, listed, here⟩ := List.mem_filterMap.mp candidate
    have isRule := List.mem_of_getElem? here
    rw [candidateIds, mem_ascending, coherent.index_eq] at listed
    obtain ⟨word, spelled, looked⟩ := List.mem_flatMap.mp listed
    obtain ⟨other, alsoRule, same, member, receiver⟩ :=
      TriggerIndex.exists_of_mem_lookup looked
    have there := (coherent.rules.getElem?_id alsoRule).1
    rw [same, here] at there
    cases there
    exact ⟨isRule, member ▸ spelled, receiver⟩
  · rintro ⟨isRule, word, receiver⟩
    exact coherent.candidate_of_trigger isRule word receiver

private theorem pairwise_rules (coherent : catalog.Coherent) :
    catalog.rules.Pairwise fun a b => a.id < b.id := by
  rw [List.pairwise_iff_getElem]
  intro first second inside inside' less
  have a := (coherent.rules first _ (List.getElem?_eq_getElem inside)).id_eq
  have b := (coherent.rules second _ (List.getElem?_eq_getElem inside')).id_eq
  omega

/-- The rules that are offered come in catalog order. -/
theorem pairwise_candidates (coherent : catalog.Coherent) (tree : Tree) :
    (catalog.candidates tree).Pairwise fun a b => a.id < b.id := by
  have increasing : (catalog.candidateIds tree).Pairwise fun a b => a < b := by
    have sorted := sorted_ascending ((lookupWords catalog.language tree).flatMap
      (catalog.index.lookup (catalog.language.receiverType tree)))
    have unique := nodup_ascending ((lookupWords catalog.language tree).flatMap
      (catalog.index.lookup (catalog.language.receiverType tree)))
    exact (sorted.and unique).imp fun both => Nat.lt_of_le_of_ne both.1 both.2
  refine increasing.filterMap _ ?_
  intro a b less rule here other there
  rw [(coherent.rules a rule here).id_eq, (coherent.rules b other there).id_eq]
  exact less

/-- The index does nothing but pick rules by their triggers. -/
theorem candidates_eq_filter (coherent : catalog.Coherent) (tree : Tree) :
    catalog.candidates tree =
      catalog.rules.filter fun rule => decide (rule.trigger.Fits catalog.language tree) := by
  have left := coherent.pairwise_candidates tree
  have right := coherent.pairwise_rules.sublist (List.filter_sublist
    (p := fun rule : Rule => decide (rule.trigger.Fits catalog.language tree)))
  have perm : (catalog.candidates tree).Perm
      (catalog.rules.filter fun rule => decide (rule.trigger.Fits catalog.language tree)) := by
    have differ : ∀ a b : Rule, a.id < b.id → a ≠ b := fun a b less same => by
      rw [same] at less
      omega
    rw [List.perm_ext_iff_of_nodup (left.imp (differ _ _)) (right.imp (differ _ _))]
    intro rule
    rw [coherent.mem_candidates_iff, List.mem_filter, decide_eq_true_eq]
  exact perm.eq_of_pairwise (fun a b _ _ less more => by omega) left right

end Catalog.Coherent

private theorem Verdict.exists_of_isUnsatisfied {verdict : Verdict}
    (fails : verdict.isUnsatisfied = true) : ∃ why, verdict = .refuse (.unsatisfied why) := by
  cases verdict with
  | accept => contradiction
  | refuse reason =>
    cases reason with
    | unsatisfied why => exact ⟨why, rfl⟩
    | _ => contradiction

namespace Guard

/-- A guard that pins a receiver type down is against any other. -/
theorem isUnsatisfied_of_pinnedReceiver {guard : Guard} {type other : String}
    (pinned : guard.pinnedReceiver = some type) (differs : other ≠ type) (bindings : Bindings)
    (version : Option Nat) (capabilities : List String) :
    (guard.evaluate bindings ⟨version, capabilities, some other⟩).isUnsatisfied = true := by
  apply isUnsatisfied_of_leaf _ guard (receiverType_mem_leaves guard pinned)
  rw [evaluate]
  simp [differs, Verdict.isUnsatisfied, Verdict.unsatisfied]

end Guard

/-- A rule cannot apply where its pattern starts at a tree: it does not match there, or its guard is
against it whatever else is known. -/
def Rule.RuledOut (language : Language) (rule : Rule) (tree : Tree) : Prop :=
  (rule.pattern.matchNode language tree = none ∧
      ∀ (statements : List Tree) (start : Nat), statements[start]? = some tree →
        rule.pattern.matchWindow language statements start = none) ∨
    ∃ guard, rule.guard = some guard ∧
      ∀ (bindings : Bindings) (version : Option Nat) (capabilities : List String), ∃ why,
        guard.evaluate bindings ⟨version, capabilities, language.receiverType tree⟩ =
          .refuse (.unsatisfied why)

/-- A rule that is not offered for a tree cannot apply there. -/
theorem Catalog.Coherent.ruledOut {catalog : Catalog} (coherent : catalog.Coherent)
    (calls : catalog.language.CallsByLayout) {rule : Rule} (isRule : rule ∈ catalog.rules)
    (plain : rule.pattern.shape.Plain) {tree : Tree} (left : rule ∉ catalog.candidates tree) :
    rule.RuledOut catalog.language tree := by
  obtain ⟨place, here⟩ := List.mem_iff_getElem?.mp isRule
  have at_place := coherent.rules place rule here
  rw [coherent.mem_candidates_iff] at left
  by_cases word : rule.trigger.member ∈ lookupWords catalog.language tree
  · right
    have against : ¬(rule.trigger.receiver = none ∨ catalog.language.receiverType tree = none ∨
        rule.trigger.receiver = catalog.language.receiverType tree) :=
      fun receiver => left ⟨isRule, word, receiver⟩
    push Not at against
    obtain ⟨typed, known, differs⟩ := against
    obtain ⟨other, known⟩ := Option.ne_none_iff_exists'.mp known
    rcases at_place.receiver_cases with unpinned | pinned
    · contradiction
    · obtain ⟨type, isType⟩ := Option.ne_none_iff_exists'.mp typed
      rw [isType] at pinned differs
      obtain ⟨guard, isGuard, pins⟩ := Option.bind_eq_some_iff.mp pinned.symm
      refine ⟨guard, isGuard, fun bindings version capabilities => ?_⟩
      rw [known] at differs ⊢
      have fails := Guard.isUnsatisfied_of_pinnedReceiver pins
        (fun same => differs (congrArg some same.symm)) bindings version capabilities
      exact Verdict.exists_of_isUnsatisfied fails
  · left
    have unmatched : ∀ root bound, rule.pattern.root? = some root →
        Term.unify catalog.language root tree .empty ≠ some bound :=
      fun root bound isRoot matched =>
        word (at_place.word_of_unify calls plain isRoot matched)
    constructor
    · rw [Option.eq_none_iff_forall_ne_some]
      intro bindings matched
      obtain ⟨root, isRoot, unified⟩ := Pattern.matchNode_root matched
      exact unmatched root bindings isRoot unified
    · intro statements start anchored
      rw [Option.eq_none_iff_forall_ne_some]
      rintro ⟨bindings, extent⟩ matched
      obtain ⟨_, _, _, anchor, root, bound, atStart, isRoot, unified⟩ :=
        Pattern.matchWindow_root at_place.compiled matched
      rw [anchored] at atStart
      cases atStart
      exact unmatched root bound isRoot unified

end Codemod
