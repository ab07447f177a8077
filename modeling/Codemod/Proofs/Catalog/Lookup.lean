import Codemod.Proofs.Assoc
import Codemod.Proofs.Catalog.Loaded
import Codemod.Proofs.Guard.Leaves

/-!
# Looking rules up

The trigger index files every rule under the member and receiver type of its trigger. A tree that
the root of a rule matches spells the trigger out, so no rule that could apply there is left out.
-/

namespace Codemod

namespace TriggerIndex

/-- The rules filed under a trigger. -/
def filed (index : TriggerIndex) (trigger : Trigger) : List Nat :=
  (((index.find? trigger.member).getD .empty).find? trigger.receiver).getD []

private theorem filed_add (index : TriggerIndex) (rule : Rule) (trigger : Trigger) :
    (index.add rule).filed trigger =
      if rule.trigger = trigger then index.filed trigger ++ [rule.id] else index.filed trigger := by
  obtain ⟨receiver, member⟩ := trigger
  simp only [filed, add]
  simp only [Assoc.find?_alter]
  by_cases sameMember : member = rule.trigger.member
  · subst sameMember
    by_cases sameReceiver : receiver = rule.trigger.receiver
    · subst sameReceiver
      simp [Assoc.find?_alter]
    · have differs : rule.trigger ≠ ⟨receiver, rule.trigger.member⟩ := fun same =>
        sameReceiver (congrArg Trigger.receiver same).symm
      simp [Assoc.find?_alter, sameReceiver, differs]
  · have differs : rule.trigger ≠ ⟨receiver, member⟩ := fun same =>
      sameMember (congrArg Trigger.member same).symm
    simp [sameMember, differs]

private theorem filed_ofRules (rules : List Rule) (trigger : Trigger) :
    (ofRules rules).filed trigger = (rules.filter (·.trigger = trigger)).map (·.id) := by
  have folded : ∀ index : TriggerIndex, (rules.foldl add index).filed trigger =
      index.filed trigger ++ (rules.filter (·.trigger = trigger)).map (·.id) := by
    induction rules with
    | nil => simp
    | cons rule rest ih =>
      intro index
      rw [List.foldl_cons, ih, filed_add]
      by_cases same : rule.trigger = trigger <;> simp [same]
  exact folded .empty

private theorem mem_lookup_of_filed {index : TriggerIndex} {trigger : Trigger}
    {receiver : Option String} {id : Nat} (listed : id ∈ index.filed trigger)
    (fits : trigger.receiver = none ∨ receiver = none ∨ trigger.receiver = receiver) :
    id ∈ index.lookup receiver trigger.member := by
  rw [filed] at listed
  simp only [lookup]
  cases bucketed : index.find? trigger.member with
  | none => simp [bucketed] at listed
  | some bucket =>
    rw [bucketed, Option.getD_some] at listed
    cases receiver with
    | none =>
      cases entry : bucket.find? trigger.receiver with
      | none => simp [entry] at listed
      | some ids =>
        rw [entry, Option.getD_some] at listed
        exact List.mem_flatMap.mpr ⟨_, Assoc.mem_entries_of_find? entry, listed⟩
    | some type =>
      apply List.mem_flatMap.mpr
      refine ⟨trigger.receiver, ?_, listed⟩
      rcases fits with anyType | unknown | same
      · simp [anyType]
      · contradiction
      · simp [same]

end TriggerIndex

namespace Catalog

/-- The catalog offers every rule whose trigger a tree spells out. -/
theorem Coherent.candidate_of_trigger {catalog : Catalog} (coherent : catalog.Coherent)
    {rule : Rule} (member : rule ∈ catalog.rules) {tree : Tree}
    (word : rule.trigger.member ∈ lookupWords catalog.language tree)
    (fits : rule.trigger.receiver = none ∨ catalog.language.receiverType tree = none ∨
      rule.trigger.receiver = catalog.language.receiverType tree) :
    rule ∈ catalog.candidates tree := by
  have listed : rule.id ∈ catalog.index.filed rule.trigger := by
    rw [coherent.index_eq, TriggerIndex.filed_ofRules]
    exact List.mem_map_of_mem (List.mem_filter.mpr ⟨member, by simp⟩)
  have looked := TriggerIndex.mem_lookup_of_filed listed fits
  refine List.mem_filterMap.mpr ⟨rule.id, ?_, (coherent.rules.getElem?_id member).1⟩
  exact mem_ascending.mpr (List.mem_flatMap.mpr ⟨_, word, looked⟩)

end Catalog

/-- No block is a call, and the layout of a call tells where its member is. -/
structure Language.CallsByLayout (language : Language) : Prop where
  apart : ∀ kind layout, language.callLayout kind = some layout → language.isBlock kind = false
  member_eq : language.member = CallLayout.memberOf language.callLayout

theorem Roles.callsByLayout {roles : Roles} (apart : roles.call ≠ roles.block) :
    roles.language.CallsByLayout := by
  refine ⟨fun kind layout isCall => ?_, rfl⟩
  simp only [Roles.language] at isCall ⊢
  split at isCall
  · rename_i same
    simp [same, apart]
  · contradiction

private theorem member_of_unify {language : Language} (calls : language.CallsByLayout)
    {kind : String} {children : List Term} {member : String}
    (called : Trigger.calledMember? language kind children = some member)
    {captures : CaptureTable} (plain : ∀ hole ∈ Term.holesAll children, hole.Plain)
    (checked : Term.check language .root (.branch kind children) .empty = .ok captures)
    {tree : Tree} {bindings : Bindings}
    (matched : Term.unify language (.branch kind children) tree .empty = some bindings) :
    language.member tree = some member := by
  obtain ⟨layout, isCall, spelled⟩ := Option.bind_eq_some_iff.mp called
  have sameKind : tree.kind = kind := Term.kind_of_unify rfl matched
  -- the children of a call are no statements, so each is matched at its own position
  have operands : Term.childSite language kind = .operand := by
    simp [Term.childSite, calls.apart kind layout isCall]
  rw [Term.check, operands] at checked
  rw [Term.unify] at matched
  split at matched
  · obtain ⟨⟨_, used⟩, all, _⟩ := Option.map_eq_some_iff.mp matched
    cases here : children[layout.member]? with
    | none =>
      rw [here] at spelled
      contradiction
    | some term =>
      rw [here] at spelled
      obtain ⟨child, before, after, at_member, unified⟩ :=
        Term.unify_getElem_of_operands plain checked (.empty language) all here
      cases term with
      | leaf leafKind text =>
        cases spelled
        rw [Term.unify] at unified
        split at unified
        · rename_i equal
          simp [calls.member_eq, CallLayout.memberOf, sameKind, isCall, at_member, equal.2]
        · contradiction
      | branch | hole => contradiction
  · contradiction

theorem Trigger.ofRoot_cases {language : Language} {guard : Option Guard} {root : Term}
    {trigger : Trigger} (triggered : ofRoot? language guard root = some trigger) :
    (∃ kind, root.kind? = some kind ∧ trigger = ⟨none, kind⟩) ∨
      ∃ kind children member, root = .branch kind children ∧
        calledMember? language kind children = some member ∧
        trigger = ⟨guard.bind Guard.pinnedReceiver, member⟩ := by
  cases root with
  | hole slot => contradiction
  | leaf kind text =>
    left
    cases triggered
    exact ⟨kind, rfl, rfl⟩
  | branch kind children =>
    rw [ofRoot?] at triggered
    split at triggered
    · rename_i member called
      right
      cases triggered
      exact ⟨kind, children, member, rfl, called, rfl⟩
    · left
      cases triggered
      exact ⟨kind, rfl, rfl⟩

private theorem Pattern.plain_of_root {pattern : Pattern} (plain : pattern.shape.Plain)
    {root : Term} (isRoot : pattern.root? = some root) : ∀ hole ∈ root.holes, hole.Plain := by
  intro hole member
  apply plain hole
  rw [root?] at isRoot
  obtain ⟨rest, terms⟩ := List.head?_eq_some_iff.mp isRoot
  rw [terms, Term.holesAll]
  exact List.mem_append_left _ member

theorem receiver_of_accepts {guard : Option Guard} {bindings : Bindings} {facts : Facts}
    (accepts : ∀ required, guard = some required →
      required.evaluate bindings facts = .accept) :
    guard.bind Guard.pinnedReceiver = none ∨
      guard.bind Guard.pinnedReceiver = facts.receiverType := by
  cases guard with
  | none => exact .inl rfl
  | some required =>
    rw [Option.bind_some]
    cases pinned : required.pinnedReceiver with
    | none => exact .inl rfl
    | some type =>
      right
      have leaf := Guard.receiverType_mem_leaves required pinned
      have accepted := (Guard.evaluate_eq_accept_iff _ _ required).mp (accepts required rfl) _ leaf
      exact (Guard.receiverType_accepts_iff.mp accepted).symm

theorem Rule.Coherent.word_of_unify {language : Language} {rule : Rule} {place : Nat}
    (coherent : rule.Coherent language place) (calls : language.CallsByLayout)
    (plain : rule.pattern.shape.Plain) {root : Term} (isRoot : rule.pattern.root? = some root)
    {tree : Tree} {bound : Bindings} (matched : Term.unify language root tree .empty = some bound) :
    rule.trigger.member ∈ Catalog.lookupWords language tree := by
  obtain ⟨_, compiled, triggered⟩ := coherent
  obtain ⟨_, captures, sameRoot, checked⟩ := compiled.exists_root
  rw [isRoot] at sameRoot triggered
  cases sameRoot
  rcases Trigger.ofRoot_cases triggered with ⟨kind, spelled, trigger⟩ |
    ⟨kind, children, name, rfl, called, trigger⟩
  · have sameKind := Term.kind_of_unify spelled matched
    rw [trigger, Catalog.lookupWords]
    split
    · split <;> simp_all
    · simp [sameKind]
  · have rootPlain := Pattern.plain_of_root plain isRoot
    have named := member_of_unify calls called rootPlain checked matched
    rw [trigger, Catalog.lookupWords, named]
    simp only
    split <;> simp

/-- The receiver type of a trigger is none, or the one that its guard pins down. -/
theorem Rule.Coherent.receiver_cases {language : Language} {rule : Rule} {place : Nat}
    (coherent : rule.Coherent language place) : rule.trigger.receiver = none ∨
      rule.trigger.receiver = rule.guard.bind Guard.pinnedReceiver := by
  obtain ⟨_, _, triggered⟩ := coherent
  obtain ⟨root, _, triggered⟩ := Option.bind_eq_some_iff.mp triggered
  rcases Trigger.ofRoot_cases triggered with ⟨_, _, trigger⟩ | ⟨_, _, _, _, _, trigger⟩
  · exact .inl (congrArg Trigger.receiver trigger)
  · exact .inr (congrArg Trigger.receiver trigger)

/-- A rule whose root matches a tree where its guard accepts is offered for that tree. -/
theorem Catalog.Coherent.candidate_of_match {catalog : Catalog} (coherent : catalog.Coherent)
    (calls : catalog.language.CallsByLayout) {rule : Rule} (member : rule ∈ catalog.rules)
    (plain : rule.pattern.shape.Plain) {root : Term} (isRoot : rule.pattern.root? = some root)
    {tree : Tree} {bound : Bindings}
    (matched : Term.unify catalog.language root tree .empty = some bound)
    {bindings : Bindings} {facts : Facts}
    (known : facts.receiverType = catalog.language.receiverType tree)
    (accepts : ∀ guard, rule.guard = some guard → guard.evaluate bindings facts = .accept) :
    rule ∈ catalog.candidates tree := by
  obtain ⟨place, here⟩ := List.mem_iff_getElem?.mp member
  have at_place := coherent.rules place rule here
  apply coherent.candidate_of_trigger member (at_place.word_of_unify calls plain isRoot matched)
  rcases at_place.receiver_cases with unpinned | pinned
  · exact .inl unpinned
  · rw [pinned, ← known]
    rcases receiver_of_accepts accepts with unpinned | same
    · exact .inl unpinned
    · exact .inr (.inr same)

end Codemod
