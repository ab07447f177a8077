import Codemod.Proofs.Catalog.Lookup

/-!
# What the checks of a builder admit

A rule is only entered when it has passed every check, so each rule of a loaded catalog has a
compiled pattern, a replacement that fits it, and a trigger with the receiver type its guard pins
down.
-/

namespace Codemod

/-- A rule that a builder lets in. -/
structure Rule.Admitted (language : Language) (rule : Rule) : Prop where
  compiled : Pattern.compile language rule.pattern.shape = .ok rule.pattern
  node_template : rule.pattern.isWindow = false → rule.template.shape.isWindow = false
  receiver_eq : rule.trigger.receiver = rule.guard.bind Guard.pinnedReceiver

namespace Builder

variable {builder : Builder} {draft : RuleDraft} {rule : Rule}

private theorem receiver_of_triggerOf {pattern : Pattern} {trigger : Trigger}
    (triggered : builder.triggerOf draft pattern = .ok trigger) :
    trigger.receiver = draft.guard.bind Guard.pinnedReceiver := by
  obtain ⟨found, placed⟩ := triggerOf_ok_iff.mp triggered
  obtain ⟨root, _, ofRoot⟩ := Option.bind_eq_some_iff.mp found
  rcases Trigger.ofRoot_cases ofRoot with ⟨kind, _, rfl⟩ | ⟨_, _, member, _, _, rfl⟩
  · exact (placed rfl).symm
  · rfl

private theorem admitted_of_ruleOf (made : builder.ruleOf draft = .ok rule) :
    rule.Admitted builder.language := by
  obtain ⟨pattern, compiled, made⟩ := exists_of_bind_ok made
  obtain ⟨trigger, triggered, made⟩ := exists_of_bind_ok made
  dsimp only at made
  split at made
  · contradiction
  · cases made
    obtain ⟨sound, fits⟩ := RuleDraft.compile_ok (compile_ok compiled)
    exact ⟨Pattern.compiled_of_compile sound, fits, receiver_of_triggerOf triggered⟩

theorem admitted_foldl_after (language : Language) (calls : List Call) :
    ∀ rule ∈ (calls.foldl Builder.after { language }).rules, rule.Admitted language := by
  refine (keeps_foldl_after (fun builder => builder.language = language ∧
    ∀ rule ∈ builder.rules, rule.Admitted language) (fun _ kept => kept) ?_ calls
    ⟨rfl, by simp⟩).2
  rintro builder draft rule ⟨rfl, admitted⟩ made
  exact ⟨rfl, List.forall_mem_append.mpr
    ⟨admitted, List.forall_mem_singleton.mpr (admitted_of_ruleOf made)⟩⟩

end Builder

theorem Catalog.admitted_load (language : Language) (calls : List Builder.Call) :
    ∀ rule ∈ (Catalog.load language calls).rules, rule.Admitted language :=
  Builder.admitted_foldl_after language calls

end Codemod
