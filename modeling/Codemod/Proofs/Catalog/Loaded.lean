import Codemod.Catalog.Builder
import Codemod.Proofs.Match.Anchor

/-!
# Loaded catalogs

Catalogs come out of a builder. Whatever is asked of the builder, and whether or not it succeeds,
its rules stay coherent: each rule's id is its place, its pattern is compiled and its trigger is the
one of its pattern and guard.
-/

namespace Codemod

namespace Builder

/-- One request to a builder. -/
inductive Call where
  | register (guard : CustomGuard)
  | add (draft : RuleDraft)
  | read (source : Source)

/-- The builder after a request, whether or not the request succeeds. -/
def after (builder : Builder) : Call → Builder
  | .register guard => builder.registerGuard guard
  | .add draft => ((declareRule draft).run.run builder).2
  | .read source => (builder.readRules source).builder

end Builder

/-- The catalog that some requests to an empty builder make. -/
def Catalog.load (language : Language) (calls : List Builder.Call) : Catalog :=
  (calls.foldl Builder.after { language }).build

/-- A rule as a builder adds it at a place. -/
structure Rule.Coherent (language : Language) (rule : Rule) (place : Nat) : Prop where
  id_eq : rule.id = place
  compiled : rule.pattern.Compiled language
  trigger_eq : rule.pattern.root?.bind (Trigger.ofRoot? language rule.guard) = some rule.trigger

/-- Every rule is coherent at its place. -/
def CoherentRules (language : Language) (rules : List Rule) : Prop :=
  ∀ (place : Nat) (rule : Rule), rules[place]? = some rule → rule.Coherent language place

private theorem CoherentRules.concat {language : Language} {rules : List Rule} {rule : Rule}
    (coherent : CoherentRules language rules) (new : rule.Coherent language rules.length) :
    CoherentRules language (rules ++ [rule]) := by
  intro place other here
  rw [List.getElem?_append] at here
  split at here
  · exact coherent place other here
  · rename_i beyond
    have last : place = rules.length := by
      obtain ⟨bound, _⟩ := List.getElem?_eq_some_iff.mp here
      rw [List.length_singleton] at bound
      omega
    subst last
    rw [Nat.sub_self, List.getElem?_cons_zero, Option.some.injEq] at here
    exact here ▸ new

theorem CoherentRules.getElem?_id {language : Language} {rules : List Rule} {rule : Rule}
    (coherent : CoherentRules language rules) (member : rule ∈ rules) :
    rules[rule.id]? = some rule ∧ rule.pattern.Compiled language := by
  obtain ⟨place, here⟩ := List.mem_iff_getElem?.mp member
  have at_place := coherent place rule here
  exact ⟨at_place.id_eq ▸ here, at_place.compiled⟩

theorem RuleDraft.compile_ok {draft : RuleDraft} {language : Language} {pattern : Pattern}
    (succeeded : draft.compile language = .ok pattern) :
    Pattern.compile language draft.pattern = .ok pattern ∧
      (pattern.isWindow = false → draft.template.shape.isWindow = false) := by
  obtain ⟨raw, compiled, allowed⟩ := exists_of_bind_ok succeeded
  split at allowed
  · contradiction
  · rename_i fits
    cases allowed
    exact ⟨compiled, by simpa using fits⟩

namespace Builder

theorem compile_ok {builder : Builder} {draft : RuleDraft} {pattern : Pattern}
    (succeeded : builder.compile draft = .ok pattern) :
    draft.compile builder.language = .ok pattern := by
  rw [compile] at succeeded
  split at succeeded
  · contradiction
  · cases compiled : draft.compile builder.language with
    | error error => rw [compiled] at succeeded; contradiction
    | ok sound =>
      rw [compiled] at succeeded
      cases succeeded
      rfl

/-- A trigger is found unless the guard pins down a receiver type that it has no place for. The span
of the draft is of no account. -/
theorem triggerOf_ok_iff {builder : Builder} {draft : RuleDraft} {pattern : Pattern}
    {trigger : Trigger} :
    builder.triggerOf draft pattern = .ok trigger ↔
      pattern.root?.bind (Trigger.ofRoot? builder.language draft.guard) = some trigger ∧
        (trigger.receiver = none → draft.guard.bind Guard.pinnedReceiver = none) := by
  rw [triggerOf]
  cases pattern.root?.bind (Trigger.ofRoot? builder.language draft.guard) with
  | none => simp
  | some found =>
    cases pinned : draft.guard.bind Guard.pinnedReceiver with
    | none => simp
    | some type =>
      cases receiver : found.receiver with
      | none =>
        simp only [receiver, reduceCtorEq, Option.some.injEq, imp_false, false_iff, not_and,
          not_not]
        rintro rfl
        exact receiver
      | some other =>
        simp only [receiver, Except.ok.injEq, Option.some.injEq, iff_self_and]
        rintro rfl missing
        rw [receiver] at missing
        contradiction

/-- A spec that passes the checks is entered, and one that does not leaves nothing behind. -/
theorem run_declareRule (builder : Builder) (draft : RuleDraft) :
    (declareRule draft).run.run builder =
      match builder.ruleOf draft with
      | .ok rule => (.ok rule.id, builder.enter rule)
      | .error error => (.error error, builder) := by
  have unfolded : (declareRule draft).run.run builder =
      (do
        let rule ← builder.ruleOf draft
        modify (·.enter rule)
        return rule.id : ExceptT LoadError (StateM Builder) Nat).run.run builder := rfl
  rw [unfolded]
  cases builder.ruleOf draft with
  | error error => rfl
  | ok rule => rfl

theorem addRule_ok_iff {builder extended : Builder} {draft : RuleDraft} {id : Nat} :
    builder.addRule draft = .ok (extended, id) ↔
      ∃ rule, builder.ruleOf draft = .ok rule ∧ extended = builder.enter rule ∧ id = rule.id := by
  rw [addRule, run_declareRule]
  cases builder.ruleOf draft with
  | error error => simp
  | ok rule => simp [eq_comm]

theorem addRules_cons (builder : Builder) (sexp : Sexp) (rest : List Sexp) :
    builder.addRules (sexp :: rest) =
      match RuleDraft.ofSexp builder.customGuards sexp with
      | .error error => ⟨builder, [], .error (.unreadable error)⟩
      | .ok draft =>
        match builder.ruleOf draft with
        | .error error => ⟨builder, builder.remarks draft, .error error⟩
        | .ok rule =>
          let loading := (builder.enter rule).addRules rest
          { loading with
            log := builder.remarks draft ++ loading.log
            added := loading.added.map (rule.id :: ·) } := by
  rw [addRules]
  cases RuleDraft.ofSexp builder.customGuards sexp with
  | error error => rfl
  | ok draft =>
    simp only [run_declareRule]
    cases builder.ruleOf draft with
    | error error => rfl
    | ok rule => rfl

section Keeps

variable (holds : Builder → Prop)

private theorem keeps_addRules
    (enter : ∀ {builder draft rule}, holds builder → builder.ruleOf draft = .ok rule →
      holds (builder.enter rule))
    (sexps : List Sexp) {builder : Builder} (start : holds builder) :
    holds (builder.addRules sexps).builder := by
  induction sexps generalizing builder with
  | nil => exact start
  | cons sexp rest ih =>
    rw [addRules_cons]
    split
    · exact start
    · split
      · exact start
      · rename_i rule made
        exact ih (enter start made)

/-- What custom guards do not affect and every rule keeps that is entered, all requests keep,
whether or not they succeed. -/
theorem keeps_foldl_after
    (register : ∀ {builder} guard, holds builder → holds (builder.registerGuard guard))
    (enter : ∀ {builder draft rule}, holds builder → builder.ruleOf draft = .ok rule →
      holds (builder.enter rule))
    (calls : List Call) {builder : Builder} (start : holds builder) :
    holds (calls.foldl Builder.after builder) := by
  induction calls generalizing builder with
  | nil => exact start
  | cons call rest ih =>
    apply ih
    cases call with
    | register guard => exact register guard start
    | add draft =>
      rw [Builder.after, run_declareRule]
      split
      · rename_i rule made
        exact enter start made
      · exact start
    | read source =>
      rw [Builder.after, readRules]
      split
      · exact start
      · exact keeps_addRules holds enter _ start

end Keeps

private theorem coherent_of_ruleOf {builder : Builder} {draft : RuleDraft} {rule : Rule}
    (made : builder.ruleOf draft = .ok rule) :
    rule.Coherent builder.language builder.rules.length := by
  obtain ⟨pattern, compiled, made⟩ := exists_of_bind_ok made
  obtain ⟨trigger, triggered, made⟩ := exists_of_bind_ok made
  simp only at made
  split at made
  · contradiction
  · cases made
    have sound := (RuleDraft.compile_ok (compile_ok compiled)).1
    exact ⟨rfl, Pattern.compiled_of_compile sound, (triggerOf_ok_iff.mp triggered).1⟩

theorem id_of_ruleOf {builder : Builder} {draft : RuleDraft} {rule : Rule}
    (made : builder.ruleOf draft = .ok rule) : rule.id = builder.rules.length :=
  (coherent_of_ruleOf made).id_eq

theorem length_enter (builder : Builder) (rule : Rule) :
    (builder.enter rule).rules.length = builder.rules.length + 1 :=
  List.length_append

/-- The rules of a builder are coherent, and their language does not change. -/
def Coherent (builder : Builder) (language : Language) : Prop :=
  builder.language = language ∧ CoherentRules language builder.rules

theorem coherent_empty (language : Language) :
    ({ language } : Builder).Coherent language := by
  refine ⟨rfl, ?_⟩
  intro place rule here
  simp at here

theorem Coherent.enter {builder : Builder} {language : Language} {draft : RuleDraft} {rule : Rule}
    (coherent : builder.Coherent language) (made : builder.ruleOf draft = .ok rule) :
    (builder.enter rule).Coherent language := by
  obtain ⟨rfl, rules⟩ := coherent
  exact ⟨rfl, rules.concat (coherent_of_ruleOf made)⟩

private theorem Coherent.foldl_after {builder : Builder} {language : Language}
    (coherent : builder.Coherent language) (calls : List Call) :
    (calls.foldl Builder.after builder).Coherent language :=
  keeps_foldl_after (·.Coherent language) (fun _ coherent => coherent)
    (fun coherent made => coherent.enter made) calls coherent

end Builder

/-- A catalog of coherent rules, indexed by their triggers. -/
structure Catalog.Coherent (catalog : Catalog) : Prop where
  rules : CoherentRules catalog.language catalog.rules
  index_eq : catalog.index = .ofRules catalog.rules

theorem Catalog.language_load (language : Language) (calls : List Builder.Call) :
    (Catalog.load language calls).language = language := by
  exact ((Builder.coherent_empty language).foldl_after calls).1

/-- A loaded catalog is coherent. -/
theorem Catalog.coherent_load (language : Language) (calls : List Builder.Call) :
    (Catalog.load language calls).Coherent := by
  have built := (Builder.coherent_empty language).foldl_after calls
  refine ⟨?_, rfl⟩
  rw [Catalog.language_load]
  exact built.2

end Codemod
