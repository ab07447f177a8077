import Codemod.Proofs.Catalog.Admission
import Codemod.Proofs.Catalog.Reloaded

/-!
# What requests leave behind

Whatever is asked of a builder, and whether or not it succeeds, its tables tell of the same rules. A
spec that is refused changes nothing, and a text leaves the rules before the one it fails at.
-/

namespace Codemod

namespace TriggerIndex

/-- The ids of all buckets, each with the trigger it is filed under. -/
def filings (index : TriggerIndex) : List (Trigger × Nat) :=
  index.entries.flatMap fun (member, bucket) =>
    bucket.entries.flatMap fun (receiver, ids) => ids.map fun id => (⟨receiver, member⟩, id)

private theorem perm_filings_add (index : TriggerIndex) (rule : Rule) :
    (index.add rule).filings.Perm (index.filings ++ [(rule.trigger, rule.id)]) := by
  refine Assoc.perm_flatMap_alter (fun member bucket => bucket.entries.flatMap
    fun (receiver, ids) => ids.map fun id => ((⟨receiver, member⟩ : Trigger), id)) index _ _ _ ?_
  intro bucket
  have inner := Assoc.perm_flatMap_alter
    (fun receiver (ids : List Nat) =>
      ids.map fun id => ((⟨receiver, rule.trigger.member⟩ : Trigger), id))
    (bucket.getD .empty) rule.trigger.receiver (fun ids => ids.getD [] ++ [rule.id])
    [(rule.trigger, rule.id)] fun ids => by cases ids <;> simp
  cases bucket with
  | none => exact inner
  | some bucket => exact inner

/-- The index files each rule once, under its trigger. -/
theorem perm_filings_ofRules (rules : List Rule) :
    (ofRules rules).filings.Perm (rules.map fun rule => (rule.trigger, rule.id)) := by
  induction rules using List.reverseRecOn with
  | nil => exact .refl _
  | append_singleton rules rule ih =>
    rw [ofRules, List.foldl_append, List.map_append]
    exact (perm_filings_add _ rule).trans (ih.append_right _)

end TriggerIndex

namespace Builder

/-- The tables of a builder are in step, and its rules have passed all checks. -/
structure Orderly (language : Language) (builder : Builder) : Prop where
  language_eq : builder.language = language
  id_eq : ∀ (place : Nat) (rule : Rule), builder.rules[place]? = some rule → rule.id = place
  nodup_names : (builder.rules.map (·.name)).Nodup
  find?_names : ∀ (name : String) (id : Nat), builder.names.find? name = some id ↔
    ∃ rule ∈ builder.rules, rule.name = name ∧ rule.id = id
  find?_shapes : ∀ key : Shape × Option String, (builder.shapes.find? key).getD [] =
    (builder.rules.filter (·.overlapKey = key)).map (·.id)
  apart : builder.rules.Pairwise fun a b =>
    ¬(a.pattern.shape.canonical = b.pattern.shape.canonical ∧
      a.trigger.receiver = b.trigger.receiver ∧ a.priority = b.priority)
  admitted : ∀ rule ∈ builder.rules, rule.Admitted language
  filings : builder.build.index.filings.Perm
    (builder.rules.map fun rule => (rule.trigger, rule.id))

theorem orderly_foldl_after (language : Language) (calls : List Call) :
    (calls.foldl Builder.after { language }).Orderly language := by
  have inStep := (inStep_empty language .empty).foldl_after calls
  have apart := Catalog.pairwise_apart_load language calls
  have unique := Rule.nodup_names apart
  refine ⟨Catalog.language_load language calls, inStep.id_eq, unique, fun name id => ?_,
    fun key => ?_, apart.imp ?_, admitted_foldl_after language calls,
    TriggerIndex.perm_filings_ofRules _⟩
  · rw [inStep.names_eq]
    exact NameTable.find?_ofRules unique
  · rw [inStep.shapes_eq]
    exact ShapeTable.find?_ofRules _ key
  · rintro a b ⟨_, differs⟩ ⟨samePattern, sameReceiver, samePriority⟩
    exact differs ⟨Prod.ext samePattern sameReceiver, samePriority⟩

/-- The rules of drafts have been added to a builder, one after another. -/
structure Extends (builder : Builder) (drafts : List RuleDraft) (extended : Builder) : Prop where
  added : builder.addDrafts drafts = .ok extended
  rules : ∃ more, more.map Rule.draft = drafts ∧
    extended = builder.withRules (builder.rules ++ more)

private theorem InStep.extends_of_addDrafts {builder extended : Builder} (inStep : builder.InStep)
    {drafts : List RuleDraft} (added : builder.addDrafts drafts = .ok extended) :
    builder.Extends drafts extended := by
  obtain ⟨rules, made, _, _, grown⟩ := (addDrafts_ok_iff inStep).mp added
  refine ⟨added, _, ?_, grown⟩
  have same : Rule.draft ∘ (fun placed : Rule × Nat => placed.1.withId placed.2) =
      Rule.draft ∘ Prod.fst := rfl
  rw [Rule.number, List.map_map, same, ← List.map_map, List.zipIdx_map_fst]
  exact RuleDraft.drafts_of_alone made

/-- A builder cannot add the rule of an expression. -/
inductive Refuses (builder : Builder) (sexp : Sexp) : LoadError → Prop
  | malformed {error : ReadError} (read : RuleDraft.ofSexp builder.customGuards sexp = .error error) :
    Refuses builder sexp (.unreadable error)
  | rejected {draft : RuleDraft} {error : LoadError}
    (read : RuleDraft.ofSexp builder.customGuards sexp = .ok draft)
    (refused : builder.addRule draft = .error error) : Refuses builder sexp error

/-- What a builder has become, and the error, when a text fails. -/
inductive Stops (builder : Builder) (source : Source) : Builder → LoadError → Prop
  | unreadable {error : ReadError} (read : Sexp.readAll source = .error error) :
    Stops builder source builder (.unreadable error)
  | failing {before behind : List Sexp} {sexp : Sexp} {drafts : List RuleDraft} {left : Builder}
    {error : LoadError} (read : Sexp.readAll source = .ok (before ++ sexp :: behind))
    (understood : before.mapM (RuleDraft.ofSexp builder.customGuards) = .ok drafts)
    (added : builder.Extends drafts left) (refused : left.Refuses sexp error) :
    Stops builder source left error

private theorem exists_of_addRules_error {builder : Builder} {sexps : List Sexp} {error : LoadError}
    (failed : (builder.addRules sexps).added = .error error) :
    ∃ before sexp behind drafts, sexps = before ++ sexp :: behind ∧
      before.mapM (RuleDraft.ofSexp builder.customGuards) = .ok drafts ∧
      builder.addDrafts drafts = .ok (builder.addRules sexps).builder ∧
      (builder.addRules sexps).builder.Refuses sexp error := by
  induction sexps generalizing builder with
  | nil => contradiction
  | cons sexp rest ih =>
    rw [addRules_cons] at failed ⊢
    cases read : RuleDraft.ofSexp builder.customGuards sexp with
    | error cause =>
      simp only [read] at failed ⊢
      cases failed
      exact ⟨[], sexp, rest, [], rfl, rfl, rfl, .malformed read⟩
    | ok draft =>
      simp only [read] at failed ⊢
      cases made : builder.ruleOf draft with
      | error cause =>
        simp only [made] at failed ⊢
        cases failed
        refine ⟨[], sexp, rest, [], rfl, rfl, rfl, .rejected read ?_⟩
        rw [addRule, run_declareRule, made]
      | ok rule =>
        simp only [made] at failed ⊢
        cases later : ((builder.enter rule).addRules rest).added with
        | ok ids =>
          rw [later] at failed
          contradiction
        | error cause =>
          rw [later] at failed
          cases failed
          obtain ⟨before, refused, behind, drafts, rfl, understood, added, refuses⟩ := ih later
          exact ⟨sexp :: before, refused, behind, draft :: drafts, rfl,
            mapM_cons_ok_iff.mpr ⟨draft, drafts, read, understood, rfl⟩,
            addDrafts_cons_ok_iff.mpr ⟨rule, made, added⟩, refuses⟩

private theorem InStep.stops {builder : Builder} (inStep : builder.InStep) {source : Source}
    {error : LoadError} (failed : (builder.readRules source).added = .error error) :
    builder.Stops source (builder.readRules source).builder error := by
  rw [readRules] at failed ⊢
  split at failed
  · rename_i cause read
    simp only
    cases failed
    exact .unreadable read
  · rename_i sexps read
    obtain ⟨before, sexp, behind, drafts, rfl, understood, added, refuses⟩ :=
      exists_of_addRules_error failed
    exact .failing read understood (inStep.extends_of_addDrafts added) refuses

/-- Through any requests the tables of a builder tell of the same rules, all of which have passed
the checks. A spec that is refused leaves the builder as it was, and a text that fails leaves the
rules before the one that is refused. -/
theorem requests_leave_tables_in_step (language : Language) (calls : List Call) :
    let builder := calls.foldl Builder.after { language }
    builder.Orderly language ∧
      (∀ draft error left,
        (declareRule draft).run.run builder = (.error error, left) → left = builder) ∧
      ∀ source error, (builder.readRules source).added = .error error →
        builder.Stops source (builder.readRules source).builder error := by
  intro builder
  refine ⟨orderly_foldl_after language calls, fun draft error left failed => ?_,
    fun source error failed => ?_⟩
  · rw [run_declareRule] at failed
    split at failed
    · cases failed
    · cases failed
      rfl
  · exact ((inStep_empty language .empty).foldl_after calls).stops failed

end Builder

end Codemod
