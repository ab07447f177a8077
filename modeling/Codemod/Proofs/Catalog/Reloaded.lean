import Codemod.Proofs.Catalog.RuleOrder
import Codemod.Proofs.Rule.Printed

/-!
# Printing a catalog and reading it back

The rules of a catalog are printed one a line. Read back by a builder that knows the same custom
guards, they make the same catalog; only where the rules stand is another.
-/

namespace Codemod

/-- The rules of a catalog, one a line. -/
def Catalog.render (catalog : Catalog) : String :=
  "\n".intercalate (catalog.rules.map Rule.render)

/-- A builder without rules that knows some custom guards. -/
def Builder.knowing (language : Language) (guards : List CustomGuard) : Builder :=
  guards.foldl registerGuard { language }

namespace Builder

private theorem registered_insert {customGuards : Assoc String CustomGuard}
    (registered : Guard.Registered customGuards) (guard : CustomGuard) :
    Guard.Registered (customGuards.insert guard.name guard) := by
  intro name found same
  rw [Assoc.find?_insert] at same
  split at same
  · rename_i here
    cases same
    exact here.symm
  · exact registered name found same

private theorem foldl_registerGuard (guards : List CustomGuard) (builder : Builder)
    (registered : Guard.Registered builder.customGuards) :
    (guards.foldl registerGuard builder).language = builder.language ∧
      (guards.foldl registerGuard builder).rules = builder.rules ∧
        Guard.Registered (guards.foldl registerGuard builder).customGuards := by
  induction guards generalizing builder with
  | nil => exact ⟨rfl, rfl, registered⟩
  | cons guard guards ih =>
    exact ih (builder.registerGuard guard) (registered_insert registered guard)

variable {language : Language} {guards : List CustomGuard}

@[simp] theorem language_knowing : (knowing language guards).language = language :=
  (foldl_registerGuard guards { language } (by simp [Guard.Registered])).1

@[simp] theorem rules_knowing : (knowing language guards).rules = [] :=
  (foldl_registerGuard guards { language } (by simp [Guard.Registered])).2.1

private theorem registered_knowing : Guard.Registered (knowing language guards).customGuards :=
  (foldl_registerGuard guards { language } (by simp [Guard.Registered])).2.2

private theorem InStep.foldl_registerGuard {builder : Builder} (inStep : builder.InStep)
    (guards : List CustomGuard) : (guards.foldl Builder.registerGuard builder).InStep := by
  induction guards generalizing builder with
  | nil => exact inStep
  | cons guard guards ih => exact ih (inStep.registerGuard guard)

private theorem inStep_knowing : (knowing language guards).InStep :=
  (inStep_empty language .empty).foldl_registerGuard guards

private theorem addRules_cons_ok_iff {builder loaded : Builder} {sexp : Sexp} {sexps : List Sexp}
    {ids : List Nat} :
    (builder.addRules (sexp :: sexps)).added = .ok ids ∧
        (builder.addRules (sexp :: sexps)).builder = loaded ↔
      ∃ draft rule rest, RuleDraft.ofSexp builder.customGuards sexp = .ok draft ∧
        builder.ruleOf draft = .ok rule ∧
          ((builder.enter rule).addRules sexps).added = .ok rest ∧
            ((builder.enter rule).addRules sexps).builder = loaded ∧ ids = rule.id :: rest := by
  rw [addRules_cons]
  cases RuleDraft.ofSexp builder.customGuards sexp with
  | error error => simp
  | ok draft =>
    cases made : builder.ruleOf draft with
    | error error => simp [made]
    | ok rule =>
      cases later : ((builder.enter rule).addRules sexps).added with
      | error error => simp [made, later, Except.map]
      | ok rest => simp [made, later, Except.map, eq_comm, and_comm]

/-- Rules are read and added in turn, but as far as all of them succeed they may as well be read
first. -/
theorem addRules_ok_iff {builder loaded : Builder} {sexps : List Sexp} {ids : List Nat} :
    (builder.addRules sexps).added = .ok ids ∧ (builder.addRules sexps).builder = loaded ↔
      ∃ drafts, sexps.mapM (RuleDraft.ofSexp builder.customGuards) = .ok drafts ∧
        builder.addDrafts drafts = .ok loaded ∧
          ids = List.range' builder.rules.length drafts.length := by
  induction sexps generalizing builder ids with
  | nil =>
    constructor
    · rintro ⟨⟨⟩, rfl⟩
      exact ⟨[], rfl, rfl, rfl⟩
    · rintro ⟨drafts, read, loads, rfl⟩
      cases read
      cases loads
      exact ⟨rfl, rfl⟩
  | cons sexp sexps ih =>
    rw [addRules_cons_ok_iff]
    constructor
    · rintro ⟨draft, rule, rest, read, made, later, built, rfl⟩
      obtain ⟨drafts, reads, loads, rfl⟩ := ih.mp ⟨later, built⟩
      refine ⟨draft :: drafts, mapM_cons_ok_iff.mpr ⟨draft, drafts, read, reads, rfl⟩, ?_, ?_⟩
      · exact addDrafts_cons_ok_iff.mpr ⟨rule, made, loads⟩
      · rw [length_enter, id_of_ruleOf made, List.length_cons, List.range'_succ]
    · rintro ⟨all, reads, loads, rfl⟩
      obtain ⟨draft, drafts, read, rest_reads, rfl⟩ := mapM_cons_ok_iff.mp reads
      obtain ⟨rule, made, loads⟩ := addDrafts_cons_ok_iff.mp loads
      have kept : (builder.enter rule).customGuards = builder.customGuards := rfl
      rw [← kept] at rest_reads
      obtain ⟨later, built⟩ := ih.mpr ⟨drafts, rest_reads, loads, rfl⟩
      refine ⟨draft, rule, _, read, made, later, built, ?_⟩
      rw [length_enter, id_of_ruleOf made, List.length_cons, List.range'_succ]

end Builder

/-- A draft apart from where it was read. -/
def RuleDraft.unplaced (draft : RuleDraft) : RuleDraft :=
  { draft with span := .generated }

/-- A rule apart from where it was read. -/
def Rule.unplaced (rule : Rule) : Rule :=
  { rule with span := .generated }

/-- A catalog apart from where its rules were read. -/
def Catalog.unplaced (catalog : Catalog) : Catalog :=
  { catalog with rules := catalog.rules.map Rule.unplaced }

namespace Rule

private theorem map_render_unplaced (rules : List Rule) :
    (rules.map unplaced).map render = rules.map render := by
  rw [List.map_map]
  rfl

private theorem unplaced_number (start : Nat) (rules : List Rule) :
    (number start rules).map unplaced = number start (rules.map unplaced) := by
  simp only [number, List.zipIdx_map, List.map_map]
  rfl

private theorem index_unplaced (rules : List Rule) :
    TriggerIndex.ofRules (rules.map unplaced) = TriggerIndex.ofRules rules := by
  rw [TriggerIndex.ofRules, TriggerIndex.ofRules, List.foldl_map]
  rfl

private theorem names_unplaced (rules : List Rule) :
    NameTable.ofRules (rules.map unplaced) = NameTable.ofRules rules := by
  rw [NameTable.ofRules, NameTable.ofRules, List.foldl_map]
  rfl

private theorem map_render_number (start : Nat) (rules : List Rule) :
    (number start rules).map render = rules.map render := by
  have same : render ∘ (fun placed : Rule × Nat => placed.1.withId placed.2) =
      render ∘ Prod.fst := rfl
  rw [number, List.map_map, same, ← List.map_map, List.zipIdx_map_fst]

private theorem apart_unplaced {rules : List Rule} :
    (rules.map unplaced).Pairwise Apart ↔ rules.Pairwise Apart :=
  List.pairwise_map

end Rule

namespace RuleDraft

variable {language : Language} {draft other : RuleDraft}

private theorem shape_of_compile {pattern : Pattern}
    (compiled : draft.compile language = .ok pattern) : pattern.shape = draft.pattern := by
  obtain ⟨captures, _, made⟩ := exists_of_bind_ok (compile_ok compiled).1
  cases made
  rfl

private theorem alone_of_unplaced {rule : Rule} (same : other.unplaced = draft.unplaced)
    (made : draft.alone language = .ok rule) :
    ∃ remade, other.alone language = .ok remade ∧ remade.unplaced = rule.unplaced := by
  obtain ⟨pattern, trigger, compiled, triggered, rfl⟩ := alone_ok_iff.mp made
  obtain ⟨span, rfl⟩ : ∃ span, other = { draft with span } := by
    refine ⟨other.span, ?_⟩
    cases other
    cases draft
    cases same
    rfl
  refine ⟨_, alone_ok_iff.mpr ⟨pattern, trigger, compiled, ?_, rfl⟩, rfl⟩
  have sound := Builder.triggerOf_ok_iff.mp triggered
  exact Builder.triggerOf_ok_iff.mpr sound

/-- A rule is printed as the draft it was made from. -/
theorem draft_of_alone {rule : Rule} (made : draft.alone language = .ok rule) :
    rule.draft = draft := by
  obtain ⟨pattern, trigger, compiled, _, rfl⟩ := alone_ok_iff.mp made
  rw [Rule.draft, RuleDraft.rule, shape_of_compile compiled]

theorem drafts_of_alone {drafts : List RuleDraft} {rules : List Rule}
    (made : drafts.map (·.alone language) = rules.map .ok) : rules.map Rule.draft = drafts := by
  induction drafts generalizing rules with
  | nil =>
    obtain rfl := List.map_eq_nil_iff.mp made.symm
    rfl
  | cons draft drafts ih =>
    obtain ⟨rule, rules, rfl, first, rest⟩ := List.map_eq_cons_iff.mp made.symm
    rw [List.map_cons, draft_of_alone first.symm, ih rest.symm]

private theorem exists_alone_of_unplaced {drafts others : List RuleDraft} {rules : List Rule}
    (same : others.map unplaced = drafts.map unplaced)
    (made : drafts.map (·.alone language) = rules.map .ok) :
    ∃ remade : List Rule, others.map (·.alone language) = remade.map .ok ∧
      remade.map Rule.unplaced = rules.map Rule.unplaced := by
  induction drafts generalizing others rules with
  | nil =>
    obtain rfl := List.map_eq_nil_iff.mp same
    obtain rfl := List.map_eq_nil_iff.mp made.symm
    exact ⟨[], rfl, rfl⟩
  | cons draft drafts ih =>
    obtain ⟨other, others, rfl, here, later⟩ := List.map_eq_cons_iff.mp same
    obtain ⟨rule, rules, rfl, first, rest⟩ := List.map_eq_cons_iff.mp made.symm
    obtain ⟨again, alone, rule_same⟩ := alone_of_unplaced here first.symm
    obtain ⟨remade, alones, rules_same⟩ := ih later rest.symm
    refine ⟨again :: remade, ?_, ?_⟩
    · rw [List.map_cons, List.map_cons, alone, alones]
    · rw [List.map_cons, List.map_cons, rule_same, rules_same]

private theorem exists_mapM_of_printable {customGuards : Assoc String CustomGuard}
    {drafts : List RuleDraft} (printable : ∀ draft ∈ drafts, draft.Printable customGuards)
    {sexps : List Sexp} (same : sexps.map Sexp.form = drafts.map form) :
    ∃ others, sexps.mapM (ofSexp customGuards) = .ok others ∧
      others.map unplaced = drafts.map unplaced := by
  induction drafts generalizing sexps with
  | nil =>
    obtain rfl := List.map_eq_nil_iff.mp same
    exact ⟨[], rfl, rfl⟩
  | cons draft drafts ih =>
    obtain ⟨here, later⟩ := List.forall_mem_cons.mp printable
    obtain ⟨sexp, sexps, rfl, first, rest⟩ := List.map_eq_cons_iff.mp same
    obtain ⟨others, read, others_same⟩ := ih later rest
    refine ⟨_, mapM_cons_ok_iff.mpr ⟨_, others, here.read first, read, rfl⟩, ?_⟩
    rw [List.map_cons, List.map_cons, others_same]
    rfl

end RuleDraft

namespace Builder

variable {language : Language} {guards : List CustomGuard}

private theorem exists_drafts {source : Source} {ids : List Nat}
    (loads : ((knowing language guards).readRules source).added = .ok ids) :
    ∃ (drafts : List RuleDraft) (rules : List Rule),
      (∀ draft ∈ drafts, draft.Printable (knowing language guards).customGuards) ∧
      drafts.map (·.alone language) = rules.map .ok ∧ rules.Pairwise Rule.Apart ∧
      ids = List.range' 0 drafts.length ∧
      ((knowing language guards).readRules source).builder =
        (knowing language guards).withRules (Rule.number 0 rules) := by
  unfold readRules at loads ⊢
  split at loads
  · contradiction
  · rename_i sexps read
    obtain ⟨drafts, reads, added, rfl⟩ := addRules_ok_iff.mp ⟨loads, rfl⟩
    obtain ⟨rules, made, apart, _, loaded⟩ := (addDrafts_ok_iff inStep_knowing).mp added
    rw [language_knowing] at made
    refine ⟨drafts, rules, ?_, made, apart, by rw [rules_knowing, List.length_nil], ?_⟩
    · exact forall_of_mapM_ok (fun sexp inside draft found =>
        RuleDraft.printable_of_ofSexp registered_knowing
          (Sexp.legible_of_readAll read sexp inside) found) reads
    · rw [loaded, rules_knowing]
      rfl

/-- A text that holds printable drafts in their printed forms loads when the rules of the drafts
lie apart. -/
theorem readRules_of_printed {printed : Source} {drafts : List RuleDraft} {rules : List Rule}
    (printable : ∀ draft ∈ drafts, draft.Printable (knowing language guards).customGuards)
    (made : drafts.map (·.alone language) = rules.map .ok) (apart : rules.Pairwise Rule.Apart)
    (text : printed.text.toList = Form.writeLines (drafts.map RuleDraft.form)) :
    ∃ remade : List Rule, remade.map Rule.unplaced = rules.map Rule.unplaced ∧
      ((knowing language guards).readRules printed).added =
        .ok (List.range' 0 drafts.length) ∧
      ((knowing language guards).readRules printed).builder =
        (knowing language guards).withRules (Rule.number 0 remade) := by
  have legible : ∀ form ∈ drafts.map RuleDraft.form, form.Legible :=
    List.forall_mem_map.mpr fun draft inside => (printable draft inside).legible
  have cut := Form.lexemes_writeLines legible
  rw [← text] at cut
  obtain ⟨sexps, read, forms⟩ := Sexp.exists_readAll cut
  obtain ⟨others, reads, same⟩ := RuleDraft.exists_mapM_of_printable printable forms
  obtain ⟨remade, alones, rules_same⟩ := RuleDraft.exists_alone_of_unplaced same made
  have remade_apart : remade.Pairwise Rule.Apart := by
    rw [← Rule.apart_unplaced, rules_same, Rule.apart_unplaced]
    exact apart
  have added : (knowing language guards).addDrafts others =
      .ok ((knowing language guards).withRules (Rule.number 0 remade)) := by
    refine (addDrafts_ok_iff inStep_knowing).mpr ⟨remade, ?_, remade_apart, by simp, ?_⟩
    · rw [language_knowing, alones]
    · rw [rules_knowing]
      rfl
  have length : others.length = drafts.length := by
    simpa using congrArg List.length same
  obtain ⟨succeeded, builder⟩ := addRules_ok_iff.mpr ⟨others, reads, added, rfl⟩
  refine ⟨remade, rules_same, ?_, ?_⟩
  · rw [readRules, read, ← length]
    simpa using succeeded
  · rw [readRules, read]
    exact builder

private theorem toList_render_build {drafts : List RuleDraft} {rules : List Rule}
    (printable : ∀ draft ∈ drafts, draft.Printable (knowing language guards).customGuards)
    (made : drafts.map (·.alone language) = rules.map .ok) :
    ((knowing language guards).withRules (Rule.number 0 rules)).build.render.toList =
      Form.writeLines (drafts.map RuleDraft.form) := by
  have each : rules.map (fun rule => rule.render.toList) =
      rules.map (fun rule => rule.draft.form.write) := by
    apply List.map_congr_left
    intro rule inside
    have from_draft : rule.draft ∈ drafts := by
      rw [← RuleDraft.drafts_of_alone made]
      exact List.mem_map_of_mem inside
    exact Rule.toList_render fun guard required =>
      ((printable _ from_draft).guards guard required).1
  rw [build, rules_withRules, Catalog.render, Rule.map_render_number, String.toList_intercalate,
    List.map_map, Form.writeLines, ← RuleDraft.drafts_of_alone made, List.map_map, List.map_map]
  exact congrArg (['\n'].intercalate) each

/-- The rules of a text that loads, printed one a line, load again. They make the same catalog,
apart from where its rules stand, and are printed the same. -/
theorem printed_catalog_reloads (language : Language) (guards : List CustomGuard)
    (source printed : Source) (ids : List Nat)
    (loads : ((knowing language guards).readRules source).added = .ok ids)
    (prints : printed.text = ((knowing language guards).readRules source).builder.build.render) :
    ((knowing language guards).readRules printed).added = .ok ids ∧
      ((knowing language guards).readRules printed).builder.build.unplaced =
        ((knowing language guards).readRules source).builder.build.unplaced ∧
      ((knowing language guards).readRules printed).builder.build.render = printed.text := by
  obtain ⟨drafts, rules, printable, made, apart, rfl, built⟩ := exists_drafts loads
  rw [built] at prints ⊢
  have text := toList_render_build printable made
  rw [← prints] at text
  obtain ⟨remade, same, added, rebuilt⟩ := readRules_of_printed printable made apart text
  rw [rebuilt]
  have rules_same : (Rule.number 0 remade).map Rule.unplaced =
      (Rule.number 0 rules).map Rule.unplaced := by
    rw [Rule.unplaced_number, Rule.unplaced_number, same]
  refine ⟨added, ?_, ?_⟩
  · have index_same : TriggerIndex.ofRules (Rule.number 0 remade) =
        TriggerIndex.ofRules (Rule.number 0 rules) := by
      rw [← Rule.index_unplaced, rules_same, Rule.index_unplaced]
    have names_same : NameTable.ofRules (Rule.number 0 remade) =
        NameTable.ofRules (Rule.number 0 rules) := by
      rw [← Rule.names_unplaced, rules_same, Rule.names_unplaced]
    simp only [build, withRules, Catalog.unplaced, rules_same, names_same, index_same]
  · have printed_same : (Rule.number 0 remade).map Rule.render =
        (Rule.number 0 rules).map Rule.render := by
      rw [← Rule.map_render_unplaced, rules_same, Rule.map_render_unplaced]
    rw [prints]
    simp only [build, rules_withRules, Catalog.render, printed_same]

/-- Two rules whose options stand in another order than they are printed in. -/
def optionsText : String :=
  "(rule first (call ?a:expr f \"x\\n\") (call ?a g) :import \"m\" :requires (custom odd) " ++
    ":priority 3 :requires (min-version 7))\n" ++
    "(rule second (block (f) ?rest... (g ??x)) (block ?rest...)) ; no options"

/-- A custom guard that accepts every match. -/
def oddGuard : CustomGuard :=
  { name := "odd", check := fun _ _ => .accept, cancels := fun _ _ => false }

theorem options_reload :
    let builder := knowing ({} : Roles).language [oddGuard]
    let loading := builder.readRules ⟨0, none, optionsText⟩
    let reloading := builder.readRules ⟨1, none, loading.builder.build.render⟩
    loading.added = .ok [0, 1] ∧ reloading.added = .ok [0, 1] ∧
      reloading.builder.build.unplaced = loading.builder.build.unplaced := by
  have loads : ((knowing ({} : Roles).language [oddGuard]).readRules
      ⟨0, none, optionsText⟩).added = .ok [0, 1] := by
    decide +kernel
  have prints (text : String) : (Source.mk 1 none text).text = text := rfl
  obtain ⟨reloads, same, _⟩ :=
    printed_catalog_reloads ({} : Roles).language [oddGuard] _ _ [0, 1] loads (prints _)
  exact ⟨loads, reloads, same⟩

end Builder

end Codemod
