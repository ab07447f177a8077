import Codemod.Proofs.Guard.Printed
import Codemod.Proofs.Shape.Printed
import Codemod.Rule.Reader

/-!
# Printed rules

A rule is printed with its priority, its requirements and its imports in this order, each option
after its keyword. Options may be written in any order and some more than once; what a draft keeps
of them is what its printed form says.
-/

namespace Codemod

namespace RuleDraft

def requirement (guard : Guard) : List Form :=
  [.word ":requires", guard.form]

def importForm (name : String) : List Form :=
  [.word ":import", .atom (.string name)]

/-- The form a draft is printed in. -/
def form (draft : RuleDraft) : Form :=
  .list ([.word "rule", .word draft.name, draft.pattern.form, draft.template.shape.form,
      .word ":priority", .atom (.int (toString draft.priority))] ++
    ((Guard.listed draft.guard).flatMap requirement ++
      draft.template.imports.flatMap importForm))

end RuleDraft

/-- The draft that a rule is printed as. -/
def Rule.draft (rule : Rule) : RuleDraft :=
  { name := rule.name, pattern := rule.pattern.shape, template := rule.template,
    guard := rule.guard, priority := rule.priority, span := rule.span }

theorem Rule.toList_render {rule : Rule} (single : ∀ guard ∈ rule.guards, guard.Single) :
    rule.render.toList = rule.draft.form.write := by
  have requirements : rule.guards.flatMap (fun guard => (s!" :requires {guard.render}").toList) =
      (rule.guards.flatMap RuleDraft.requirement).flatMap fun item => ' ' :: item.write := by
    rw [List.flatMap_assoc]
    apply List.flatMap_congr
    intro guard inside
    simp [RuleDraft.requirement, Form.write, Atom.write, toString,
      Guard.toList_render (single guard inside)]
  have imports :
      rule.template.imports.flatMap (fun name => (s!" :import {Text.quote name}").toList) =
        (rule.template.imports.flatMap RuleDraft.importForm).flatMap
          fun item => ' ' :: item.write := by
    rw [List.flatMap_assoc]
    apply List.flatMap_congr
    intro name _
    simp [RuleDraft.importForm, Form.write, Atom.write, toString, Text.quote]
  have listed : Guard.listed rule.guard = rule.guards := rfl
  rw [RuleDraft.form, Rule.draft, listed]
  simp only [List.cons_append, List.nil_append, Form.write, List.flatMap_cons, List.flatMap_append,
    ← requirements, ← imports]
  simp [render, Atom.write, toString, Shape.toList_render, List.flatMap_map]

namespace RuleDraft

/-- A draft as it is left by reading: each of its parts can be spelled. -/
structure Printable (customGuards : Assoc String CustomGuard) (draft : RuleDraft) : Prop where
  name : (Atom.ident draft.name).Legible
  pattern : Spells Shape.ofSexp draft.pattern.form draft.pattern
  template : Spells Shape.ofSexp draft.template.shape.form draft.template.shape
  priority : -priorityBound ≤ draft.priority ∧ draft.priority < priorityBound
  guard : draft.guard = Guard.joined (Guard.listed draft.guard)
  guards : ∀ guard ∈ Guard.listed draft.guard,
    guard.Single ∧ Spells (Guard.ofSexp customGuards) guard.form guard
  imports : draft.template.imports.Nodup

variable {customGuards : Assoc String CustomGuard} {draft : RuleDraft}

private theorem Printable.withGuard (printable : draft.Printable customGuards) {guard : Guard}
    (single : guard.Single) (spelled : Spells (Guard.ofSexp customGuards) guard.form guard) :
    (draft.withGuard guard).Printable customGuards := by
  have alone : ∀ other ∈ Guard.listed draft.guard ++ [guard], other.Single := by
    intro other inside
    rcases List.mem_append.mp inside with earlier | here
    · exact (printable.guards other earlier).1
    · exact List.mem_singleton.mp here ▸ single
  have together : (draft.withGuard guard).guard =
      Guard.joined (Guard.listed draft.guard ++ [guard]) := by
    rw [RuleDraft.withGuard, printable.guard, Guard.conjoin_joined, Guard.listed_joined]
    · exact fun other inside => (printable.guards other inside).1
    · exact fun other inside => alone other (List.mem_append_left _ inside)
  have listed : Guard.listed (draft.withGuard guard).guard =
      Guard.listed draft.guard ++ [guard] := by
    rw [together, Guard.listed_joined alone]
  refine { printable with guard := listed ▸ together, guards := ?_ }
  rw [listed]
  intro other inside
  rcases List.mem_append.mp inside with earlier | here
  · exact printable.guards other earlier
  · exact List.mem_singleton.mp here ▸ ⟨single, spelled⟩

private theorem Printable.withOption (registered : Guard.Registered customGuards)
    (printable : draft.Printable customGuards) {span : Span} {keyword : String} {value : Sexp}
    (legible : value.form.Legible) {extended : RuleDraft}
    (read : draft.withOption customGuards span keyword value = .ok extended) :
    extended.Printable customGuards := by
  unfold RuleDraft.withOption at read
  split at read
  · obtain ⟨priority, found, made⟩ := exists_of_bind_ok read
    cases made
    obtain ⟨number, _, found⟩ := exists_of_bind_ok found
    split at found
    · rename_i bounds
      cases found
      exact { printable with priority := bounds }
    · contradiction
  · obtain ⟨guard, found, rfl⟩ := exists_of_map_ok read
    obtain ⟨single, spelled⟩ := Guard.printed_of_ofSexp registered found legible
    exact printable.withGuard single spelled
  · obtain ⟨name, _, rfl⟩ := exists_of_map_ok read
    exact { printable with imports := nodup_addNew name printable.imports }
  · contradiction

private theorem Printable.withOptions (registered : Guard.Registered customGuards)
    (printable : draft.Printable customGuards) {options : List Sexp}
    (legible : ∀ option ∈ options, option.form.Legible) {extended : RuleDraft}
    (read : draft.withOptions customGuards options = .ok extended) :
    extended.Printable customGuards := by
  induction draft, options using RuleDraft.withOptions.induct with
  | case1 draft =>
    cases read
    exact printable
  | case2 draft key =>
    obtain ⟨_, _, read⟩ := exists_of_bind_ok read
    contradiction
  | case3 draft key value rest ih =>
    obtain ⟨keyword, _, read⟩ := exists_of_bind_ok read
    obtain ⟨next, taken, read⟩ := exists_of_bind_ok read
    obtain ⟨_, legible⟩ := List.forall_mem_cons.mp legible
    obtain ⟨value_legible, rest_legible⟩ := List.forall_mem_cons.mp legible
    exact ih next (printable.withOption registered value_legible taken) rest_legible read

theorem printable_of_ofSexp (registered : Guard.Registered customGuards) {sexp : Sexp}
    (legible : sexp.form.Legible) (read : ofSexp customGuards sexp = .ok draft) :
    draft.Printable customGuards := by
  obtain ⟨items, listed, read⟩ := exists_of_bind_ok read
  obtain ⟨span, rfl⟩ := Sexp.expectList_ok_iff.mp listed
  rw [Sexp.form_list, Form.legible_list] at legible
  have items_legible : ∀ item ∈ items, item.form.Legible := fun item inside =>
    legible _ (List.mem_map_of_mem inside)
  split at read
  · rename_i head name pattern template options _
    split at read
    · obtain ⟨text, named, read⟩ := exists_of_bind_ok read
      obtain ⟨before, pattern_read, read⟩ := exists_of_bind_ok read
      obtain ⟨after, template_read, read⟩ := exists_of_bind_ok read
      have bare : RuleDraft.Printable customGuards
          { name := text, pattern := before, template := .ofShape after, span } :=
        { name := Form.legible_atom.mp
            (Sexp.respells_ident name text named (items_legible name (by simp))).legible
          pattern := Shape.respells pattern before pattern_read (items_legible pattern (by simp))
          template := Shape.respells template after template_read
            (items_legible template (by simp))
          priority := (by decide : -priorityBound ≤ 0 ∧ 0 < priorityBound)
          guard := rfl
          guards := by simp [Guard.listed]
          imports := List.nodup_nil }
      exact bare.withOptions registered
        (fun option inside => items_legible option (by simp [inside])) read
    · contradiction
  · contradiction

theorem Printable.legible (printable : draft.Printable customGuards) : draft.form.Legible := by
  have keywords : ∀ keyword ∈ ["rule", ":priority", ":requires", ":import"],
      (Atom.ident keyword).Legible := by
    simp only [Atom.legible_ident_iff, Lexer.isWord_iff]
    decide +kernel
  have numeral : (Atom.int (toString draft.priority)).Legible :=
    Lexer.wordAtom_numeral draft.priority ▸ .word (Lexer.isWord_numeral draft.priority)
  rw [form, Form.legible_list, List.forall_mem_append, List.forall_mem_append]
  refine ⟨?_, ?_, ?_⟩
  · simp only [List.forall_mem_cons, Form.legible_atom]
    exact ⟨keywords _ (by simp), printable.name, printable.pattern.legible,
      printable.template.legible, keywords _ (by simp), numeral, by simp⟩
  · intro item inside
    obtain ⟨guard, required, inside⟩ := List.mem_flatMap.mp inside
    rw [requirement, List.mem_pair] at inside
    obtain rfl | rfl := inside
    · exact .atom (keywords _ (by simp))
    · exact (printable.guards guard required).2.legible
  · intro item inside
    obtain ⟨name, _, inside⟩ := List.mem_flatMap.mp inside
    rw [importForm, List.mem_pair] at inside
    obtain rfl | rfl := inside
    · exact .atom (keywords _ (by simp))
    · exact .atom (.literal name)

private theorem withOptions_cons {key value : Sexp} {rest : List Sexp} {keyword : String}
    (keyed : key.form = .word keyword) :
    draft.withOptions customGuards (key :: value :: rest) =
      draft.withOption customGuards key.span keyword value >>=
        (·.withOptions customGuards rest) := by
  rw [withOptions, Sexp.expectIdent_ok_iff.mpr keyed]
  rfl

private theorem withOptions_requirements {guards : List Guard}
    (spelled : ∀ guard ∈ guards, Spells (Guard.ofSexp customGuards) guard.form guard)
    (draft : RuleDraft) {options : List Sexp} {forms : List Form}
    (same : options.map Sexp.form = guards.flatMap requirement ++ forms) :
    ∃ rest, rest.map Sexp.form = forms ∧
      draft.withOptions customGuards options =
        (guards.foldl RuleDraft.withGuard draft).withOptions customGuards rest := by
  induction guards generalizing draft options with
  | nil => exact ⟨options, same, rfl⟩
  | cons guard guards ih =>
    obtain ⟨here, later⟩ := List.forall_mem_cons.mp spelled
    rw [List.flatMap_cons, List.append_assoc] at same
    obtain ⟨key, options, rfl, keyed, same⟩ := List.map_eq_cons_iff.mp same
    obtain ⟨value, options, rfl, valued, same⟩ := List.map_eq_cons_iff.mp same
    obtain ⟨rest, rest_same, read⟩ := ih later (draft.withGuard guard) same
    refine ⟨rest, rest_same, ?_⟩
    rw [withOptions_cons keyed, RuleDraft.withOption, here.read_eq value valued]
    exact read

private theorem withOptions_imports {names : List String} {options : List Sexp}
    (same : options.map Sexp.form = names.flatMap importForm) :
    draft.withOptions customGuards options = .ok (names.foldl RuleDraft.withImport draft) := by
  induction names generalizing draft options with
  | nil =>
    obtain rfl := List.map_eq_nil_iff.mp same
    rfl
  | cons name names ih =>
    rw [List.flatMap_cons] at same
    obtain ⟨key, options, rfl, keyed, same⟩ := List.map_eq_cons_iff.mp same
    obtain ⟨value, options, rfl, valued, same⟩ := List.map_eq_cons_iff.mp same
    rw [withOptions_cons keyed, RuleDraft.withOption, Sexp.expectString_ok_iff.mpr valued]
    exact ih same

private theorem foldl_withGuard (draft : RuleDraft) {before guards : List Guard}
    (single : ∀ guard ∈ before ++ guards, guard.Single) :
    guards.foldl RuleDraft.withGuard { draft with guard := Guard.joined before } =
      { draft with guard := Guard.joined (before ++ guards) } := by
  induction guards generalizing before with
  | nil => rw [List.append_nil, List.foldl_nil]
  | cons guard guards ih =>
    have alone : ∀ other ∈ before, other.Single := fun other inside =>
      single other (List.mem_append_left _ inside)
    have step : RuleDraft.withGuard { draft with guard := Guard.joined before } guard =
        { draft with guard := Guard.joined (before ++ [guard]) } := by
      rw [RuleDraft.withGuard, Guard.conjoin_joined alone]
    rw [List.foldl_cons, step, ih (by simpa using single), List.append_assoc]
    rfl

private theorem foldl_withImport (names : List String) (draft : RuleDraft) :
    names.foldl RuleDraft.withImport draft =
      { draft with template :=
        { draft.template with imports := addAllNew draft.template.imports names } } := by
  induction names generalizing draft with
  | nil => rfl
  | cons name names ih =>
    rw [List.foldl_cons, ih]
    rfl

private theorem priorityOfSexp_of_int {sexp : Sexp} {value : Int}
    (found : sexp.expectInt = .ok value) (bounds : -priorityBound ≤ value ∧ value < priorityBound) :
    priorityOfSexp sexp = .ok value := by
  rw [priorityOfSexp, found]
  exact if_pos bounds

/-- What has the printed form of a draft is read as this draft, with the span where it stands. -/
theorem Printable.read (printable : draft.Printable customGuards) {sexp : Sexp}
    (same : sexp.form = draft.form) :
    ofSexp customGuards sexp = .ok { draft with span := sexp.span } := by
  obtain ⟨head, items, span, rfl, headed, items_same⟩ := Sexp.exists_of_form_cons same
  obtain ⟨name, items, rfl, named, items_same⟩ := List.map_eq_cons_iff.mp items_same
  obtain ⟨pattern, items, rfl, patterned, items_same⟩ := List.map_eq_cons_iff.mp items_same
  obtain ⟨template, items, rfl, templated, items_same⟩ := List.map_eq_cons_iff.mp items_same
  obtain ⟨key, items, rfl, keyed, items_same⟩ := List.map_eq_cons_iff.mp items_same
  obtain ⟨value, options, rfl, valued, options_same⟩ := List.map_eq_cons_iff.mp items_same
  let bare : RuleDraft :=
    { name := draft.name, pattern := draft.pattern
      template := .ofShape draft.template.shape, span }
  have opened : ofSexp customGuards
      (.list (head :: name :: pattern :: template :: key :: value :: options) span) =
        bare.withOptions customGuards (key :: value :: options) := by
    simp only [ofSexp, Sexp.expectList, Sexp.ident?_eq_some_iff.mpr headed,
      Sexp.expectIdent_ok_iff.mpr named, printable.pattern.read_eq pattern patterned,
      printable.template.read_eq template templated, bind, Except.bind, if_true, Sexp.span]
    rfl
  have small : priorityBound ≤ Text.int64Bound := by decide
  obtain ⟨least, greatest⟩ := printable.priority
  have numeral := Sexp.spells_int draft.priority (by omega) (by omega)
  have ranked := priorityOfSexp_of_int (numeral.read_eq value valued) printable.priority
  have single : ∀ guard ∈ [] ++ Guard.listed draft.guard, guard.Single := fun guard inside =>
    (printable.guards guard inside).1
  obtain ⟨rest, rest_same, required⟩ := withOptions_requirements
    (fun guard inside => (printable.guards guard inside).2) { bare with priority := draft.priority }
    options_same
  -- The priority stands first, so the requirements and imports that follow meet a bare draft.
  rw [opened, withOptions_cons keyed, RuleDraft.withOption, ranked]
  refine required.trans ?_
  have joined : (Guard.listed draft.guard).foldl RuleDraft.withGuard
      { bare with priority := draft.priority } =
        { bare with priority := draft.priority, guard := draft.guard } := by
    have folded := foldl_withGuard { bare with priority := draft.priority } single
    rw [List.nil_append, ← printable.guard] at folded
    exact folded
  have imported : addAllNew [] draft.template.imports = draft.template.imports :=
    distinct_eq_self printable.imports
  rw [withOptions_imports rest_same, foldl_withImport, joined]
  simp only [bare, Template.ofShape, imported, Sexp.span]

end RuleDraft

end Codemod
