import Codemod.Proofs.Engine.Applications
import Codemod.Proofs.Match.Inheritance
import Codemod.Proofs.Rule.Printed
import Codemod.Proofs.Tree.Printed

/-!
# Reading what a run puts out

Trees and rules that are read from texts spell out nothing that could not stand in a text. No
application changes that: a replacement is made of captured trees and of what the template spells
out. The tree of a report can thus be read again, however the run stopped.
-/

namespace Codemod

namespace Tree

private theorem hereditary_printable : Hereditary Printable := by
  intro tree printable
  cases printable with
  | leaf _ _ => exact List.forall_mem_nil _
  | branch _ _ _ inside => exact inside

private theorem Printable.withChildren {tree : Tree} (printable : tree.Printable)
    (isBranch : tree.children ≠ []) {children : List Tree}
    (inside : ∀ child ∈ children, child.Printable) : (tree.withChildren children).Printable := by
  cases printable with
  | leaf _ _ => contradiction
  | branch named plain typed _ => exact .branch named plain typed inside

private theorem renderAll_unplaced {trees : List Tree}
    (each : ∀ tree ∈ trees, tree.unplaced.render = tree.render) :
    renderAll (trees.map unplaced) = renderAll trees := by
  induction trees with
  | nil => rfl
  | cons tree trees ih =>
    obtain ⟨here, later⟩ := List.forall_mem_cons.mp each
    rw [List.map_cons, renderAll, renderAll, here, ih later]

private theorem render_unplaced (tree : Tree) : tree.unplaced.render = tree.render := by
  induction tree using induct with
  | step kind text type span children each =>
    cases text with
    | none => rw [unplaced, render, render, renderAll_unplaced each]
    | some text => rw [unplaced, render, render]

end Tree

namespace Term

private theorem gives_of_ofAtom {span : Span} {atom : Atom} (legible : atom.Legible) {term : Term}
    (read : ofAtom span atom = .ok term) : term.Gives Tree.Printable := by
  rcases ofAtom_ok read with ⟨rfl, _⟩ | ⟨_, slot, _, _, rfl⟩
  · refine .leaf ?_
    intro span
    exact .leaf (Tree.isLiteral_of_legible legible) (by simp [Tree.leaf])
  · exact .hole slot

private theorem gives_of_ofSexp : (sexp : Sexp) → sexp.form.Legible → ∀ term,
    ofSexp sexp = .ok term → term.Gives Tree.Printable
  | .atom atom span => by
    intro legible term read
    rw [Sexp.form_atom, Form.legible_atom] at legible
    rw [ofSexp] at read
    exact gives_of_ofAtom legible read
  | .list [] span => by
    intro _ term read
    rw [ofSexp] at read
    contradiction
  | .list (head :: items) span => by
    intro legible term read
    rw [Sexp.form_list, List.map_cons] at legible
    obtain ⟨head_legible, items_legible⟩ := Form.legible_cons.mp legible
    rw [ofSexp] at read
    obtain ⟨kind, named, read⟩ := exists_of_bind_ok read
    split_ifs at read with isType isWindow
    obtain ⟨children, succeeded, made⟩ := exists_of_bind_ok read
    cases made
    rw [Sexp.expectIdent_ok_iff.mp named, Form.legible_atom] at head_legible
    rw [ofSexps_eq_mapM] at succeeded
    have inside := forall_of_mapM_ok (fun sexp within child read =>
      gives_of_ofSexp sexp (items_legible _ (List.mem_map_of_mem within)) child read) succeeded
    refine .branch inside ?_
    intro span trees printable
    exact .branch (Tree.isIdentifier_of_legible head_legible) isType (by simp [Tree.branch])
      printable

end Term

private theorem Shape.gives_of_ofSexp {sexp : Sexp} (legible : sexp.form.Legible) {shape : Shape}
    (read : Shape.ofSexp sexp = .ok shape) : ∀ term ∈ shape.terms, term.Gives Tree.Printable := by
  have as_term {shape : Shape} (read : .node <$> Term.ofSexp sexp = .ok shape) :
      ∀ term ∈ shape.terms, term.Gives Tree.Printable := by
    obtain ⟨term, made, rfl⟩ := exists_of_map_ok read
    exact List.forall_mem_singleton.mpr (Term.gives_of_ofSexp sexp legible term made)
  unfold Shape.ofSexp at read
  split at read
  · split at read
    · obtain ⟨terms, made, rfl⟩ := exists_of_map_ok read
      rw [Sexp.form_list, List.map_cons] at legible
      obtain ⟨_, items_legible⟩ := Form.legible_cons.mp legible
      rw [Term.ofSexps_eq_mapM] at made
      exact forall_of_mapM_ok (fun sexp within term read =>
        Term.gives_of_ofSexp sexp (items_legible _ (List.mem_map_of_mem within)) term read) made
    · exact as_term read
  · exact as_term read

/-- The template spells out printable trees. -/
def Template.Readable (template : Template) : Prop :=
  ∀ term ∈ template.shape.terms, term.Gives Tree.Printable

namespace RuleDraft

variable {customGuards : Assoc String CustomGuard} {draft extended : RuleDraft}

private theorem shape_withOption {span : Span} {keyword : String} {value : Sexp}
    (read : draft.withOption customGuards span keyword value = .ok extended) :
    extended.template.shape = draft.template.shape := by
  unfold withOption at read
  split at read
  · obtain ⟨priority, _, made⟩ := exists_of_bind_ok read
    cases made
    rfl
  · obtain ⟨guard, _, rfl⟩ := exists_of_map_ok read
    rfl
  · obtain ⟨name, _, rfl⟩ := exists_of_map_ok read
    rfl
  · contradiction

private theorem shape_withOptions {options : List Sexp}
    (read : draft.withOptions customGuards options = .ok extended) :
    extended.template.shape = draft.template.shape := by
  induction draft, options using withOptions.induct with
  | case1 draft =>
    cases read
    rfl
  | case2 draft key =>
    obtain ⟨_, _, read⟩ := exists_of_bind_ok read
    contradiction
  | case3 draft key value rest ih =>
    obtain ⟨keyword, _, read⟩ := exists_of_bind_ok read
    obtain ⟨next, taken, read⟩ := exists_of_bind_ok read
    exact (ih next read).trans (shape_withOption taken)

private theorem readable_of_ofSexp {sexp : Sexp} (legible : sexp.form.Legible)
    (read : ofSexp customGuards sexp = .ok draft) : draft.template.Readable := by
  obtain ⟨items, listed, read⟩ := exists_of_bind_ok read
  obtain ⟨span, rfl⟩ := Sexp.expectList_ok_iff.mp listed
  rw [Sexp.form_list, Form.legible_list] at legible
  split at read
  · rename_i head name pattern template options _
    split at read
    · obtain ⟨text, _, read⟩ := exists_of_bind_ok read
      obtain ⟨before, _, read⟩ := exists_of_bind_ok read
      obtain ⟨after, template_read, read⟩ := exists_of_bind_ok read
      have template_legible : template.form.Legible := legible _ (by simp)
      rw [Template.Readable, shape_withOptions read]
      exact Shape.gives_of_ofSexp template_legible template_read
    · contradiction
  · contradiction

end RuleDraft

namespace Builder

private theorem template_of_ruleOf {builder : Builder} {draft : RuleDraft} {rule : Rule}
    (made : builder.ruleOf draft = .ok rule) : rule.template = draft.template := by
  obtain ⟨pattern, _, made⟩ := exists_of_bind_ok made
  obtain ⟨trigger, _, made⟩ := exists_of_bind_ok made
  simp only at made
  split at made
  · contradiction
  · cases made
    rfl

/-- Every rule has a template that spells out printable trees. -/
def Readable (builder : Builder) : Prop :=
  ∀ rule ∈ builder.rules, rule.template.Readable

variable {builder : Builder}

private theorem Readable.enter (readable : builder.Readable) {draft : RuleDraft}
    (printable : draft.template.Readable) {rule : Rule} (made : builder.ruleOf draft = .ok rule) :
    (builder.enter rule).Readable := by
  refine List.forall_mem_append.mpr ⟨readable, List.forall_mem_singleton.mpr ?_⟩
  rwa [template_of_ruleOf made]

private theorem Readable.addRules {sexps : List Sexp} (legible : ∀ sexp ∈ sexps, sexp.form.Legible)
    {builder : Builder} (readable : builder.Readable) :
    (builder.addRules sexps).builder.Readable := by
  induction sexps generalizing builder with
  | nil => exact readable
  | cons sexp rest ih =>
    obtain ⟨here, later⟩ := List.forall_mem_cons.mp legible
    rw [addRules_cons]
    split
    · exact readable
    · rename_i draft read
      split
      · exact readable
      · rename_i rule made
        exact ih later (readable.enter (RuleDraft.readable_of_ofSexp here read) made)

/-- Texts and custom guards leave only rules that can be read. -/
theorem Readable.after (readable : builder.Readable) {call : Call}
    (fromText : ∀ draft, call ≠ .add draft) : (builder.after call).Readable := by
  cases call with
  | register guard => exact readable
  | add draft => exact absurd rfl (fromText draft)
  | read source =>
    rw [Builder.after, readRules]
    split
    · exact readable
    · rename_i sexps read
      exact readable.addRules (Sexp.legible_of_readAll read)

private theorem Readable.foldl_after {calls : List Call}
    (fromText : ∀ draft, Call.add draft ∉ calls) {builder : Builder} (readable : builder.Readable) :
    (calls.foldl Builder.after builder).Readable := by
  induction calls generalizing builder with
  | nil => exact readable
  | cons call rest ih =>
    simp only [List.mem_cons, not_or] at fromText
    exact ih (fun draft => (fromText draft).2)
      (readable.after fun draft same => (fromText draft).1 same.symm)

end Builder

theorem Catalog.readable_load (language : Language) {calls : List Builder.Call}
    (fromText : ∀ draft, Builder.Call.add draft ∉ calls) :
    ∀ rule ∈ (Catalog.load language calls).rules, rule.template.Readable := by
  have empty : ({ language } : Builder).Readable := List.forall_mem_nil _
  exact empty.foldl_after fromText

/-- A step of a rule that can be read leaves a printable tree printable. -/
theorem Rewrites.printable {language : Language} {found : Match} {anchor old new : Tree}
    {path : List Nat} (rewrites : Rewrites language found anchor path old new)
    (readable : found.rule.template.Readable) (printable : old.Printable) : new.Printable := by
  induction rewrites with
  | node _ matched filled _ =>
    have captured := Pattern.all_of_matchNode Tree.hereditary_printable printable matched
    have made := Template.all_of_instantiate readable captured
      (Template.instantiate_of_instantiateNode filled)
    exact List.forall_mem_singleton.mp made
  | @window block last extent new _ matched starts _ filled _ =>
    have inside := Tree.hereditary_printable block printable
    have captured := Pattern.all_of_matchWindow Tree.hereditary_printable inside matched
    have made := Template.all_of_instantiate readable captured filled
    have isBranch : block.children ≠ [] := by
      intro empty
      simp [empty] at starts
    refine printable.withChildren isBranch ?_
    simp only [List.forall_mem_append]
    exact ⟨⟨fun tree within => inside tree (List.mem_of_mem_take within), made⟩,
      fun tree within => inside tree (List.mem_of_mem_drop within)⟩
  | @child tree old new before after path stands _ ih =>
    have inside := Tree.hereditary_printable tree printable
    have isBranch : tree.children ≠ [] := by simp [stands]
    simp only [stands, List.forall_mem_append, List.forall_mem_cons] at inside
    refine printable.withChildren isBranch ?_
    simp only [List.forall_mem_append, List.forall_mem_cons]
    exact ⟨inside.1, ih inside.2.1, inside.2.2⟩

namespace Engine

variable {engine : Engine} {unit : CompilationUnit}

private theorem printable_of_chain {catalog : Catalog}
    (readable : ∀ rule ∈ catalog.rules, rule.template.Readable) {applied : List Applied}
    {before after : Tree} (chain : Chain (Step catalog) applied before after)
    (printable : before.Printable) : after.Printable := by
  induction chain with
  | nil state => exact printable
  | cons step _ ih =>
    obtain ⟨found, anchor, place, isRule, rewrites⟩ := step
    exact ih (rewrites.printable (readable _ (List.mem_of_getElem? isRule)) printable)

/-- With rules and a tree from texts, the tree of a report is read from what is printed for it, and
what is read is printed the same. -/
theorem report_reads_back (language : Language) (calls : List Builder.Call)
    (fromText : ∀ draft, Builder.Call.add draft ∉ calls) (maxPasses : Nat) (unit : CompilationUnit)
    (source : Source) (read : Tree.read source = .ok unit.root) (stop : Nat → Bool) :
    let engine : Engine := { catalog := .load language calls, maxPasses }
    let report := (engine.run unit stop).report
    ∀ id, ∃ twin, Tree.read ⟨id, none, report.root.render⟩ = .ok twin ∧
      twin.unplaced = report.root.unplaced ∧ twin.render = report.root.render := by
  intro engine report id
  have sound : (engine.replacing unit).Sound :=
    sound_replacing (Catalog.coherent_load language calls) rfl unit
  have chain := chain_passes sound report.passes
  rw [← (report_eq_passes engine unit stop).1] at chain
  have printable : report.root.Printable :=
    printable_of_chain (Catalog.readable_load language fromText) chain (Tree.printable_of_read read)
  obtain ⟨twin, reads, same⟩ := printable.read id none
  refine ⟨twin, reads, same, ?_⟩
  rw [← twin.render_unplaced, same, report.root.render_unplaced]

def swapText : Source :=
  ⟨0, none, "(rule swap (pair ?a ?b) (both ?b [say \"a;\\\"b\" 1.2.3] ?a))"⟩

def pairsText : Source :=
  ⟨1, none, "(m (: (pair (: x T) \"(\") U) ; typed\n (pair -1 [f]))"⟩

/-- Two pairs, one of them typed. -/
def pairs : CompilationUnit :=
  { name := "m", root := ((Tree.read pairsText).toOption.getD (.branch "m" [])) }

theorem swapped_pairs_read_back :
    let language := ({} : Roles).language
    let engine : Engine := { catalog := .load language [.read swapText] }
    let report := (engine.run pairs fun _ => false).report
    report.applied.length = 2 ∧
      ∀ id, ∃ twin, Tree.read ⟨id, none, report.root.render⟩ = .ok twin ∧
        twin.unplaced = report.root.unplaced ∧ twin.render = report.root.render := by
  have succeeds : (Tree.read pairsText).isOk = true := by decide +kernel
  have read : Tree.read pairsText = .ok pairs.root := by
    unfold pairs
    cases result : Tree.read pairsText with
    | error error =>
      rw [result] at succeeds
      contradiction
    | ok root => rfl
  refine ⟨by decide +kernel, ?_⟩
  exact report_reads_back ({} : Roles).language [.read swapText] (by simp) 16 pairs pairsText read
    fun _ => false

end Engine

end Codemod
