import Codemod.Proofs.Sexp.Spelling
import Codemod.Tree.Lemmas
import Codemod.Tree.Printer
import Codemod.Tree.Reader

/-!
# Printed trees

What is printed for a tree is a form of it, as long as each kind, leaf text and type can stand as a
token. Such a tree is read again from what is printed for it, and every tree that is read is one.
-/

namespace Codemod

/-- The atom of a leaf. -/
def Atom.ofLeaf (kind text : String) : Atom :=
  if kind = Tree.stringKind then .string text
  else if kind = Tree.intKind then .int text
  else if kind = Tree.floatKind then .float text
  else .ident text

theorem Atom.ofLeaf_kind (atom : Atom) : Atom.ofLeaf atom.kind atom.text = atom := by
  cases atom <;> rfl

theorem Atom.write_ofLeaf (kind text : String) :
    (Atom.ofLeaf kind text).write =
      (if kind = Tree.stringKind then Text.quote text else text).toList := by
  unfold Atom.ofLeaf
  split
  · simp [Atom.write, Text.quote]
  · split_ifs <;> rfl

namespace Tree

open Lexer

/-- The text of a leaf is a token of the kind of the leaf. -/
inductive IsLiteral : (kind text : String) → Prop where
  | name {text : String} (identifier : IsIdentifier text.toList) : IsLiteral nameKind text
  | int {text : String} (integer : IsInteger text.toList) : IsLiteral intKind text
  | float {text : String} (decimal : IsDecimal text.toList) : IsLiteral floatKind text
  | string (text : String) : IsLiteral stringKind text

theorem isIdentifier_of_legible {text : String} (legible : (Atom.ident text).Legible) :
    IsIdentifier text.toList := by
  obtain ⟨isWord, same⟩ := Atom.legible_ident_iff.mp legible
  refine ⟨isWord, ?_, ?_⟩
  · intro integer
    rw [wordAtom_of_isInteger integer] at same
    contradiction
  · intro decimal
    rw [wordAtom_of_isDecimal decimal] at same
    contradiction

private theorem legible_of_isIdentifier {text : String} (identifier : IsIdentifier text.toList) :
    (Atom.ident text).Legible := by
  have legible : (wordAtom text.toList).Legible := .word identifier.1
  rwa [wordAtom_of_isIdentifier identifier, String.ofList_toList] at legible

private theorem isLiteral_of_spelled {atom : Atom} {token : List Char}
    (spelled : atom.Spelled token) : IsLiteral atom.kind atom.text := by
  cases spelled with
  | ident identifier => exact .name (by rwa [Atom.text, String.toList_ofList])
  | int integer => exact .int (by rwa [Atom.text, String.toList_ofList])
  | float decimal => exact .float (by rwa [Atom.text, String.toList_ofList])
  | string _ => exact .string _

theorem isLiteral_of_legible {atom : Atom} (legible : atom.Legible) :
    IsLiteral atom.kind atom.text := by
  cases legible with
  | literal text => exact .string text
  | word isWord => exact isLiteral_of_spelled (spelled_wordAtom isWord)

section

variable {kind text : String} (literal : IsLiteral kind text)

include literal

private theorem legible_of_isLiteral : (Atom.ofLeaf kind text).Legible := by
  cases literal with
  | name identifier => exact legible_of_isIdentifier identifier
  | int integer =>
    have legible : (wordAtom text.toList).Legible := .word (isWord_of_isInteger integer)
    rwa [wordAtom_of_isInteger integer, String.ofList_toList] at legible
  | float decimal =>
    have legible : (wordAtom text.toList).Legible := .word (isWord_of_isDecimal decimal)
    rwa [wordAtom_of_isDecimal decimal, String.ofList_toList] at legible
  | string _ => exact .literal text

private theorem toList_renderLeaf :
    (renderLeaf kind text).toList = (Atom.ofLeaf kind text).write := by
  rw [Atom.write_ofLeaf]
  cases literal <;> rfl

private theorem leaf_ofLeaf :
    leaf (Atom.ofLeaf kind text).kind (Atom.ofLeaf kind text).text = leaf kind text := by
  cases literal <;> rfl

end

/-- Every leaf is a literal, and every kind of a branch and every type is an identifier. -/
inductive Printable : Tree → Prop where
  | leaf {kind text : String} {type : Option String} {span : Span}
      (literal : IsLiteral kind text) (typed : ∀ name ∈ type, IsIdentifier name.toList) :
      Printable ⟨kind, some text, type, span, []⟩
  | branch {kind : String} {type : Option String} {span : Span} {children : List Tree}
      (named : IsIdentifier kind.toList) (plain : kind ≠ typeHead)
      (typed : ∀ name ∈ type, IsIdentifier name.toList)
      (inside : ∀ child ∈ children, Printable child) :
      Printable ⟨kind, none, type, span, children⟩

/-- The tree apart from where it stands. -/
def unplaced : Tree → Tree
  | ⟨kind, text, type, _, children⟩ => ⟨kind, text, type, .generated, children.map unplaced⟩

def typedForm (type : Option String) (form : Form) : Form :=
  match type with
  | some type => .list [.word typeHead, form, .word type]
  | none => form

/-- The form a tree is printed in. -/
def form : Tree → Form
  | ⟨kind, some text, type, _, _⟩ => typedForm type (.atom (Atom.ofLeaf kind text))
  | ⟨kind, none, type, _, children⟩ =>
    typedForm type (.list (.word kind :: children.map form))

private theorem toList_renderTyped {type : Option String} {untyped : String} {form : Form}
    (written : untyped.toList = form.write) :
    (renderTyped type untyped).toList = (typedForm type form).write := by
  cases type with
  | none => exact written
  | some type => simp [renderTyped, typedForm, Form.write, Atom.write, typeHead, toString, written]

private theorem toList_renderAll {trees : List Tree}
    (each : ∀ tree ∈ trees, tree.render.toList = tree.form.write) :
    (renderAll trees).toList = (trees.map form).flatMap fun item => ' ' :: item.write := by
  induction trees with
  | nil => rfl
  | cons tree trees ih =>
    have ⟨here, later⟩ := List.forall_mem_cons.mp each
    simp [renderAll, toString, here, ih later]

private theorem Printable.toList_render {tree : Tree} (printable : tree.Printable) :
    tree.render.toList = tree.form.write := by
  induction printable with
  | leaf literal _ =>
    rw [render, form]
    exact toList_renderTyped (by rw [toList_renderLeaf literal, Form.write])
  | branch _ _ _ _ ih =>
    rw [render, form]
    exact toList_renderTyped (by simp [toString, toList_renderAll ih, Form.write, Atom.write])

private theorem legible_typedForm {type : Option String} {form : Form} (legible : form.Legible)
    (typed : ∀ name ∈ type, IsIdentifier name.toList) : (typedForm type form).Legible := by
  cases type with
  | none => exact legible
  | some type =>
    have head : (Atom.ident typeHead).Legible :=
      Atom.legible_ident_of_head (isWord_iff.mpr (by decide +kernel)) (by decide) (by decide)
    have name : (Atom.ident type).Legible := legible_of_isIdentifier (typed type rfl)
    simpa [typedForm, Form.legible_list] using
      ⟨Form.legible_atom.mpr head, legible, Form.legible_atom.mpr name⟩

private theorem Printable.legible {tree : Tree} (printable : tree.Printable) :
    tree.form.Legible := by
  induction printable with
  | leaf literal typed =>
    rw [form]
    exact legible_typedForm (.atom (legible_of_isLiteral literal)) typed
  | branch named _ typed _ ih =>
    rw [form]
    refine legible_typedForm (Form.legible_cons.mpr ⟨?_, List.forall_mem_map.mpr ih⟩) typed
    exact .atom (legible_of_isIdentifier named)

/-- S-expressions of a form are read as a tree, up to where they stand. -/
def ReadAs (form : Form) (tree : Tree) : Prop :=
  ∀ sexp : Sexp, sexp.form = form → ∃ twin, ofSexp sexp = .ok twin ∧ twin.unplaced = tree.unplaced

private theorem readAs_typedForm {kind : String} {text type : Option String} {span : Span}
    {children : List Tree} {form : Form} (reads : ReadAs form ⟨kind, text, none, span, children⟩) :
    ReadAs (typedForm type form) ⟨kind, text, type, span, children⟩ := by
  cases type with
  | none => exact reads
  | some type =>
    intro sexp same
    obtain ⟨head, items, other, rfl, head_same, items_same⟩ := Sexp.exists_of_form_cons same
    obtain ⟨expr, items, rfl, expr_same, items_same⟩ := List.map_eq_cons_iff.mp items_same
    obtain ⟨name, items, rfl, name_same, items_same⟩ := List.map_eq_cons_iff.mp items_same
    obtain rfl := List.map_eq_nil_iff.mp items_same
    obtain ⟨twin, read, twin_same⟩ := reads expr expr_same
    refine ⟨twin.withType type, ?_, ?_⟩
    · simp [ofSexp, Sexp.expectIdent_ok_iff.mpr head_same, read,
        Sexp.expectIdent_ok_iff.mpr name_same, bind, Except.bind]
    · obtain ⟨_, _, _, _, _⟩ := twin
      simp_all [unplaced, withType]

private theorem exists_ofSexps {trees : List Tree} (each : ∀ tree ∈ trees, ReadAs tree.form tree)
    {sexps : List Sexp} (same : sexps.map Sexp.form = trees.map form) :
    ∃ twins, ofSexps sexps = .ok twins ∧ twins.map unplaced = trees.map unplaced := by
  induction trees generalizing sexps with
  | nil =>
    obtain rfl := List.map_eq_nil_iff.mp same
    exact ⟨[], rfl, rfl⟩
  | cons tree trees ih =>
    obtain ⟨sexp, sexps, rfl, here, later⟩ := List.map_eq_cons_iff.mp same
    have ⟨first, others⟩ := List.forall_mem_cons.mp each
    obtain ⟨twin, read, twin_same⟩ := first sexp here
    obtain ⟨twins, reads, twins_same⟩ := ih others later
    refine ⟨twin :: twins, ?_, ?_⟩
    · rw [ofSexps, read, reads]
      rfl
    · rw [List.map_cons, List.map_cons, twin_same, twins_same]

private theorem Printable.readAs {tree : Tree} (printable : tree.Printable) :
    ReadAs tree.form tree := by
  induction printable with
  | @leaf kind text _ _ literal _ =>
    rw [form]
    apply readAs_typedForm
    intro sexp same
    obtain ⟨other, rfl⟩ := Sexp.exists_of_form_atom same
    refine ⟨(Tree.leaf kind text).withSpan other, ?_, ?_⟩
    · rw [ofSexp, leaf_ofLeaf literal]
    · simp [Tree.leaf, withSpan, unplaced]
  | @branch kind _ _ children _ plain _ _ ih =>
    rw [form]
    apply readAs_typedForm
    intro sexp same
    obtain ⟨head, items, other, rfl, head_same, items_same⟩ := Sexp.exists_of_form_cons same
    obtain ⟨twins, reads, twins_same⟩ := exists_ofSexps ih items_same
    refine ⟨(Tree.branch kind twins).withSpan other, ?_, ?_⟩
    · rw [ofSexp.eq_def]
      simp [Sexp.expectIdent_ok_iff.mpr head_same, plain, reads, bind, Except.bind]
    · simp [Tree.branch, withSpan, unplaced, twins_same]

/-- A printable tree is read from what is printed for it. -/
theorem Printable.read {tree : Tree} (printable : tree.Printable) (id : Nat)
    (name : Option String) :
    ∃ twin, Tree.read ⟨id, name, tree.render⟩ = .ok twin ∧ twin.unplaced = tree.unplaced := by
  have cut := Form.lexemes_writeLines (List.forall_mem_singleton.mpr printable.legible)
  have text : tree.render.toList = Form.writeLines [tree.form] := by
    rw [printable.toList_render]
    simp [Form.writeLines]
  rw [← text] at cut
  obtain ⟨sexps, read, same⟩ := @Sexp.exists_readAll ⟨id, name, tree.render⟩ _ cut
  obtain ⟨sexp, others, rfl, here, rest⟩ := List.map_eq_cons_iff.mp same
  obtain rfl := List.map_eq_nil_iff.mp rest
  obtain ⟨twin, made, twin_same⟩ := printable.readAs sexp here
  refine ⟨twin, ?_, twin_same⟩
  rw [Tree.read, Sexp.readOne_ok_iff.mpr read]
  exact made

private theorem Printable.withType {tree : Tree} (printable : tree.Printable) {type : String}
    (identifier : IsIdentifier type.toList) : (tree.withType type).Printable := by
  have typed : ∀ name ∈ some type, IsIdentifier name.toList := by simpa using identifier
  cases printable with
  | leaf literal _ => exact .leaf literal typed
  | branch named plain _ inside => exact .branch named plain typed inside

theorem ofSexps_eq_mapM (sexps : List Sexp) : ofSexps sexps = sexps.mapM ofSexp := by
  induction sexps with
  | nil => rfl
  | cons sexp sexps ih =>
    rw [ofSexps, List.mapM_cons, ih]
    rfl

/-- A list is read as a typed tree or as a branch. -/
theorem ofSexp_cons_ok_iff {head : Sexp} {items : List Sexp} {span : Span} {tree : Tree} :
    ofSexp (.list (head :: items) span) = .ok tree ↔
      (∃ expr type untyped name, items = [expr, type] ∧ head.form = .word typeHead ∧
        ofSexp expr = .ok untyped ∧ type.form = .word name ∧ untyped.withType name = tree) ∨
      ∃ kind children, head.form = .word kind ∧ kind ≠ typeHead ∧
        items.mapM ofSexp = .ok children ∧ (branch kind children).withSpan span = tree := by
  rw [ofSexp.eq_def]
  dsimp only
  constructor
  · intro read
    obtain ⟨kind, named, read⟩ := exists_of_bind_ok read
    rw [Sexp.expectIdent_ok_iff] at named
    split_ifs at read with isType
    · split at read
      · rename_i expr type _
        obtain ⟨untyped, made, read⟩ := exists_of_bind_ok read
        obtain ⟨name, typed, read⟩ := exists_of_bind_ok read
        exact .inl ⟨expr, type, untyped, name, rfl, isType ▸ named, made,
          Sexp.expectIdent_ok_iff.mp typed, Except.ok.inj read⟩
      · contradiction
    · obtain ⟨children, made, read⟩ := exists_of_bind_ok read
      rw [ofSexps_eq_mapM] at made
      exact .inr ⟨kind, children, named, isType, made, Except.ok.inj read⟩
  · rintro (⟨expr, type, untyped, name, rfl, headed, made, typed, rfl⟩ |
      ⟨kind, children, headed, plain, made, rfl⟩)
    · simp [Sexp.expectIdent_ok_iff.mpr headed, made, Sexp.expectIdent_ok_iff.mpr typed, bind,
        Except.bind]
    · simp [Sexp.expectIdent_ok_iff.mpr headed, plain, ofSexps_eq_mapM, made, bind, Except.bind]

private theorem printable_of_ofSexp (sexp : Sexp) (legible : sexp.form.Legible) :
    ∀ tree, ofSexp sexp = .ok tree → tree.Printable := by
  induction sexp using Sexp.itemwise with
  | atom atom span =>
    intro tree read
    rw [Sexp.form_atom, Form.legible_atom] at legible
    rw [ofSexp] at read
    cases read
    exact .leaf (isLiteral_of_legible legible) (by simp [Tree.leaf])
  | list items span ih =>
    intro tree read
    cases items with
    | nil =>
      rw [ofSexp] at read
      contradiction
    | cons head items =>
      rw [Sexp.form_list, List.map_cons] at legible
      obtain ⟨head_legible, items_legible⟩ := Form.legible_cons.mp legible
      have inside : ∀ item ∈ items, ∀ tree, ofSexp item = .ok tree → tree.Printable :=
        fun item member => ih item (List.mem_cons_of_mem head member)
          (items_legible _ (List.mem_map_of_mem member))
      rcases ofSexp_cons_ok_iff.mp read with
        ⟨expr, type, untyped, name, rfl, _, made, typed, rfl⟩ |
        ⟨kind, children, named, plain, made, rfl⟩
      · have type_legible := items_legible type.form (by simp)
        rw [typed, Form.legible_atom] at type_legible
        exact (inside expr List.mem_cons_self untyped made).withType
          (isIdentifier_of_legible type_legible)
      · rw [named, Form.legible_atom] at head_legible
        exact .branch (isIdentifier_of_legible head_legible) plain (by simp [Tree.branch])
          (forall_of_mapM_ok inside made)

theorem printable_of_read {source : Source} {tree : Tree} (read : Tree.read source = .ok tree) :
    tree.Printable := by
  obtain ⟨sexp, first, made⟩ := exists_of_bind_ok read
  have legible := Sexp.legible_of_readAll (Sexp.readOne_ok_iff.mp first)
  exact printable_of_ofSexp sexp (legible sexp List.mem_cons_self) tree made

/-- What is printed for a printable tree is read as this tree again, and only printable trees are
read. -/
theorem printed_reads_back :
    (∀ tree : Tree, tree.Printable → ∀ id,
      ∃ twin, Tree.read ⟨id, none, tree.render⟩ = .ok twin ∧ twin.unplaced = tree.unplaced) ∧
    ∀ source tree, Tree.read source = .ok tree → tree.Printable :=
  ⟨fun _ printable id => printable.read id none, fun _ _ => printable_of_read⟩

/-- A call with a literal that holds marks of the format, and with words close to numbers. -/
def trickyCall : Tree :=
  ⟨"call", none, some "T", .generated,
    [⟨nameKind, some "-", some "1.2.3", .generated, []⟩,
      ⟨stringKind, some "a\"b\\;(\n\t", none, .generated, []⟩,
      ⟨intKind, some "-12", none, .generated, []⟩,
      ⟨floatKind, some "3.50", none, .generated, []⟩,
      ⟨"1e5", none, none, .generated, []⟩]⟩

theorem trickyCall_reads_back :
    trickyCall.Printable ∧ ∃ twin, Tree.read ⟨0, none, trickyCall.render⟩ = .ok twin ∧
      twin.unplaced = trickyCall.unplaced ∧ twin.Printable := by
  have printable : trickyCall.Printable := by
    refine .branch (by decide +kernel) (by decide) (by decide +kernel) ?_
    simp only [List.forall_mem_cons]
    refine ⟨?_, ?_, ?_, ?_, ?_, List.forall_mem_nil _⟩
    · exact .leaf (.name (by decide +kernel)) (by decide +kernel)
    · exact .leaf (.string _) (by decide +kernel)
    · exact .leaf (.int (by decide +kernel)) (by decide +kernel)
    · exact .leaf (.float (by decide +kernel)) (by decide +kernel)
    · exact .branch (by decide +kernel) (by decide) (by decide +kernel) (List.forall_mem_nil _)
  obtain ⟨twin, read, same⟩ := printed_reads_back.1 trickyCall printable 0
  exact ⟨printable, twin, read, same, printed_reads_back.2 _ twin read⟩

end Tree

end Codemod
