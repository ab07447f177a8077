import Codemod.Proofs.Guard.Leaves
import Codemod.Proofs.Match.Soundness
import Codemod.Proofs.Shape.Renaming

/-!
# Unreferenced captures

A guard that asks for a capture to be unreferenced accepts only where all the captures it lists are
bound and hold no copy of it. A template filled with such captures holds no copy either, unless it
spells one out.
-/

namespace Codemod

namespace Tree

variable {tree node needle : Tree}

private theorem contains_eq_false_iff :
    tree.contains needle = false ↔ ∀ node ∈ tree.preorder, node.same needle = false := by
  simp [contains]

private theorem contains_eq_false_of_children (differs : tree.same needle = false)
    (each : ∀ child ∈ tree.children, child.contains needle = false) :
    tree.contains needle = false := by
  rw [contains_eq_false_iff, preorder_eq, List.forall_mem_cons]
  refine ⟨differs, ?_⟩
  intro node inside
  obtain ⟨child, member, below⟩ := mem_preorderAll.mp inside
  exact contains_eq_false_iff.mp (each child member) node below

private theorem preorder_subset (inside : node ∈ tree.preorder) :
    node.preorder ⊆ tree.preorder := by
  induction tree using induct with
  | step kind text type span children ih =>
    cases List.mem_cons.mp inside with
    | inl same => exact same ▸ List.Subset.refl _
    | inr below =>
      obtain ⟨child, member, within⟩ := mem_preorderAll.mp below
      intro other under
      apply List.mem_cons_of_mem
      exact mem_preorderAll.mpr ⟨child, member, ih child member within under⟩

private theorem contains_eq_false_of_mem_preorder (free : tree.contains needle = false)
    (inside : node ∈ tree.preorder) : node.contains needle = false := by
  rw [contains_eq_false_iff] at free ⊢
  intro other under
  exact free other (preorder_subset inside under)

end Tree

/-- A capture holds no copy of a tree. -/
def Capture.FreeOf (capture : Capture) (needle : Tree) : Prop :=
  ∀ tree ∈ capture.trees, tree.contains needle = false

namespace Term

variable {bindings : Bindings} {needle : Tree} {text : String} (span : Span)

/-- The holes are bound to captures that hold no copy of a tree. -/
def DrawsFreeOf (bindings : Bindings) (needle : Tree) (holes : List Hole) : Prop :=
  ∀ slot ∈ holes, ∃ capture, bindings.find? slot.name = some capture ∧ capture.FreeOf needle

private theorem drawsFreeOf_append {first second : List Hole} :
    DrawsFreeOf bindings needle (first ++ second) ↔
      DrawsFreeOf bindings needle first ∧ DrawsFreeOf bindings needle second :=
  List.forall_mem_append

mutual

private theorem exists_fill_freeOf (isLeaf : needle.text = some text) : ∀ term : Term,
    .leaf needle.kind text ∉ term.preorder → DrawsFreeOf bindings needle term.holes →
      ∃ trees, fill bindings span term = .ok trees ∧ ∀ tree ∈ trees, tree.contains needle = false
  | .leaf kind spelled, unspelled, _ => by
    have other : ¬(kind = needle.kind ∧ some spelled = needle.text) := by
      rw [isLeaf, Option.some.injEq]
      rintro ⟨rfl, rfl⟩
      exact unspelled (List.mem_singleton_self _)
    refine ⟨_, rfl, ?_⟩
    rw [List.forall_mem_singleton]
    apply Tree.contains_eq_false_of_children
    · rw [← Bool.not_eq_true, Tree.same_iff]
      exact fun same => other ⟨same.1, same.2.1⟩
    · exact List.forall_mem_nil _
  | .branch kind children, unspelled, draws => by
    rw [preorder, List.mem_cons, not_or] at unspelled
    obtain ⟨images, filled, each⟩ := exists_fillAll_freeOf isLeaf children unspelled.2 draws
    refine ⟨_, fill_branch filled, ?_⟩
    rw [List.forall_mem_singleton]
    -- a branch has no text, so it is no copy of a leaf
    apply Tree.contains_eq_false_of_children
    · simp [← Bool.not_eq_true, Tree.same_iff, isLeaf, Tree.branch, Tree.withSpan]
    · exact each
  | .hole slot, _, draws => by
    obtain ⟨capture, found, free⟩ := draws slot (List.mem_singleton_self slot)
    exact ⟨_, fill_hole span found, free⟩

/-- What terms come to holds no copy of a leaf that neither their captures hold nor they spell. -/
theorem exists_fillAll_freeOf (isLeaf : needle.text = some text) : ∀ terms : List Term,
    .leaf needle.kind text ∉ preorderAll terms → DrawsFreeOf bindings needle (holesAll terms) →
      ∃ trees, fillAll bindings span terms = .ok trees ∧
        ∀ tree ∈ trees, tree.contains needle = false
  | [], _, _ => ⟨[], rfl, List.forall_mem_nil _⟩
  | term :: rest, unspelled, draws => by
    rw [preorderAll, List.mem_append, not_or] at unspelled
    rw [holesAll, drawsFreeOf_append] at draws
    obtain ⟨here, first, free⟩ := exists_fill_freeOf isLeaf term unspelled.1 draws.1
    obtain ⟨others, after, more⟩ := exists_fillAll_freeOf isLeaf rest unspelled.2 draws.2
    exact ⟨_, fillAll_cons first after, List.forall_mem_append.mpr ⟨free, more⟩⟩

end

end Term

namespace Guard

variable {bindings : Bindings} {facts : Facts} {name : String} {within : List String}

private theorem checkAbsent_eq_accept_iff {needle : Tree} :
    checkAbsent bindings name needle within = .accept ↔
      ∀ other ∈ within, ∃ capture, bindings.find? other = some capture ∧
        capture.FreeOf needle := by
  induction within with
  | nil => simp [checkAbsent]
  | cons other rest ih =>
    rw [checkAbsent, List.forall_mem_cons]
    cases found : bindings.find? other with
    | none => simp [Verdict.unsatisfied]
    | some capture =>
      simp only
      split
      · rename_i holds
        obtain ⟨tree, member, copied⟩ := List.any_eq_true.mp holds
        have taken : ¬capture.FreeOf needle := fun free => by simp [free tree member] at copied
        simp [Verdict.unsatisfied, taken]
      · rename_i absent
        have free : capture.FreeOf needle := by simpa [Capture.FreeOf] using absent
        simp [ih, free]

/-- The guard accepts when the name is bound to a tree of which no listed capture holds a copy. -/
theorem unreferenced_accepts_iff :
    (Guard.unreferenced name within).evaluate bindings facts = .accept ↔
      ∃ needle, bindings.find? name = some (.node needle) ∧
        ∀ other ∈ within, ∃ capture, bindings.find? other = some capture ∧
          capture.FreeOf needle := by
  rw [evaluate, checkUnreferenced]
  cases found : bindings.find? name with
  | none => simp [Verdict.unsatisfied]
  | some capture =>
    cases capture with
    | node needle => simp [checkAbsent_eq_accept_iff]
    | sequence trees => simp [Verdict.unsatisfied]

/-- Where a guard accepts, a leaf it wants unreferenced does not get into what a template makes of
the listed captures. -/
theorem unreferenced_kept_out {guard : Guard} (required : .unreferenced name within ∈ guard.leaves)
    (accepts : guard.evaluate bindings facts = .accept) {template : Template}
    (drawn : template.shape.names ⊆ within) {needle : Tree} {text : String}
    (bound : bindings.find? name = some (.node needle)) (isLeaf : needle.text = some text)
    (unspelled : .leaf needle.kind text ∉ Term.preorderAll template.shape.terms) (span : Span) :
    ∃ trees, template.instantiate bindings span = .ok trees ∧
      ∀ tree ∈ trees, ∀ node ∈ tree.preorder, node.contains needle = false := by
  have leaf := (evaluate_eq_accept_iff bindings facts guard).mp accepts _ required
  obtain ⟨other, found, listed⟩ := unreferenced_accepts_iff.mp leaf
  cases bound.symm.trans found
  have draws : Term.DrawsFreeOf bindings needle (Term.holesAll template.shape.terms) := by
    intro slot inside
    exact listed slot.name (drawn (Shape.name_mem_names inside))
  obtain ⟨trees, filled, free⟩ :=
    Term.exists_fillAll_freeOf span isLeaf template.shape.terms unspelled draws
  refine ⟨trees, filled, ?_⟩
  intro tree member node inside
  exact Tree.contains_eq_false_of_mem_preorder (free tree member) inside

/-- A loop over the indices of a collection may become one over its items if the index is not used
in the body. -/
def indexUnused : Guard :=
  .all [.capability "iterable", .all [.minVersion 3, .unreferenced "i" ["xs", "body"]]]

def overItems : Template :=
  .ofShape (.node (.branch "for" [.leaf Tree.nameKind "item", .hole (.capturing "xs" .expression),
    .branch "block" [.hole (.capturing "body" .sequence)]]))

theorem index_kept_out :
    let index : Tree := .leaf Tree.nameKind "i"
    let bindings : Bindings := ⟨[("i", .node index), ("xs", .node (.leaf Tree.nameKind "xs")),
      ("body", .sequence [.branch "call" [.leaf Tree.nameKind "log", .leaf Tree.stringKind "i"]])]⟩
    indexUnused.evaluate bindings ⟨some 4, ["iterable"], none⟩ = .accept ∧
      ∃ trees, overItems.instantiate bindings .generated = .ok trees ∧
        ∀ tree ∈ trees, ∀ node ∈ tree.preorder, node.contains index = false := by
  intro index bindings
  have accepts : indexUnused.evaluate bindings ⟨some 4, ["iterable"], none⟩ = .accept := by
    decide +kernel
  have required : .unreferenced "i" ["xs", "body"] ∈ indexUnused.leaves := by
    simp [indexUnused, leaves, leavesAll]
  exact ⟨accepts, unreferenced_kept_out required accepts (by decide +kernel) rfl rfl
    (by decide +kernel) .generated⟩

end Guard

end Codemod
