import Codemod.Proofs.Pass.Exclusion
import Codemod.Proofs.Pass.Quiet
import Codemod.Proofs.Pass.Reports
import Codemod.Proofs.Pass.Tiling

/-!
# Visits of a pass

A pass visits its root and goes on from a tree it leaves in place to the children of that tree. A
visit changes what it reports to have changed and nothing else: it returns a tree exactly unless a
rule was applied below it, and its root exactly unless a rule was applied to that.
-/

namespace Codemod

/-- The location is that of the tree at a path, and of no stretch of its children. -/
def Location.At (path : List Nat) (location : Location) : Prop :=
  location.path = path ∧ location.statements = none

namespace Trace

private theorem applied_subset {part whole : Trace} (sub : part ⊆ whole) :
    part.applied ⊆ whole.applied :=
  List.filterMap_subset _ sub

/-- No rule was applied to the tree at a path. -/
def Spares (path : List Nat) (trace : Trace) : Prop :=
  ∀ entry ∈ trace.applied, ¬entry.location.At path

private theorem Spares.of_subset {path : List Nat} {part whole : Trace} (spares : whole.Spares path)
    (sub : part ⊆ whole) : part.Spares path :=
  fun entry applied => spares entry (applied_subset sub applied)

end Trace

namespace Pass

/-- The pass goes on to the children of the tree at a path: no composite rule replaced the tree or
one around it. -/
inductive Traverses (pass : Pass) (root : Tree) : List Nat → Tree → Prop where
  | root (undecided : (pass.decideTree true [] (pass.scopeAt root []) root).value = none) :
      Traverses pass root [] root
  | operand {path : List Nat} {tree : Tree} {index : Nat} {child : Tree}
      (outer : Traverses pass root path tree) (noBlock : pass.language.isBlock tree.kind = false)
      (here : tree.children[index]? = some child)
      (undecided : (pass.decideTree true (path ++ [index]) (pass.scopeAt root (path ++ [index]))
        child).value = none) :
      Traverses pass root (path ++ [index]) child
  /-- What is awarded in a block is traversed where it comes to nothing. -/
  | statement {path : List Nat} {tree : Tree} {index : Nat} {child : Tree}
      (outer : Traverses pass root path tree) (isBlock : pass.language.isBlock tree.kind = true)
      (here : tree.children[index]? = some child)
      (unclaimed : ∀ award ∈ Contest.resolve (pass.claimsAt root path tree),
        index ∈ award.extent → (pass.settleAward path tree.children award).value = none) :
      Traverses pass root (path ++ [index]) child

/-- The pass visits the tree at a path. Composite rules are tried first, but on a statement they
have been tried already with its block. -/
inductive Visits (pass : Pass) (root : Tree) : List Nat → Tree → Traced Tree → Prop where
  | root : Visits pass root [] root (pass.run root)
  | operand {path : List Nat} {tree : Tree} {index : Nat} {child : Tree}
      (outer : pass.Traverses root path tree) (noBlock : pass.language.isBlock tree.kind = false)
      (here : tree.children[index]? = some child) :
      Visits pass root (path ++ [index]) child
        (pass.tryComposite (path ++ [index]) (pass.scopeAt root (path ++ [index])) child
          (pass.traversalAt root (path ++ [index]) child))
  | statement {path : List Nat} {tree : Tree} {index : Nat} {child : Tree}
      (outer : pass.Traverses root path tree) (isBlock : pass.language.isBlock tree.kind = true)
      (here : tree.children[index]? = some child)
      (unclaimed : ∀ award ∈ Contest.resolve (pass.claimsAt root path tree),
        index ∈ award.extent → (pass.settleAward path tree.children award).value = none) :
      Visits pass root (path ++ [index]) child (pass.traversalAt root (path ++ [index]) child)

variable {pass : Pass} {root : Tree} {path : List Nat} {tree : Tree} {visit : Traced Tree}

private theorem tryComposite_of_undecided {scope : Option Nat} {traversed : Traced Tree}
    (undecided : (pass.decideTree true path scope tree).value = none) :
    (pass.tryComposite path scope tree traversed).value = traversed.value ∧
      traversed.trace ⊆ (pass.tryComposite path scope tree traversed).trace := by
  rw [tryComposite_eq, Traced.value_bind, Traced.trace_bind, undecided]
  exact ⟨rfl, List.subset_append_right _ _⟩

private theorem statement_subset_visitAt (sound : pass.Sound) (reached : root.at? path = some tree)
    (isBlock : pass.language.isBlock tree.kind = true) {index : Nat} {child : Tree}
    (here : tree.children[index]? = some child)
    (unclaimed : ∀ award ∈ Contest.resolve (pass.claimsAt root path tree),
      index ∈ award.extent → (pass.settleAward path tree.children award).value = none) :
    (pass.traversalAt root (path ++ [index]) child).trace ⊆
      (pass.visitAt root path tree).trace := by
  have tiles := tiles_visitBlock sound path (pass.innerScope (pass.scopeAt root path) tree)
    tree.children
  obtain ⟨inside, _⟩ := List.getElem?_eq_some_iff.mp here
  -- the part that covers the statement is a gap, or an award that comes to nothing
  obtain ⟨part, ⟨member, covers⟩, _⟩ := tiles.once index inside
  have within (extent : Extent) (covers : index ∈ extent) :
      pass.traversalAt root (path ++ [index]) child ∈ extent.positions.filterMap
        ((pass.traverseAll path (pass.innerScope (pass.scopeAt root path) tree) 0
          tree.children)[·]?) :=
    List.mem_filterMap.mpr
      ⟨index, Extent.mem_positions.mpr covers, getElem?_traversals reached here⟩
  have visited : (pass.traversalAt root (path ++ [index]) child).trace ⊆
      (pass.visitSegment path tree.children (pass.traverseAll path
        (pass.innerScope (pass.scopeAt root path) tree) 0 tree.children) part).trace := by
    cases part with
    | gap extent => exact Traced.trace_subset_all (within extent covers)
    | awarded award =>
      have awarded : award ∈ Contest.resolve (pass.claimsAt root path tree) :=
        mem_of_awarded_mem_segments member
      rw [visitSegment, settleOrTraverse, Traced.trace_bind, unclaimed award awarded covers,
        Extent.slice_eq_filterMap]
      apply List.subset_append_of_subset_right
      exact Traced.trace_subset_all (within award.extent covers)
  rw [visitAt, visitChildren, if_pos isBlock, tiles.visits]
  apply List.subset_append_of_subset_right
  rw [Traced.trace_collect]
  intro event told
  exact List.mem_flatMap.mpr ⟨part, member, visited told⟩

private theorem Traverses.reached (traverses : pass.Traverses root path tree) :
    root.at? path = some tree := by
  induction traverses with
  | root => rfl
  | operand _ _ here _ ih => exact (Tree.at?_concat ih _).trans here
  | statement _ _ here _ ih => exact (Tree.at?_concat ih _).trans here

theorem Traverses.visitAt_subset_run (sub : (pass.traversalAt root path tree).trace ⊆
    (pass.run root).trace) : (pass.visitAt root path tree).trace ⊆ (pass.run root).trace := by
  rw [traversalAt_eq] at sub
  exact (List.append_subset.mp sub).1

theorem Traverses.subset_run (sound : pass.Sound) (traverses : pass.Traverses root path tree) :
    (pass.traversalAt root path tree).trace ⊆ (pass.run root).trace := by
  induction traverses with
  | root undecided =>
    rw [run_eq]
    exact (tryComposite_of_undecided undecided).2
  | operand outer noBlock here undecided ih =>
    have visited := operand_subset_visitAt outer.reached noBlock here
    have onward := List.Subset.trans visited (visitAt_subset_run ih)
    exact List.Subset.trans (tryComposite_of_undecided undecided).2 onward
  | statement outer isBlock here unclaimed ih =>
    have visited := statement_subset_visitAt sound outer.reached isBlock here unclaimed
    exact List.Subset.trans visited (visitAt_subset_run ih)

namespace Visits

private theorem reached (visits : pass.Visits root path tree visit) :
    root.at? path = some tree := by
  cases visits with
  | root => rfl
  | operand outer _ here => exact (Tree.at?_concat outer.reached _).trans here
  | statement outer _ here _ => exact (Tree.at?_concat outer.reached _).trans here

theorem subset_run (sound : pass.Sound) (visits : pass.Visits root path tree visit) :
    visit.trace ⊆ (pass.run root).trace := by
  cases visits with
  | root => exact List.Subset.refl _
  | operand outer noBlock here =>
    have visited := operand_subset_visitAt outer.reached noBlock here
    exact List.Subset.trans visited (Traverses.visitAt_subset_run (outer.subset_run sound))
  | statement outer isBlock here unclaimed =>
    exact (Traverses.statement outer isBlock here unclaimed).subset_run sound

/-- A visit returns what its applications make of the tree visited. -/
theorem leads (replacing : pass.mode = .replace) (sound : pass.Sound)
    (visits : pass.Visits root path tree visit) : pass.Leads root path tree visit := by
  have reached := visits.reached
  cases visits with
  | root => exact leads_run replacing sound root
  | operand =>
    exact leads_tryComposite replacing sound reached (leads_traverse replacing sound reached)
  | statement => exact leads_traverse replacing sound reached

private theorem excludes (replacing : pass.mode = .replace) (sound : pass.Sound)
    (visits : pass.Visits root path tree visit) :
    pass.Excludes (Location.Below path) visit := by
  have reached := visits.reached
  cases visits with
  | root =>
    rw [run_eq]
    exact excludes_tryComposite replacing _ (excludes_traverse replacing sound reached)
  | operand => exact excludes_tryComposite replacing _ (excludes_traverse replacing sound reached)
  | statement => exact excludes_traverse replacing sound reached

/-- A tree below which nothing was applied is returned exactly. -/
theorem value_eq (replacing : pass.mode = .replace) (sound : pass.Sound)
    (visits : pass.Visits root path tree visit)
    (untouched : ∀ entry ∈ (pass.run root).trace.applied, ¬path <+: entry.location.path) :
    visit.value = tree := by
  have nothing : visit.trace.applied = [] := by
    apply List.eq_nil_iff_forall_not_mem.mpr
    intro entry applied
    have below := (visits.excludes replacing sound).within entry applied
    exact untouched entry (Trace.applied_subset (visits.subset_run sound) applied) below
  have chain := visits.leads replacing sound
  rw [Leads, nothing] at chain
  exact chain.eq_of_nil

end Visits

private theorem decideTree_of_spares (replacing : pass.mode = .replace) {composite : Bool}
    {scope : Option Nat} (spares : (pass.decideTree composite path scope tree).trace.Spares path) :
    (pass.decideTree composite path scope tree).value = none := by
  have claiming := idle_treeClaims pass composite scope 0 ⟨path, none, tree.span⟩ tree
  rw [Trace.Spares, decideTree, Traced.trace_bind, Trace.applied_append, claiming.applied_eq_nil,
    List.nil_append] at spares
  rw [decideTree, Traced.value_bind]
  rcases settleTree_cases replacing path tree _ with
    ⟨nothing, _⟩ | ⟨winner, _, _, _, _, _, applied⟩
  · exact nothing
  · rw [applied] at spares
    exact absurd ⟨rfl, rfl⟩ (spares _ List.mem_cons_self)

private theorem undecided_of_spares (replacing : pass.mode = .replace) {scope : Option Nat}
    {traversed : Traced Tree}
    (spares : (pass.tryComposite path scope tree traversed).trace.Spares path) :
    (pass.decideTree true path scope tree).value = none := by
  apply decideTree_of_spares replacing
  apply spares.of_subset
  rw [tryComposite_eq, Traced.trace_bind]
  exact List.subset_append_left _ _

private theorem value_traversalAt (replacing : pass.mode = .replace)
    (spares : (pass.traversalAt root path tree).trace.Spares path) :
    (pass.traversalAt root path tree).value =
      tree.withChildren (pass.visitAt root path tree).value := by
  have undecided : (pass.decideTree false path (pass.scopeAt root path)
      (tree.withChildren (pass.visitAt root path tree).value)).value = none := by
    apply decideTree_of_spares replacing
    apply spares.of_subset
    rw [traversalAt_eq, Traced.trace_bind, trace_trySimple]
    exact List.subset_append_right _ _
  rw [traversalAt_eq, Traced.value_bind, trySimple_eq, Traced.value_bind, undecided]
  rfl

/-- A tree that is spared keeps all but its children, and the visit goes on to those. -/
theorem Visits.kept (replacing : pass.mode = .replace) (sound : pass.Sound)
    (visits : pass.Visits root path tree visit) (spares : (pass.run root).trace.Spares path) :
    pass.Traverses root path tree ∧
      visit.value = tree.withChildren (pass.visitAt root path tree).value := by
  have sparesVisit := spares.of_subset (visits.subset_run sound)
  have goesOn : pass.Traverses root path tree ∧
      visit.value = (pass.traversalAt root path tree).value := by
    cases visits with
    | root =>
      rw [run_eq] at sparesVisit ⊢
      have undecided := undecided_of_spares replacing sparesVisit
      exact ⟨.root undecided, (tryComposite_of_undecided undecided).1⟩
    | operand outer noBlock here =>
      have undecided := undecided_of_spares replacing sparesVisit
      exact ⟨.operand outer noBlock here undecided, (tryComposite_of_undecided undecided).1⟩
    | statement outer isBlock here unclaimed => exact ⟨.statement outer isBlock here unclaimed, rfl⟩
  refine ⟨goesOn.1, ?_⟩
  rw [goesOn.2]
  exact value_traversalAt replacing (spares.of_subset (goesOn.1.subset_run sound))

theorem Traverses.operands (traverses : pass.Traverses root path tree)
    (noBlock : pass.language.isBlock tree.kind = false) :
    (pass.visitAt root path tree).value.length = tree.children.length ∧
      ∀ index child, tree.children[index]? = some child →
        ∃ inner, pass.Visits root (path ++ [index]) child inner ∧
          (pass.visitAt root path tree).value[index]? = some inner.value := by
  rw [visitAt_operands traverses.reached noBlock, Traced.value_all]
  refine ⟨by simp, fun index child here => ⟨_, .operand traverses noBlock here, ?_⟩⟩
  rw [List.getElem?_map, List.getElem?_mapIdx, here]
  rfl

end Pass

end Codemod
