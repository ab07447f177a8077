import Codemod.Proofs.Pass.Steps

/-!
# Quiet passes

A pass that applies nothing is quiet. Nothing ends a visit early then: the pass traverses every tree
as it stands and settles every contest, and its trace holds whatever they have to tell.
-/

namespace Codemod

namespace Trace

def Quiet (trace : Trace) : Prop :=
  trace.applied = []

@[simp] theorem quiet_append {first second : Trace} :
    Quiet (first ++ second) ↔ Quiet first ∧ Quiet second := by
  simp [Quiet]

theorem Quiet.of_subset {part whole : Trace} (quiet : whole.Quiet) (sub : part ⊆ whole) :
    part.Quiet := by
  apply List.filterMap_eq_nil_iff.mpr
  intro event member
  exact List.filterMap_eq_nil_iff.mp quiet event (sub member)

end Trace

theorem Traced.trace_subset_all {α : Type} {steps : List (Traced α)} {step : Traced α}
    (member : step ∈ steps) : step.trace ⊆ (Traced.all steps).trace := by
  rw [trace_all]
  intro event here
  exact List.mem_flatMap.mpr ⟨step, member, here⟩

namespace Pass

variable {pass : Pass} {root : Tree} {path : List Nat} {tree : Tree}

private theorem carryOut_of_quiet (replacing : pass.mode = .replace) {found : Match}
    {claimed : List Tree}
    {location : Location} (quiet : (pass.carryOut found claimed location).trace.Quiet) :
    (pass.carryOut found claimed location).value = none := by
  rcases carryOut_cases replacing found claimed location with ⟨nothing, _⟩ | ⟨_, _, _, _, applied⟩
  · exact nothing
  · rw [Trace.Quiet, applied] at quiet
    contradiction

private theorem settleTree_of_quiet (replacing : pass.mode = .replace) {claims : List (Claim Match)}
    (quiet : (pass.settleTree path tree claims).trace.Quiet) :
    (pass.settleTree path tree claims).value = none := by
  rw [settleTree] at quiet ⊢
  split at quiet
  · rfl
  · rfl
  · simp only [Traced.trace_bind, Trace.quiet_append] at quiet
    simp [carryOut_of_quiet replacing quiet.1]

private theorem settleAward_of_quiet (replacing : pass.mode = .replace) {statements : List Tree}
    {award : Award Match} (quiet : (pass.settleAward path statements award).trace.Quiet) :
    (pass.settleAward path statements award).value = none := by
  cases award with
  | ambiguous extent rules => rfl
  | grant winner => exact carryOut_of_quiet replacing quiet

private theorem tryComposite_of_quiet (replacing : pass.mode = .replace) {scope : Option Nat}
    {traversed : Traced Tree} (quiet : (pass.tryComposite path scope tree traversed).trace.Quiet) :
    (pass.settleTree path tree (pass.treeClaims true scope 0 ⟨path, none, tree.span⟩
        tree).value).trace ⊆ (pass.tryComposite path scope tree traversed).trace ∧
      traversed.trace ⊆ (pass.tryComposite path scope tree traversed).trace := by
  rw [tryComposite] at quiet ⊢
  simp only [Traced.trace_bind, Trace.quiet_append] at quiet ⊢
  rw [settleTree_of_quiet replacing quiet.2.1]
  constructor
  · intro event here
    simp [here]
  · intro event here
    simp [here]

private theorem assemble_of_quiet (replacing : pass.mode = .replace) {block : Tree}
    {steps : List (Traced Tree)} {next : Nat} {awards : List (Award Match)}
    (awarded : pass.Awarded root path block next awards)
    (quiet : (pass.assemble path block.children steps next awards).trace.Quiet) :
    (∀ award ∈ awards, (pass.settleAward path block.children award).trace ⊆
        (pass.assemble path block.children steps next awards).trace) ∧
      ∀ step ∈ steps.drop next,
        step.trace ⊆ (pass.assemble path block.children steps next awards).trace := by
  induction awards generalizing next with
  | nil =>
    rw [assemble]
    exact ⟨by simp, fun step member => Traced.trace_subset_all member⟩
  | cons award rest ih =>
    obtain ⟨later, proper, _⟩ := awarded.bounded award List.mem_cons_self
    rw [assemble_cons] at quiet ⊢
    rw [settleOrTraverse] at quiet ⊢
    simp only [Traced.trace_bind, Traced.trace_pure, List.append_nil, Trace.quiet_append] at quiet ⊢
    obtain ⟨_, ⟨settled, _⟩, quietRest⟩ := quiet
    obtain ⟨inRest, behind⟩ := ih awarded.tail quietRest
    rw [settleAward_of_quiet replacing settled]
    refine ⟨?_, ?_⟩
    · intro other member event here
      rcases List.mem_cons.mp member with rfl | member
      · simp [here]
      · have := inRest other member here
        simp [this]
    · intro step member event here
      rw [← Extent.slice_append_drop ⟨next, award.extent.start⟩ steps later,
        ← Extent.slice_append_drop award.extent steps (Nat.le_of_lt proper)] at member
      rcases List.mem_append.mp member with before | member
      · have := Traced.trace_subset_all before here
        simp only [List.mem_append, this, true_or]
      rcases List.mem_append.mp member with within | after
      · have := Traced.trace_subset_all within here
        simp only [List.mem_append, this, true_or, or_true]
      · have := behind step after here
        simp [this]

/-- The traversal of the tree at a path. -/
def traversalAt (pass : Pass) (root : Tree) (path : List Nat) (tree : Tree) : Traced Tree :=
  pass.traverse path (pass.scopeAt root path) tree

/-- The visit of the children of the tree at a path. -/
def visitAt (pass : Pass) (root : Tree) (path : List Nat) (tree : Tree) : Traced (List Tree) :=
  pass.visitChildren path (pass.innerScope (pass.scopeAt root path) tree) tree.kind tree.children
    (pass.traverseAll path (pass.innerScope (pass.scopeAt root path) tree) 0 tree.children)

theorem traversalAt_eq (pass : Pass) (root : Tree) (path : List Nat) (tree : Tree) :
    pass.traversalAt root path tree = (pass.visitAt root path tree >>= fun visited =>
      pass.trySimple path (pass.scopeAt root path) (tree.withChildren visited)) :=
  traverse_eq pass path _ tree

theorem getElem?_traversals (reached : root.at? path = some tree) {index : Nat} {child : Tree}
    (here : tree.children[index]? = some child) :
    (pass.traverseAll path (pass.innerScope (pass.scopeAt root path) tree) 0
      tree.children)[index]? = some (pass.traversalAt root (path ++ [index]) child) := by
  rw [getElem?_traverseAll, here, Nat.zero_add, ← scopeAt_concat reached index]
  rfl

private theorem visitAt_block_of_quiet (replacing : pass.mode = .replace) (sound : pass.Sound)
    (reached : root.at? path = some tree) (isBlock : pass.language.isBlock tree.kind = true)
    (quiet : (pass.visitAt root path tree).trace.Quiet) :
    (∀ award ∈ Contest.resolve (pass.claimsAt root path tree),
        (pass.settleAward path tree.children award).trace ⊆ (pass.visitAt root path tree).trace) ∧
      ∀ (index : Nat) (child : Tree), tree.children[index]? = some child →
        (pass.traversalAt root (path ++ [index]) child).trace ⊆
          (pass.visitAt root path tree).trace := by
  rw [visitAt, visitChildren] at quiet ⊢
  simp only [isBlock, if_true, visitBlock, Traced.trace_bind, Trace.quiet_append] at quiet ⊢
  obtain ⟨settled, traversed⟩ :=
    assemble_of_quiet replacing (awarded_resolve sound root path tree) quiet.2
  constructor
  · intro award member
    exact List.subset_append_of_subset_right _ (settled award member)
  · intro index child here
    apply List.subset_append_of_subset_right
    exact traversed _ (List.mem_of_getElem? (getElem?_traversals reached here))

theorem visitAt_operands (reached : root.at? path = some tree)
    (noBlock : pass.language.isBlock tree.kind = false) :
    pass.visitAt root path tree = Traced.all (tree.children.mapIdx fun index child =>
      pass.tryComposite (path ++ [index]) (pass.scopeAt root (path ++ [index])) child
        (pass.traversalAt root (path ++ [index]) child)) := by
  rw [visitAt, visitChildren, visitOperands]
  rw [if_neg (by simp [noBlock])]
  congr 1
  apply List.ext_getElem?
  intro index
  rw [List.getElem?_mapIdx, List.getElem?_mapIdx]
  cases here : tree.children[index]? with
  | none =>
    have beyond := List.getElem?_eq_none_iff.mp here
    rw [List.getElem?_eq_none (by rw [List.length_zip]; omega)]
    rfl
  | some child =>
    have both : (tree.children.zip (pass.traverseAll path
        (pass.innerScope (pass.scopeAt root path) tree) 0 tree.children))[index]? =
          some (child, pass.traversalAt root (path ++ [index]) child) :=
      List.getElem?_zip_eq_some.mpr ⟨here, getElem?_traversals reached here⟩
    rw [both, scopeAt_concat reached index]
    rfl

theorem operand_subset_visitAt (reached : root.at? path = some tree)
    (noBlock : pass.language.isBlock tree.kind = false) {index : Nat} {child : Tree}
    (here : tree.children[index]? = some child) :
    (pass.tryComposite (path ++ [index]) (pass.scopeAt root (path ++ [index])) child
      (pass.traversalAt root (path ++ [index]) child)).trace ⊆
        (pass.visitAt root path tree).trace := by
  rw [visitAt_operands reached noBlock]
  apply Traced.trace_subset_all
  apply List.mem_of_getElem? (i := index)
  rw [List.getElem?_mapIdx, here]
  rfl

private theorem visitAt_operands_of_quiet (replacing : pass.mode = .replace)
    (reached : root.at? path = some tree) (noBlock : pass.language.isBlock tree.kind = false)
    (quiet : (pass.visitAt root path tree).trace.Quiet) {index : Nat} {child : Tree}
    (here : tree.children[index]? = some child) :
    (pass.settleTree (path ++ [index]) child (pass.treeClaims true
        (pass.scopeAt root (path ++ [index])) 0 ⟨path ++ [index], none, child.span⟩
          child).value).trace ⊆ (pass.visitAt root path tree).trace ∧
      (pass.traversalAt root (path ++ [index]) child).trace ⊆
        (pass.visitAt root path tree).trace := by
  have tried := operand_subset_visitAt reached noBlock here
  obtain ⟨settled, traversed⟩ := tryComposite_of_quiet replacing (quiet.of_subset tried)
  exact ⟨List.Subset.trans settled tried, List.Subset.trans traversed tried⟩

theorem traversalAt_subset_run (replacing : pass.mode = .replace) (sound : pass.Sound)
    (quiet : (pass.run root).trace.Quiet) (reached : root.at? path = some tree) :
    (pass.traversalAt root path tree).trace ⊆ (pass.run root).trace := by
  induction path using List.reverseRecOn generalizing tree with
  | nil =>
    cases reached
    rw [run_eq] at quiet ⊢
    exact (tryComposite_of_quiet replacing quiet).2
  | append_singleton path index ih =>
    obtain ⟨parent, above, here⟩ := Tree.exists_parent reached
    have outer := ih above
    have visit : (pass.visitAt root path parent).trace ⊆ (pass.run root).trace := by
      apply List.Subset.trans ?_ outer
      rw [traversalAt_eq]
      exact List.subset_append_left _ _
    cases isBlock : pass.language.isBlock parent.kind with
    | true =>
      have inner := (visitAt_block_of_quiet replacing sound above isBlock (quiet.of_subset visit)).2
      exact List.Subset.trans (inner index tree here) visit
    | false =>
      have inner := visitAt_operands_of_quiet replacing above isBlock (quiet.of_subset visit) here
      exact List.Subset.trans inner.2 visit

theorem visitAt_subset_run (replacing : pass.mode = .replace) (sound : pass.Sound)
    (quiet : (pass.run root).trace.Quiet) (reached : root.at? path = some tree) :
    (pass.visitAt root path tree).trace ⊆ (pass.run root).trace := by
  apply List.Subset.trans ?_ (traversalAt_subset_run replacing sound quiet reached)
  rw [traversalAt_eq]
  exact List.subset_append_left _ _

private theorem withChildren_visitAt (replacing : pass.mode = .replace) (sound : pass.Sound)
    (reached : root.at? path = some tree) (quiet : (pass.visitAt root path tree).trace.Quiet) :
    tree.withChildren (pass.visitAt root path tree).value = tree := by
  have traversed := traversed_traverseAll replacing sound reached
  have chain := leads_visitChildren replacing sound reached traversed
  rw [visitAt] at quiet ⊢
  rw [quiet] at chain
  exact chain.eq_of_nil

theorem simple_subset_run (replacing : pass.mode = .replace) (sound : pass.Sound)
    (quiet : (pass.run root).trace.Quiet) (reached : root.at? path = some tree) :
    (pass.settleTree path tree (pass.treeClaims false (pass.scopeAt root path) 0
      ⟨path, none, tree.span⟩ tree).value).trace ⊆ (pass.run root).trace := by
  have quietVisit := quiet.of_subset (visitAt_subset_run replacing sound quiet reached)
  have same := withChildren_visitAt replacing sound reached quietVisit
  apply List.Subset.trans ?_ (traversalAt_subset_run replacing sound quiet reached)
  rw [traversalAt_eq, Traced.trace_bind, same]
  apply List.subset_append_of_subset_right
  rw [trySimple]
  intro event here
  simp [here]

/-- The place is no statement of a block. -/
def Standalone (pass : Pass) (root : Tree) (path : List Nat) : Prop :=
  ∀ above index parent, path = above ++ [index] → root.at? above = some parent →
    pass.language.isBlock parent.kind = false

theorem composite_subset_run (replacing : pass.mode = .replace) (sound : pass.Sound)
    (quiet : (pass.run root).trace.Quiet) (reached : root.at? path = some tree)
    (alone : pass.Standalone root path) :
    (pass.settleTree path tree (pass.treeClaims true (pass.scopeAt root path) 0
      ⟨path, none, tree.span⟩ tree).value).trace ⊆ (pass.run root).trace := by
  cases path using List.reverseRecOn with
  | nil =>
    cases reached
    rw [run_eq] at quiet ⊢
    exact (tryComposite_of_quiet replacing quiet).1
  | append_singleton above index =>
    obtain ⟨parent, reachedParent, here⟩ := Tree.exists_parent reached
    have visit := visitAt_subset_run replacing sound quiet reachedParent
    have noBlock := alone above index parent rfl reachedParent
    have inner :=
      visitAt_operands_of_quiet replacing reachedParent noBlock (quiet.of_subset visit) here
    exact List.Subset.trans inner.1 visit

theorem block_subset_run (replacing : pass.mode = .replace) (sound : pass.Sound)
    (quiet : (pass.run root).trace.Quiet) (reached : root.at? path = some tree)
    (isBlock : pass.language.isBlock tree.kind = true) {award : Award Match}
    (awarded : award ∈ Contest.resolve (pass.claimsAt root path tree)) :
    (pass.settleAward path tree.children award).trace ⊆ (pass.run root).trace := by
  have visit := visitAt_subset_run replacing sound quiet reached
  have inner := visitAt_block_of_quiet replacing sound reached isBlock (quiet.of_subset visit)
  exact List.Subset.trans (inner.1 award awarded) visit

end Pass

end Codemod
