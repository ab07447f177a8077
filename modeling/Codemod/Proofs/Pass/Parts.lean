import Codemod.Proofs.Pass.Reports

/-!
# The parts of a pass

Whatever a pass tells, one of its parts tells: a decision on one tree, the claims on a block, or the
settlement of an award there.
-/

namespace Codemod.Pass

variable {pass : Pass} {root tree : Tree} {path : List Nat} {scope : Option Nat}

/-- All that the parts of a pass over a root tell has a property. -/
structure PartsTell (pass : Pass) (root : Tree) (holds : Event → Prop) : Prop where
  /-- Composite rules are tried on a tree as it was, the others on one rebuilt in its place. -/
  decisions : ∀ composite path scope site tree, root.at? path = some site →
    (composite = true → tree = site) →
      ∀ event ∈ (pass.decideTree composite path scope tree).trace, holds event
  claims : ∀ path scope block, root.at? path = some block →
    pass.language.isBlock block.kind = true →
      ∀ event ∈ (pass.blockClaims path scope block.children).trace, holds event
  awards : ∀ path block, root.at? path = some block → pass.language.isBlock block.kind = true →
    ∀ award ∈ Contest.resolve (pass.claimsAt root path block),
      ∀ event ∈ (pass.settleAward path block.children award).trace, holds event

namespace PartsTell

variable {holds : Event → Prop}

private theorem tryComposite (parts : pass.PartsTell root holds)
    (reached : root.at? path = some tree)
    {traversed : Traced Tree} (below : ∀ event ∈ traversed.trace, holds event) :
    ∀ event ∈ (pass.tryComposite path scope tree traversed).trace, holds event := by
  intro event told
  rcases List.mem_append.mp ((sublist_tryComposite _ _ _ _ _).subset told) with decided | inner
  · exact parts.decisions true path scope tree tree reached (fun _ => rfl) event decided
  · exact below event inner

private theorem visitChildren (parts : pass.PartsTell root holds) (sound : pass.Sound)
    (reached : root.at? path = some tree) {steps : List (Traced Tree)}
    (each : ∀ step ∈ steps, ∀ event ∈ step.trace, holds event) :
    ∀ event ∈ (pass.visitChildren path (pass.innerScope (pass.scopeAt root path) tree)
      tree.kind tree.children steps).trace, holds event := by
  intro event told
  rw [Pass.visitChildren] at told
  split at told
  · rename_i isBlock
    rw [visitBlock, Traced.trace_bind] at told
    rcases List.mem_append.mp told with claimed | settled
    · exact parts.claims path _ tree reached isBlock event claimed
    · have awarded := awarded_resolve sound root path tree
      rcases List.mem_append.mp ((subperm_assemble awarded steps).subset settled) with
        settlement | visited
      · obtain ⟨award, resolved, told⟩ := List.mem_flatMap.mp settlement
        exact parts.awards path tree reached isBlock award resolved event told
      · obtain ⟨step, member, told⟩ := List.mem_flatMap.mp visited
        exact each step member event told
  · rw [visitOperands, Traced.trace_all] at told
    obtain ⟨visit, member, told⟩ := List.mem_flatMap.mp told
    obtain ⟨index, here⟩ := List.mem_iff_getElem?.mp member
    obtain ⟨child, inner, is_child, is_step, rfl⟩ := exists_of_operand here
    exact parts.tryComposite ((Tree.at?_concat reached index).trans is_child)
      (each inner (List.mem_of_getElem? is_step)) event told

private theorem traverse (parts : pass.PartsTell root holds) (sound : pass.Sound)
    (reached : root.at? path = some tree) :
    ∀ event ∈ (pass.traverse path (pass.scopeAt root path) tree).trace, holds event := by
  apply traverse_induct (motive := fun _ _ step => ∀ event ∈ step.trace, holds event) ?_ reached
  intro path tree reached each event told
  have visited : ∀ step ∈ pass.traverseAll path (pass.innerScope (pass.scopeAt root path) tree) 0
      tree.children, ∀ event ∈ step.trace, holds event := by
    intro step member
    obtain ⟨index, here⟩ := List.mem_iff_getElem?.mp member
    obtain ⟨child, _, all⟩ := each index step here
    exact all
  rw [Traced.trace_bind, trace_trySimple] at told
  rcases List.mem_append.mp told with below | decided
  · exact parts.visitChildren sound reached visited event below
  · exact parts.decisions false path _ tree _ reached Bool.false_ne_true.elim event decided

/-- All that a pass tells has a property when all that its parts tell has it. -/
theorem run (parts : pass.PartsTell root holds) (sound : pass.Sound) :
    ∀ event ∈ (pass.run root).trace, holds event := by
  have reached : root.at? [] = some root := rfl
  rw [run_eq]
  exact parts.tryComposite reached (parts.traverse sound reached)

end PartsTell

end Codemod.Pass
