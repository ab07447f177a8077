import Codemod.Pass.Settlement

/-!
# Traversal

Composite rules are tried on a tree before its children are visited, and a replacement there ends
the visit. In a block the composite rules of all statements and the windows at every start compete
in one contest. The other rules are tried on the tree rebuilt from its visited children, so that
they see what was replaced below.
-/

namespace Codemod.Pass

/-- Tries composite rules on a tree that stands in no block; without a replacement the tree is
traversed. -/
def tryComposite (pass : Pass) (path : List Nat) (scope : Option Nat) (tree : Tree)
    (traversed : Traced Tree) : Traced Tree := do
  let claims ← pass.treeClaims true scope 0 ⟨path, none, tree.span⟩ tree
  match ← pass.settleTree path tree claims with
  | some replaced => pure replaced
  | none => traversed

/-- Tries the rules that are not composite on a rebuilt tree. -/
def trySimple (pass : Pass) (path : List Nat) (scope : Option Nat) (tree : Tree) :
    Traced Tree := do
  let claims ← pass.treeClaims false scope 0 ⟨path, none, tree.span⟩ tree
  let settled ← pass.settleTree path tree claims
  pure (settled.getD tree)

/-- Puts a block together from its awards and, where no award replaces them, its traversed
statements. -/
def assemble (pass : Pass) (path : List Nat) (statements : List Tree)
    (traversed : List (Traced Tree)) : Nat → List (Award Match) → Traced (List Tree)
  | next, [] => Traced.all (traversed.drop next)
  | next, award :: rest => do
    let before ← Traced.all (Extent.slice ⟨next, award.extent.start⟩ traversed)
    let settled ← pass.settleAward path statements award
    let here ← match settled with
      | some replaced => pure replaced
      | none => Traced.all (award.extent.slice traversed)
    let after ← pass.assemble path statements traversed award.extent.stop rest
    pure (before ++ here ++ after)

/-- Visits the statements of the block at a path. -/
def visitBlock (pass : Pass) (path : List Nat) (scope : Option Nat) (statements : List Tree)
    (traversed : List (Traced Tree)) : Traced (List Tree) := do
  let claims ← pass.blockClaims path scope statements
  pass.assemble path statements traversed 0 (Contest.resolve claims)

/-- Visits the children of the tree at a path that is no block. -/
def visitOperands (pass : Pass) (path : List Nat) (scope : Option Nat) (children : List Tree)
    (traversed : List (Traced Tree)) : Traced (List Tree) :=
  Traced.all ((children.zip traversed).mapIdx fun index (child, inner) =>
    pass.tryComposite (path ++ [index]) scope child inner)

/-- Visits the children of the tree at a path. -/
def visitChildren (pass : Pass) (path : List Nat) (scope : Option Nat) (kind : String)
    (children : List Tree) (traversed : List (Traced Tree)) : Traced (List Tree) :=
  if pass.language.isBlock kind then pass.visitBlock path scope children traversed
  else pass.visitOperands path scope children traversed

/-- The version that holds below a tree: what the tree declares counts for its children only. -/
def innerScope (pass : Pass) (scope : Option Nat) (tree : Tree) : Option Nat :=
  maxVersion scope (pass.language.declaredVersion tree)

mutual

/-- Visits the children of the tree at a path and then tries simple rules on the tree itself. -/
def traverse (pass : Pass) (path : List Nat) (scope : Option Nat) : Tree → Traced Tree
  | ⟨kind, text, type, span, children⟩ => do
    let inner := pass.innerScope scope ⟨kind, text, type, span, children⟩
    let visited ← pass.visitChildren path inner kind children
      (traverseAll pass path inner 0 children)
    pass.trySimple path scope ⟨kind, text, type, span, visited⟩

/-- The traversals of the children at a path from an index on. -/
def traverseAll (pass : Pass) (path : List Nat) (scope : Option Nat) (index : Nat) :
    List Tree → List (Traced Tree)
  | [] => []
  | child :: rest =>
    traverse pass (path ++ [index]) scope child :: traverseAll pass path scope (index + 1) rest

end

/-- One pass over a whole tree. -/
def run (pass : Pass) (root : Tree) : Traced Tree :=
  pass.tryComposite [] pass.platform.minVersion root
    (pass.traverse [] pass.platform.minVersion root)

theorem traverse_eq (pass : Pass) (path : List Nat) (scope : Option Nat) (tree : Tree) :
    pass.traverse path scope tree =
      (pass.visitChildren path (pass.innerScope scope tree) tree.kind tree.children
        (pass.traverseAll path (pass.innerScope scope tree) 0 tree.children) >>= fun visited =>
          pass.trySimple path scope (tree.withChildren visited)) := by
  cases tree
  rfl

private theorem traverseAll_eq_map (pass : Pass) (path : List Nat) (scope : Option Nat)
    (index : Nat) (children : List Tree) :
    pass.traverseAll path scope index children =
      (children.zipIdx index).map fun (child, position) =>
        pass.traverse (path ++ [position]) scope child := by
  induction children generalizing index with
  | nil => rfl
  | cons child rest ih => simp [traverseAll, ih]

theorem length_traverseAll (pass : Pass) (path : List Nat) (scope : Option Nat) (index : Nat)
    (children : List Tree) :
    (pass.traverseAll path scope index children).length = children.length := by
  rw [traverseAll_eq_map, List.length_map, List.length_zipIdx]

theorem getElem?_traverseAll (pass : Pass) (path : List Nat) (scope : Option Nat)
    (index : Nat) (children : List Tree) (position : Nat) :
    (pass.traverseAll path scope index children)[position]? =
      children[position]?.map fun child =>
        pass.traverse (path ++ [index + position]) scope child := by
  rw [traverseAll_eq_map, List.getElem?_map, List.getElem?_zipIdx, Option.map_map]
  rfl

end Codemod.Pass
