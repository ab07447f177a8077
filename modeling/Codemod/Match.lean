import Codemod.Bindings
import Codemod.Extent
import Codemod.Pattern

/-!
# Matching

Terms are matched from left to right, and each name keeps its first capture. A sequence hole takes
as few statements as the rest of the list allows.
-/

namespace Codemod

/-- Whether a tree is of a capture kind. -/
def HoleKind.fits (language : Language) (tree : Tree) : HoleKind → Bool
  | .expression => !language.isStatement tree
  | .statement => true
  | .sequence => false
  | .identifier => language.isIdentifier tree

/-- The value of the first index below the bound for which there is one. -/
def firstSome (attempt : Nat → Option α) (bound : Nat) : Option α :=
  (List.range bound).findSome? attempt

namespace Hole

/-- Captures one tree, or compares it with what the name captured before. -/
def capture (language : Language) (hole : Hole) (tree : Tree) (bindings : Bindings) :
    Option Bindings :=
  if hole.backRef || hole.effectiveKind.fits language tree then
    match bindings.find? hole.name with
    | some (.node earlier) => if earlier.same tree then some bindings else none
    | some (.sequence _) => none
    | none =>
      if hole.backRef then none else some (bindings.insert hole.name (.node tree))
  else none

end Hole

namespace Term

/-- How many statements a term takes. A hole bound to a sequence asks for that sequence again, and a
fresh sequence hole may take any run. -/
inductive Stretch where
  | repeating (trees : List Tree)
  | fresh (name : String)
  | single

def stretch (bindings : Bindings) : Term → Stretch
  | .hole slot =>
    match bindings.find? slot.name with
    | some (.sequence trees) => .repeating trees
    | _ => if slot.kind = some .sequence then .fresh slot.name else .single
  | _ => .single

mutual

def unify (language : Language) : Term → Tree → Bindings → Option Bindings
  | .leaf kind text, tree, bindings =>
    if tree.kind = kind ∧ tree.text = some text then some bindings else none
  | .branch kind children, tree, bindings =>
    if tree.kind = kind ∧ tree.isLeaf = false then
      (unifyAll language children tree.children bindings true).map Prod.fst
    else none
  | .hole slot, tree, bindings => slot.capture language tree bindings

/-- Matches terms with a list of trees and counts the trees used. An anchored list must use them
all. -/
def unifyAll (language : Language) : List Term → List Tree → Bindings → (anchored : Bool) →
    Option (Bindings × Nat)
  | [], trees, bindings, anchored =>
    if anchored && !trees.isEmpty then none else some (bindings, 0)
  | term :: rest, trees, bindings, anchored =>
    match stretch bindings term with
    | .repeating earlier =>
      if Tree.sameAll earlier (trees.take earlier.length) then
        (unifyAll language rest (trees.drop earlier.length) bindings anchored).map
          fun (extended, used) => (extended, earlier.length + used)
      else none
    | .fresh name =>
      firstSome (fun length =>
        (unifyAll language rest (trees.drop length)
          (bindings.insert name (.sequence (trees.take length))) anchored).map
          fun (extended, used) => (extended, length + used)) (trees.length + 1)
    | .single =>
      match trees with
      | [] => none
      | tree :: others =>
        match unify language term tree bindings with
        | none => none
        | some bound =>
          (unifyAll language rest others bound anchored).map
            fun (extended, used) => (extended, used + 1)

end

end Term

namespace Pattern

/-- Matches a single-node pattern with a tree. -/
def matchNode (language : Language) (pattern : Pattern) (tree : Tree) : Option Bindings :=
  match pattern.shape with
  | .node term => term.unify language tree .empty
  | .window _ => none

/-- Matches a window with the statements from the given one on. -/
def matchWindow (language : Language) (pattern : Pattern) (statements : List Tree) (start : Nat) :
    Option (Bindings × Extent) :=
  match pattern.shape with
  | .node _ => none
  | .window terms =>
    if start ≤ statements.length then
      (Term.unifyAll language terms (statements.drop start) .empty false).map
        fun (bindings, used) => (bindings, ⟨start, start + used⟩)
    else none

end Pattern

end Codemod
