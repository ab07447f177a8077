import Codemod.Contest
import Codemod.Guard.Evaluation
import Codemod.Match
import Codemod.Pass.Basic

/-!
# Claims of a pass

A rule claims a place when its pattern matches there and its guard accepts the match.
-/

namespace Codemod.Pass

/-- Reports why a guard turned a match down. An unsatisfied guard is no diagnostic. -/
def refuse (rule : Rule) (location : Location) (refusal : Refusal) : Traced Unit := do
  .emit (.refused rule location refusal)
  match refusal with
  | .unprovenCapability => report .unprovenCapability [rule.id] location
  | .unresolvedType => report .unresolvedType [rule.id] location
  | .unsatisfied _ => pure ()

/-- What is known around a match. The anchor is the tree matched, or the first statement of a
window. -/
def factsAt (pass : Pass) (scope : Option Nat) (anchor : Tree) : Facts :=
  ⟨scope, pass.platform.capabilities, pass.language.receiverType anchor⟩

/-- Asks the guard of a rule that matched. -/
def accepts (pass : Pass) (rule : Rule) (bindings : Bindings) (anchor : Tree)
    (scope : Option Nat) (location : Location) : Traced Bool := do
  .emit (.matched rule)
  match rule.guard with
  | none => pure true
  | some guard =>
    let facts := pass.factsAt scope anchor
    if guard.cancels bindings facts then Traced.emit .stopRequested
    match guard.evaluate bindings facts with
    | .accept => pure true
    | .refuse refusal => do
      refuse rule location refusal
      pure false

/-- The claim of one rule that was tried, if it matched and its guard accepts. -/
def claim (pass : Pass) (rule : Rule) (found : Option (Bindings × Extent)) (anchor : Tree)
    (scope : Option Nat) (locate : Extent → Location) : Traced (List (Claim Match)) := do
  .emit (.searched rule)
  match found with
  | none => pure []
  | some (bindings, extent) =>
    if ← pass.accepts rule bindings anchor scope (locate extent) then
      pure [⟨rule.id, rule.priority, extent, ⟨rule, bindings⟩⟩]
    else pure []

/-- The claims of single-node rules on a tree, of the composite ones or of the others. -/
def treeClaims (pass : Pass) (composite : Bool) (scope : Option Nat) (position : Nat)
    (location : Location) (tree : Tree) : Traced (List (Claim Match)) :=
  let rules := (pass.lookup tree).filter fun rule =>
    !rule.pattern.isWindow && rule.pattern.composite == composite
  Traced.collect (fun rule =>
    let found := rule.pattern.matchNode pass.language tree
    pass.claim rule (found.map (·, .single position)) tree scope fun _ => location) rules

/-- The claims of windows that start at a statement of the block at a path. -/
def windowClaims (pass : Pass) (path : List Nat) (scope : Option Nat) (statements : List Tree)
    (start : Nat) (first : Tree) : Traced (List (Claim Match)) :=
  let rules := (pass.lookup first).filter (·.pattern.isWindow)
  Traced.collect (fun rule =>
    let found := rule.pattern.matchWindow pass.language statements start
    pass.claim rule found first scope fun extent =>
      blockLocation path statements extent true) rules

/-- Every claim of a composite rule on the statements of the block at a path. -/
def blockClaims (pass : Pass) (path : List Nat) (scope : Option Nat) (statements : List Tree) :
    Traced (List (Claim Match)) :=
  Traced.collect (fun (statement, index) => do
    let location : Location := ⟨path ++ [index], none, statement.span⟩
    let single ← pass.treeClaims true scope index location statement
    let windows ← pass.windowClaims path scope statements index statement
    pure (single ++ windows)) statements.zipIdx

end Codemod.Pass
