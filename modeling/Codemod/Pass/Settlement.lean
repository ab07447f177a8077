import Codemod.Pass.Claims

/-!
# Settling claims

The winner of a contest replaces what it claimed. Where there is no winner, or its replacement fails
or changes nothing, the trees are left to the ordinary traversal.
-/

namespace Codemod.Pass

/-- The trees a match produces. A node is replaced by exactly one tree. -/
def replacement (found : Match) (span : Span) : Except FillError (List Tree) :=
  if found.rule.pattern.isWindow then found.rule.template.instantiate found.bindings span
  else (found.rule.template.instantiateNode found.bindings span).map ([·])

/-- Carries out a match on the trees it claimed, unless nothing comes of it. -/
def carryOut (pass : Pass) (found : Match) (claimed : List Tree) (location : Location) :
    Traced (Option (List Tree)) := do
  let rule := found.rule
  .emit (.instantiated rule)
  match replacement found location.span with
  | .error error =>
    .emit (.failed rule location error)
    report (.ofFillError error) [rule.id] location
    pure none
  | .ok trees =>
    if Tree.sameAll trees claimed then
      .emit (.unchanged rule location)
      pure none
    else match pass.mode with
      | .survey =>
        report .passLimitExceeded [rule.id] location
        pure (some claimed)
      | .replace =>
        .emit (.applied rule location)
        pure (some trees)

/-- Settles the claims on one tree. -/
def settleTree (pass : Pass) (path : List Nat) (tree : Tree) (claims : List (Claim Match)) :
    Traced (Option Tree) := do
  let location : Location := ⟨path, none, tree.span⟩
  match Contest.resolve claims with
  | [] => pure none
  | .ambiguous _ rules :: _ =>
    report .ambiguousMatch rules location
    pure none
  | .grant winner :: _ => do
    let outcome ← pass.carryOut winner.payload [tree] location
    pure (outcome.bind List.head?)

/-- Settles one award in the block at a path. -/
def settleAward (pass : Pass) (path : List Nat) (statements : List Tree) (award : Award Match) :
    Traced (Option (List Tree)) :=
  match award with
  | .ambiguous extent rules => do
    let window := rules.any fun id => (pass.catalog.rules[id]?).any (·.pattern.isWindow)
    report .ambiguousMatch rules (blockLocation path statements extent window)
    pure none
  | .grant winner =>
    let window := winner.payload.rule.pattern.isWindow
    pass.carryOut winner.payload (winner.extent.slice statements)
      (blockLocation path statements winner.extent window)

end Codemod.Pass
