import Codemod.Guard.Basic

/-!
# Evaluating guards

In a conjunction a definite failure outranks an unproven one, since the rule cannot apply either
way; of several unproven ones the first is reported.
-/

namespace Codemod

namespace Verdict

def unsatisfied (why : String) : Verdict :=
  .refuse (.unsatisfied why)

def isUnsatisfied : Verdict → Bool
  | .refuse (.unsatisfied _) => true
  | _ => false

end Verdict

namespace Guard

def checkType (bindings : Bindings) (capture : String) (types : List String) : Verdict :=
  match bindings.find? capture with
  | some (.node tree) =>
    match tree.type with
    | none => .refuse .unresolvedType
    | some type =>
      if type ∈ types then .accept else .unsatisfied s!"?{capture} has type {type}"
  | some (.sequence _) => .unsatisfied s!"?{capture} captured statements"
  | none => .unsatisfied s!"?{capture} is not bound"

/-- Looks for the tree in each capture in turn. -/
def checkAbsent (bindings : Bindings) (name : String) (needle : Tree) : List String → Verdict
  | [] => .accept
  | other :: rest =>
    match bindings.find? other with
    | none => .unsatisfied s!"?{other} is not bound"
    | some capture =>
      if capture.trees.any (·.contains needle) then
        .unsatisfied s!"?{name} is used in ?{other}"
      else checkAbsent bindings name needle rest

def checkUnreferenced (bindings : Bindings) (name : String) (within : List String) : Verdict :=
  match bindings.find? name with
  | some (.node needle) => checkAbsent bindings name needle within
  | _ => .unsatisfied s!"?{name} is not a bound node"

mutual

def evaluate (bindings : Bindings) (context : Facts) : Guard → Verdict
  | .minVersion required =>
    match context.version with
    | some version => if required ≤ version then .accept else .refuse .unprovenCapability
    | none => .refuse .unprovenCapability
  | .capability name =>
    if name ∈ context.capabilities then .accept else .refuse .unprovenCapability
  | .receiverType expected =>
    match context.receiverType with
    | none => .refuse .unresolvedType
    | some type =>
      if type = expected then .accept else .unsatisfied s!"receiver is {type}, not {expected}"
  | .captureType capture types => checkType bindings capture types
  | .unreferenced name within => checkUnreferenced bindings name within
  | .custom guard => guard.check bindings context
  | .all guards => evaluateAll bindings context none guards

/-- Goes on with the guards of a conjunction after the given unproven one. -/
def evaluateAll (bindings : Bindings) (context : Facts) (pending : Option Refusal) :
    List Guard → Verdict
  | [] => match pending with
    | none => .accept
    | some reason => .refuse reason
  | guard :: rest =>
    match evaluate bindings context guard with
    | .accept => evaluateAll bindings context pending rest
    | .refuse (.unsatisfied why) => .unsatisfied why
    | .refuse reason => evaluateAll bindings context (pending.or (some reason)) rest

end

mutual

/-- Whether a guard, evaluated here, asks the engine to stop. A conjunction evaluates its guards up
to the first definite failure. -/
def cancels (bindings : Bindings) (context : Facts) : Guard → Bool
  | .custom guard => guard.cancels bindings context
  | .all guards => cancelsAny bindings context guards
  | _ => false

def cancelsAny (bindings : Bindings) (context : Facts) : List Guard → Bool
  | [] => false
  | guard :: rest =>
    cancels bindings context guard ||
      (!(evaluate bindings context guard).isUnsatisfied && cancelsAny bindings context rest)

end

end Guard

end Codemod
