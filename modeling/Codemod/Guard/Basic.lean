import Codemod.Bindings

/-!
# Guards

A guard is what must hold around a structural match for its rule to apply.
-/

namespace Codemod

/-- Why a guard turned a match down. -/
inductive Refusal where
  /-- The place does not provably have a capability. -/
  | unprovenCapability
  /-- A static type is not known. -/
  | unresolvedType
  /-- The known facts say no. -/
  | unsatisfied (why : String)
deriving DecidableEq, Repr

namespace Refusal

def message : Refusal → String
  | .unprovenCapability => "UnprovenCapabilityGuard"
  | .unresolvedType => "TypeGuardUnresolved"
  | .unsatisfied why => s!"guard unsatisfied: {why}"

/-- An unsatisfied guard is an ordinary failure to match. -/
def isReportable : Refusal → Bool
  | .unsatisfied _ => false
  | _ => true

end Refusal

inductive Verdict where
  | accept
  | refuse (reason : Refusal)
deriving DecidableEq, Repr

/-- What is known at the place of a match. -/
structure Facts where
  version : Option Nat
  capabilities : List String
  receiverType : Option String

/-- A named test supplied from outside. It may also ask the engine to stop. -/
structure CustomGuard where
  name : String
  check : Bindings → Facts → Verdict
  cancels : Bindings → Facts → Bool

inductive Guard where
  | minVersion (version : Nat)
  | capability (name : String)
  | receiverType (type : String)
  | captureType (capture : String) (types : List String)
  | unreferenced (name : String) (within : List String)
  | custom (guard : CustomGuard)
  | all (guards : List Guard)

namespace Guard

mutual

/-- The receiver type a guard pins down. -/
def pinnedReceiver : Guard → Option String
  | .receiverType type => some type
  | .all guards => pinnedReceiverAny guards
  | _ => none

def pinnedReceiverAny : List Guard → Option String
  | [] => none
  | guard :: rest => (pinnedReceiver guard).or (pinnedReceiverAny rest)

end

mutual

/-- The capture names a guard inspects. -/
def captures : Guard → List String
  | .captureType capture _ => [capture]
  | .unreferenced name within => name :: within
  | .all guards => capturesAll guards
  | _ => []

def capturesAll : List Guard → List String
  | [] => []
  | guard :: rest => captures guard ++ capturesAll rest

end

mutual

def render : Guard → String
  | .minVersion version => s!"(min-version {version})"
  | .capability name => s!"(capability {name})"
  | .receiverType type => s!"(receiver-type {type})"
  | .captureType capture types =>
    let listed := String.intercalate " " types
    s!"(capture-type ?{capture} {listed})"
  | .unreferenced name within =>
    let listed := String.join (within.map fun other => s!" ?{other}")
    s!"(unreferenced ?{name}{listed})"
  | .custom guard => s!"(custom {guard.name})"
  | .all guards => String.intercalate " " (renderAll guards)

def renderAll : List Guard → List String
  | [] => []
  | guard :: rest => render guard :: renderAll rest

end

/-- The guards a guard lists side by side. -/
def conjuncts : Guard → List Guard
  | .all guards => guards
  | guard => [guard]

/-- Adds a guard to those already required. -/
def conjoin (required : Option Guard) (guard : Guard) : Guard :=
  match required with
  | none => guard
  | some (.all guards) => .all (guards ++ [guard])
  | some other => .all [other, guard]

end Guard

end Codemod
