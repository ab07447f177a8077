import Codemod.Location
import Codemod.Template

/-!
# Diagnostics
-/

namespace Codemod

/-- Why a place was left as it is. -/
inductive DiagnosticKind where
  /-- Rules of equal rank claim the same code. -/
  | ambiguousMatch
  | unprovenCapability
  | unresolvedType
  | unboundName (name : String)
  | shapeMismatch (produced : Nat)
  /-- A match was still pending when the passes ran out. -/
  | passLimitExceeded
deriving DecidableEq, Repr

namespace DiagnosticKind

def render : DiagnosticKind → String
  | .ambiguousMatch => "AmbiguousRuleMatch"
  | .unprovenCapability => "UnprovenCapabilityGuard"
  | .unresolvedType => "TypeGuardUnresolved"
  | .unboundName name => s!"UnboundPlaceholder(?{name})"
  | .shapeMismatch produced => s!"ShapeMismatch({produced})"
  | .passLimitExceeded => "PassLimitExceeded"

def ofFillError : FillError → DiagnosticKind
  | .unboundName name => .unboundName name
  | .shapeMismatch produced => .shapeMismatch produced

end DiagnosticKind

/-- Only an ambiguous match names several rules. -/
structure Diagnostic where
  kind : DiagnosticKind
  rules : List Nat
  location : Location
deriving DecidableEq, Repr

/-- How a rule is named by its place in the catalog. -/
def ruleLabel (id : Nat) : String :=
  s!"#{id}"

def Diagnostic.render (diagnostic : Diagnostic) : String :=
  let rules := String.intercalate ", " (diagnostic.rules.map ruleLabel)
  s!"{diagnostic.kind.render} at {diagnostic.location.render} (rules {rules})"

end Codemod
