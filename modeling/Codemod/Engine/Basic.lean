import Codemod.Catalog.Builder
import Codemod.Pass.Traversal

/-!
# Engines and reports
-/

namespace Codemod

structure Engine where
  catalog : Catalog
  /-- The passes to make before giving up on a fixed point. -/
  maxPasses : Nat := 16
  /-- How the rules to try on a tree are found. -/
  lookup : Tree → List Rule := catalog.candidates

/-- One tree to modernise with what is known about its platform. -/
structure CompilationUnit where
  name : String
  root : Tree
  platform : Platform := {}

inductive Outcome where
  /-- The last pass replaced nothing. -/
  | fixedPoint
  /-- Replacements were still pending when the passes ran out. -/
  | passLimit
  /-- The tree is the result of the last completed pass. -/
  | cancelled
deriving DecidableEq, Repr

def Outcome.label : Outcome → String
  | .fixedPoint => "FixedPoint"
  | .passLimit => "PassLimit"
  | .cancelled => "Cancelled"

structure Report where
  name : String
  root : Tree
  applied : List Applied
  /-- The diagnostics of the last pass or survey. -/
  diagnostics : List Diagnostic
  imports : List String
  passes : Nat
  outcome : Outcome
  statistics : Statistics

def Report.changed (report : Report) : Bool :=
  !report.applied.isEmpty

namespace Engine

/-- A pass that puts replacements in place. -/
def replacing (engine : Engine) (unit : CompilationUnit) : Pass :=
  ⟨engine.catalog, engine.lookup, unit.platform, .replace⟩

/-- A pass that only reports what is pending. -/
def surveying (engine : Engine) (unit : CompilationUnit) : Pass :=
  ⟨engine.catalog, engine.lookup, unit.platform, .survey⟩

end Engine

end Codemod
