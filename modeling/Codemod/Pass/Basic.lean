import Codemod.Catalog.Basic
import Codemod.Pass.Trace

/-!
# Passes

A pass goes over a tree once with the rules of a catalog.
-/

namespace Codemod

/-- What is known about the platform a unit is built for. -/
structure Platform where
  minVersion : Option Nat := none
  capabilities : List String := []
deriving DecidableEq, Repr

inductive Mode where
  /-- Puts replacements in place. -/
  | replace
  /-- Reports what would be replaced and changes nothing. -/
  | survey
deriving DecidableEq, Repr

structure Pass where
  catalog : Catalog
  /-- The rules to try on a tree. -/
  lookup : Tree → List Rule
  platform : Platform
  mode : Mode

/-- A rule with what its pattern captured. -/
structure Match where
  rule : Rule
  bindings : Bindings

namespace Pass

def language (pass : Pass) : Language :=
  pass.catalog.language

def report (kind : DiagnosticKind) (rules : List Nat) (location : Location) : Traced Unit :=
  .emit (.diagnosed ⟨kind, rules, location⟩)

/-- The span from the first to the last statement of an extent. -/
def extentSpan (statements : List Tree) (extent : Extent) : Span :=
  match statements[extent.start]?, statements[extent.stop - 1]? with
  | some first, some last => first.span.merge last.span
  | _, _ => .generated

/-- A window is located by the path of its block, a single statement by its own path. -/
def blockLocation (path : List Nat) (statements : List Tree) (extent : Extent)
    (window : Bool) : Location :=
  let span := extentSpan statements extent
  if window then ⟨path, some extent, span⟩ else ⟨path ++ [extent.start], none, span⟩

end Pass

end Codemod
