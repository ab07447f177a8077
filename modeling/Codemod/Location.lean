import Codemod.Extent
import Codemod.Span

/-!
# Locations
-/

namespace Codemod

/-- A place in a tree: the child indices from the root, and the statements of the block there when
a window is meant. -/
structure Location where
  path : List Nat
  statements : Option Extent
  span : Span
deriving DecidableEq, Repr

def Location.render (location : Location) : String :=
  let path := String.intercalate "/" (location.path.map toString)
  let range := match location.statements with
    | some extent => s!"[{extent.start}..{extent.stop}]"
    | none => ""
  let span := if location.span.isGenerated then "" else s!" ({location.span.render})"
  s!"/{path}{range}{span}"

end Codemod
