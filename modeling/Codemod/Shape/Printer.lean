import Codemod.Shape.Basic
import Codemod.Tree.Printer

/-!
# Printing shapes
-/

namespace Codemod

/-- The head of a statement window. -/
def windowHead : String := "seq"

def Hole.render (hole : Hole) : String :=
  if hole.backRef then s!"=?{hole.name}"
  else match hole.kind with
    | some .sequence => s!"?{hole.name}..."
    | some .statement => s!"?{hole.name}:stmt"
    | some .identifier => s!"?{hole.name}:ident"
    | some .expression | none => s!"?{hole.name}"

namespace Term

mutual

def render : Term → String
  | .leaf kind text => if kind = Tree.stringKind then Text.quote text else text
  | .branch kind children => s!"({kind}{renderAll children})"
  | .hole slot => slot.render

/-- The terms of a list, each after a blank. -/
def renderAll : List Term → String
  | [] => ""
  | term :: rest => s!" {render term}{renderAll rest}"

end

end Term

def Shape.render : Shape → String
  | .node term => term.render
  | .window terms => s!"({windowHead}{Term.renderAll terms})"

end Codemod
