import Codemod.Text.Quoted
import Codemod.Tree.Basic

/-!
# Printing trees
-/

namespace Codemod.Tree

/-- A leaf of an unknown kind has no literal form; its kind is written before its text. -/
def renderLeaf (kind text : String) : String :=
  if kind = stringKind then Text.quote text
  else if kind = nameKind || kind = intKind || kind = floatKind then text
  else s!"{kind}:{text}"

def renderTyped (type : Option String) (untyped : String) : String :=
  match type with
  | some type => s!"(: {untyped} {type})"
  | none => untyped

mutual

def render : Tree → String
  | ⟨kind, some text, type, _, _⟩ => renderTyped type (renderLeaf kind text)
  | ⟨kind, none, type, _, children⟩ => renderTyped type s!"({kind}{renderAll children})"

/-- The trees of a list, each after a blank. -/
def renderAll : List Tree → String
  | [] => ""
  | tree :: rest => s!" {render tree}{renderAll rest}"

end

end Codemod.Tree
