import Codemod.Assoc
import Codemod.Tree.Basic

/-!
# Bindings
-/

namespace Codemod

/-- What one hole captured. -/
inductive Capture where
  | node (tree : Tree)
  | sequence (trees : List Tree)
deriving Repr

def Capture.trees : Capture → List Tree
  | .node tree => [tree]
  | .sequence trees => trees

abbrev Bindings := Assoc String Capture

end Codemod
