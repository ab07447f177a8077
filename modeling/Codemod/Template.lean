import Codemod.Bindings
import Codemod.Pattern

/-!
# Templates

A template is the replacement side of a rule. Its holes are filled with what the match captured;
a captured sequence is spliced into the list around the hole.
-/

namespace Codemod

structure Template where
  shape : Shape
  imports : List String
deriving DecidableEq, Repr

inductive FillError where
  | unboundName (name : String)
  | shapeMismatch (produced : Nat)
deriving DecidableEq, Repr

def FillError.message : FillError → String
  | .unboundName name => s!"replacement uses ?{name}, which the match did not bind"
  | .shapeMismatch produced => s!"replacement for a single node produced {produced} nodes"

namespace Term

mutual

/-- The trees a term stands for. What the term itself spells out gets the given span. -/
def fill (bindings : Bindings) (span : Span) : Term → Except FillError (List Tree)
  | .leaf kind text => .ok [(Tree.leaf kind text).withSpan span]
  | .branch kind children => do
    let trees ← fillAll bindings span children
    .ok [(Tree.branch kind trees).withSpan span]
  | .hole slot =>
    match bindings.find? slot.name with
    | some capture => .ok capture.trees
    | none => .error (.unboundName slot.name)

def fillAll (bindings : Bindings) (span : Span) : List Term → Except FillError (List Tree)
  | [] => .ok []
  | term :: rest => do
    let trees ← fill bindings span term
    let others ← fillAll bindings span rest
    .ok (trees ++ others)

end

end Term

namespace Template

def ofShape (shape : Shape) : Template := ⟨shape, []⟩

/-- Declares an import the replacement needs, once. -/
def withImport (template : Template) (name : String) : Template :=
  { template with imports := addNew template.imports name }

/-- The names a template uses but a pattern does not capture. -/
def unboundIn (template : Template) (pattern : Pattern) : List String :=
  template.shape.names.filter fun name => !pattern.captures.contains name

def instantiate (template : Template) (bindings : Bindings) (span : Span) :
    Except FillError (List Tree) :=
  Term.fillAll bindings span template.shape.terms

/-- The replacement for one node, which must be one node. -/
def instantiateNode (template : Template) (bindings : Bindings) (span : Span) :
    Except FillError Tree :=
  match template.shape with
  | .window terms => .error (.shapeMismatch terms.length)
  | .node _ => do
    match ← template.instantiate bindings span with
    | [tree] => .ok tree
    | trees => .error (.shapeMismatch trees.length)

end Template

end Codemod
