import Codemod.Sexp.Reader
import Codemod.Tree.Basic

/-!
# Reading trees

An atom is a leaf of its own kind and a list is a branch headed by its kind. The form
`(: expr Type)` gives the tree of `expr` a static type.
-/

namespace Codemod

/-- The leaf kind of an atom. -/
def Atom.kind : Atom → String
  | .ident _ => Tree.nameKind
  | .int _ => Tree.intKind
  | .float _ => Tree.floatKind
  | .string _ => Tree.stringKind

/-- The head of a type annotation. -/
def typeHead : String := ":"

namespace Tree

mutual

def ofSexp : Sexp → Except ReadError Tree
  | .atom atom span => .ok ((leaf atom.kind atom.text).withSpan span)
  | .list [] span => .error ⟨span, .expectedNode⟩
  | .list (head :: items) span => do
    let kind ← head.expectIdent
    if kind = typeHead then
      match items with
      | [expr, type] => do
        let tree ← ofSexp expr
        let type ← type.expectIdent
        .ok (tree.withType type)
      | _ => .error ⟨span, .malformedType⟩
    else
      let children ← ofSexps items
      .ok ((branch kind children).withSpan span)

def ofSexps : List Sexp → Except ReadError (List Tree)
  | [] => .ok []
  | sexp :: rest => do
    let tree ← ofSexp sexp
    let trees ← ofSexps rest
    .ok (tree :: trees)

end

/-- Reads a text that holds exactly one tree. -/
def read (source : Source) : Except ReadError Tree :=
  Sexp.readOne source >>= ofSexp

/-- Reads the trees of a text. -/
def readAll (source : Source) : Except ReadError (List Tree) :=
  Sexp.readAll source >>= ofSexps

end Tree

end Codemod
