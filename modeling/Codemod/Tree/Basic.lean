import Codemod.Span

/-!
# Syntax trees

A leaf carries text, a branch carries children. The static type and the span are metadata:
structural equality sees kind, text and children only.
-/

namespace Codemod

structure Tree where
  kind : String
  text : Option String
  type : Option String
  span : Span
  children : List Tree
deriving Repr

namespace Tree

/-- The kinds of the leaves that the text format spells bare or quoted. -/
def nameKind : String := "name"
def intKind : String := "int"
def floatKind : String := "float"
def stringKind : String := "string"

def leaf (kind text : String) : Tree :=
  ⟨kind, some text, none, .generated, []⟩

def branch (kind : String) (children : List Tree) : Tree :=
  ⟨kind, none, none, .generated, children⟩

def withSpan (tree : Tree) (span : Span) : Tree :=
  { tree with span }

def withType (tree : Tree) (type : String) : Tree :=
  { tree with type := some type }

def withChildren (tree : Tree) (children : List Tree) : Tree :=
  { tree with children }

def isLeaf (tree : Tree) : Bool :=
  tree.text.isSome

mutual

/-- Structural equality. -/
def same : Tree → Tree → Bool
  | ⟨kind, text, _, _, children⟩, ⟨kind', text', _, _, children'⟩ =>
    kind == kind' && text == text' && sameAll children children'

def sameAll : List Tree → List Tree → Bool
  | [], [] => true
  | tree :: rest, tree' :: rest' => same tree tree' && sameAll rest rest'
  | _, _ => false

end

mutual

/-- The trees of a tree, itself first, each before its children. -/
def preorder : Tree → List Tree
  | ⟨kind, text, type, span, children⟩ =>
    ⟨kind, text, type, span, children⟩ :: preorderAll children

def preorderAll : List Tree → List Tree
  | [] => []
  | tree :: rest => preorder tree ++ preorderAll rest

end

mutual

def size : Tree → Nat
  | ⟨_, _, _, _, children⟩ => 1 + sizeAll children

def sizeAll : List Tree → Nat
  | [] => 0
  | tree :: rest => size tree + sizeAll rest

end

/-- Whether a tree structurally equal to the second occurs in the first. -/
def contains (tree needle : Tree) : Bool :=
  tree.preorder.any (same · needle)

end Tree

end Codemod
