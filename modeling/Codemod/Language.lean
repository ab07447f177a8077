import Codemod.Text.Numeral
import Codemod.Tree.Basic

/-!
# Languages

What the engine has to know about a language: which trees are blocks, calls, identifiers and
statements, and which platform version a declaration states.
-/

namespace Codemod

/-- Child positions of the receiver and the member name of a call. -/
structure CallLayout where
  receiver : Nat
  member : Nat
deriving DecidableEq, Repr

/-- The member name of a tree whose kind is laid out as a call. -/
def CallLayout.memberOf (layoutOf : String → Option CallLayout) (tree : Tree) : Option String := do
  let layout ← layoutOf tree.kind
  let child ← tree.children[layout.member]?
  child.text

/-- The static type of the receiver of a tree whose kind is laid out as a call. -/
def CallLayout.receiverTypeOf (layoutOf : String → Option CallLayout) (tree : Tree) :
    Option String := do
  let layout ← layoutOf tree.kind
  let child ← tree.children[layout.receiver]?
  child.type

/-- What is asked of a language. It may find members and receivers of calls in ways of its own. -/
structure Language where
  /-- The children of a block are statements. -/
  isBlock : String → Bool
  isIdentifier : Tree → Bool
  /-- A statement proper is never captured as an expression. -/
  isStatement : Tree → Bool
  callLayout : String → Option CallLayout
  /-- The least platform version that holds for everything below a tree. -/
  declaredVersion : Tree → Option Nat := fun _ => none
  member : Tree → Option String := CallLayout.memberOf callLayout
  receiverType : Tree → Option String := CallLayout.receiverTypeOf callLayout

namespace Language

/-- The same language with declarations that state no version. -/
def withoutVersions (language : Language) : Language :=
  { language with declaredVersion := fun _ => none }

end Language

/-- The greater of two versions, where no version is less than every version. -/
def maxVersion : Option Nat → Option Nat → Option Nat
  | some a, some b => some (max a b)
  | some a, none => some a
  | none, b => b

/-- A language given by the kinds that play each part. -/
structure Roles where
  block : String := "block"
  call : String := "call"
  callLayout : CallLayout := ⟨0, 1⟩
  identifier : String := Tree.nameKind
  statements : List String :=
    ["val", "var", "for", "while", "try", "assign", "return", "block"]
  versionMark : String := "requires-api"
deriving DecidableEq, Repr

namespace Roles

/-- The version a child states, when it is an annotation whose first child is a number. -/
def statedVersion (roles : Roles) (child : Tree) : Option Nat := do
  guard (child.kind = roles.versionMark)
  let argument ← child.children.head?
  let text ← argument.text
  Text.uint32? text

def language (roles : Roles) : Language where
  isBlock kind := kind = roles.block
  isIdentifier tree := tree.kind = roles.identifier && tree.isLeaf
  isStatement tree := roles.statements.contains tree.kind
  callLayout kind := if kind = roles.call then some roles.callLayout else none
  declaredVersion tree := (tree.children.filterMap roles.statedVersion).max?

end Roles

end Codemod
