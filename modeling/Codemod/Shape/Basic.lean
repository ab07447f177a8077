import Codemod.Assoc
import Codemod.Distinct

/-!
# Shapes

A term is concrete syntax with named holes. A shape, the form of patterns and templates alike, is
one term or a window of consecutive statements.
-/

namespace Codemod

/-- What a hole may capture. -/
inductive HoleKind where
  /-- Any tree that is not a statement proper. -/
  | expression
  /-- Any one tree. -/
  | statement
  /-- Consecutive statements of a block, possibly none. -/
  | sequence
  /-- An identifier leaf. -/
  | identifier
deriving DecidableEq, Repr

def HoleKind.label : HoleKind → String
  | .expression => "expression"
  | .statement => "statement"
  | .sequence => "statement sequence"
  | .identifier => "identifier"

/-- A named hole. A back-reference asks for an equal copy of what the name captured before. -/
structure Hole where
  name : String
  kind : Option HoleKind
  backRef : Bool
deriving DecidableEq, Repr

namespace Hole

def capturing (name : String) (kind : HoleKind) : Hole := ⟨name, some kind, false⟩

def referringTo (name : String) : Hole := ⟨name, none, true⟩

/-- A hole without a kind captures an expression. -/
def effectiveKind (hole : Hole) : HoleKind :=
  hole.kind.getD .expression

end Hole

inductive Term where
  | leaf (kind text : String)
  | branch (kind : String) (children : List Term)
  | hole (slot : Hole)
deriving Repr, Inhabited

namespace Term

mutual

private def decideEq : (a b : Term) → Decidable (a = b)
  | .leaf kind text, .leaf kind' text' =>
    decidable_of_iff (kind = kind' ∧ text = text') (by simp)
  | .branch kind children, .branch kind' children' =>
    match decideEqAll children children' with
    | .isTrue same => decidable_of_iff (kind = kind') (by simp [same])
    | .isFalse different => .isFalse (by simp [different])
  | .hole slot, .hole slot' => decidable_of_iff (slot = slot') (by simp)
  | .leaf .., .branch .. | .leaf .., .hole .. | .branch .., .leaf .. | .branch .., .hole ..
  | .hole .., .leaf .. | .hole .., .branch .. => .isFalse (by simp)

private def decideEqAll : (as bs : List Term) → Decidable (as = bs)
  | [], [] => .isTrue rfl
  | [], _ :: _ | _ :: _, [] => .isFalse (by simp)
  | a :: as, b :: bs =>
    match decideEq a b, decideEqAll as bs with
    | .isTrue head, .isTrue tail => .isTrue (by simp [head, tail])
    | .isFalse head, _ => .isFalse (by simp [head])
    | _, .isFalse tail => .isFalse (by simp [tail])

end

instance : DecidableEq Term := decideEq

def kind? : Term → Option String
  | .leaf kind _ | .branch kind _ => some kind
  | .hole _ => none

mutual

/-- The terms of a term, itself first, each before its children. -/
def preorder : Term → List Term
  | .leaf kind text => [.leaf kind text]
  | .branch kind children => .branch kind children :: preorderAll children
  | .hole slot => [.hole slot]

def preorderAll : List Term → List Term
  | [] => []
  | term :: rest => preorder term ++ preorderAll rest

end

mutual

def rename (change : String → String) : Term → Term
  | .leaf kind text => .leaf kind text
  | .branch kind children => .branch kind (renameAll change children)
  | .hole slot => .hole { slot with name := change slot.name }

def renameAll (change : String → String) : List Term → List Term
  | [] => []
  | term :: rest => rename change term :: renameAll change rest

end

mutual

/-- The holes of a term from left to right. -/
def holes : Term → List Hole
  | .leaf _ _ => []
  | .branch _ children => holesAll children
  | .hole slot => [slot]

def holesAll : List Term → List Hole
  | [] => []
  | term :: rest => holes term ++ holesAll rest

end

end Term

inductive Shape where
  | node (term : Term)
  | window (terms : List Term)
deriving DecidableEq, Repr

namespace Shape

def terms : Shape → List Term
  | .node term => [term]
  | .window terms => terms

def isWindow : Shape → Bool
  | .node _ => false
  | .window _ => true

/-- Every hole name, in order of first appearance. -/
def names (shape : Shape) : List String :=
  distinct ((Term.holesAll shape.terms).map Hole.name)

def rename (change : String → String) : Shape → Shape
  | .node term => .node (term.rename change)
  | .window terms => .window (Term.renameAll change terms)

/-- A name's place among the names of a shape. -/
def ordinalName (names : List String) (name : String) : String :=
  match names.idxOf? name with
  | some index => toString index
  | none => name

/-- The shape with its holes named by order of first appearance. -/
def canonical (shape : Shape) : Shape :=
  shape.rename (ordinalName shape.names)

end Shape

end Codemod
