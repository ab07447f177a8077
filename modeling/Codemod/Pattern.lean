import Codemod.Language
import Codemod.Shape.Basic

/-!
# Patterns

A pattern is a shape that is fit for matching, with the table of what its holes capture.
-/

namespace Codemod

inductive PatternError where
  | incompatibleKinds (name : String) (first second : HoleKind)
  | misplacedSequence (name : String)
  | unboundBackReference (name : String)
  | holeRoot
  | emptyWindow
  | windowTemplateForNode
deriving DecidableEq, Repr

def PatternError.message : PatternError → String
  | .incompatibleKinds name first second =>
    s!"placeholder ?{name} is used both as {first.label} and as {second.label}"
  | .misplacedSequence name =>
    s!"sequence placeholder ?{name}... must stand for whole statements of a block"
  | .unboundBackReference name => s!"back-reference =?{name} appears before ?{name} is bound"
  | .holeRoot => "a pattern must start with concrete syntax, not a placeholder"
  | .emptyWindow => "a statement window needs at least one statement"
  | .windowTemplateForNode => "a single-node pattern cannot be replaced by a statement window"

/-- The kind each hole name captures, in order of first appearance. -/
abbrev CaptureTable := Assoc String HoleKind

/-- Where a term stands: at the root, among the statements of a block or window, or elsewhere. -/
inductive Site where
  | root
  | statement
  | operand
deriving DecidableEq, Repr

namespace Term

/-- Where the children of a branch stand. -/
def childSite (language : Language) (kind : String) : Site :=
  if language.isBlock kind then .statement else .operand

end Term

namespace Hole

/-- Enters one occurrence of a hole into the table of those before it. -/
def enter (hole : Hole) (site : Site) (captures : CaptureTable) :
    Except PatternError CaptureTable :=
  let name := hole.name
  if site = .root then .error .holeRoot
  else if hole.backRef then
    match captures.find? name with
    | some .sequence =>
      if site = .statement then .ok captures else .error (.misplacedSequence name)
    | some _ => .ok captures
    | none => .error (.unboundBackReference name)
  else
    let kind := hole.effectiveKind
    if kind = .sequence ∧ site ≠ .statement then .error (.misplacedSequence name)
    else match captures.find? name with
      | some first =>
        if first = kind then .ok captures else .error (.incompatibleKinds name first kind)
      | none => .ok (captures.insert name kind)

end Hole

namespace Term

mutual

/-- Extends the capture table by the holes of a term from left to right. -/
def check (language : Language) (site : Site) : Term → CaptureTable →
    Except PatternError CaptureTable
  | .leaf _ _, captures => .ok captures
  | .branch kind children, captures =>
    checkAll language (childSite language kind) children captures
  | .hole slot, captures => slot.enter site captures

def checkAll (language : Language) (site : Site) : List Term → CaptureTable →
    Except PatternError CaptureTable
  | [], captures => .ok captures
  | term :: rest, captures => do
    let extended ← check language site term captures
    checkAll language site rest extended

end

mutual

/-- Whether a term holds a block or captures a statement sequence. -/
def holdsStatements (language : Language) : Term → Bool
  | .leaf _ _ => false
  | .branch kind children => language.isBlock kind || holdsStatementsAny language children
  | .hole slot => !slot.backRef && slot.effectiveKind = .sequence

def holdsStatementsAny (language : Language) : List Term → Bool
  | [] => false
  | term :: rest => holdsStatements language term || holdsStatementsAny language rest

end

end Term

namespace Shape

/-- The capture table of a well-formed shape. Only the first term of a window is a root. -/
def captureTable (language : Language) : Shape → Except PatternError CaptureTable
  | .node term => term.check language .root .empty
  | .window [] => .error .emptyWindow
  | .window (first :: rest) => do
    let captures ← first.check language .root .empty
    Term.checkAll language .statement rest captures

/-- Composite shapes span statements. -/
def isComposite (language : Language) (shape : Shape) : Bool :=
  shape.isWindow || Term.holdsStatementsAny language shape.terms

end Shape

structure Pattern where
  shape : Shape
  captures : CaptureTable
  composite : Bool
deriving DecidableEq, Repr

namespace Pattern

def compile (language : Language) (shape : Shape) : Except PatternError Pattern := do
  let captures ← shape.captureTable language
  .ok ⟨shape, captures, shape.isComposite language⟩

def isWindow (pattern : Pattern) : Bool :=
  pattern.shape.isWindow

/-- The outermost term: the whole of a node pattern, or the first statement of a window. -/
def root? (pattern : Pattern) : Option Term :=
  pattern.shape.terms.head?

end Pattern

end Codemod
