import Codemod.Shape.Printer
import Codemod.Tree.Reader

/-!
# Reading shapes

Terms are written like trees. The words `?x`, `?x:expr`, `?x:stmt`, `?x:ident`, `?x...` and `=?x`
are holes, and a list headed by `seq` at the top is a statement window.
-/

namespace Codemod

namespace Hole

def isToken (token : String) : Bool :=
  match token.toList with
  | '?' :: _ => true
  | '=' :: '?' :: _ => true
  | _ => false

/-- Colons and points belong to the forms around a name. -/
def isName (name : List Char) : Bool :=
  !name.isEmpty && !name.contains ':' && !name.contains '.'

def sequenceName? (body : List Char) : Option (List Char) :=
  match body.reverse with
  | '.' :: '.' :: '.' :: name => some name.reverse
  | _ => none

/-- The kind a suffix after the first colon stands for. -/
def kindOfSuffix? (suffix : String) : Option HoleKind :=
  if suffix = "expr" then some .expression
  else if suffix = "stmt" then some .statement
  else if suffix = "ident" then some .identifier
  else none

/-- Name and kind of the word after a question mark. -/
def parts? (body : List Char) : Option (List Char × HoleKind) :=
  match sequenceName? body with
  | some name => some (name, .sequence)
  | none => match body.span (· ≠ ':') with
    | (name, _ :: suffix) => (kindOfSuffix? (String.ofList suffix)).map (name, ·)
    | (name, []) => some (name, .expression)

def ofToken? (token : String) : Option Hole :=
  match token.toList with
  | '=' :: '?' :: name =>
    if isName name then some (referringTo (String.ofList name)) else none
  | '?' :: body => do
    let (name, kind) ← parts? body
    if isName name then some (capturing (String.ofList name) kind) else none
  | _ => none

end Hole

namespace Term

def ofAtom (span : Span) (atom : Atom) : Except ReadError Term :=
  match atom with
  | .ident token =>
    if Hole.isToken token then
      match Hole.ofToken? token with
      | some slot => .ok (.hole slot)
      | none => .error ⟨span, .badHole token⟩
    else .ok (.leaf atom.kind token)
  | _ => .ok (.leaf atom.kind atom.text)

mutual

def ofSexp : Sexp → Except ReadError Term
  | .atom atom span => ofAtom span atom
  | .list [] span => .error ⟨span, .expectedNode⟩
  | .list (head :: items) span => do
    let kind ← head.expectIdent
    if kind = typeHead then .error ⟨span, .typeInPattern⟩
    else if kind = windowHead then .error ⟨span, .nestedWindow⟩
    else
      let children ← ofSexps items
      .ok (.branch kind children)

def ofSexps : List Sexp → Except ReadError (List Term)
  | [] => .ok []
  | sexp :: rest => do
    let term ← ofSexp sexp
    let terms ← ofSexps rest
    .ok (term :: terms)

end

end Term

namespace Shape

def ofSexp (sexp : Sexp) : Except ReadError Shape :=
  match sexp with
  | .list (head :: items) _ =>
    if head.ident? = some windowHead then .window <$> Term.ofSexps items
    else .node <$> Term.ofSexp sexp
  | _ => .node <$> Term.ofSexp sexp

/-- Reads a text that holds exactly one shape. -/
def read (source : Source) : Except ReadError Shape :=
  Sexp.readOne source >>= ofSexp

end Shape

end Codemod
