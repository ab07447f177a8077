import Codemod.Span

/-!
# S-expressions
-/

namespace Codemod

inductive Atom where
  | ident (text : String)
  | int (text : String)
  | float (text : String)
  | string (text : String)
deriving DecidableEq, Repr

inductive Sexp where
  | atom (atom : Atom) (span : Span)
  | list (items : List Sexp) (span : Span)
deriving Repr

def Atom.text : Atom → String
  | .ident text | .int text | .float text | .string text => text

namespace Sexp

def span : Sexp → Span
  | .atom _ span | .list _ span => span

def ident? : Sexp → Option String
  | .atom (.ident text) _ => some text
  | _ => none

end Sexp

end Codemod
