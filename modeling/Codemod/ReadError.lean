import Codemod.Sexp.Basic
import Codemod.Text.Numeral

/-!
# Reading errors

What can be wrong with a text, and where. The `expect` functions name the one form they accept.
-/

namespace Codemod

inductive ReadFault where
  | expectedString
  | missingEndQuote
  | expectedIdent
  | expectedInt
  | expectedList
  | expectedNode
  | unexpectedEnd
  | trailingInput
  | malformedType
  | typeInPattern
  | nestedWindow
  | badHole (token : String)
  | unknownOption (keyword : String)
  | unknownGuard (head : String)
  | unknownCustomGuard (name : String)
  | malformedRule
deriving DecidableEq, Repr

def ReadFault.message : ReadFault → String
  | .expectedString => "expected string"
  | .missingEndQuote => "missing end quote for string"
  | .expectedIdent => "expected identifier"
  | .expectedInt => "expected integer"
  | .expectedList => "expected list"
  | .expectedNode => "expected a node, found an empty list"
  | .unexpectedEnd => "unexpected end of input"
  | .trailingInput => "unexpected trailing input"
  | .malformedType => "type annotations take the form (: expr Type)"
  | .typeInPattern => "patterns cannot carry type annotations; use a capture-type guard"
  | .nestedWindow => "(seq ...) is only allowed at the top of a pattern or template"
  | .badHole token => s!"malformed placeholder {token}"
  | .unknownOption keyword => s!"unknown rule option {keyword}"
  | .unknownGuard head => s!"unknown guard {head}"
  | .unknownCustomGuard name => s!"unknown custom guard {name}"
  | .malformedRule => "malformed rule; expected (rule NAME PATTERN TEMPLATE options...)"

structure ReadError where
  span : Span
  fault : ReadFault
deriving DecidableEq, Repr

def ReadError.message (error : ReadError) : String :=
  s!"{error.span.render}\n{error.fault.message}"

namespace Sexp

def expectIdent (sexp : Sexp) : Except ReadError String :=
  match sexp.ident? with
  | some text => .ok text
  | none => .error ⟨sexp.span, .expectedIdent⟩

def expectString : Sexp → Except ReadError String
  | .atom (.string text) _ => .ok text
  | sexp => .error ⟨sexp.span, .expectedString⟩

def expectInt : Sexp → Except ReadError Int
  | .atom (.int text) span =>
    match Text.int64? text with
    | some value => .ok value
    | none => .error ⟨span, .expectedInt⟩
  | sexp => .error ⟨sexp.span, .expectedInt⟩

def expectList : Sexp → Except ReadError (List Sexp)
  | .list items _ => .ok items
  | .atom _ span => .error ⟨span, .expectedList⟩

end Sexp

end Codemod
