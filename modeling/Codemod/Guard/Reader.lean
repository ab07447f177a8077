import Codemod.Guard.Basic
import Codemod.Sexp.Reader

/-!
# Reading guards
-/

namespace Codemod.Guard

/-- Reads a capture name, which is written with a question mark before it. -/
def captureName (sexp : Sexp) : Except ReadError String := do
  let token ← sexp.expectIdent
  match token.toList with
  | '?' :: c :: rest => .ok (String.ofList (c :: rest))
  | _ => .error ⟨sexp.span, .badHole token⟩

def versionOfSexp (sexp : Sexp) : Except ReadError Guard := do
  let value ← sexp.expectInt
  if 0 ≤ value ∧ value < Text.wordCount then .ok (.minVersion value.toNat)
  else .error ⟨sexp.span, .expectedInt⟩

/-- The guard of a head and its arguments. Custom guards are those registered by name. -/
def ofForm (customGuards : Assoc String CustomGuard) (span : Span) :
    String → List Sexp → Except ReadError Guard
  | "min-version", [version] => versionOfSexp version
  | "capability", [name] => .capability <$> name.expectIdent
  | "receiver-type", [type] => .receiverType <$> type.expectIdent
  | "capture-type", capture :: type :: types => do
    let capture ← captureName capture
    let types ← (type :: types).mapM Sexp.expectIdent
    .ok (.captureType capture types)
  | "unreferenced", name :: other :: others => do
    let name ← captureName name
    let within ← (other :: others).mapM captureName
    .ok (.unreferenced name within)
  | "custom", [name] => do
    let name ← name.expectIdent
    match customGuards.find? name with
    | some guard => .ok (.custom guard)
    | none => .error ⟨span, .unknownCustomGuard name⟩
  | head, _ => .error ⟨span, .unknownGuard head⟩

def ofSexp (customGuards : Assoc String CustomGuard) (sexp : Sexp) : Except ReadError Guard := do
  match ← sexp.expectList with
  | [] => .error ⟨sexp.span, .expectedIdent⟩
  | head :: arguments => do
    let head ← head.expectIdent
    ofForm customGuards sexp.span head arguments

end Codemod.Guard
