import Codemod.Guard.Reader
import Codemod.Rule.Basic
import Codemod.Shape.Reader

/-!
# Reading rules

A rule is written `(rule NAME PATTERN TEMPLATE options...)`, where an option is a keyword with its
value: `:priority N`, `:requires GUARD` or `:import "name"`.
-/

namespace Codemod.RuleDraft

/-- One more than the greatest priority; priorities are signed numbers of 32 bits. -/
def priorityBound : Int := 2147483648

/-- Reads a priority. -/
def priorityOfSexp (sexp : Sexp) : Except ReadError Int := do
  let value ← sexp.expectInt
  if -priorityBound ≤ value ∧ value < priorityBound then .ok value
  else .error ⟨sexp.span, .expectedInt⟩

def withOption (customGuards : Assoc String CustomGuard) (draft : RuleDraft) (keySpan : Span) :
    String → Sexp → Except ReadError RuleDraft
  | ":priority", value => do
    let priority ← priorityOfSexp value
    .ok { draft with priority }
  | ":requires", value => draft.withGuard <$> Guard.ofSexp customGuards value
  | ":import", value => draft.withImport <$> value.expectString
  | keyword, _ => .error ⟨keySpan, .unknownOption keyword⟩

def withOptions (customGuards : Assoc String CustomGuard) (draft : RuleDraft) :
    List Sexp → Except ReadError RuleDraft
  | [] => .ok draft
  | [key] => do
    let _ ← key.expectIdent
    .error ⟨key.span, .malformedRule⟩
  | key :: value :: rest => do
    let keyword ← key.expectIdent
    let extended ← draft.withOption customGuards key.span keyword value
    extended.withOptions customGuards rest

def ofSexp (customGuards : Assoc String CustomGuard) (sexp : Sexp) :
    Except ReadError RuleDraft := do
  match ← sexp.expectList with
  | head :: name :: pattern :: template :: options =>
    if head.ident? = some "rule" then do
      let name ← name.expectIdent
      let pattern ← Shape.ofSexp pattern
      let template ← Shape.ofSexp template
      let draft : RuleDraft := { name, pattern, template := .ofShape template, span := sexp.span }
      draft.withOptions customGuards options
    else .error ⟨sexp.span, .malformedRule⟩
  | _ => .error ⟨sexp.span, .malformedRule⟩

end Codemod.RuleDraft
