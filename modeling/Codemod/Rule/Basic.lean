import Codemod.Diagnostic
import Codemod.Guard.Basic
import Codemod.Shape.Printer

/-!
# Rules
-/

namespace Codemod

/-- What rules are looked up by: the member name of a call, with the receiver type when the rule pins
one down, and the kind of any other tree. -/
structure Trigger where
  receiver : Option String
  member : String
deriving DecidableEq, Repr

namespace Trigger

def render (trigger : Trigger) : String :=
  let receiver := trigger.receiver.getD "*"
  s!"{receiver}.{trigger.member}"

/-- The member name a call pattern spells out. -/
def calledMember? (language : Language) (kind : String) (children : List Term) : Option String := do
  let shape ← language.callLayout kind
  match children[shape.member]? with
  | some (.leaf _ text) => some text
  | _ => none

/-- The trigger of a pattern root; a hole has none. -/
def ofRoot? (language : Language) (guard : Option Guard) : Term → Option Trigger
  | .hole _ => none
  | .leaf kind _ => some ⟨none, kind⟩
  | .branch kind children =>
    match calledMember? language kind children with
    | some member => some ⟨guard.bind Guard.pinnedReceiver, member⟩
    | none => some ⟨none, kind⟩

end Trigger

/-- A rule as it is written. -/
structure RuleDraft where
  name : String
  pattern : Shape
  template : Template
  guard : Option Guard := none
  priority : Int := 0
  span : Span := .generated

namespace RuleDraft

/-- Adds a requirement; all of them must hold. -/
def withGuard (draft : RuleDraft) (guard : Guard) : RuleDraft :=
  { draft with guard := some (Guard.conjoin draft.guard guard) }

def withImport (draft : RuleDraft) (name : String) : RuleDraft :=
  { draft with template := draft.template.withImport name }

end RuleDraft

/-- A compiled rule. Its id is its place in the catalog. -/
structure Rule where
  id : Nat
  name : String
  pattern : Pattern
  guard : Option Guard
  template : Template
  priority : Int
  trigger : Trigger
  span : Span

namespace Rule

def guards (rule : Rule) : List Guard :=
  match rule.guard with
  | some guard => guard.conjuncts
  | none => []

/-- The rule in the form it is read from. -/
def render (rule : Rule) : String :=
  let requirements := String.join (rule.guards.map fun guard => s!" :requires {guard.render}")
  let imports := rule.template.imports.map fun name =>
    let literal := Text.quote name
    s!" :import {literal}"
  let allImports := String.join imports
  s!"(rule {rule.name} {rule.pattern.shape.render} {rule.template.shape.render} " ++
    s!":priority {rule.priority}{requirements}{allImports})"

end Rule

end Codemod
