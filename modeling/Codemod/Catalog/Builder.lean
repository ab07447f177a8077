import Codemod.Catalog.Basic
import Codemod.Log
import Codemod.Rule.Reader

/-!
# Building catalogs

Rules are checked one by one against those before them. A rule that fails a check is not added.
-/

namespace Codemod

inductive LoadError where
  | unreadable (error : ReadError)
  | invalidPattern (rule : String) (span : Span) (cause : PatternError)
  | duplicateRule (rule : String) (span : Span)
  | duplicatePriority (rule existing : String) (priority : Int) (span : Span)
  | receiverTypeWithoutCall (rule type : String) (span : Span)
deriving DecidableEq, Repr

def LoadError.message : LoadError → String
  | .unreadable error => error.message
  | .invalidPattern rule span cause =>
    s!"{span.render}\nInvalid pattern in rule {rule}: {cause.message}"
  | .duplicateRule rule span => s!"{span.render}\nRule {rule} is declared twice"
  | .duplicatePriority rule existing priority span =>
    s!"{span.render}\nRule {rule} has the same pattern and priority ({priority})" ++
      s!" as rule {existing}"
  | .receiverTypeWithoutCall rule type span =>
    s!"{span.render}\nRule {rule} requires receiver type {type}, " ++
      "but its pattern does not start with a member call; use capture-type instead"

namespace RuleDraft

/-- Compiles the pattern. A node can only be replaced by a node. -/
def compile (draft : RuleDraft) (language : Language) : Except PatternError Pattern := do
  let pattern ← Pattern.compile language draft.pattern
  if !pattern.isWindow && draft.template.shape.isWindow then .error .windowTemplateForNode
  else .ok pattern

/-- The names that the replacement or the guard uses and the pattern never binds. -/
def unboundNames (draft : RuleDraft) (pattern : Pattern) : List LogRecord :=
  let inTemplate := (draft.template.unboundIn pattern).map fun name =>
    ⟨.warn, s!"Rule {draft.name} uses ?{name} in its replacement, " ++
      "but its pattern never binds it."⟩
  let captures := (draft.guard.map Guard.captures).getD []
  let inGuard := (captures.filter (!pattern.captures.contains ·)).map fun name =>
    ⟨.warn, s!"Rule {draft.name} guards on ?{name}, but its pattern never binds it."⟩
  inTemplate ++ inGuard

end RuleDraft

namespace Rule

/-- Rules that agree on this key can match at the same sites. -/
def overlapKey (rule : Rule) : Shape × Option String :=
  (rule.pattern.shape.canonical, rule.trigger.receiver)

end Rule

/-- The ids of the rules that agree on a key. -/
abbrev ShapeTable := Assoc (Shape × Option String) (List Nat)

namespace ShapeTable

def add (shapes : ShapeTable) (rule : Rule) : ShapeTable :=
  shapes.alter rule.overlapKey fun ids => ids.getD [] ++ [rule.id]

end ShapeTable

structure Builder where
  language : Language
  rules : List Rule := []
  names : NameTable := .empty
  shapes : ShapeTable := .empty
  customGuards : Assoc String CustomGuard := .empty

namespace Builder

/-- Makes a custom guard known to the rules read from now on. -/
def registerGuard (builder : Builder) (guard : CustomGuard) : Builder :=
  { builder with customGuards := builder.customGuards.insert guard.name guard }

/-- The checks that come before the warnings: the name is new and the pattern is sound. -/
def compile (builder : Builder) (draft : RuleDraft) : Except LoadError Pattern :=
  if builder.names.contains draft.name then .error (.duplicateRule draft.name draft.span)
  else (draft.compile builder.language).mapError (.invalidPattern draft.name draft.span)

/-- The trigger of a compiled rule, which must hold the receiver type its guard pins down. -/
def triggerOf (builder : Builder) (draft : RuleDraft) (pattern : Pattern) :
    Except LoadError Trigger :=
  match pattern.root?.bind (Trigger.ofRoot? builder.language draft.guard) with
  | none => .error (.invalidPattern draft.name draft.span .holeRoot)
  | some trigger =>
    match draft.guard.bind Guard.pinnedReceiver, trigger.receiver with
    | some type, none => .error (.receiverTypeWithoutCall draft.name type draft.span)
    | _, _ => .ok trigger

/-- The first rule that agrees with another one on its key and its priority. -/
def rival? (builder : Builder) (rule : Rule) : Option Rule :=
  ((builder.shapes.find? rule.overlapKey).getD []).findSome? fun id =>
    builder.rules[id]?.filter (·.priority = rule.priority)

/-- The rule a spec stands for when it is added next. -/
def ruleOf (builder : Builder) (draft : RuleDraft) : Except LoadError Rule := do
  let pattern ← builder.compile draft
  let trigger ← builder.triggerOf draft pattern
  let rule : Rule :=
    { id := builder.rules.length, name := draft.name, pattern, guard := draft.guard,
      template := draft.template, priority := draft.priority, trigger, span := draft.span }
  match builder.rival? rule with
  | some existing =>
    .error (.duplicatePriority draft.name existing.name draft.priority draft.span)
  | none => .ok rule

/-- Enters a rule that has passed the checks into the tables. -/
def enter (builder : Builder) (rule : Rule) : Builder :=
  { builder with
    rules := builder.rules ++ [rule]
    names := builder.names.add rule
    shapes := builder.shapes.add rule }

/-- Checks a spec, then enters its rule. What is changed before an error stays changed. -/
def declareRule (draft : RuleDraft) : ExceptT LoadError (StateM Builder) Nat := do
  let rule ← (← get).ruleOf draft
  modify (·.enter rule)
  return rule.id

/-- The builder with the rule of a spec, and the id of that rule. -/
def addRule (builder : Builder) (draft : RuleDraft) : Except LoadError (Builder × Nat) :=
  match (declareRule draft).run.run builder with
  | (.ok id, extended) => .ok (extended, id)
  | (.error error, _) => .error error

/-- What is logged when a spec is added. -/
def remarks (builder : Builder) (draft : RuleDraft) : List LogRecord :=
  match builder.compile draft with
  | .error _ => []
  | .ok pattern =>
    draft.unboundNames pattern ++
      match builder.ruleOf draft with
      | .error _ => []
      | .ok rule => [⟨.debug, s!"Declared rule {rule.name} on {rule.trigger.render}."⟩]

/-- The state after reading rules, with the ids of those added or the error that ended the
reading. -/
structure Loading where
  builder : Builder
  log : List LogRecord
  added : Except LoadError (List Nat)

/-- Adds rules up to the first that fails. -/
def addRules (builder : Builder) : List Sexp → Loading
  | [] => ⟨builder, [], .ok []⟩
  | sexp :: rest =>
    match RuleDraft.ofSexp builder.customGuards sexp with
    | .error error => ⟨builder, [], .error (.unreadable error)⟩
    | .ok draft =>
      let remarks := builder.remarks draft
      match (declareRule draft).run.run builder with
      | (.error error, left) => ⟨left, remarks, .error error⟩
      | (.ok id, extended) =>
        let loading := extended.addRules rest
        { loading with log := remarks ++ loading.log, added := loading.added.map (id :: ·) }

/-- Reads the rules of a text. -/
def readRules (builder : Builder) (source : Source) : Loading :=
  match Sexp.readAll source with
  | .error error => ⟨builder, [], .error (.unreadable error)⟩
  | .ok sexps => builder.addRules sexps

def build (builder : Builder) : Catalog :=
  ⟨builder.language, builder.rules, builder.names, .ofRules builder.rules⟩

end Builder

namespace Catalog

/-- What is logged when a catalog is built. -/
def summary (catalog : Catalog) : LogRecord :=
  ⟨.info, s!"Built catalog with {catalog.rules.length} rules " ++
    s!"over {catalog.index.size} trigger members."⟩

end Catalog

end Codemod
