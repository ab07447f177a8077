import Codemod.Rule.Basic

/-!
# Catalogs

The rules of a catalog are indexed by the member of their triggers and then by receiver type.
-/

namespace Codemod

/-- Rule ids by the receiver type of their triggers. -/
abbrev Bucket := Assoc (Option String) (List Nat)

abbrev TriggerIndex := Assoc String Bucket

namespace TriggerIndex

def add (index : TriggerIndex) (rule : Rule) : TriggerIndex :=
  index.alter rule.trigger.member fun bucket =>
    (bucket.getD .empty).alter rule.trigger.receiver fun ids => ids.getD [] ++ [rule.id]

def ofRules (rules : List Rule) : TriggerIndex :=
  rules.foldl add .empty

/-- The rules of a member for a receiver type. When the type is not known every rule counts, so that
its guard can report the missing type. -/
def lookup (index : TriggerIndex) (receiver : Option String) (member : String) : List Nat :=
  match index.find? member, receiver with
  | none, _ => []
  | some bucket, none => bucket.entries.flatMap Prod.snd
  | some bucket, some type => [none, some type].flatMap fun key => (bucket.find? key).getD []

end TriggerIndex

/-- The id of each rule by its name. -/
abbrev NameTable := Assoc String Nat

namespace NameTable

def add (names : NameTable) (rule : Rule) : NameTable :=
  names.insert rule.name rule.id

end NameTable

structure Catalog where
  language : Language
  rules : List Rule
  names : NameTable
  index : TriggerIndex

namespace Catalog

def ruleNamed? (catalog : Catalog) (name : String) : Option Rule :=
  (catalog.names.find? name).bind (catalog.rules[·]?)

/-- The words a tree is looked up by: the member it calls and its kind. -/
def lookupWords (language : Language) (tree : Tree) : List String :=
  match language.member tree with
  | some member => if member = tree.kind then [member] else [member, tree.kind]
  | none => [tree.kind]

/-- The ids of the rules whose pattern root could match a tree, in catalog order. -/
def candidateIds (catalog : Catalog) (tree : Tree) : List Nat :=
  let receiver := catalog.language.receiverType tree
  ascending ((lookupWords catalog.language tree).flatMap (catalog.index.lookup receiver))

def candidates (catalog : Catalog) (tree : Tree) : List Rule :=
  (catalog.candidateIds tree).filterMap (catalog.rules[·]?)

end Catalog

end Codemod
