import Codemod.Proofs.Catalog.Loaded
import Codemod.Proofs.Pass.Claims
import Codemod.Proofs.Tree.Place

/-!
# Rewriting one site

A match rewrites a tree by replacing what it covers, and nothing else of the tree changes. The
applications a pass reports are to be such steps, one after the other, each under a version that
holds around its place in the tree the pass started from.
-/

namespace Codemod

/-- A match at an anchor takes one tree to another by replacing what it covers. The path leads to
the site: to the anchor, or to the block of a window. -/
inductive Rewrites (language : Language) (found : Match) (anchor : Tree) :
    List Nat → Tree → Tree → Prop where
  /-- A single-node rule replaces the anchor. -/
  | node {new : Tree} (single : found.rule.pattern.isWindow = false)
      (matched : found.rule.pattern.matchNode language anchor = some found.bindings)
      (filled : found.rule.template.instantiateNode found.bindings anchor.span = .ok new)
      (differs : new.same anchor = false) : Rewrites language found anchor [] anchor new
  /-- A window replaces the statements of a block from the anchor to a last one. -/
  | window {block last : Tree} {extent : Extent} {new : List Tree}
      (isBlock : language.isBlock block.kind = true)
      (matched : found.rule.pattern.matchWindow language block.children extent.start =
        some (found.bindings, extent))
      (starts : block.children[extent.start]? = some anchor)
      (ends : block.children[extent.stop - 1]? = some last)
      (filled : found.rule.template.instantiate found.bindings (anchor.span.merge last.span) =
        .ok new)
      (differs : Tree.sameAll new (extent.slice block.children) = false) :
      Rewrites language found anchor [] block (block.withChildren
        (block.children.take extent.start ++ new ++ block.children.drop extent.stop))
  /-- The site lies in a child, and the rest of the tree stays. -/
  | child {tree old new : Tree} {before after : List Tree} {path : List Nat}
      (stands : tree.children = before ++ old :: after)
      (inner : Rewrites language found anchor path old new) :
      Rewrites language found anchor (before.length :: path) tree
        (tree.withChildren (before ++ new :: after))

/-- The second tree is the first one after changes ahead of a place and below it. The paths lead to
that place in each: the trees on the way and whatever stands after them are the same. -/
inductive Follows : Tree → List Nat → Tree → List Nat → Prop where
  | here (tree : Tree) (children : List Tree) : Follows tree [] (tree.withChildren children) []
  | under {tree old new : Tree} {before changed after : List Tree} {path place : List Nat}
      (stands : tree.children = before ++ old :: after) (inner : Follows old path new place) :
      Follows tree (before.length :: path) (tree.withChildren (changed ++ new :: after))
        (changed.length :: place)

/-- Labelled steps that lead from one state to another. -/
inductive Chain {ε σ : Type} (step : ε → σ → σ → Prop) : List ε → σ → σ → Prop where
  | nil (state : σ) : Chain step [] state state
  | cons {label : ε} {labels : List ε} {before middle after : σ} (first : step label before middle)
      (rest : Chain step labels middle after) : Chain step (label :: labels) before after

namespace Chain

variable {ε σ : Type} {step : ε → σ → σ → Prop} {labels : List ε} {before after : σ}

theorem single {label : ε} (first : step label before after) : Chain step [label] before after :=
  .cons first (.nil after)

theorem append {middle : σ} {more : List ε} (first : Chain step labels before middle)
    (second : Chain step more middle after) : Chain step (labels ++ more) before after := by
  induction first with
  | nil state => exact second
  | cons here _ ih => exact .cons here (ih second)

theorem imp {other : ε → σ → σ → Prop} (weaker : ∀ label a b, step label a b → other label a b)
    (chain : Chain step labels before after) : Chain other labels before after := by
  induction chain with
  | nil state => exact .nil state
  | cons here _ ih => exact .cons (weaker _ _ _ here) ih

theorem lift {τ : Type} {other : ε → τ → τ → Prop} (f : σ → τ)
    (lifts : ∀ label a b, step label a b → other label (f a) (f b))
    (chain : Chain step labels before after) : Chain other labels (f before) (f after) := by
  induction chain with
  | nil state => exact .nil (f state)
  | cons here _ ih => exact .cons (lifts _ _ _ here) ih

theorem eq_of_nil (chain : Chain step [] before after) : after = before := by
  cases chain
  rfl

/-- The states a chain goes through. -/
theorem exists_stages (chain : Chain step labels before after) :
    ∃ stage : Nat → σ, stage 0 = before ∧ stage labels.length = after ∧
      ∀ (index : Nat) (label : ε), labels[index]? = some label →
        step label (stage index) (stage (index + 1)) := by
  induction chain with
  | nil state => exact ⟨fun _ => state, rfl, rfl, fun index label here => by simp at here⟩
  | @cons label labels before middle after here _ ih =>
    obtain ⟨stage, starts, ends, steps⟩ := ih
    refine ⟨fun index => index.casesOn before stage, rfl, ends, ?_⟩
    intro index other at_index
    cases index with
    | zero =>
      cases at_index
      show step label before (stage 0)
      rw [starts]
      exact here
    | succ index => exact steps index other at_index

end Chain

@[simp] theorem Tree.withChildren_children (tree : Tree) :
    tree.withChildren tree.children = tree := by
  cases tree
  rfl

namespace Pass

/-- The rules that a pass tries are coherent rules of its catalog. -/
structure Sound (pass : Pass) : Prop where
  coherent : CoherentRules pass.language pass.catalog.rules
  lookup_mem : ∀ tree, ∀ rule ∈ pass.lookup tree, rule ∈ pass.catalog.rules

/-- The version that is known at a place of the tree a pass starts from. -/
def versionAt (pass : Pass) (root : Tree) (location : Location) : Option Nat :=
  pass.language.versionAround pass.platform.minVersion (location.around root)

/-- The scope of a traversal: the version that is known at the end of a path. -/
def scopeAt (pass : Pass) (root : Tree) (path : List Nat) : Option Nat :=
  pass.language.versionAround pass.platform.minVersion (root.ancestors path)

/-- A reported application stands for a rewriting step of its rule, which was admitted under the
version that is known at its place. -/
structure Applies (pass : Pass) (root : Tree) (entry : Applied) (found : Match) (anchor : Tree)
    (place : List Nat) (before after : Tree) : Prop where
  isRule : pass.catalog.rules[entry.rule]? = some found.rule
  located : entry.location.statements.isSome = found.rule.pattern.isWindow
  rewrites : Rewrites pass.language found anchor place before after
  admits : pass.Admits found.rule found.bindings anchor (pass.versionAt root entry.location)

/-- An application below a site of the root is such a step of the tree that has taken the place of
the site. -/
def Performs (pass : Pass) (root : Tree) (site : List Nat) (entry : Applied) (before after : Tree) :
    Prop :=
  ∃ found anchor place origin path, pass.Applies root entry found anchor place before after ∧
    root.at? site = some origin ∧ entry.location.path = site ++ path ∧
      Follows origin path before place

variable {pass : Pass} {root : Tree}

theorem Sound.getElem?_id (sound : pass.Sound) {tree : Tree} {rule : Rule}
    (tried : rule ∈ pass.lookup tree) : pass.catalog.rules[rule.id]? = some rule :=
  (sound.coherent.getElem?_id (sound.lookup_mem tree rule tried)).1

theorem Sound.compiled (sound : pass.Sound) {tree : Tree} {rule : Rule}
    (tried : rule ∈ pass.lookup tree) : rule.pattern.Compiled pass.language :=
  (sound.coherent.getElem?_id (sound.lookup_mem tree rule tried)).2

private theorem scopeAt_nil (pass : Pass) (root : Tree) :
    pass.scopeAt root [] = pass.platform.minVersion :=
  Language.versionAround_nil _ _

theorem scopeAt_concat {path : List Nat} {tree : Tree} (reached : root.at? path = some tree)
    (index : Nat) :
    pass.scopeAt root (path ++ [index]) = pass.innerScope (pass.scopeAt root path) tree := by
  rw [scopeAt, scopeAt, Tree.ancestors_concat reached, Language.versionAround_concat]
  rfl

theorem run_eq (pass : Pass) (root : Tree) :
    pass.run root = pass.tryComposite [] (pass.scopeAt root []) root
      (pass.traverse [] (pass.scopeAt root []) root) := by
  rw [scopeAt_nil]
  rfl

/-- The traversals of the places of a root have what each visit of a tree passes on from the
traversals of its children. -/
theorem traverse_induct {motive : List Nat → Tree → Traced Tree → Prop}
    (visit : ∀ path tree, root.at? path = some tree →
      (∀ index step, (pass.traverseAll path (pass.innerScope (pass.scopeAt root path) tree) 0
          tree.children)[index]? = some step →
        ∃ child, tree.children[index]? = some child ∧ motive (path ++ [index]) child step) →
      motive path tree (pass.visitChildren path (pass.innerScope (pass.scopeAt root path) tree)
        tree.kind tree.children (pass.traverseAll path
          (pass.innerScope (pass.scopeAt root path) tree) 0 tree.children) >>= fun visited =>
            pass.trySimple path (pass.scopeAt root path) (tree.withChildren visited)))
    {path : List Nat} {tree : Tree} (reached : root.at? path = some tree) :
    motive path tree (pass.traverse path (pass.scopeAt root path) tree) := by
  induction tree using Tree.induct generalizing path with
  | step kind text type span children ih =>
    rw [traverse_eq]
    apply visit path _ reached
    intro index step visited
    rw [getElem?_traverseAll, Option.map_eq_some_iff] at visited
    obtain ⟨child, here, rfl⟩ := visited
    refine ⟨child, here, ?_⟩
    -- the scope that is handed down is the one that is known at the place of the child
    rw [Nat.zero_add, ← scopeAt_concat reached index]
    exact ih child (List.mem_of_getElem? here) ((Tree.at?_concat reached index).trans here)

/-- Where children stand in no block, each of them is visited on its own. -/
theorem exists_of_operand {path : List Nat} {scope : Option Nat} {children : List Tree}
    {steps : List (Traced Tree)} {index : Nat} {visit : Traced Tree}
    (here : ((children.zip steps).mapIdx fun index (child, inner) =>
      pass.tryComposite (path ++ [index]) scope child inner)[index]? = some visit) :
    ∃ child inner, children[index]? = some child ∧ steps[index]? = some inner ∧
      visit = pass.tryComposite (path ++ [index]) scope child inner := by
  rw [List.getElem?_mapIdx, Option.map_eq_some_iff] at here
  obtain ⟨⟨child, inner⟩, both, rfl⟩ := here
  obtain ⟨is_child, is_step⟩ := List.getElem?_zip_eq_some.mp both
  exact ⟨child, inner, is_child, is_step, rfl⟩

/-- A step in a child is a step of the tree, however the children before it have changed. -/
theorem Performs.child {entry : Applied} {tree old new : Tree} {site : List Nat} {index : Nat}
    (performs : pass.Performs root (site ++ [index]) entry old new)
    (reached : root.at? site = some tree) (done : List Tree) :
    pass.Performs root site entry
      (tree.withChildren (done ++ old :: tree.children.drop (index + 1)))
      (tree.withChildren (done ++ new :: tree.children.drop (index + 1))) := by
  obtain ⟨found, anchor, place, origin, path, ⟨isRule, located, rewrites, admits⟩, below, within,
    follows⟩ := performs
  rw [Tree.at?_concat reached] at below
  obtain ⟨inside, here⟩ := List.getElem?_eq_some_iff.mp below
  have split : tree.children =
      tree.children.take index ++ origin :: tree.children.drop (index + 1) := by
    rw [← here, ← List.drop_eq_getElem_cons inside, List.take_append_drop]
  have inner : Rewrites pass.language found anchor (done.length :: place)
      (tree.withChildren (done ++ old :: tree.children.drop (index + 1)))
      ((tree.withChildren (done ++ old :: tree.children.drop (index + 1))).withChildren
        (done ++ new :: tree.children.drop (index + 1))) := .child rfl rewrites
  have outer : Follows tree ((tree.children.take index).length :: path)
      (tree.withChildren (done ++ old :: tree.children.drop (index + 1))) (done.length :: place) :=
    .under split follows
  rw [List.length_take_of_le (Nat.le_of_lt inside)] at outer
  refine ⟨found, anchor, done.length :: place, tree, index :: path,
    ⟨isRule, located, inner, admits⟩, reached, ?_, outer⟩
  rw [within, List.append_assoc]
  rfl

end Pass

end Codemod
