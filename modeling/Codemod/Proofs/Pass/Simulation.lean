import Codemod.Proofs.Pass.Survey

/-!
# Passes that simulate each other

Two passes simulate each other over trees that are alike when they decide like trees and like blocks
alike and tell the same about them. Then they do so for whole trees. What is alike and what counts
as telling the same is left open: it only has to be put together from what is alike piece by piece.
-/

namespace Codemod

/-- When two traces tell the same. -/
structure TraceRelation where
  same : Trace → Trace → Prop
  nil : same [] []
  append {first second image more : Trace} :
    same first image → same second more → same (first ++ second) (image ++ more)

namespace TraceRelation

theorem flatMap (relation : TraceRelation) {items : List α} {told image : α → Trace}
    (each : ∀ item ∈ items, relation.same (told item) (image item)) :
    relation.same (items.flatMap told) (items.flatMap image) := by
  induction items with
  | nil => exact relation.nil
  | cons item rest ih =>
    have first := each item List.mem_cons_self
    exact relation.append first
      (ih fun other member => each other (List.mem_cons_of_mem item member))

theorem surround (relation : TraceRelation) {before first image after : Trace}
    (ahead : relation.same [] before) (here : relation.same first image)
    (behind : relation.same [] after) : relation.same first (before ++ (image ++ after)) := by
  have told := relation.append ahead (relation.append here behind)
  rwa [List.nil_append, List.append_nil] at told

theorem flatMap_nil (relation : TraceRelation) {items : List α} {told : α → Trace}
    (each : ∀ item ∈ items, relation.same [] (told item)) :
    relation.same [] (items.flatMap told) := by
  have both := relation.flatMap each
  rwa [List.flatMap_eq_nil_iff.mpr fun _ _ => rfl] at both

end TraceRelation

namespace Traced

/-- Two computations with related values that tell the same. -/
def Related {α β : Type} (relation : TraceRelation) (values : α → β → Prop) (first : Traced α)
    (image : Traced β) : Prop :=
  values first.value image.value ∧ relation.same first.trace image.trace

namespace Related

variable {α β γ δ : Type} {relation : TraceRelation} {values : α → β → Prop}
  {results : γ → δ → Prop}

theorem pure {value : α} {other : β} (related : values value other) :
    Related relation values (Pure.pure value) (Pure.pure other) :=
  ⟨related, relation.nil⟩

theorem mono {wider : α → β → Prop} {first : Traced α} {image : Traced β}
    (related : Related relation values first image)
    (widens : ∀ value other, values value other → wider value other) :
    Related relation wider first image :=
  ⟨widens _ _ related.1, related.2⟩

theorem bind {first : Traced α} {image : Traced β} {next : α → Traced γ} {look : β → Traced δ}
    (here : Related relation values first image)
    (after : values first.value image.value →
      Related relation results (next first.value) (look image.value)) :
    Related relation results (first >>= next) (image >>= look) :=
  ⟨(after here.1).1, relation.append here.2 (after here.1).2⟩

theorem bind_of {first : Traced α} {image : Traced β} {next : α → Traced γ} {look : β → Traced δ}
    (here : Related relation values first image)
    (after : ∀ value other, values value other →
      Related relation results (next value) (look other)) :
    Related relation results (first >>= next) (image >>= look) :=
  here.bind (after _ _)

theorem bind_unit {first image : Traced Unit} {next : Traced γ} {look : Traced δ}
    (here : Related relation Eq first image) (after : Related relation results next look) :
    Related relation results (first >>= fun _ => next) (image >>= fun _ => look) :=
  here.bind fun _ => after

theorem bind_eq {first image : Traced α} {next look : α → Traced γ}
    (here : Related relation Eq first image)
    (after : ∀ value, Related relation Eq (next value) (look value)) :
    Related relation Eq (first >>= next) (image >>= look) := by
  apply here.bind_of
  rintro value _ rfl
  exact after value

theorem all {steps : List (Traced α)} {images : List (Traced β)}
    (each : List.Forall₂ (Related relation values) steps images) :
    Related relation (List.Forall₂ values) (Traced.all steps) (Traced.all images) := by
  induction each with
  | nil => exact pure .nil
  | cons first _ ih =>
    apply first.bind_of
    intro value other here
    apply ih.bind_of
    intro values others after
    exact pure (.cons here after)

end Related

end Traced

namespace Pass

/-- Settles the claims that rules of one sort make on a tree. -/
def decideTree (pass : Pass) (composite : Bool) (path : List Nat) (scope : Option Nat)
    (tree : Tree) : Traced (Option Tree) := do
  let claims ← pass.treeClaims composite scope 0 ⟨path, none, tree.span⟩ tree
  pass.settleTree path tree claims

theorem tryComposite_eq (pass : Pass) (path : List Nat) (scope : Option Nat) (tree : Tree)
    (traversed : Traced Tree) : pass.tryComposite path scope tree traversed =
      (pass.decideTree true path scope tree >>= fun settled =>
        match settled with
        | some replaced => pure replaced
        | none => traversed) := by
  rw [decideTree, bind_assoc]
  rfl

theorem trySimple_eq (pass : Pass) (path : List Nat) (scope : Option Nat) (tree : Tree) :
    pass.trySimple path scope tree =
      (pass.decideTree false path scope tree >>= fun settled => pure (settled.getD tree)) := by
  rw [decideTree, bind_assoc]
  rfl

/-- What is alike between two passes: trees, the paths that lead to them, the versions that hold
there, and what is told about them. -/
structure Likeness where
  told : TraceRelation
  trees : Tree → Tree → Prop
  paths : List Nat → List Nat → Prop
  scopes : Option Nat → Option Nat → Prop

/-- The awards cover statements at the same positions, and like trees come of them. -/
structure SettlesLike (like : Likeness) (pass image : Pass) (path twinPath : List Nat)
    (statements twins : List Tree) (award twin : Award Match) : Prop where
  extent_eq : twin.extent = award.extent
  settled : Traced.Related like.told (Option.Rel (List.Forall₂ like.trees))
    (pass.settleAward path statements award) (image.settleAward twinPath twins twin)

/-- The passes decide like trees and like blocks alike. -/
structure Simulates (like : Likeness) (pass image : Pass) : Prop where
  isBlock : ∀ {tree twin}, like.trees tree twin →
    image.language.isBlock twin.kind = pass.language.isBlock tree.kind
  children : ∀ {tree twin}, like.trees tree twin →
    List.Forall₂ like.trees tree.children twin.children
  rebuilt : ∀ {tree twin children twins}, like.trees tree twin →
    List.Forall₂ like.trees children twins →
    like.trees (tree.withChildren children) (twin.withChildren twins)
  path : ∀ {path twinPath}, like.paths path twinPath →
    ∀ index, like.paths (path ++ [index]) (twinPath ++ [index])
  scope : ∀ {scope twinScope tree twin}, like.scopes scope twinScope → like.trees tree twin →
    like.scopes (pass.innerScope scope tree) (image.innerScope twinScope twin)
  tree : ∀ {path twinPath scope twinScope tree twin} (composite : Bool),
    like.paths path twinPath → like.scopes scope twinScope → like.trees tree twin →
    Traced.Related like.told (Option.Rel like.trees) (pass.decideTree composite path scope tree)
      (image.decideTree composite twinPath twinScope twin)
  block : ∀ {path twinPath scope twinScope statements twins},
    like.paths path twinPath → like.scopes scope twinScope →
    List.Forall₂ like.trees statements twins →
    Traced.Related like.told
      (fun claims others =>
        List.Forall₂ (SettlesLike like pass image path twinPath statements twins)
          (Contest.resolve claims) (Contest.resolve others))
      (pass.blockClaims path scope statements) (image.blockClaims twinPath twinScope twins)

variable {like : Likeness} {pass image : Pass} {path twinPath : List Nat}
  {scope twinScope : Option Nat} {tree twin : Tree}

private theorem Simulates.tryComposite (simulates : Simulates like pass image)
    (paths : like.paths path twinPath) (scopes : like.scopes scope twinScope)
    (trees : like.trees tree twin) {traversed other : Traced Tree}
    (below : Traced.Related like.told like.trees traversed other) :
    Traced.Related like.told like.trees (pass.tryComposite path scope tree traversed)
      (image.tryComposite twinPath twinScope twin other) := by
  rw [tryComposite_eq, tryComposite_eq]
  apply (simulates.tree true paths scopes trees).bind_of
  intro settled twinSettled rel
  cases rel with
  | none => exact below
  | some replaced => exact .pure replaced

private theorem Simulates.trySimple (simulates : Simulates like pass image)
    (paths : like.paths path twinPath) (scopes : like.scopes scope twinScope)
    (trees : like.trees tree twin) : Traced.Related like.told like.trees
      (pass.trySimple path scope tree) (image.trySimple twinPath twinScope twin) := by
  rw [trySimple_eq, trySimple_eq]
  apply (simulates.tree false paths scopes trees).bind_of
  intro settled twinSettled rel
  cases rel with
  | none => exact .pure trees
  | some replaced => exact .pure replaced

section Blocks

variable {statements twins : List Tree} {steps images : List (Traced Tree)}

private theorem SettlesLike.settleOrTraverse {award twin : Award Match}
    (settles : SettlesLike like pass image path twinPath statements twins award twin)
    (each : List.Forall₂ (Traced.Related like.told like.trees) steps images) :
    Traced.Related like.told (List.Forall₂ like.trees)
      (pass.settleOrTraverse path statements steps award)
      (image.settleOrTraverse twinPath twins images twin) := by
  apply settles.settled.bind_of
  intro settled twinSettled rel
  cases rel with
  | none => exact .all (settles.extent_eq ▸ forall₂_slice each award.extent)
  | some replaced => exact .pure replaced

private theorem related_assemble {awards twinAwards : List (Award Match)}
    (settles : List.Forall₂ (SettlesLike like pass image path twinPath statements twins)
      awards twinAwards)
    (each : List.Forall₂ (Traced.Related like.told like.trees) steps images) (next : Nat) :
    Traced.Related like.told (List.Forall₂ like.trees)
      (pass.assemble path statements steps next awards)
      (image.assemble twinPath twins images next twinAwards) := by
  induction settles generalizing next with
  | nil =>
    rw [assemble, assemble]
    exact .all (List.forall₂_drop next each)
  | @cons award twin _ _ first _ ih =>
    rw [assemble_cons, assemble_cons, first.extent_eq]
    apply (Traced.Related.all (forall₂_slice each ⟨next, award.extent.start⟩)).bind_of
    intro before others ahead
    refine Traced.Related.bind_of ?_ fun _ _ (after : List.Forall₂ like.trees _ _) =>
      .pure (List.rel_append ahead after)
    apply (first.settleOrTraverse each).bind_of
    intro here others within
    apply (ih award.extent.stop).bind_of
    intro after others behind
    exact .pure (List.rel_append within behind)

end Blocks

private theorem Simulates.visitChildren (simulates : Simulates like pass image)
    (paths : like.paths path twinPath) (scopes : like.scopes scope twinScope)
    (trees : like.trees tree twin) {steps images : List (Traced Tree)}
    (each : List.Forall₂ (Traced.Related like.told like.trees) steps images) :
    Traced.Related like.told (List.Forall₂ like.trees)
      (pass.visitChildren path scope tree.kind tree.children steps)
      (image.visitChildren twinPath twinScope twin.kind twin.children images) := by
  have children := simulates.children trees
  rw [Pass.visitChildren, Pass.visitChildren, simulates.isBlock trees]
  split
  · apply (simulates.block paths scopes children).bind
    intro settles
    exact related_assemble settles each 0
  · apply Traced.Related.all
    obtain ⟨lengths, alike⟩ := List.forall₂_iff_get.mp children
    obtain ⟨length, related⟩ := List.forall₂_iff_get.mp each
    apply List.forall₂_iff_get.mpr
    refine ⟨by simp [length, lengths], ?_⟩
    intro index inside other
    simp only [List.get_eq_getElem, List.getElem_mapIdx, List.getElem_zip]
    simp only [List.length_mapIdx, List.length_zip] at inside other
    exact simulates.tryComposite (simulates.path paths index) scopes
      (alike index (by omega) (by omega)) (related index (by omega) (by omega))

private theorem related_traverseAll (simulates : Simulates like pass image)
    (paths : like.paths path twinPath) {children twins : List Tree}
    (alike : List.Forall₂ like.trees children twins)
    (each : ∀ child ∈ children, ∀ twin path twinPath, like.paths path twinPath →
      like.trees child twin → Traced.Related like.told like.trees (pass.traverse path scope child)
        (image.traverse twinPath twinScope twin)) (index : Nat) :
    List.Forall₂ (Traced.Related like.told like.trees)
      (pass.traverseAll path scope index children)
      (image.traverseAll twinPath twinScope index twins) := by
  induction alike generalizing index with
  | nil => exact .nil
  | cons first _ ih =>
    refine .cons (each _ List.mem_cons_self _ _ _ (simulates.path paths index) first) ?_
    exact ih (fun child member => each child (List.mem_cons_of_mem _ member)) (index + 1)

private theorem Simulates.traverse (simulates : Simulates like pass image)
    (paths : like.paths path twinPath) (scopes : like.scopes scope twinScope)
    (trees : like.trees tree twin) : Traced.Related like.told like.trees
      (pass.traverse path scope tree) (image.traverse twinPath twinScope twin) := by
  induction tree using Tree.induct generalizing path twinPath scope twinScope twin with
  | step kind text type span children ih =>
    rw [traverse_eq, traverse_eq]
    have inner := simulates.scope scopes trees
    have each := related_traverseAll simulates paths (simulates.children trees)
      (fun child member _ _ _ below alike => ih child member below inner alike) 0
    apply (simulates.visitChildren paths inner trees each).bind_of
    intro visited others alike
    exact simulates.trySimple paths scopes (simulates.rebuilt trees alike)

/-- Passes that simulate each other visit like trees alike. -/
theorem Simulates.visit (simulates : Simulates like pass image)
    (paths : like.paths path twinPath) (scopes : like.scopes scope twinScope)
    (trees : like.trees tree twin) : Traced.Related like.told like.trees
      (pass.tryComposite path scope tree (pass.traverse path scope tree))
      (image.tryComposite twinPath twinScope twin (image.traverse twinPath twinScope twin)) :=
  simulates.tryComposite paths scopes trees (simulates.traverse paths scopes trees)

end Pass

end Codemod
