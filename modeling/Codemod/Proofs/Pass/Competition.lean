import Codemod.Proofs.Pass.Quiet

/-!
# Competitions

Matches compete with each other where they could get in each other's way: rules that are not
composite at one tree, composite rules at one tree that is no statement of a block, and composite
rules and windows over the statements of one block. The claims of a pass are just these matches.
-/

namespace Codemod

namespace Pass

inductive Competition where
  | simple (path : List Nat)
  | composite (path : List Nat)
  | block (path : List Nat)

/-- A rule of the catalog matches a tree, and its guard accepts under the version that is known at a
location. -/
structure MatchesAt (pass : Pass) (root : Tree) (found : Match) (tree : Tree)
    (location : Location) : Prop where
  isRule : found.rule ∈ pass.catalog.rules
  matched : found.rule.pattern.matchNode pass.language tree = some found.bindings
  admits : pass.Admits found.rule found.bindings tree (pass.versionAt root location)

/-- The same for a window over the statements of a block. -/
structure MatchesOver (pass : Pass) (root : Tree) (found : Match) (block : Tree) (extent : Extent)
    (location : Location) : Prop where
  isRule : found.rule ∈ pass.catalog.rules
  matched : found.rule.pattern.matchWindow pass.language block.children extent.start =
    some (found.bindings, extent)
  admits : ∃ first, block.children[extent.start]? = some first ∧
    pass.Admits found.rule found.bindings first (pass.versionAt root location)

/-- What a match claims of a stretch. -/
def claimOf (found : Match) (extent : Extent) : Claim Match :=
  ⟨found.rule.id, found.rule.priority, extent, found⟩

/-- A match takes part in a competition over a tree, with what it would replace and where. -/
inductive Contends (pass : Pass) (root : Tree) :
    Competition → Claim Match → List Tree → Location → Prop where
  | simple {path : List Nat} {tree : Tree} {found : Match} (reached : root.at? path = some tree)
      (kind : found.rule.pattern.composite = false)
      (matches_at : pass.MatchesAt root found tree ⟨path, none, tree.span⟩) :
      Contends pass root (.simple path) (claimOf found (.single 0)) [tree] ⟨path, none, tree.span⟩
  | composite {path : List Nat} {tree : Tree} {found : Match} (reached : root.at? path = some tree)
      (alone : pass.Standalone root path) (kind : found.rule.pattern.composite = true)
      (matches_at : pass.MatchesAt root found tree ⟨path, none, tree.span⟩) :
      Contends pass root (.composite path) (claimOf found (.single 0)) [tree]
        ⟨path, none, tree.span⟩
  | statement {path : List Nat} {index : Nat} {block tree : Tree} {found : Match}
      (reached : root.at? path = some block) (isBlock : pass.language.isBlock block.kind = true)
      (here : block.children[index]? = some tree) (kind : found.rule.pattern.composite = true)
      (matches_at : pass.MatchesAt root found tree ⟨path ++ [index], none, tree.span⟩) :
      Contends pass root (.block path) (claimOf found (.single index)) [tree]
        ⟨path ++ [index], none, tree.span⟩
  | window {path : List Nat} {block : Tree} {found : Match} {extent : Extent}
      (reached : root.at? path = some block) (isBlock : pass.language.isBlock block.kind = true)
      (matches_over : pass.MatchesOver root found block extent
        ⟨path, some extent, extentSpan block.children extent⟩) :
      Contends pass root (.block path) (claimOf found extent) (extent.slice block.children)
        ⟨path, some extent, extentSpan block.children extent⟩

/-- The rules that a pass tries on a tree are all that could apply there. -/
def Offers (pass : Pass) : Prop :=
  ∀ rule ∈ pass.catalog.rules, ∀ (term : Term) (tree : Tree) (bound bindings : Bindings)
    (scope : Option Nat), rule.pattern.root? = some term →
      term.unify pass.language tree .empty = some bound →
        pass.Admits rule bindings tree scope → rule ∈ pass.lookup tree

private theorem isWindow_of_matchNode {language : Language} {pattern : Pattern} {tree : Tree}
    {bindings : Bindings} (matched : pattern.matchNode language tree = some bindings) :
    pattern.isWindow = false := by
  rw [Pattern.matchNode] at matched
  split at matched
  · rename_i term node
    simp [Pattern.isWindow, node, Shape.isWindow]
  · contradiction

private theorem isWindow_of_matchWindow {language : Language} {pattern : Pattern}
    {statements : List Tree} {start : Nat} {result : Bindings × Extent}
    (matched : pattern.matchWindow language statements start = some result) :
    pattern.isWindow = true := by
  rw [Pattern.matchWindow] at matched
  split at matched
  · contradiction
  · rename_i terms window
    simp [Pattern.isWindow, window, Shape.isWindow]

variable {pass : Pass} {root : Tree} {path : List Nat} {tree : Tree}

/-- The claims on a tree are those of the matches there. -/
theorem mem_treeClaims_iff (sound : pass.Sound) (offers : pass.Offers) {composite : Bool}
    {position : Nat} {place location : Location}
    (known : pass.versionAt root location = pass.scopeAt root path) {claim : Claim Match} :
    claim ∈ (pass.treeClaims composite (pass.scopeAt root path) position place tree).value ↔
      ∃ found, claim = claimOf found (.single position) ∧
        found.rule.pattern.composite = composite ∧ pass.MatchesAt root found tree location := by
  rw [mem_treeClaims]
  constructor
  · rintro ⟨rule, tried, _, kind, bindings, matched, admits, rfl⟩
    exact ⟨⟨rule, bindings⟩, rfl, kind, sound.lookup_mem tree rule tried, matched, known ▸ admits⟩
  · rintro ⟨⟨rule, bindings⟩, rfl, kind, isRule, matched, admits⟩
    obtain ⟨term, isRoot, unified⟩ := Pattern.matchNode_root matched
    have tried := offers rule isRule term tree bindings bindings _ isRoot unified admits
    exact ⟨rule, tried, isWindow_of_matchNode matched, kind, bindings, matched, known ▸ admits, rfl⟩

theorem mem_simpleClaims_iff (sound : pass.Sound) (offers : pass.Offers)
    (reached : root.at? path = some tree) {claim : Claim Match} :
    claim ∈ (pass.treeClaims false (pass.scopeAt root path) 0 ⟨path, none, tree.span⟩ tree).value ↔
      pass.Contends root (.simple path) claim [tree] ⟨path, none, tree.span⟩ := by
  have known : pass.versionAt root ⟨path, none, tree.span⟩ = pass.scopeAt root path := rfl
  rw [mem_treeClaims_iff sound offers known]
  constructor
  · rintro ⟨found, rfl, kind, matches_at⟩
    exact .simple reached kind matches_at
  · intro contends
    cases contends with
    | simple _ kind matches_at => exact ⟨_, rfl, kind, matches_at⟩

theorem mem_compositeClaims_iff (sound : pass.Sound) (offers : pass.Offers)
    (reached : root.at? path = some tree) (alone : pass.Standalone root path)
    {claim : Claim Match} :
    claim ∈ (pass.treeClaims true (pass.scopeAt root path) 0 ⟨path, none, tree.span⟩ tree).value ↔
      pass.Contends root (.composite path) claim [tree] ⟨path, none, tree.span⟩ := by
  have known : pass.versionAt root ⟨path, none, tree.span⟩ = pass.scopeAt root path := rfl
  rw [mem_treeClaims_iff sound offers known]
  constructor
  · rintro ⟨found, rfl, kind, matches_at⟩
    exact .composite reached alone kind matches_at
  · intro contends
    cases contends with
    | composite _ _ kind matches_at => exact ⟨_, rfl, kind, matches_at⟩

/-- What is claimed of a block is a match that competes over it. -/
theorem contends_of_mem_claimsAt (sound : pass.Sound) (offers : pass.Offers)
    (reached : root.at? path = some tree) (isBlock : pass.language.isBlock tree.kind = true)
    {claim : Claim Match} (claimed : claim ∈ pass.claimsAt root path tree) :
    pass.Contends root (.block path) claim (claim.extent.slice tree.children)
      (blockLocation path tree.children claim.extent claim.payload.rule.pattern.isWindow) := by
  obtain ⟨index, statement, here, single | window⟩ := mem_blockClaims.mp claimed
  · rw [← scopeAt_concat reached index] at single
    have known : pass.versionAt root ⟨path ++ [index], none, statement.span⟩ =
        pass.scopeAt root (path ++ [index]) := rfl
    obtain ⟨found, rfl, kind, matches_at⟩ := (mem_treeClaims_iff sound offers known).mp single
    have contends := Contends.statement reached isBlock here kind matches_at
    rw [← extentSpan_single here, ← slice_single here] at contends
    have isNode := isWindow_of_matchNode matches_at.matched
    simp only [claimOf, isNode]
    exact contends
  · obtain ⟨rule, tried, _, bindings, extent, matched, admits, rfl⟩ := mem_windowClaims.mp window
    obtain ⟨rfl, _⟩ := Pattern.matchWindow_root (sound.compiled tried) matched
    have matches_over : pass.MatchesOver root ⟨rule, bindings⟩ tree extent
        ⟨path, some extent, extentSpan tree.children extent⟩ :=
      { isRule := sound.lookup_mem statement rule tried
        matched
        admits := ⟨statement, here, versionAt_window reached extent _ ▸ admits⟩ }
    have contends := Contends.window reached isBlock matches_over
    simp only [isWindow_of_matchWindow matched]
    exact contends

theorem mem_claimsAt_of_contends (sound : pass.Sound) (offers : pass.Offers) {claim : Claim Match}
    {claimed : List Tree} {location : Location}
    (contends : pass.Contends root (.block path) claim claimed location) :
    ∃ block, root.at? path = some block ∧ pass.language.isBlock block.kind = true ∧
      claim ∈ pass.claimsAt root path block := by
  cases contends with
  | @statement _ index block statement found reached isBlock here kind matches_at =>
    refine ⟨block, reached, isBlock, mem_blockClaims.mpr ⟨index, statement, here, .inl ?_⟩⟩
    rw [← scopeAt_concat reached index]
    have known : pass.versionAt root ⟨path ++ [index], none, statement.span⟩ =
        pass.scopeAt root (path ++ [index]) := rfl
    exact (mem_treeClaims_iff sound offers known).mpr ⟨found, rfl, kind, matches_at⟩
  | @window _ block found extent reached isBlock matches_over =>
    obtain ⟨isRule, matched, first, here, admits⟩ := matches_over
    refine ⟨block, reached, isBlock, mem_blockClaims.mpr ⟨extent.start, first, here, .inr ?_⟩⟩
    rw [versionAt_window reached] at admits
    obtain ⟨place, at_place⟩ := List.mem_iff_getElem?.mp isRule
    have compiled := (sound.coherent place found.rule at_place).compiled
    obtain ⟨_, _, _, anchor, term, bound, anchored, isRoot, unified⟩ :=
      Pattern.matchWindow_root compiled matched
    rw [here] at anchored
    cases anchored
    have tried := offers found.rule isRule term first bound found.bindings _ isRoot unified admits
    exact mem_windowClaims.mpr ⟨found.rule, tried, isWindow_of_matchWindow matched, found.bindings,
      extent, matched, admits, rfl⟩

end Pass

end Codemod
