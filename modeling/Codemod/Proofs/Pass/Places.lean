import Codemod.Proofs.Pass.Parts

/-!
# Places of what is reported

What a pass reports stands in the tree the pass started from, whatever has been replaced by then. A
composite rule has matched there in that very tree.
-/

namespace Codemod

/-- The path of a location leads to a tree, which is a block when some of its statements are
meant. -/
inductive Location.Stands (language : Language) (root : Tree) : Location → Prop where
  | tree {path : List Nat} {tree : Tree} {span : Span} (reached : root.at? path = some tree) :
      Stands language root ⟨path, none, span⟩
  | stretch {path : List Nat} {block : Tree} {extent : Extent} {span : Span}
      (reached : root.at? path = some block) (isBlock : language.isBlock block.kind = true)
      (proper : extent.Proper) (inside : extent.stop ≤ block.children.length) :
      Stands language root ⟨path, some extent, span⟩

/-- A rule was applied at a location of the tree its pass started from, where it has matched unless
it is tried on rebuilt trees. -/
structure Rule.AppliedAt (rule : Rule) (language : Language) (root : Tree) (location : Location) :
    Prop where
  stands : location.Stands language root
  node : rule.pattern.composite = true → rule.pattern.isWindow = false →
    location.statements = none ∧ ∃ tree bindings, root.at? location.path = some tree ∧
      rule.pattern.matchNode language tree = some bindings
  window : rule.pattern.isWindow = true → ∃ extent block bindings,
    location.statements = some extent ∧ root.at? location.path = some block ∧
      rule.pattern.matchWindow language block.children extent.start = some (bindings, extent)

namespace Pass

/-- All that a trace reports stands in the tree a pass started from. -/
structure Placed (pass : Pass) (root : Tree) (trace : Trace) : Prop where
  diagnostics : ∀ diagnostic ∈ trace.diagnostics, diagnostic.location.Stands pass.language root
  applied : ∀ entry ∈ trace.applied, ∃ rule, pass.catalog.rules[entry.rule]? = some rule ∧
    rule.AppliedAt pass.language root entry.location

variable {pass : Pass} {root tree : Tree} {path : List Nat} {scope : Option Nat}

namespace Placed

private theorem append {first second : Trace} (ahead : pass.Placed root first)
    (behind : pass.Placed root second) : pass.Placed root (first ++ second) := by
  constructor
  · rw [Trace.diagnostics_append]
    exact List.forall_mem_append.mpr ⟨ahead.diagnostics, behind.diagnostics⟩
  · rw [Trace.applied_append]
    exact List.forall_mem_append.mpr ⟨ahead.applied, behind.applied⟩

private theorem of_subset {part whole : Trace} (placed : pass.Placed root whole)
    (sub : part ⊆ whole) : pass.Placed root part where
  diagnostics diagnostic member :=
    placed.diagnostics diagnostic (List.filterMap_subset _ sub member)
  applied entry member := placed.applied entry (List.filterMap_subset _ sub member)

private theorem flatMap {α : Type} {items : List α} {told : α → Trace}
    (each : ∀ item ∈ items, pass.Placed root (told item)) :
    pass.Placed root (items.flatMap told) := by
  have nothing : pass.Placed root [] := by constructor <;> simp
  exact Trace.flatMap_induct nothing append each

private theorem of_idle {trace : Trace} (idle : trace.Idle)
    (stands : ∀ diagnostic ∈ trace.diagnostics,
      diagnostic.location.Stands pass.language root) : pass.Placed root trace :=
  ⟨stands, by simp [idle.applied_eq_nil]⟩

end Placed

private theorem placed_treeClaims {composite : Bool} {position : Nat} {location : Location}
    (stands : location.Stands pass.language root) :
    pass.Placed root (pass.treeClaims composite scope position location tree).trace := by
  apply Placed.of_idle (idle_treeClaims pass composite scope position location tree)
  intro diagnostic told
  obtain ⟨_, _, _, _, refuses⟩ := refuses_of_mem_treeClaims told
  exact refuses.location_eq ▸ stands

private theorem stands_blockLocation {language : Language} (reached : root.at? path = some tree)
    (isBlock : language.isBlock tree.kind = true) {extent : Extent} (proper : extent.Proper)
    (inside : extent.stop ≤ tree.children.length) (window : Bool) :
    (blockLocation path tree.children extent window).Stands language root := by
  cases window with
  | true => exact .stretch reached isBlock proper inside
  | false =>
    have within : extent.start < tree.children.length := Nat.lt_of_lt_of_le proper inside
    exact .tree ((Tree.at?_concat reached extent.start).trans (List.getElem?_eq_getElem within))

private theorem placed_blockClaims (sound : pass.Sound) (reached : root.at? path = some tree)
    (isBlock : pass.language.isBlock tree.kind = true) :
    pass.Placed root (pass.blockClaims path scope tree.children).trace := by
  apply Placed.of_idle (idle_blockClaims pass path scope tree.children)
  intro diagnostic told
  rw [trace_blockClaims, Trace.diagnostics_flatMap] at told
  obtain ⟨⟨statement, index⟩, member, told⟩ := List.mem_flatMap.mp told
  rw [Trace.diagnostics_append] at told
  have here : tree.children[index]? = some statement := List.mem_zipIdx_iff_getElem?.mp member
  rcases List.mem_append.mp told with single | window
  · obtain ⟨_, _, _, _, refuses⟩ := refuses_of_mem_treeClaims single
    rw [refuses.location_eq]
    exact .tree ((Tree.at?_concat reached index).trans here)
  · obtain ⟨rule, tried, _, _, _, matched, refuses⟩ := refuses_of_mem_windowClaims window
    have compiled := sound.compiled tried
    obtain ⟨_, proper, inside, _⟩ := Pattern.matchWindow_root compiled matched
    rw [refuses.location_eq]
    exact stands_blockLocation reached isBlock proper inside true

/-- Composite rules are tried on a tree as it was, the others on one rebuilt in its place. -/
theorem placed_decideTree (sound : pass.Sound) {site : Tree} (reached : root.at? path = some site)
    {composite : Bool} (original : composite = true → tree = site) :
    pass.Placed root (pass.decideTree composite path scope tree).trace := by
  have stands : Location.Stands pass.language root ⟨path, none, tree.span⟩ := .tree reached
  rw [decideTree, Traced.trace_bind]
  apply (placed_treeClaims stands).append
  constructor
  · intro diagnostic told
    have settles := (tellsOnce_settleTree path tree fun _ =>
      madeBy_of_mem_treeClaims sound).told diagnostic told
    exact settles.location_eq ▸ stands
  · intro entry told
    obtain ⟨winner, claimed, rfl⟩ := exists_of_mem_applied_settleTree told
    have made := madeBy_of_mem_treeClaims sound claimed
    refine ⟨winner.payload.rule, made.isRule, stands, ?_, ?_⟩
    all_goals obtain ⟨rule, _, single, kind, bindings, matched, _, rfl⟩ := mem_treeClaims.mp claimed
    · intro isComposite _
      rw [kind] at isComposite
      exact ⟨rfl, tree, bindings, original isComposite ▸ reached, matched⟩
    · intro window
      rw [single] at window
      contradiction

private theorem appliedAt_of_mem_claimsAt (sound : pass.Sound) (reached : root.at? path = some tree)
    (isBlock : pass.language.isBlock tree.kind = true) {claim : Claim Match}
    (claimed : claim ∈ pass.claimsAt root path tree) :
    claim.payload.rule.AppliedAt pass.language root (blockLocation path tree.children claim.extent
      claim.payload.rule.pattern.isWindow) := by
  have ⟨proper, inside⟩ := bounds_of_mem_blockClaims sound claimed
  refine ⟨stands_blockLocation reached isBlock proper inside _, ?_, ?_⟩
  · intro _ isNode
    obtain ⟨index, statement, here, single | window⟩ := mem_blockClaims.mp claimed
    · obtain ⟨rule, _, _, _, bindings, matched, _, rfl⟩ := mem_treeClaims.mp single
      rw [isNode]
      exact ⟨rfl, statement, bindings, (Tree.at?_concat reached index).trans here, matched⟩
    · obtain ⟨rule, _, isWindow, _, _, _, _, rfl⟩ := mem_windowClaims.mp window
      rw [isWindow] at isNode
      contradiction
  · intro isWindow
    obtain ⟨index, statement, here, single | window⟩ := mem_blockClaims.mp claimed
    · obtain ⟨rule, _, isNode, _, _, _, _, rfl⟩ := mem_treeClaims.mp single
      rw [isNode] at isWindow
      contradiction
    · obtain ⟨rule, tried, _, bindings, extent, matched, _, rfl⟩ := mem_windowClaims.mp window
      have compiled := sound.compiled tried
      obtain ⟨rfl, _⟩ := Pattern.matchWindow_root compiled matched
      rw [isWindow]
      exact ⟨extent, tree, bindings, rfl, reached, matched⟩

private theorem placed_settleAward (sound : pass.Sound) (reached : root.at? path = some tree)
    (isBlock : pass.language.isBlock tree.kind = true) {award : Award Match}
    (awarded : award ∈ Contest.resolve (pass.claimsAt root path tree)) :
    pass.Placed root (pass.settleAward path tree.children award).trace := by
  constructor
  · intro diagnostic told
    obtain ⟨window, settles⟩ :=
      (tellsOnce_settleAward path tree.children
        (fun _ => madeBy_of_mem_blockClaims sound) awarded).told diagnostic told
    obtain ⟨_, proper, inside⟩ := (awarded_resolve sound root path tree).bounded award awarded
    rw [settles.location_eq]
    exact stands_blockLocation reached isBlock proper inside window
  · intro entry told
    obtain ⟨winner, rfl, rfl⟩ := exists_of_mem_applied_settleAward told
    have claimed := Contest.mem_of_grant awarded
    have made := madeBy_of_mem_blockClaims sound claimed
    exact ⟨winner.payload.rule, made.isRule,
      appliedAt_of_mem_claimsAt sound reached isBlock claimed⟩

private theorem placed_iff_forall {trace : Trace} :
    pass.Placed root trace ↔ ∀ event ∈ trace, pass.Placed root [event] := by
  constructor
  · exact fun placed event member => placed.of_subset (by simpa using member)
  · intro each
    have together := Placed.flatMap each
    rwa [List.flatMap_singleton'] at together

/-- All that a pass reports stands in the tree the pass started from. -/
theorem placed_run (sound : pass.Sound) (root : Tree) :
    pass.Placed root (pass.run root).trace := by
  refine placed_iff_forall.mpr (PartsTell.run ⟨?_, ?_, ?_⟩ sound)
  · intro composite path scope site tree reached original
    exact placed_iff_forall.mp (placed_decideTree sound reached original)
  · intro path scope block reached isBlock
    exact placed_iff_forall.mp (placed_blockClaims sound reached isBlock)
  · intro path block reached isBlock award awarded
    exact placed_iff_forall.mp (placed_settleAward sound reached isBlock awarded)

end Pass

end Codemod
