import Codemod.Proofs.Pass.Competition

/-!
# What a quiet pass accounts for

A quiet pass misses nothing silently: in every competition each match meets one of at least its rank
whose replacement changes nothing, or which is reported.
-/

namespace Codemod

/-- A location holds another one: it is the same, or a stretch of a block around it. -/
inductive Location.Covers : Location → Location → Prop where
  | same (location : Location) : Covers location location
  | window {path : List Nat} {hull extent : Extent} {span inner : Span}
      (starts : hull.start ≤ extent.start) (stops : extent.stop ≤ hull.stop) :
      Covers ⟨path, some hull, span⟩ ⟨path, some extent, inner⟩
  | statement {path : List Nat} {hull : Extent} {index : Nat} {span inner : Span}
      (starts : hull.start ≤ index) (stops : index < hull.stop) :
      Covers ⟨path, some hull, span⟩ ⟨path ++ [index], none, inner⟩

namespace Pass

/-- Nothing comes of a match, and not silently unless it would change nothing. -/
inductive Accounted (diagnostics : List Diagnostic) (found : Match) (claimed : List Tree)
    (location : Location) : Prop where
  | unchanged {trees : List Tree} (filled : replacement found location.span = .ok trees)
      (same : Tree.sameAll trees claimed = true)
  | failed {error : FillError} (failed : replacement found location.span = .error error)
      (reported : ⟨.ofFillError error, [found.rule.id], location⟩ ∈ diagnostics)
  | ambiguous {rules : List Nat} {place : Location} (several : 1 < rules.length)
      (listed : found.rule.id ∈ rules) (covers : place.Covers location)
      (reported : ⟨.ambiguousMatch, rules, place⟩ ∈ diagnostics)

/-- A match of at least the same rank overlaps a claim in its competition and is accounted for. -/
def Answered (pass : Pass) (root : Tree) (diagnostics : List Diagnostic)
    (competition : Competition) (claim : Claim Match) : Prop :=
  ∃ other claimed location, pass.Contends root competition other claimed location ∧
    other.extent.overlaps claim.extent = true ∧ other.AtLeast claim ∧
      Accounted diagnostics other.payload claimed location

private theorem Accounted.mono {diagnostics more : List Diagnostic} {found : Match}
    {claimed : List Tree}
    {location : Location} (accounted : Accounted diagnostics found claimed location)
    (sub : diagnostics ⊆ more) : Accounted more found claimed location := by
  cases accounted with
  | unchanged filled same => exact .unchanged filled same
  | failed failed reported => exact .failed failed (sub reported)
  | ambiguous several listed covers reported =>
    exact .ambiguous several listed covers (sub reported)

private theorem diagnostics_subset {part whole : Trace} (sub : part ⊆ whole) :
    part.diagnostics ⊆ whole.diagnostics :=
  List.filterMap_subset _ sub

variable {pass : Pass} {root : Tree} {path : List Nat} {tree : Tree}

private theorem accounted_carryOut (replacing : pass.mode = .replace) {found : Match}
    {claimed : List Tree} {location : Location}
    (quiet : (pass.carryOut found claimed location).trace.Quiet) :
    Accounted (pass.carryOut found claimed location).trace.diagnostics found claimed location := by
  cases filled : replacement found location.span with
  | error error =>
    rw [carryOut_failed pass claimed filled]
    apply Accounted.failed filled
    simp [Trace.diagnostics, Event.diagnostic?]
  | ok trees =>
    cases same : Tree.sameAll trees claimed with
    | true => exact .unchanged filled same
    | false =>
      rw [carryOut_replace replacing filled same] at quiet
      contradiction

/-- Claims on one tree get one award. -/
theorem exists_resolve_eq_cons {claims : List (Claim Match)}
    (single : ∀ claim ∈ claims, claim.extent = .single 0) {award : Award Match}
    (awarded : award ∈ Contest.resolve claims) :
    ∃ rest, Contest.resolve claims = award :: rest := by
  have proper : Contest.AllProper claims := fun claim among => by
    rw [single claim among]
    exact Nat.lt_succ_self 0
  have decided := Contest.decided_resolve proper
  have apart := Contest.pairwise_resolve proper
  have stops : ∀ other ∈ Contest.resolve claims, other.extent.stop = 1 := by
    intro other member
    obtain ⟨claim, among, stop⟩ := decided.bounded other member
    rw [← stop, single claim among]
    rfl
  cases awards : Contest.resolve claims with
  | nil =>
    rw [awards] at awarded
    contradiction
  | cons first rest =>
    rw [awards] at awarded apart
    rcases List.mem_cons.mp awarded with rfl | later
    · exact ⟨rest, rfl⟩
    · have ahead := (List.pairwise_cons.mp apart).1 award later
      have firstStop := stops first (awards ▸ List.mem_cons_self)
      have stop := stops award (awards ▸ awarded)
      have start := decided.proper award (awards ▸ awarded)
      rw [Extent.Proper] at start
      omega

private theorem accounted_settleTree (replacing : pass.mode = .replace)
    {claims : List (Claim Match)} (single : ∀ claim ∈ claims, claim.extent = .single 0)
    (named : ∀ claim ∈ claims, claim.rule = claim.payload.rule.id)
    (quiet : (pass.settleTree path tree claims).trace.Quiet) {claim : Claim Match}
    (member : claim ∈ claims) :
    ∃ other ∈ claims, other.extent.overlaps claim.extent = true ∧ other.AtLeast claim ∧
      Accounted (pass.settleTree path tree claims).trace.diagnostics other.payload [tree]
        ⟨path, none, tree.span⟩ := by
  have proper : Contest.AllProper claims := fun claim among => by
    rw [single claim among]
    exact Nat.lt_succ_self 0
  obtain ⟨award, awarded, other, among, backs, meets, rank⟩ :=
    (Contest.decided_resolve proper).answered claim member
  refine ⟨other, among, meets, rank, ?_⟩
  obtain ⟨rest, awards⟩ := exists_resolve_eq_cons single awarded
  rw [settleTree] at quiet ⊢
  simp only [awards] at quiet ⊢
  cases award with
  | grant winner =>
    cases backs
    simp only [Traced.trace_bind, Traced.trace_pure, List.append_nil] at quiet ⊢
    exact accounted_carryOut replacing quiet
  | ambiguous extent rules =>
    obtain ⟨listed, several, _⟩ := backs
    rw [named other among] at listed
    apply Accounted.ambiguous several listed (.same _)
    simp [report, Trace.diagnostics, Event.diagnostic?]

private theorem Contends.isRule {competition : Competition} {claim : Claim Match}
    {claimed : List Tree}
    {location : Location} (contends : pass.Contends root competition claim claimed location) :
    claim.rule = claim.payload.rule.id ∧ claim.payload.rule ∈ pass.catalog.rules := by
  cases contends with
  | simple _ _ matches_at => exact ⟨rfl, matches_at.isRule⟩
  | composite _ _ _ matches_at => exact ⟨rfl, matches_at.isRule⟩
  | statement _ _ _ _ matches_at => exact ⟨rfl, matches_at.isRule⟩
  | window _ _ matches_over => exact ⟨rfl, matches_over.isRule⟩

theorem exists_single_of_mem_claimsAt {claim : Claim Match}
    (claimed : claim ∈ pass.claimsAt root path tree)
    (isNode : claim.payload.rule.pattern.isWindow = false) :
    ∃ index, claim.extent = .single index := by
  obtain ⟨index, statement, _, single | window⟩ := mem_blockClaims.mp claimed
  · obtain ⟨_, _, _, _, _, _, _, rfl⟩ := mem_treeClaims.mp single
    exact ⟨index, rfl⟩
  · obtain ⟨_, _, isWindow, _, _, _, _, rfl⟩ := mem_windowClaims.mp window
    rw [isWindow] at isNode
    contradiction

/-- Whether one of some rules is a window. -/
def anyWindow (pass : Pass) (rules : List Nat) : Bool :=
  rules.any fun id => (pass.catalog.rules[id]?).any (·.pattern.isWindow)

private theorem isWindow_of_anyWindow_eq_false (sound : pass.Sound) (offers : pass.Offers)
    (reached : root.at? path = some tree) (isBlock : pass.language.isBlock tree.kind = true)
    {rules : List Nat} (none_is : pass.anyWindow rules = false) {claim : Claim Match}
    (claimed : claim ∈ pass.claimsAt root path tree) (listed : claim.rule ∈ rules) :
    claim.payload.rule.pattern.isWindow = false := by
  have ⟨named, isRule⟩ := (contends_of_mem_claimsAt sound offers reached isBlock claimed).isRule
  have here := (sound.coherent.getElem?_id isRule).1
  rw [named] at listed
  have single := List.any_eq_false.mp none_is _ listed
  rw [here, Option.any_some, Bool.not_eq_true] at single
  exact single

private theorem stop_le_of_ambiguous (sound : pass.Sound) (offers : pass.Offers)
    (reached : root.at? path = some tree) (isBlock : pass.language.isBlock tree.kind = true)
    {extent : Extent} {rules : List Nat}
    (awarded : .ambiguous extent rules ∈ Contest.resolve (pass.claimsAt root path tree))
    (none_is : pass.anyWindow rules = false) : extent.stop ≤ extent.start + 1 := by
  have decided := Contest.decided_resolve (allProper_claimsAt sound root path tree)
  by_contra long
  obtain ⟨other, inClaims, ⟨listed, _, starts, _⟩, above, below⟩ :=
    decided.backed _ awarded (extent.start + 1) (extent.start + 1) (Nat.le_refl _)
      (Nat.lt_succ_self _) (Nat.lt_of_not_le long)
  have isNode := isWindow_of_anyWindow_eq_false sound offers reached isBlock none_is inClaims listed
  obtain ⟨index, single⟩ := exists_single_of_mem_claimsAt inClaims isNode
  rw [single] at starts above below
  simp only [Extent.single] at starts above below
  omega

/-- The place where a block is reported as ambiguous holds the place of each claim behind it. -/
theorem covers_of_ambiguous (sound : pass.Sound) (offers : pass.Offers)
    (reached : root.at? path = some tree) (isBlock : pass.language.isBlock tree.kind = true)
    {extent : Extent} {rules : List Nat}
    (awarded : .ambiguous extent rules ∈ Contest.resolve (pass.claimsAt root path tree))
    {backer : Claim Match} (among : backer ∈ pass.claimsAt root path tree)
    (backs : (Award.ambiguous extent rules).Backs backer) :
    (blockLocation path tree.children extent (pass.anyWindow rules)).Covers
      (blockLocation path tree.children backer.extent
        backer.payload.rule.pattern.isWindow) := by
  obtain ⟨listed, _, starts, stops⟩ := backs
  have proper := (bounds_of_mem_blockClaims sound among).1
  cases holds : pass.anyWindow rules with
  | true =>
    cases backer.payload.rule.pattern.isWindow with
    | true => exact .window starts stops
    | false => exact .statement starts (Nat.lt_of_lt_of_le proper stops)
  | false =>
    have isNode := isWindow_of_anyWindow_eq_false sound offers reached isBlock holds among listed
    have short := stop_le_of_ambiguous sound offers reached isBlock awarded holds
    have same : backer.extent = extent := by
      rw [Extent.Proper] at proper
      cases backerExtent : backer.extent
      cases extent
      rw [backerExtent] at starts stops proper
      simp only [Extent.mk.injEq] at starts stops proper short ⊢
      omega
    rw [same, isNode]
    exact .same _

private theorem accounted_settleAward (replacing : pass.mode = .replace) (sound : pass.Sound)
    (offers : pass.Offers) (reached : root.at? path = some tree)
    (isBlock : pass.language.isBlock tree.kind = true) {award : Award Match}
    (awarded : award ∈ Contest.resolve (pass.claimsAt root path tree))
    (quiet : (pass.settleAward path tree.children award).trace.Quiet) {backer : Claim Match}
    (among : backer ∈ pass.claimsAt root path tree) (backs : award.Backs backer) :
    Accounted (pass.settleAward path tree.children award).trace.diagnostics backer.payload
      (backer.extent.slice tree.children)
      (blockLocation path tree.children backer.extent
        backer.payload.rule.pattern.isWindow) := by
  cases award with
  | grant winner =>
    cases backs
    exact accounted_carryOut replacing quiet
  | ambiguous extent rules =>
    have covers := covers_of_ambiguous sound offers reached isBlock awarded among backs
    have named := (contends_of_mem_claimsAt sound offers reached isBlock among).isRule.1
    obtain ⟨listed, several, _⟩ := backs
    rw [named] at listed
    apply Accounted.ambiguous several listed covers
    simp [settleAward, report, anyWindow, Trace.diagnostics, Event.diagnostic?]

theorem extent_of_mem_treeClaims {composite : Bool} {scope : Option Nat} {position : Nat}
    {place : Location} {claim : Claim Match}
    (claimed : claim ∈ (pass.treeClaims composite scope position place tree).value) :
    claim.extent = .single position ∧ claim.rule = claim.payload.rule.id := by
  obtain ⟨_, _, _, _, _, _, _, rfl⟩ := mem_treeClaims.mp claimed
  exact ⟨rfl, rfl⟩

/-- A quiet pass answers every match in every competition. -/
theorem answered_of_quiet (replacing : pass.mode = .replace) (sound : pass.Sound)
    (offers : pass.Offers) (quiet : (pass.run root).trace.Quiet) {competition : Competition}
    {claim : Claim Match} {claimed : List Tree} {location : Location}
    (contends : pass.Contends root competition claim claimed location) :
    pass.Answered root (pass.run root).trace.diagnostics competition claim := by
  have contending := contends
  cases contends with
  | @simple path tree found reached kind matches_at =>
    have inRun := simple_subset_run replacing sound quiet reached
    obtain ⟨other, among, meets, rank, accounted⟩ := accounted_settleTree replacing
      (fun _ member => (extent_of_mem_treeClaims member).1)
      (fun _ member => (extent_of_mem_treeClaims member).2) (quiet.of_subset inRun)
      ((mem_simpleClaims_iff sound offers reached).mpr contending)
    exact ⟨other, _, _, (mem_simpleClaims_iff sound offers reached).mp among, meets, rank,
      accounted.mono (diagnostics_subset inRun)⟩
  | @composite path tree found reached alone kind matches_at =>
    have inRun := composite_subset_run replacing sound quiet reached alone
    obtain ⟨other, among, meets, rank, accounted⟩ := accounted_settleTree replacing
      (fun _ member => (extent_of_mem_treeClaims member).1)
      (fun _ member => (extent_of_mem_treeClaims member).2) (quiet.of_subset inRun)
      ((mem_compositeClaims_iff sound offers reached alone).mpr contending)
    exact ⟨other, _, _, (mem_compositeClaims_iff sound offers reached alone).mp among, meets, rank,
      accounted.mono (diagnostics_subset inRun)⟩
  | @statement path _ _ _ _ _ _ _ _ _ | @window path _ _ _ _ _ _ =>
    obtain ⟨block, reached, isBlock, member⟩ := mem_claimsAt_of_contends sound offers contending
    have decided := Contest.decided_resolve (allProper_claimsAt sound root path block)
    obtain ⟨award, awarded, other, among, backs, meets, rank⟩ := decided.answered _ member
    have inRun := block_subset_run replacing sound quiet reached isBlock awarded
    have accounted := accounted_settleAward replacing sound offers reached isBlock awarded
      (quiet.of_subset inRun) among backs
    exact ⟨other, _, _, contends_of_mem_claimsAt sound offers reached isBlock among, meets, rank,
      accounted.mono (diagnostics_subset inRun)⟩

end Pass

end Codemod
