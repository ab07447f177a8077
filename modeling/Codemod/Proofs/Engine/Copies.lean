import Codemod.Proofs.Catalog.Admission
import Codemod.Proofs.Catalog.RuleOrder
import Codemod.Proofs.Contest.Grouping
import Codemod.Proofs.Engine.Locations
import Codemod.Proofs.Pass.Contests

/-!
# Copies of one pattern

Two rules of a catalog may have one pattern, up to the names of its holes. Where both apply they
differ in priority, unless just one of them asks for a receiver type: a builder refuses copies of
one priority whose triggers have the same receiver type, and guards that ask for two types do not
both accept.
-/

namespace Codemod

/-- Where a pattern starts to match: at a tree, or at one of the statements in a list. -/
inductive Anchor where
  | node (tree : Tree)
  | statement (statements : List Tree) (start : Nat)

def Anchor.tree? : Anchor → Option Tree
  | .node tree => some tree
  | .statement statements start => statements[start]?

namespace Rule

/-- The captures of a rule that matches at an anchor. -/
def matchAt (language : Language) (rule : Rule) : Anchor → Option Bindings
  | .node tree => rule.pattern.matchNode language tree
  | .statement statements start =>
    (rule.pattern.matchWindow language statements start).map Prod.fst

/-- A rule matches at an anchor and its guard accepts what is known there. -/
def FiresAt (language : Language) (rule : Rule) (anchor : Anchor) (version : Option Nat)
    (capabilities : List String) : Prop :=
  ∃ tree bindings, anchor.tree? = some tree ∧ rule.matchAt language anchor = some bindings ∧
    ∀ guard, rule.guard = some guard →
      guard.evaluate bindings ⟨version, capabilities, language.receiverType tree⟩ = .accept

/-- The guard of a rule pins a receiver type down. -/
def pinsReceiver (rule : Rule) : Bool :=
  (rule.guard.bind Guard.pinnedReceiver).isSome

/-- Two rules have one pattern up to the names of its holes. -/
def Copies (rule other : Rule) : Prop :=
  rule.pattern.shape.canonical = other.pattern.shape.canonical

end Rule

namespace Catalog

variable {language : Language} {calls : List Builder.Call} {rule other : Rule}

private theorem apart_of_ne (isRule : rule ∈ (load language calls).rules)
    (alsoRule : other ∈ (load language calls).rules) (different : rule ≠ other) :
    rule.Apart other := by
  have symm : Std.Symm Rule.Apart := ⟨fun _ _ apart => apart.symm⟩
  exact (pairwise_apart_load language calls).forall isRule alsoRule different

/-- Copies of one priority have triggers of different receiver types. -/
theorem receiver_ne_of_copies (isRule : rule ∈ (load language calls).rules)
    (alsoRule : other ∈ (load language calls).rules) (different : rule ≠ other)
    (copies : rule.Copies other) (level : rule.priority = other.priority) :
    rule.guard.bind Guard.pinnedReceiver ≠ other.guard.bind Guard.pinnedReceiver := by
  rw [← (admitted_load language calls rule isRule).receiver_eq,
    ← (admitted_load language calls other alsoRule).receiver_eq]
  intro same
  exact (apart_of_ne isRule alsoRule different).2 ⟨Prod.ext copies same, level⟩

private theorem pinsReceiver_ne_of_copies (isRule : rule ∈ (load language calls).rules)
    (alsoRule : other ∈ (load language calls).rules) (different : rule ≠ other)
    (copies : rule.Copies other) (level : rule.priority = other.priority)
    {bindings others : Bindings} {facts : Facts}
    (accepts : ∀ guard, rule.guard = some guard → guard.evaluate bindings facts = .accept)
    (also_accepts : ∀ guard, other.guard = some guard → guard.evaluate others facts = .accept) :
    rule.pinsReceiver ≠ other.pinsReceiver := by
  have differ := receiver_ne_of_copies isRule alsoRule different copies level
  rw [Rule.pinsReceiver, Rule.pinsReceiver]
  -- a type that is pinned down is that of the anchor, so two of them would be the same
  rcases receiver_of_accepts accepts with unpinned | pinned <;>
    rcases receiver_of_accepts also_accepts with unpinned' | pinned'
  · exact absurd (unpinned.trans unpinned'.symm) differ
  · rw [unpinned]
    cases typed : other.guard.bind Guard.pinnedReceiver with
    | none => exact absurd (unpinned.trans typed.symm) differ
    | some type => simp
  · rw [unpinned']
    cases typed : rule.guard.bind Guard.pinnedReceiver with
    | none => exact absurd (typed.trans unpinned'.symm) differ
    | some type => simp
  · exact absurd (pinned.trans pinned'.symm) differ

end Catalog

namespace Contest

variable {α : Type} {claims : List (Claim α)} {extent : Extent} {rules : List Nat}

private theorem exists_group_of_ambiguous (proper : AllProper claims)
    (awarded : .ambiguous extent rules ∈ resolve claims) :
    ∃ group, group ⊆ claims ∧ IsRank group ∧ IsCluster group ∧ extent = hull group ∧
      ∀ id, id ∈ rules ↔ ∃ claim ∈ group, claim.rule = id := by
  obtain ⟨groups, grouping, madeOn⟩ := exists_grouping proper
  obtain ⟨group, inGroups, ofGroup⟩ := (madeOn _).mp awarded
  refine ⟨group, grouping.among group inGroups, grouping.rank group inGroups,
    grouping.cluster group inGroups, ?_⟩
  rw [awardCluster_eq] at ofGroup
  split at ofGroup
  · rw [List.mem_singleton, Award.ambiguous.injEq] at ofGroup
    obtain ⟨rfl, rfl⟩ := ofGroup
    exact ⟨rfl, fun id => by rw [mem_ascending, List.mem_map]⟩
  · simp at ofGroup

private theorem IsCluster.extent_eq_of_single {group : List (Claim α)} (isCluster : IsCluster group)
    (rank : IsRank group) (single : ∀ claim ∈ group, ∃ position, claim.extent = .single position)
    {a b : Claim α} (aMember : a ∈ group) (bMember : b ∈ group) : a.extent = b.extent := by
  have chain := isCluster.connected rank.ordered rank.proper aMember bMember
  induction chain with
  | refl => rfl
  | @tail middle last _ meet ih =>
    obtain ⟨here, there, overlaps⟩ := meet
    obtain ⟨first, at_first⟩ := single middle here
    obtain ⟨second, at_second⟩ := single last there
    rw [at_first, at_second, Extent.overlaps_iff] at overlaps
    simp only [Extent.single] at overlaps
    rw [ih here, at_first, at_second]
    congr 1
    omega

private theorem extent_eq_of_hull {group : List (Claim α)} (rank : IsRank group)
    (short : (hull group).length = 1) {a b : Claim α} (aMember : a ∈ group) (bMember : b ∈ group) :
    a.extent = b.extent := by
  have aStart := (hull_start aMember).2
  have aStop := (hull_stop aMember).2
  have bStart := (hull_start bMember).2
  have bStop := (hull_stop bMember).2
  have aProper := rank.proper a aMember
  have bProper := rank.proper b bMember
  simp only [Extent.Proper, Extent.length] at *
  have start : a.extent.start = b.extent.start := by omega
  have stop : a.extent.stop = b.extent.stop := by omega
  cases aExtent : a.extent
  cases bExtent : b.extent
  simp_all

end Contest

/-- The location is that of one node. -/
def Location.OfOneNode (location : Location) : Prop :=
  ∀ extent, location.statements = some extent → extent.length = 1

namespace Pass

variable {pass : Pass} {root tree : Tree} {path : List Nat} {scope : Option Nat}

/-- A claim is that of a rule of the catalog, whose guard accepts what is known at an anchor. -/
structure StandsAt (pass : Pass) (scope : Option Nat) (anchor : Tree) (claim : Claim Match) :
    Prop where
  named : claim.rule = claim.payload.rule.id
  ranked : claim.priority = claim.payload.rule.priority
  here : pass.catalog.rules[claim.payload.rule.id]? = some claim.payload.rule
  admits : pass.Admits claim.payload.rule claim.payload.bindings anchor scope

private theorem standsAt_of_mem_treeClaims (sound : pass.Sound) {composite : Bool} {position : Nat}
    {location : Location} {claim : Claim Match}
    (claimed : claim ∈ (pass.treeClaims composite scope position location tree).value) :
    pass.StandsAt scope tree claim := by
  obtain ⟨rule, tried, _, _, _, _, admits, rfl⟩ := mem_treeClaims.mp claimed
  exact ⟨rfl, rfl, sound.getElem?_id tried, admits⟩

private theorem exists_standsAt_of_mem_blockClaims (sound : pass.Sound) {statements : List Tree}
    {claim : Claim Match} (claimed : claim ∈ (pass.blockClaims path scope statements).value) :
    ∃ anchor, statements[claim.extent.start]? = some anchor ∧
      pass.StandsAt scope anchor claim := by
  obtain ⟨index, statement, here, single | window⟩ := mem_blockClaims.mp claimed
  · have stands := standsAt_of_mem_treeClaims sound single
    obtain ⟨_, _, _, _, _, _, _, rfl⟩ := mem_treeClaims.mp single
    exact ⟨statement, here, stands⟩
  · obtain ⟨rule, tried, _, _, extent, matched, admits, rfl⟩ := mem_windowClaims.mp window
    obtain ⟨rfl, _⟩ := Pattern.matchWindow_root (sound.compiled tried) matched
    exact ⟨statement, here, rfl, rfl, sound.getElem?_id tried, admits⟩

/-- A tie at one node lists only rules that stand at one anchor, all of one priority. -/
def TiesAtAnchor (pass : Pass) (diagnostic : Diagnostic) : Prop :=
  diagnostic.kind = .ambiguousMatch → diagnostic.location.OfOneNode →
    ∃ scope anchor, ∃ group : List (Claim Match),
      (∀ claim ∈ group, pass.StandsAt scope anchor claim) ∧
      (∀ a ∈ group, ∀ b ∈ group, a.priority = b.priority) ∧
      ∀ id ∈ diagnostic.rules, ∃ claim ∈ group, claim.rule = id

private theorem priority_eq_of_isRank {group : List (Claim Match)} (rank : Contest.IsRank group) :
    ∀ a ∈ group, ∀ b ∈ group, a.priority = b.priority := by
  intro a aMember b bMember
  have level := Claim.sameRank_iff_atLeast.mpr
    ⟨rank.level a aMember b bMember, rank.level b bMember a aMember⟩
  exact (Contest.sameRank_iff.mp level).2

private theorem extent_eq_of_ambiguous (sound : pass.Sound) {block : Tree}
    {group : List (Claim Match)}
    (among : group ⊆ pass.claimsAt root path block) (rank : Contest.IsRank group)
    (isCluster : Contest.IsCluster group) {rules : List Nat}
    (listed : ∀ claim ∈ group, claim.rule ∈ rules)
    (one : (blockLocation path block.children (Contest.hull group)
      (pass.anyWindow rules)).OfOneNode) :
    ∀ a ∈ group, ∀ b ∈ group, a.extent = b.extent := by
  intro a aMember b bMember
  cases window : pass.anyWindow rules with
  | true =>
    rw [window] at one
    exact Contest.extent_eq_of_hull rank (one _ rfl) aMember bMember
  | false =>
    apply isCluster.extent_eq_of_single rank _ aMember bMember
    intro claim member
    have made := madeBy_of_mem_blockClaims sound (among member)
    have unlisted := List.any_eq_false.mp window _ (listed claim member)
    rw [made.named, made.isRule, Option.any_some, Bool.not_eq_true] at unlisted
    exact exists_single_of_mem_claimsAt (among member) unlisted

private theorem tiesAtAnchor_of_tie (sound : pass.Sound) {claims : List (Claim Match)}
    {locate : Extent → Bool → Location} (held : pass.Holds root claims locate) {extent : Extent}
    {rules : List Nat} (awarded : .ambiguous extent rules ∈ Contest.resolve claims) :
    pass.TiesAtAnchor ⟨.ambiguousMatch, rules, locate extent (pass.anyWindow rules)⟩ := by
  intro _ one
  cases held with
  | @tree composite path scope site tree _ _ =>
    have proper : Contest.AllProper
        (pass.treeClaims composite scope 0 ⟨path, none, tree.span⟩ tree).value := by
      intro claim claimed
      rw [(extent_of_mem_treeClaims claimed).1]
      exact Nat.lt_succ_self 0
    obtain ⟨group, among, rank, _, _, names⟩ := Contest.exists_group_of_ambiguous proper awarded
    exact ⟨scope, tree, group, fun claim member => standsAt_of_mem_treeClaims sound (among member),
      priority_eq_of_isRank rank, fun id listed => (names id).mp listed⟩
  | @block path block _ _ =>
    obtain ⟨group, among, rank, isCluster, rfl, names⟩ :=
      Contest.exists_group_of_ambiguous (allProper_claimsAt sound root path block) awarded
    have listed : ∀ claim ∈ group, claim.rule ∈ rules :=
      fun claim member => (names _).mpr ⟨claim, member, rfl⟩
    have same := extent_eq_of_ambiguous sound among rank isCluster listed one
    obtain ⟨first, inGroup⟩ := isCluster.ne_nil
    obtain ⟨anchor, here, _⟩ := exists_standsAt_of_mem_blockClaims sound (among inGroup)
    refine ⟨pass.innerScope (pass.scopeAt root path) block, anchor, group, fun claim member => ?_,
      priority_eq_of_isRank rank, fun id listed => (names id).mp listed⟩
    obtain ⟨statement, there, stands⟩ := exists_standsAt_of_mem_blockClaims sound (among member)
    rw [same claim member first inGroup, here] at there
    cases there
    exact stands

/-- What an event diagnoses, if it is a tie at one node, is one of rules that stand at one anchor. -/
def TiesHere (pass : Pass) (event : Event) : Prop :=
  ∀ diagnostic, event.diagnostic? = some diagnostic → pass.TiesAtAnchor diagnostic

theorem tiesHere_run (sound : pass.Sound) (root : Tree) :
    ∀ event ∈ (pass.run root).trace, pass.TiesHere event := by
  refine ContestsTell.run ⟨?_, ?_, ?_⟩ sound
  · intro event finding diagnostic is_diagnostic tied
    have refusal := finding.refusal diagnostic is_diagnostic
    rw [tied] at refusal
    contradiction
  · intro claims locate held extent rules awarded diagnostic is_diagnostic
    cases is_diagnostic
    exact tiesAtAnchor_of_tie sound held awarded
  · intro claims locate _ winner _ claimed event told diagnostic is_diagnostic tied
    have reported := mem_diagnostics_carryOut
      (List.mem_filterMap.mpr ⟨event, told, is_diagnostic⟩)
    rcases reported with ⟨error, _, rfl⟩ | rfl
    · cases error <;> contradiction
    · contradiction

/-- Every tie that a pass diagnoses at one node is one of rules that stand at one anchor. -/
theorem tiesAtAnchor_run (sound : pass.Sound) (root : Tree) :
    ∀ diagnostic ∈ (pass.run root).trace.diagnostics, pass.TiesAtAnchor diagnostic := by
  intro diagnostic told
  obtain ⟨event, member, is_diagnostic⟩ := List.mem_filterMap.mp told
  exact tiesHere_run sound root event member diagnostic is_diagnostic

end Pass

namespace Catalog

/-- A diagnostic that is a tie at one node lists no copies of one pattern, unless just one of them
is keyed by a receiver type. -/
def TellsApart (catalog : Catalog) (diagnostic : Diagnostic) : Prop :=
  diagnostic.kind = .ambiguousMatch → diagnostic.location.OfOneNode →
    ∀ rule ∈ catalog.rules, ∀ other ∈ catalog.rules, rule ≠ other → rule.Copies other →
      rule.id ∈ diagnostic.rules → other.id ∈ diagnostic.rules →
        rule.trigger.receiver.isSome ≠ other.trigger.receiver.isSome

private theorem tellsApart_of_tiesAtAnchor {language : Language} {calls : List Builder.Call}
    {pass : Pass} (loaded : pass.catalog = load language calls) (sound : pass.Sound)
    {diagnostic : Diagnostic} (ties : pass.TiesAtAnchor diagnostic) :
    (load language calls).TellsApart diagnostic := by
  intro tied one rule isRule other alsoRule different copies listed also_listed
  obtain ⟨scope, anchor, group, stands, level, names⟩ := ties tied one
  have made : ∀ rule ∈ (load language calls).rules, rule.id ∈ diagnostic.rules →
      ∃ claim ∈ group, claim.payload.rule = rule := by
    intro rule isRule listed
    obtain ⟨claim, inGroup, named⟩ := names _ listed
    have here := (stands claim inGroup).here
    rw [← (stands claim inGroup).named, named] at here
    rw [← loaded] at isRule
    rw [(sound.coherent.getElem?_id isRule).1] at here
    exact ⟨claim, inGroup, (Option.some.inj here).symm⟩
  obtain ⟨claim, inGroup, rfl⟩ := made rule isRule listed
  obtain ⟨twin, also_inGroup, rfl⟩ := made other alsoRule also_listed
  have priority := level claim inGroup twin also_inGroup
  rw [(stands claim inGroup).ranked, (stands twin also_inGroup).ranked] at priority
  have pins := pinsReceiver_ne_of_copies isRule alsoRule different copies priority
    (stands claim inGroup).admits (stands twin also_inGroup).admits
  rw [(admitted_load language calls _ isRule).receiver_eq,
    (admitted_load language calls _ alsoRule).receiver_eq]
  exact pins

theorem tellsApart_run {language : Language} {calls : List Builder.Call} {pass : Pass}
    (loaded : pass.catalog = load language calls) (lookup : pass.lookup = pass.catalog.candidates)
    (root : Tree) :
    ∀ diagnostic ∈ (pass.run root).trace.diagnostics,
      (load language calls).TellsApart diagnostic := by
  intro diagnostic told
  have coherent : pass.catalog.Coherent := loaded ▸ coherent_load language calls
  have sound := Pass.sound_of_coherent coherent lookup
  exact tellsApart_of_tiesAtAnchor loaded sound (Pass.tiesAtAnchor_run sound root diagnostic told)

end Catalog

/-- Two rules of a loaded catalog with one pattern, up to the names of its holes, that both apply at
an anchor differ in priority, unless just one of their guards pins a receiver type down. So no tie
at one node, in a pass or in the report of a run, lists two such rules unless just one of them is
keyed by a receiver type. -/
theorem Engine.copies_never_tie (language : Language) (calls : List Builder.Call) :
    let catalog := Catalog.load language calls
    (∀ rule ∈ catalog.rules, ∀ other ∈ catalog.rules, rule ≠ other → rule.Copies other →
      ∀ anchor version capabilities, rule.FiresAt language anchor version capabilities →
        other.FiresAt language anchor version capabilities →
          rule.priority ≠ other.priority ∨ rule.pinsReceiver ≠ other.pinsReceiver) ∧
    (∀ platform mode root,
      let pass : Pass := ⟨catalog, catalog.candidates, platform, mode⟩
      ∀ diagnostic ∈ (pass.run root).trace.diagnostics, catalog.TellsApart diagnostic) ∧
    ∀ maxPasses unit stop,
      let engine : Engine := { catalog, maxPasses }
      ∀ diagnostic ∈ (engine.run unit stop).report.diagnostics, catalog.TellsApart diagnostic := by
  intro catalog
  refine ⟨?_, fun platform mode root => Catalog.tellsApart_run rfl rfl root,
    fun maxPasses unit stop => ?_⟩
  · rintro rule isRule other alsoRule different copies anchor version capabilities
      ⟨tree, bindings, here, _, accepts⟩ ⟨tree', others, there, _, also_accepts⟩
    rw [here] at there
    cases there
    by_cases level : rule.priority = other.priority
    · exact .inr (Catalog.pinsReceiver_ne_of_copies isRule alsoRule different copies level accepts
        also_accepts)
    · exact .inl level
  · exact forall_diagnostics_run (fun mode root => Catalog.tellsApart_run rfl rfl root) stop

/-- A rule for the size of what its hole stands for. -/
def lengthDraft (name hole : String) (guard : Option Guard) : RuleDraft :=
  { name, guard
    pattern := .node (.branch "call" [.hole (.capturing hole .expression),
      .leaf Tree.nameKind "size"])
    template := .ofShape (.node (.leaf Tree.nameKind "length")) }

/-- The rule that a draft for sizes makes. -/
def lengthRule (id : Nat) (name hole : String) (guard : Option Guard) (receiver : Option String) :
    Rule :=
  let draft := lengthDraft name hole guard
  draft.rule id ⟨draft.pattern, ⟨[(hole, .expression)]⟩, false⟩ ⟨receiver, "size"⟩

/-- Two copies apply to a list, of which just the first one is for lists only. -/
theorem Engine.keyed_copies_fire :
    let language := ({} : Roles).language
    let typed : Guard := .receiverType "List"
    let catalog := Catalog.load language
      [.add (lengthDraft "list" "xs" (some typed)), .add (lengthDraft "any" "it" none)]
    let forList := lengthRule 0 "list" "xs" (some typed) (some "List")
    let forAny := lengthRule 1 "any" "it" none none
    let anchor := Anchor.node (.branch "call"
      [(Tree.leaf Tree.nameKind "items").withType "List", .leaf Tree.nameKind "size"])
    forList ∈ catalog.rules ∧ forAny ∈ catalog.rules ∧ forList.Copies forAny ∧
      forList.FiresAt language anchor none [] ∧ forAny.FiresAt language anchor none [] ∧
        (forList.priority ≠ forAny.priority ∨ forList.pinsReceiver ≠ forAny.pinsReceiver) := by
  intro language typed catalog forList forAny anchor
  have rules : catalog.rules = [forList, forAny] := rfl
  have isRule : forList ∈ catalog.rules := rules ▸ List.mem_cons_self
  have alsoRule : forAny ∈ catalog.rules := rules ▸ List.mem_cons_of_mem _ List.mem_cons_self
  have copies : forList.Copies forAny := by rfl
  have fires : forList.FiresAt language anchor none [] :=
    ⟨_, _, rfl, rfl, fun guard required => Option.some.inj required ▸ rfl⟩
  have also_fires : forAny.FiresAt language anchor none [] :=
    ⟨_, _, rfl, rfl, fun guard required => by contradiction⟩
  have different : forList ≠ forAny := fun same => absurd (congrArg Rule.id same) (by decide)
  exact ⟨isRule, alsoRule, copies, fires, also_fires, (copies_never_tie language _).1 forList
    isRule forAny alsoRule different copies anchor none [] fires also_fires⟩

end Codemod
