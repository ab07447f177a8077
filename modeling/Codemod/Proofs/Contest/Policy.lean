import Codemod.Proofs.Contest.Grouping

/-!
# The policy of a contest

What a contest decides, told by its claims and awards alone: which claims are open, how the open
claims of a rank fall into clusters, and what each cluster gets. The groups behind the awards turn
out to be these clusters.
-/

namespace Codemod

variable {α : Type}

/-- The award is about the claim: it grants it, or the claim is one of the highest rank within the
ambiguous extent. -/
def Award.StandsFor (award : Award α) (claims : List (Claim α)) (claim : Claim α) : Prop :=
  match award with
  | .grant winner => winner = claim
  | .ambiguous extent _ =>
    claim ∈ claims ∧ claim.extent.Within extent ∧
      ∀ other ∈ claims, other.extent.Within extent → claim.AtLeast other

namespace Contest

section Definitions

variable (claims : List (Claim α)) (awards : List (Award α))

/-- No award of a higher rank overlaps the claim. -/
def Open (claim : Claim α) : Prop :=
  ∀ award ∈ awards, ∀ backer, award.StandsFor claims backer → backer.Outranks claim →
    award.extent.overlaps claim.extent = false

/-- Two open claims of one rank overlap. -/
structure Touch (a b : Claim α) : Prop where
  among : a ∈ claims ∧ b ∈ claims
  opened : Open claims awards a ∧ Open claims awards b
  level : a.sameRank b = true
  meet : a.extent.overlaps b.extent = true

/-- Two open claims are in one cluster: a chain of overlaps leads from one to the other. -/
def Together : Claim α → Claim α → Prop :=
  Relation.ReflTransGen (Touch claims awards)

/-- The cluster of the claim is claimed by several rules. -/
def Shared (claim : Claim α) : Prop :=
  ∃ a b, Together claims awards claim a ∧ Together claims awards claim b ∧ a.rule ≠ b.rule

/-- The cluster of the claim is left ambiguous as a whole. -/
structure LeftAmbiguous (claim : Claim α) (extent : Extent) (rules : List Nat) : Prop where
  awarded : .ambiguous extent rules ∈ awards
  only : ∀ award ∈ awards, ∀ member, Together claims awards claim member →
    award.StandsFor claims member → award = .ambiguous extent rules
  standsFor : ∀ member, (Award.ambiguous extent rules).StandsFor claims member ↔
    Together claims awards claim member
  covers : ∀ position, position ∈ extent ↔
    ∃ member, Together claims awards claim member ∧ position ∈ member.extent
  names : ∀ rule, rule ∈ rules ↔ ∃ member, Together claims awards claim member ∧ member.rule = rule
  increasing : rules.Pairwise (· < ·)

/-- The awards are those the policy demands for the claims. -/
structure FollowsPolicy : Prop where
  /-- A claim that is not open gets nothing. -/
  closed : ∀ claim ∈ claims, ¬Open claims awards claim →
    ∀ award ∈ awards, ¬award.StandsFor claims claim
  /-- A cluster of several rules gets one award, which is ambiguous. -/
  shared : ∀ claim ∈ claims, Open claims awards claim → Shared claims awards claim →
    ∃ extent rules, LeftAmbiguous claims awards claim extent rules
  /-- A cluster of one rule gets nothing but grants. -/
  granted : ∀ claim ∈ claims, Open claims awards claim → ¬Shared claims awards claim →
    ∀ award ∈ awards, ∀ member, Together claims awards claim member →
      award.StandsFor claims member → award = .grant member
  /-- In a cluster of one rule the claims further left win. -/
  leftmost : ∀ claim ∈ claims, Open claims awards claim → ¬Shared claims awards claim →
    .grant claim ∈ awards ∨ ∃ winner, .grant winner ∈ awards ∧
      Together claims awards claim winner ∧ winner.extent.start ≤ claim.extent.start ∧
        winner.extent.overlaps claim.extent = true
  /-- There are no other awards. -/
  exhaustive : ∀ award ∈ awards, ∃ claim ∈ claims, Open claims awards claim ∧
    award.StandsFor claims claim
  once : awards.Nodup
  /-- Every claim meets an award of at least its rank. -/
  answered : ∀ claim ∈ claims, ∃ award ∈ awards, award.extent.overlaps claim.extent = true ∧
    ∃ backer ∈ claims, award.StandsFor claims backer ∧ backer.AtLeast claim

end Definitions

private theorem within_hull {group : List (Claim α)} {claim : Claim α} (inGroup : claim ∈ group) :
    claim.extent.Within (hull group) :=
  ⟨(hull_start inGroup).2, (hull_stop inGroup).2⟩

/-- The hull of a cluster is the union of its extents. -/
theorem IsCluster.mem_hull_iff {group : List (Claim α)} (isCluster : IsCluster group)
    (ordered : Ordered group) {position : Nat} :
    position ∈ hull group ↔ ∃ claim ∈ group, position ∈ claim.extent := by
  constructor
  · rintro ⟨start, stop⟩
    obtain ⟨claim, inGroup, starts, stops⟩ :=
      isCluster.covers_hull ordered (Nat.le_succ position) (Nat.lt_succ_of_le start) stop
    exact ⟨claim, inGroup, Nat.le_of_lt_succ starts, stops⟩
  · rintro ⟨claim, inGroup, start, stop⟩
    have within := within_hull inGroup
    exact ⟨Nat.le_trans within.1 start, Nat.lt_of_lt_of_le stop within.2⟩

namespace Grouping

variable {claims : List (Claim α)} {groups : List (List (Claim α))}

private theorem eq_of_meet (grouping : Grouping claims groups) {group other : List (Claim α)}
    (inGroups : group ∈ groups) (alsoInGroups : other ∈ groups) {a b : Claim α}
    (inGroup : a ∈ group) (inOther : b ∈ other) (level : a.sameRank b = true)
    (meet : a.extent.overlaps b.extent = true) : group = other := by
  have : Std.Symm (@Separate α) := ⟨fun first second separate a aMember b bMember level => by
    rw [Extent.overlaps_comm]
    refine separate b bMember a aMember ?_
    rw [sameRank_iff] at level ⊢
    exact ⟨level.1.symm, level.2.symm⟩⟩
  by_contra differ
  have apart := grouping.separate.forall inGroups alsoInGroups differ a inGroup b inOther level
  rw [meet] at apart
  contradiction

private theorem apart_hull (grouping : Grouping claims groups) {high group : List (Claim α)}
    (inGroups : group ∈ groups) (alsoInGroups : high ∈ groups)
    (outranks : ∀ a ∈ high, ∀ b ∈ group, a.Outranks b) {award : Award α}
    (ofHigh : award ∈ awardCluster high) : award.extent.overlaps (hull group) = false := by
  by_contra meets
  rw [Bool.not_eq_false, Extent.overlaps_iff] at meets
  have awardProper := proper_of_mem_awardCluster (grouping.cluster high alsoInGroups)
    (grouping.rank high alsoInGroups).proper ofHigh
  obtain ⟨met, inGroup, bounds⟩ := (grouping.cluster group inGroups).covers_hull
    (grouping.rank group inGroups).ordered (Nat.le_of_lt awardProper) meets.2 meets.1
  apply grouping.unblocked group inGroups met inGroup
  exact ⟨high, alsoInGroups, fun other inHigh => outranks other inHigh met inGroup, award, ofHigh,
    Extent.overlaps_iff.mpr ⟨bounds.2, bounds.1⟩⟩

private theorem mem_of_within (grouping : Grouping claims groups) {group : List (Claim α)}
    (inGroups : group ∈ groups) {claim : Claim α} (member : claim ∈ claims)
    (within : claim.extent.Within (hull group)) (atLeast : ∀ other ∈ group, claim.AtLeast other) :
    claim ∈ group := by
  have claimProper := grouping.proper claim member
  have meets_hull {extent : Extent} (meets : extent.overlaps claim.extent = true) :
      extent.overlaps (hull group) = true := by
    rw [Extent.overlaps_iff] at meets ⊢
    exact ⟨Nat.lt_of_lt_of_le meets.1 within.2, Nat.lt_of_le_of_lt within.1 meets.2⟩
  have unanswered {high : List (Claim α)} (alsoInGroups : high ∈ groups)
      (outranks : ∀ a ∈ high, ∀ b ∈ group, a.Outranks b) {award : Award α}
      (ofHigh : award ∈ awardCluster high) : ¬award.extent.overlaps claim.extent = true := by
    intro meets
    have apart := grouping.apart_hull inGroups alsoInGroups outranks ofHigh
    rw [meets_hull meets] at apart
    contradiction
  rcases grouping.grouped claim member with ⟨home, isHome, inHome⟩ | blocked
  · obtain ⟨met, inGroup, bounds⟩ := (grouping.cluster group inGroups).covers_hull
      (grouping.rank group inGroups).ordered (Nat.le_of_lt claimProper)
      (Nat.lt_of_le_of_lt within.1 claimProper) (Nat.lt_of_lt_of_le claimProper within.2)
    by_cases level : claim.sameRank met = true
    · have meet := Extent.overlaps_iff.mpr ⟨bounds.2, bounds.1⟩
      exact grouping.eq_of_meet isHome inGroups inHome inGroup level meet ▸ inHome
    · -- a claim of a higher rank is answered by an award that reaches into the hull
      have above := Claim.outranks_of_atLeast (atLeast met inGroup) (Bool.not_eq_true _ ▸ level)
      obtain ⟨award, ofHome, meets⟩ := exists_award_overlaps (grouping.rank home isHome).ordered
        (grouping.rank home isHome).proper inHome
      refine absurd meets (unanswered isHome (fun a aMember b bMember => ?_) ofHome)
      have first := (grouping.rank home isHome).level a aMember claim inHome
      have last := (grouping.rank group inGroups).level met inGroup b bMember
      exact first.trans_outranks (above.trans_atLeast last)
  · obtain ⟨high, isHigh, outranks, award, ofHigh, meets⟩ := blocked
    refine absurd meets (unanswered isHigh (fun a aMember b bMember => ?_) ofHigh)
    exact (outranks a aMember).trans_atLeast (atLeast b bMember)

private theorem mem_of_standsFor (grouping : Grouping claims groups) {group : List (Claim α)}
    (inGroups : group ∈ groups) {award : Award α}
    (ofGroup : award ∈ awardCluster group) {claim : Claim α}
    (standsFor : award.StandsFor claims claim) : claim ∈ group := by
  rcases awardCluster_cases ofGroup with ⟨winner, inGroup, rfl⟩ | ⟨rules, rfl, _⟩
  · exact standsFor ▸ inGroup
  · obtain ⟨member, within, highest⟩ := standsFor
    apply grouping.mem_of_within inGroups member within
    exact fun other inGroup =>
      highest other (grouping.among group inGroups inGroup) (within_hull inGroup)

private theorem standsFor_of_mem (grouping : Grouping claims groups) {group : List (Claim α)}
    (inGroups : group ∈ groups) {claim : Claim α} (inGroup : claim ∈ group) (rules : List Nat) :
    (Award.ambiguous (hull group) rules).StandsFor claims claim := by
  refine ⟨grouping.among group inGroups inGroup, within_hull inGroup, fun other member within => ?_⟩
  have level := (grouping.rank group inGroups).level
  by_contra lower
  have outranks := Claim.not_atLeast_iff.mp lower
  refine lower (level claim inGroup other ?_)
  exact grouping.mem_of_within inGroups member within fun twin inGroup' =>
    (outranks.trans_atLeast (level claim inGroup twin inGroup')).atLeast

private theorem exists_standsFor (grouping : Grouping claims groups) {group : List (Claim α)}
    (inGroups : group ∈ groups) {award : Award α}
    (ofGroup : award ∈ awardCluster group) : ∃ claim ∈ group, award.StandsFor claims claim := by
  rcases awardCluster_cases ofGroup with ⟨winner, inGroup, rfl⟩ | ⟨rules, rfl, _⟩
  · exact ⟨winner, inGroup, rfl⟩
  · obtain ⟨claim, inGroup⟩ := (grouping.cluster group inGroups).ne_nil
    exact ⟨claim, inGroup, grouping.standsFor_of_mem inGroups inGroup rules⟩

variable {awards : List (Award α)}

private theorem open_iff (grouping : Grouping claims groups)
    (madeOn : MadeOn awards groups) {claim : Claim α} (member : claim ∈ claims) :
    Open claims awards claim ↔ ∃ group ∈ groups, claim ∈ group := by
  constructor
  · intro opened
    refine (grouping.grouped claim member).resolve_right ?_
    rintro ⟨high, isHigh, outranks, award, ofHigh, meets⟩
    obtain ⟨backer, inHigh, standsFor⟩ := grouping.exists_standsFor isHigh ofHigh
    have apart := opened award ((madeOn award).mpr ⟨high, isHigh, ofHigh⟩) backer standsFor
      (outranks backer inHigh)
    rw [meets] at apart
    contradiction
  · rintro ⟨group, inGroups, inGroup⟩ award inAwards backer standsFor outranks
    obtain ⟨high, isHigh, ofHigh⟩ := (madeOn award).mp inAwards
    have inHigh := grouping.mem_of_standsFor isHigh ofHigh standsFor
    by_contra meets
    apply grouping.unblocked group inGroups claim inGroup
    refine ⟨high, isHigh, fun other inHigh' => ?_, award, ofHigh, Bool.not_eq_false _ ▸ meets⟩
    exact ((grouping.rank high isHigh).level other inHigh' backer inHigh).trans_outranks outranks

private theorem together_iff (grouping : Grouping claims groups) (madeOn : MadeOn awards groups)
    {group : List (Claim α)} (inGroups : group ∈ groups) {claim other : Claim α}
    (inGroup : claim ∈ group) :
    Together claims awards claim other ↔ other ∈ group := by
  constructor
  · intro together
    induction together with
    | refl => exact inGroup
    | tail _ touch inGroup' =>
      obtain ⟨home, isHome, inHome⟩ :=
        (grouping.open_iff madeOn touch.among.2).mp touch.opened.2
      exact grouping.eq_of_meet inGroups isHome inGroup' inHome touch.level touch.meet ▸ inHome
  · intro inGroup'
    have rank := grouping.rank group inGroups
    have among := grouping.among group inGroups
    have opened {claim : Claim α} (inGroup : claim ∈ group) : Open claims awards claim :=
      (grouping.open_iff madeOn (among inGroup)).mpr ⟨group, inGroups, inGroup⟩
    have touch : ∀ a b, Meet group a b → Touch claims awards a b := by
      rintro a b ⟨aMember, bMember, meet⟩
      have level := Claim.sameRank_iff_atLeast.mpr
        ⟨rank.level a aMember b bMember, rank.level b bMember a aMember⟩
      exact ⟨⟨among aMember, among bMember⟩, ⟨opened aMember, opened bMember⟩, level, meet⟩
    exact Relation.ReflTransGen.mono touch _ _
      ((grouping.cluster group inGroups).connected rank.ordered rank.proper inGroup inGroup')

private theorem shared_iff (grouping : Grouping claims groups) (madeOn : MadeOn awards groups)
    {group : List (Claim α)} (inGroups : group ∈ groups) {claim : Claim α}
    (inGroup : claim ∈ group) :
    Shared claims awards claim ↔ 1 < (ascending (group.map (·.rule))).length := by
  simp only [Shared, grouping.together_iff madeOn inGroups inGroup,
    one_lt_length_ascending, List.mem_map]
  constructor
  · rintro ⟨a, b, aMember, bMember, differ⟩
    exact ⟨_, ⟨a, aMember, rfl⟩, _, ⟨b, bMember, rfl⟩, differ⟩
  · rintro ⟨_, ⟨a, aMember, rfl⟩, _, ⟨b, bMember, rfl⟩, differ⟩
    exact ⟨a, b, aMember, bMember, differ⟩

private theorem mem_awardCluster_of_standsFor (grouping : Grouping claims groups)
    (madeOn : MadeOn awards groups)
    {group : List (Claim α)} (inGroups : group ∈ groups) {claim : Claim α}
    (inGroup : claim ∈ group) {award : Award α} (inAwards : award ∈ awards)
    (standsFor : award.StandsFor claims claim) : award ∈ awardCluster group := by
  obtain ⟨home, isHome, ofHome⟩ := (madeOn award).mp inAwards
  have inHome := grouping.mem_of_standsFor isHome ofHome standsFor
  have meet := ((grouping.rank group inGroups).proper claim inGroup).overlaps_self
  have level : claim.sameRank claim = true := sameRank_iff.mpr ⟨rfl, rfl⟩
  rwa [grouping.eq_of_meet inGroups isHome inGroup inHome level meet]

private theorem leftAmbiguous (grouping : Grouping claims groups) (madeOn : MadeOn awards groups)
    {group : List (Claim α)} (inGroups : group ∈ groups) {claim : Claim α}
    (inGroup : claim ∈ group)
    (shared : 1 < (ascending (group.map (·.rule))).length) :
    LeftAmbiguous claims awards claim (hull group) (ascending (group.map (·.rule))) := by
  have together : ∀ other, Together claims awards claim other ↔ other ∈ group :=
    fun _ => grouping.together_iff madeOn inGroups inGroup
  have ofGroup : ∀ award, award ∈ awardCluster group ↔
      award = .ambiguous (hull group) (ascending (group.map (·.rule))) := by
    intro award
    rw [awardCluster_eq, if_pos shared, List.mem_singleton]
  refine ⟨?_, ?_, ?_, ?_, ?_, ?_⟩
  · exact (madeOn _).mpr ⟨group, inGroups, (ofGroup _).mpr rfl⟩
  · intro award inAwards member isTogether standsFor
    exact (ofGroup award).mp (grouping.mem_awardCluster_of_standsFor madeOn inGroups
      ((together member).mp isTogether) inAwards standsFor)
  · intro member
    rw [together]
    exact ⟨grouping.mem_of_standsFor inGroups ((ofGroup _).mpr rfl),
      fun inGroup' => grouping.standsFor_of_mem inGroups inGroup' _⟩
  · intro position
    simp only [together]
    exact (grouping.cluster group inGroups).mem_hull_iff (grouping.rank group inGroups).ordered
  · simp [together, mem_ascending]
  · exact ((sorted_ascending _).and (nodup_ascending _)).imp fun both =>
      Nat.lt_of_le_of_ne both.1 both.2

private theorem exists_winner (grouping : Grouping claims groups) (madeOn : MadeOn awards groups)
    {group : List (Claim α)} (inGroups : group ∈ groups) {claim : Claim α}
    (inGroup : claim ∈ group) (single : ¬1 < (ascending (group.map (·.rule))).length) :
    ∃ winner, .grant winner ∈ awards ∧ Together claims awards claim winner ∧
      winner.extent.start ≤ claim.extent.start ∧ winner.extent.overlaps claim.extent = true := by
  have rank := grouping.rank group inGroups
  obtain ⟨winner, taken, start, stop⟩ :=
    exists_leftmost rank.ordered rank.proper inGroup (Nat.zero_le claim.extent.start)
  have ofGroup : .grant winner ∈ awardCluster group := by
    rw [awardCluster_eq, if_neg single]
    exact List.mem_map_of_mem taken
  have winnerInGroup := (sublist_leftmost 0 group).subset taken
  refine ⟨winner, (madeOn _).mpr ⟨group, inGroups, ofGroup⟩,
    (grouping.together_iff madeOn inGroups inGroup).mpr winnerInGroup, start, ?_⟩
  exact Extent.overlaps_iff.mpr ⟨Nat.lt_of_le_of_lt start (rank.proper claim inGroup), stop⟩

private theorem answered (grouping : Grouping claims groups) (madeOn : MadeOn awards groups)
    {claim : Claim α} (member : claim ∈ claims) :
    ∃ award ∈ awards, award.extent.overlaps claim.extent = true ∧
      ∃ backer ∈ claims, award.StandsFor claims backer ∧ backer.AtLeast claim := by
  have reached : ∃ group ∈ groups, (∀ other ∈ group, other.AtLeast claim) ∧
      ∃ award ∈ awardCluster group, award.extent.overlaps claim.extent = true := by
    rcases grouping.grouped claim member with ⟨group, inGroups, inGroup⟩ | blocked
    · have rank := grouping.rank group inGroups
      exact ⟨group, inGroups, fun other inGroup' => rank.level other inGroup' claim inGroup,
        exists_award_overlaps rank.ordered rank.proper inGroup⟩
    · obtain ⟨high, isHigh, outranks, meets⟩ := blocked
      exact ⟨high, isHigh, fun other inHigh => (outranks other inHigh).atLeast, meets⟩
  obtain ⟨group, inGroups, atLeast, award, ofGroup, meets⟩ := reached
  obtain ⟨backer, inGroup, standsFor⟩ := grouping.exists_standsFor inGroups ofGroup
  exact ⟨award, (madeOn award).mpr ⟨group, inGroups, ofGroup⟩, meets, backer,
    grouping.among group inGroups inGroup, standsFor, atLeast backer inGroup⟩

/-- Awards that are made on groups follow the policy. -/
private theorem followsPolicy (grouping : Grouping claims groups) (madeOn : MadeOn awards groups)
    (once : awards.Nodup) : FollowsPolicy claims awards := by
  have isOpen {claim : Claim α} (member : claim ∈ claims) := grouping.open_iff madeOn member
  refine ⟨?_, ?_, ?_, ?_, ?_, once, fun claim member => grouping.answered madeOn member⟩
  · intro claim member closed award inAwards standsFor
    obtain ⟨group, inGroups, ofGroup⟩ := (madeOn award).mp inAwards
    have inGroup := grouping.mem_of_standsFor inGroups ofGroup standsFor
    exact closed ((isOpen member).mpr ⟨group, inGroups, inGroup⟩)
  · intro claim member opened shared
    obtain ⟨group, inGroups, inGroup⟩ := (isOpen member).mp opened
    rw [grouping.shared_iff madeOn inGroups inGroup] at shared
    exact ⟨_, _, grouping.leftAmbiguous madeOn inGroups inGroup shared⟩
  · intro claim member opened notShared award inAwards other together standsFor
    obtain ⟨group, inGroups, inGroup⟩ := (isOpen member).mp opened
    rw [grouping.shared_iff madeOn inGroups inGroup] at notShared
    rw [grouping.together_iff madeOn inGroups inGroup] at together
    have ofGroup := grouping.mem_awardCluster_of_standsFor madeOn inGroups together inAwards
      standsFor
    rw [awardCluster_eq, if_neg notShared] at ofGroup
    obtain ⟨winner, _, rfl⟩ := List.mem_map.mp ofGroup
    exact congrArg Award.grant standsFor
  · intro claim member opened notShared
    obtain ⟨group, inGroups, inGroup⟩ := (isOpen member).mp opened
    rw [grouping.shared_iff madeOn inGroups inGroup] at notShared
    exact .inr (grouping.exists_winner madeOn inGroups inGroup notShared)
  · intro award inAwards
    obtain ⟨group, inGroups, ofGroup⟩ := (madeOn award).mp inAwards
    obtain ⟨claim, inGroup, standsFor⟩ := grouping.exists_standsFor inGroups ofGroup
    have member := grouping.among group inGroups inGroup
    exact ⟨claim, member, (isOpen member).mpr ⟨group, inGroups, inGroup⟩, standsFor⟩

end Grouping

theorem nodup_resolve {claims : List (Claim α)} (proper : AllProper claims) :
    (resolve claims).Nodup := by
  apply (pairwise_resolve proper).imp_of_mem
  rintro a _ inAwards _ ahead rfl
  exact Nat.not_lt.mpr ahead ((decided_resolve proper).proper a inAwards)

/-- A contest decides proper claims as the policy demands. -/
theorem followsPolicy_resolve {claims : List (Claim α)} (proper : AllProper claims) :
    FollowsPolicy claims (resolve claims) := by
  obtain ⟨groups, grouping, madeOn⟩ := exists_grouping proper
  exact grouping.followsPolicy madeOn (nodup_resolve proper)

theorem followsPolicy_resolve_rivals :
    AllProper rivals ∧ FollowsPolicy rivals (resolve rivals) ∧
      (resolve rivals).map Award.extent = [⟨0, 3⟩, ⟨4, 5⟩] := by
  have proper : AllProper rivals := by decide
  exact ⟨proper, followsPolicy_resolve proper, by cbv⟩

end Contest

end Codemod
