import Codemod.Proofs.Contest.Cluster
import Mathlib.Data.List.Flatten
import Mathlib.Data.List.Perm.Subperm
import Mathlib.Data.List.SplitBy

/-!
# What a contest decides

The awards of a contest lie apart and in order, what they grant was claimed, and every claim
overlaps an award behind which stands a claim of at least its rank. Both are kept by each rank that
is decided, so they hold of the whole contest.
-/

namespace Codemod

/-- The claim that is granted. -/
def Award.grant? {α : Type} : Award α → Option (Claim α)
  | .grant claim => some claim
  | .ambiguous _ _ => none

/-- The first claim is longer, or as long and of at least the same priority. -/
def Claim.AtLeast {α : Type} (a b : Claim α) : Prop :=
  b.extent.length < a.extent.length ∨
    b.extent.length = a.extent.length ∧ b.priority ≤ a.priority

namespace Contest

variable {α : Type}

theorem sublist_leftmost (reach : Nat) (claims : List (Claim α)) :
    (leftmost reach claims).Sublist claims := by
  induction claims generalizing reach with
  | nil => exact List.Sublist.slnil
  | cons claim rest ih =>
    rw [leftmost]
    split
    · exact (ih claim.extent.stop).cons_cons claim
    · exact (ih reach).cons claim

private theorem le_start_of_mem_leftmost {reach : Nat} {claims : List (Claim α)}
    (proper : AllProper claims) {claim : Claim α} (taken : claim ∈ leftmost reach claims) :
    reach ≤ claim.extent.start := by
  induction claims generalizing reach with
  | nil => simp [leftmost] at taken
  | cons first rest ih =>
    have restProper : AllProper rest := fun other member =>
      proper other (List.mem_cons_of_mem first member)
    rw [leftmost] at taken
    split at taken
    · rename_i within
      rcases List.mem_cons.mp taken with rfl | taken
      · exact within
      · have beyond := ih restProper taken
        have firstProper := proper first List.mem_cons_self
        rw [Extent.Proper] at firstProper
        omega
    · exact ih restProper taken

private theorem pairwise_leftmost {reach : Nat} {claims : List (Claim α)}
    (proper : AllProper claims) :
    (leftmost reach claims).Pairwise fun a b => a.extent.stop ≤ b.extent.start := by
  induction claims generalizing reach with
  | nil => exact List.Pairwise.nil
  | cons first rest ih =>
    have restProper : AllProper rest := fun other member =>
      proper other (List.mem_cons_of_mem first member)
    rw [leftmost]
    split
    · refine List.pairwise_cons.mpr ⟨fun other taken => ?_, ih restProper⟩
      exact le_start_of_mem_leftmost restProper taken
    · exact ih restProper

/-- A claim that is not taken starts inside one that is. -/
theorem exists_leftmost {reach : Nat} {claims : List (Claim α)}
    (ordered : Ordered claims) (proper : AllProper claims) {claim : Claim α}
    (member : claim ∈ claims) (beyond : reach ≤ claim.extent.start) :
    ∃ taken ∈ leftmost reach claims, claim.extent.start ∈ taken.extent := by
  induction claims generalizing reach with
  | nil => simp at member
  | cons first rest ih =>
    have later := (List.pairwise_cons.mp ordered).1
    have restOrdered : Ordered rest := (List.pairwise_cons.mp ordered).2
    have restProper : AllProper rest := fun other member =>
      proper other (List.mem_cons_of_mem first member)
    have claimProper := proper claim member
    rw [leftmost]
    split
    · rcases List.mem_cons.mp member with rfl | member
      · exact ⟨claim, List.mem_cons_self, Nat.le_refl _, claimProper⟩
      · by_cases inside : claim.extent.start < first.extent.stop
        · exact ⟨first, List.mem_cons_self, later claim member, inside⟩
        · obtain ⟨taken, isTaken, starts⟩ :=
            ih restOrdered restProper member (Nat.le_of_not_lt inside)
          exact ⟨taken, List.mem_cons_of_mem _ isTaken, starts⟩
    · rename_i skipped
      rcases List.mem_cons.mp member with rfl | member
      · exact absurd beyond skipped
      · exact ih restOrdered restProper member beyond

theorem awardCluster_eq (cluster : List (Claim α)) :
    awardCluster cluster =
      if 1 < (ascending (cluster.map (·.rule))).length then
        [.ambiguous (hull cluster) (ascending (cluster.map (·.rule)))]
      else (leftmost 0 cluster).map .grant := rfl

theorem awardCluster_cases {cluster : List (Claim α)} {award : Award α}
    (member : award ∈ awardCluster cluster) :
    (∃ winner ∈ cluster, award = .grant winner) ∨
      ∃ rules, award = .ambiguous (hull cluster) rules ∧ 1 < rules.length ∧
        ∀ claim ∈ cluster, claim.rule ∈ rules := by
  rw [awardCluster_eq] at member
  split at member
  · rename_i several
    rw [List.mem_singleton] at member
    subst member
    right
    refine ⟨_, rfl, several, fun claim inCluster => ?_⟩
    exact mem_ascending.mpr (List.mem_map_of_mem inCluster)
  · obtain ⟨winner, taken, rfl⟩ := List.mem_map.mp member
    exact .inl ⟨winner, (sublist_leftmost 0 cluster).subset taken, rfl⟩

theorem IsCluster.ne_nil {cluster : List (Claim α)} (isCluster : IsCluster cluster) :
    ∃ claim, claim ∈ cluster := by
  cases cluster with
  | nil => exact isCluster.elim
  | cons first rest => exact ⟨first, List.mem_cons_self⟩

private theorem bounds_of_mem_awardCluster {cluster : List (Claim α)}
    (isCluster : IsCluster cluster) {award : Award α} (member : award ∈ awardCluster cluster) :
    (∃ a ∈ cluster, a.extent.start = award.extent.start) ∧
      ∃ b ∈ cluster, b.extent.stop = award.extent.stop := by
  rcases awardCluster_cases member with ⟨winner, inCluster, rfl⟩ | ⟨rules, rfl, _⟩
  · exact ⟨⟨winner, inCluster, rfl⟩, ⟨winner, inCluster, rfl⟩⟩
  · obtain ⟨claim, inCluster⟩ := isCluster.ne_nil
    exact ⟨(hull_start inCluster).1, (hull_stop inCluster).1⟩

theorem proper_of_mem_awardCluster {cluster : List (Claim α)}
    (isCluster : IsCluster cluster) (proper : AllProper cluster) {award : Award α}
    (member : award ∈ awardCluster cluster) : award.extent.Proper := by
  rcases awardCluster_cases member with ⟨winner, inCluster, rfl⟩ | ⟨rules, rfl, _⟩
  · exact proper winner inCluster
  · obtain ⟨claim, inCluster⟩ := isCluster.ne_nil
    have start := (hull_start inCluster).2
    have stop := (hull_stop inCluster).2
    have claimProper := proper claim inCluster
    exact Nat.lt_of_le_of_lt start (Nat.lt_of_lt_of_le claimProper stop)

private theorem backed_of_mem_awardCluster {cluster : List (Claim α)}
    (isCluster : IsCluster cluster) (ordered : Ordered cluster) {award : Award α}
    (member : award ∈ awardCluster cluster) {low high : Nat} (le : low ≤ high)
    (above : award.extent.start < high) (below : low < award.extent.stop) :
    ∃ backer ∈ cluster, award.Backs backer ∧ backer.extent.start < high ∧
      low < backer.extent.stop := by
  rcases awardCluster_cases member with ⟨winner, inCluster, rfl⟩ | ⟨rules, rfl, several, listed⟩
  · exact ⟨winner, inCluster, rfl, above, below⟩
  · obtain ⟨backer, inCluster, meets⟩ := isCluster.covers_hull ordered le above below
    refine ⟨backer, inCluster, ⟨listed backer inCluster, several, ?_⟩, meets⟩
    exact ⟨(hull_start inCluster).2, (hull_stop inCluster).2⟩

/-- Every claim of a cluster overlaps an award of it. -/
theorem exists_award_overlaps {cluster : List (Claim α)} (ordered : Ordered cluster)
    (proper : AllProper cluster) {claim : Claim α} (member : claim ∈ cluster) :
    ∃ award ∈ awardCluster cluster, award.extent.overlaps claim.extent = true := by
  rw [awardCluster_eq]
  split
  · refine ⟨_, List.mem_singleton_self _, Extent.overlaps_iff.mpr ?_⟩
    have start := (hull_start member).2
    have stop := (hull_stop member).2
    have claimProper := proper claim member
    rw [Extent.Proper] at claimProper
    simp only [Award.extent]
    omega
  · obtain ⟨taken, isTaken, starts, stops⟩ :=
      exists_leftmost ordered proper member (Nat.zero_le claim.extent.start)
    have claimProper := proper claim member
    exact ⟨.grant taken, List.mem_map_of_mem isTaken,
      Extent.overlaps_iff.mpr ⟨Nat.lt_of_le_of_lt starts claimProper, stops⟩⟩

private theorem pairwise_awardCluster {cluster : List (Claim α)} (proper : AllProper cluster) :
    (awardCluster cluster).Pairwise fun a b => a.extent.overlaps b.extent = false := by
  rw [awardCluster_eq]
  split
  · exact List.pairwise_singleton _ _
  · apply List.pairwise_map.mpr
    apply (pairwise_leftmost proper).imp
    intro a b ahead
    rw [← Bool.not_eq_true, Extent.overlaps_iff]
    simp only [Award.extent]
    omega

/-- The awards decide the claims: they lie apart, they stand for what was claimed, and no claim goes
without an answer of at least its rank. -/
structure Decided (claims : List (Claim α)) (awards : List (Award α)) : Prop where
  proper : ∀ award ∈ awards, award.extent.Proper
  bounded : ∀ award ∈ awards, ∃ claim ∈ claims, claim.extent.stop = award.extent.stop
  apart : awards.Pairwise fun a b => a.extent.overlaps b.extent = false
  backed : ∀ award ∈ awards, ∀ low high, low ≤ high → award.extent.start < high →
    low < award.extent.stop →
      ∃ backer ∈ claims, award.Backs backer ∧ backer.extent.start < high ∧ low < backer.extent.stop
  answered : ∀ claim ∈ claims, ∃ award ∈ awards, ∃ backer ∈ claims,
    award.Backs backer ∧ backer.extent.overlaps claim.extent = true ∧ backer.AtLeast claim

private theorem Decided.backed_of_overlaps {claims : List (Claim α)} {awards : List (Award α)}
    (decided : Decided claims awards) {award : Award α} (member : award ∈ awards) {extent : Extent}
    (proper : extent.Proper) (meets : award.extent.overlaps extent = true) :
    ∃ backer ∈ claims, award.Backs backer ∧ backer.extent.overlaps extent = true := by
  have ⟨above, below⟩ := Extent.overlaps_iff.mp meets
  obtain ⟨backer, among, backs, bounds⟩ :=
    decided.backed award member _ _ (Nat.le_of_lt proper) above below
  exact ⟨backer, among, backs, Extent.overlaps_iff.mpr bounds⟩

theorem isOpen_iff {awards : List (Award α)} {claim : Claim α} :
    isOpen awards claim = true ↔
      ∀ award ∈ awards, award.extent.overlaps claim.extent = false := by
  simp [isOpen]

/-- The claims of one rank in the order in which they are decided. -/
structure IsRank (claims : List (Claim α)) : Prop where
  proper : AllProper claims
  ordered : Ordered claims
  level : ∀ a ∈ claims, ∀ b ∈ claims, a.AtLeast b

theorem IsRank.sublist {claims part : List (Claim α)} (rank : IsRank claims)
    (sub : part.Sublist claims) : IsRank part where
  proper claim member := rank.proper claim (sub.subset member)
  ordered := rank.ordered.sublist sub
  level a aMember b bMember := rank.level a (sub.subset aMember) b (sub.subset bMember)

private theorem pairwise_flatMap_awardCluster {claims : List (Claim α)} (rank : IsRank claims) :
    ((clusters claims).flatMap awardCluster).Pairwise fun a b =>
      a.extent.overlaps b.extent = false := by
  refine List.pairwise_flatMap.mpr ⟨?_, ?_⟩
  · intro cluster inClusters
    exact pairwise_awardCluster (rank.sublist (sublist_of_mem_clusters inClusters)).proper
  · apply (pairwise_ahead_clusters rank.ordered).imp_of_mem
    intro first second inFirst inSecond ahead award ofFirst other ofSecond
    obtain ⟨a, aMember, stop⟩ :=
      (bounds_of_mem_awardCluster (isCluster_of_mem_clusters inFirst) ofFirst).2
    obtain ⟨b, bMember, start⟩ :=
      (bounds_of_mem_awardCluster (isCluster_of_mem_clusters inSecond) ofSecond).1
    have apart := ahead a aMember b bMember
    rw [← Bool.not_eq_true, Extent.overlaps_iff]
    omega

private theorem IsRank.decided {claims : List (Claim α)} (rank : IsRank claims) :
    Decided claims ((clusters claims).flatMap awardCluster) := by
  have backed : ∀ award ∈ (clusters claims).flatMap awardCluster, ∀ low high, low ≤ high →
      award.extent.start < high → low < award.extent.stop →
        ∃ backer ∈ claims, award.Backs backer ∧ backer.extent.start < high ∧
          low < backer.extent.stop := by
    intro award member low high le above below
    obtain ⟨cluster, inClusters, ofCluster⟩ := List.mem_flatMap.mp member
    have sub := sublist_of_mem_clusters inClusters
    obtain ⟨backer, isBacker, backs⟩ := backed_of_mem_awardCluster
      (isCluster_of_mem_clusters inClusters) (rank.sublist sub).ordered ofCluster le above below
    exact ⟨backer, sub.subset isBacker, backs⟩
  refine ⟨?_, ?_, pairwise_flatMap_awardCluster rank, backed, ?_⟩
  · intro award member
    obtain ⟨cluster, inClusters, ofCluster⟩ := List.mem_flatMap.mp member
    exact proper_of_mem_awardCluster (isCluster_of_mem_clusters inClusters)
      (rank.sublist (sublist_of_mem_clusters inClusters)).proper ofCluster
  · intro award member
    obtain ⟨cluster, inClusters, ofCluster⟩ := List.mem_flatMap.mp member
    obtain ⟨last, inCluster, stop⟩ :=
      (bounds_of_mem_awardCluster (isCluster_of_mem_clusters inClusters) ofCluster).2
    exact ⟨last, (sublist_of_mem_clusters inClusters).subset inCluster, stop⟩
  · intro claim member
    have flat : claim ∈ (clusters claims).flatten := (flatten_clusters claims).symm ▸ member
    obtain ⟨cluster, inClusters, inCluster⟩ := List.mem_flatten.mp flat
    have ofRank := rank.sublist (sublist_of_mem_clusters inClusters)
    obtain ⟨award, ofCluster, meets⟩ :=
      exists_award_overlaps ofRank.ordered ofRank.proper inCluster
    have awarded := List.mem_flatMap.mpr ⟨cluster, inClusters, ofCluster⟩
    have ⟨above, below⟩ := Extent.overlaps_iff.mp meets
    obtain ⟨backer, isBacker, backs, bounds⟩ :=
      backed award awarded _ _ (Nat.le_of_lt (rank.proper claim member)) above below
    exact ⟨award, awarded, backer, isBacker, backs, Extent.overlaps_iff.mpr bounds,
      rank.level backer isBacker claim member⟩

private theorem Decided.awardRank {seen claims : List (Claim α)} {awards : List (Award α)}
    (decided : Decided seen awards) (rank : IsRank claims)
    (below : ∀ a ∈ seen, ∀ b ∈ claims, a.AtLeast b) :
    Decided (seen ++ claims) (awardRank awards claims) := by
  have open_sub : (claims.filter (isOpen awards)).Sublist claims := List.filter_sublist
  have fresh := (rank.sublist open_sub).decided
  refine ⟨?_, ?_, ?_, ?_, ?_⟩
  · intro award member
    rcases List.mem_append.mp member with old | new
    · exact decided.proper award old
    · exact fresh.proper award new
  · intro award member
    rcases List.mem_append.mp member with old | new
    · obtain ⟨claim, inSeen, stop⟩ := decided.bounded award old
      exact ⟨claim, List.mem_append_left _ inSeen, stop⟩
    · obtain ⟨claim, opened, stop⟩ := fresh.bounded award new
      exact ⟨claim, List.mem_append_right _ (open_sub.subset opened), stop⟩
  · -- an older award that met a new one would meet an open claim behind it
    refine List.pairwise_append.mpr ⟨decided.apart, fresh.apart, ?_⟩
    intro old inAwards award new
    by_contra meets
    rw [Bool.not_eq_false, Extent.overlaps_comm] at meets
    obtain ⟨backer, opened, _, backerMeets⟩ :=
      fresh.backed_of_overlaps new (decided.proper old inAwards) meets
    have apart := isOpen_iff.mp (List.mem_filter.mp opened).2 old inAwards
    rw [Extent.overlaps_comm, backerMeets] at apart
    contradiction
  · intro award member low high le above below
    rcases List.mem_append.mp member with old | new
    · obtain ⟨backer, inSeen, backs⟩ := decided.backed award old low high le above below
      exact ⟨backer, List.mem_append_left _ inSeen, backs⟩
    · obtain ⟨backer, opened, backs⟩ := fresh.backed award new low high le above below
      exact ⟨backer, List.mem_append_right _ (open_sub.subset opened), backs⟩
  · intro claim member
    rcases List.mem_append.mp member with inSeen | inClaims
    · obtain ⟨award, old, backer, isBacker, backs⟩ := decided.answered claim inSeen
      exact ⟨award, List.mem_append_left _ old, backer, List.mem_append_left _ isBacker, backs⟩
    · by_cases isOpened : isOpen awards claim = true
      · obtain ⟨award, new, backer, isBacker, backs⟩ :=
          fresh.answered claim (List.mem_filter.mpr ⟨inClaims, isOpened⟩)
        exact ⟨award, List.mem_append_right _ new, backer,
          List.mem_append_right _ (open_sub.subset isBacker), backs⟩
      · rw [isOpen_iff] at isOpened
        push Not at isOpened
        obtain ⟨award, old, meets⟩ := isOpened
        rw [Bool.ne_false_iff] at meets
        obtain ⟨backer, inSeen, backs, backerMeets⟩ :=
          decided.backed_of_overlaps old (rank.proper claim inClaims) meets
        exact ⟨award, List.mem_append_left _ old, backer, List.mem_append_left _ inSeen,
          backs, backerMeets, below backer inSeen claim inClaims⟩

/-- Ranks decided one after the other decide all their claims. -/
theorem Decided.foldl_awardRank {seen : List (Claim α)} {awards : List (Award α)}
    (decided : Decided seen awards) {levels : List (List (Claim α))}
    (each : ∀ claims ∈ levels, IsRank claims)
    (descending : (seen :: levels).Pairwise fun above below =>
      ∀ a ∈ above, ∀ b ∈ below, a.AtLeast b) :
    Decided (seen ++ levels.flatten) (levels.foldl Contest.awardRank awards) := by
  induction levels generalizing seen awards with
  | nil => simpa using decided
  | cons claims rest ih =>
    obtain ⟨fromSeen, later⟩ := List.pairwise_cons.mp descending
    obtain ⟨fromClaims, restDescending⟩ := List.pairwise_cons.mp later
    have next := decided.awardRank (each claims List.mem_cons_self)
      (fromSeen claims List.mem_cons_self)
    rw [List.flatten_cons, ← List.append_assoc, List.foldl_cons]
    apply ih next
    · exact fun other member => each other (List.mem_cons_of_mem claims member)
    · refine List.pairwise_cons.mpr ⟨?_, restDescending⟩
      intro other member a inEither b inOther
      rcases List.mem_append.mp inEither with inSeen | inClaims
      · exact fromSeen other (List.mem_cons_of_mem claims member) a inSeen b inOther
      · exact fromClaims other member a inClaims b inOther

theorem precedes_total (a b : Claim α) : (a.precedes b || b.precedes a) = true := by
  simp only [Claim.precedes]
  grind

theorem precedes_trans (a b c : Claim α) (first : a.precedes b = true)
    (second : b.precedes c = true) : a.precedes c = true := by
  rw [Claim.precedes] at first second ⊢
  grind

private theorem atLeast_of_precedes {a b : Claim α} (before : a.precedes b = true) :
    a.AtLeast b := by
  rw [Claim.precedes] at before
  rw [Claim.AtLeast]
  grind

private theorem start_le_of_precedes {a b : Claim α} (before : a.precedes b = true)
    (level : a.sameRank b = true) : a.extent.start ≤ b.extent.start := by
  rw [Claim.precedes] at before
  simp only [Claim.sameRank, Bool.and_eq_true, beq_iff_eq] at level
  grind

theorem sameRank_iff {a b : Claim α} :
    a.sameRank b = true ↔ a.extent.length = b.extent.length ∧ a.priority = b.priority := by
  simp [Claim.sameRank]

private theorem pairwise_sorted (claims : List (Claim α)) :
    (claims.mergeSort Claim.precedes).Pairwise fun a b => a.precedes b = true :=
  List.pairwise_mergeSort precedes_trans precedes_total claims

private theorem sublist_of_mem_ranks {claims level : List (Claim α)}
    (member : level ∈ ranks claims) : level.Sublist (claims.mergeSort Claim.precedes) := by
  have sub := List.sublist_flatten_of_mem member
  rwa [ranks, List.flatten_splitBy] at sub

theorem isRank_of_mem_ranks {claims level : List (Claim α)} (proper : AllProper claims)
    (member : level ∈ ranks claims) : IsRank level := by
  have sub := sublist_of_mem_ranks member
  have sorted := (pairwise_sorted claims).sublist sub
  have trans : IsTrans (Claim α) fun a b => a.sameRank b = true := ⟨fun a b c first second => by
    rw [sameRank_iff] at first second ⊢
    exact ⟨first.1.trans second.1, first.2.trans second.2⟩⟩
  have symm : Std.Symm fun a b : Claim α => a.sameRank b = true := ⟨fun a b equal => by
    rw [sameRank_iff] at equal ⊢
    exact ⟨equal.1.symm, equal.2.symm⟩⟩
  have level_pairwise : level.Pairwise fun a b => a.sameRank b = true :=
    List.isChain_iff_pairwise.mp (List.isChain_of_mem_splitBy member)
  refine ⟨?_, ?_, ?_⟩
  · intro claim inLevel
    exact proper claim (List.mem_mergeSort.mp (sub.subset inLevel))
  · exact (sorted.and level_pairwise).imp fun both => start_le_of_precedes both.1 both.2
  · have same : ∀ a ∈ level, ∀ b ∈ level, a.sameRank b = true :=
      level_pairwise.forall_of_forall fun a _ => sameRank_iff.mpr ⟨rfl, rfl⟩
    intro a inA b inB
    have equal := sameRank_iff.mp (same a inA b inB)
    exact .inr ⟨equal.1.symm, Int.le_of_eq equal.2.symm⟩

theorem pairwise_ranks (claims : List (Claim α)) :
    (ranks claims).Pairwise fun above below => ∀ a ∈ above, ∀ b ∈ below, a.AtLeast b := by
  have sorted := pairwise_sorted claims
  rw [← List.flatten_splitBy Claim.sameRank (claims.mergeSort Claim.precedes)] at sorted
  apply (List.pairwise_flatten.mp sorted).2.imp
  intro above below before a inAbove b inBelow
  exact atLeast_of_precedes (before a inAbove b inBelow)

/-- A contest decides proper claims. -/
theorem decided_resolve {claims : List (Claim α)} (proper : AllProper claims) :
    Decided claims (resolve claims) := by
  have nothing : Decided ([] : List (Claim α)) [] :=
    ⟨by simp, by simp, List.Pairwise.nil, by simp, by simp⟩
  have folded : Decided ([] ++ (ranks claims).flatten) ((ranks claims).foldl awardRank []) :=
    nothing.foldl_awardRank (fun level member => isRank_of_mem_ranks proper member)
      (List.pairwise_cons.mpr ⟨by simp, pairwise_ranks claims⟩)
  have mem_claims : ∀ claim : Claim α, claim ∈ [] ++ (ranks claims).flatten ↔ claim ∈ claims := by
    intro claim
    rw [List.nil_append, ranks, List.flatten_splitBy, List.mem_mergeSort]
  have mem_awards : ∀ award, award ∈ resolve claims ↔
      award ∈ (ranks claims).foldl awardRank [] := fun award => List.mem_mergeSort
  have perm := List.mergeSort_perm ((ranks claims).foldl awardRank [])
    fun a b => a.extent.start ≤ b.extent.start
  refine ⟨?_, ?_, ?_, ?_, ?_⟩
  · intro award member
    exact folded.proper award ((mem_awards award).mp member)
  · intro award member
    obtain ⟨claim, among, stop⟩ := folded.bounded award ((mem_awards award).mp member)
    exact ⟨claim, (mem_claims claim).mp among, stop⟩
  · refine (perm.pairwise_iff ?_).mpr folded.apart
    intro a b apart
    rwa [Extent.overlaps_comm]
  · intro award member low high le above below
    obtain ⟨backer, among, backs⟩ :=
      folded.backed award ((mem_awards award).mp member) low high le above below
    exact ⟨backer, (mem_claims backer).mp among, backs⟩
  · intro claim member
    obtain ⟨award, awarded, backer, among, backs⟩ :=
      folded.answered claim ((mem_claims claim).mpr member)
    exact ⟨award, (mem_awards award).mpr awarded, backer, (mem_claims backer).mp among, backs⟩

private theorem exists_clusters (claims : List (Claim α)) :
    ∃ groups : List (List (Claim α)), groups.flatten.Subperm claims ∧
      (resolve claims).Perm (groups.flatMap awardCluster) := by
  have folded (levels : List (List (Claim α))) (awards : List (Award α)) :
      ∃ groups : List (List (Claim α)), groups.flatten.Sublist levels.flatten ∧
        levels.foldl awardRank awards = awards ++ groups.flatMap awardCluster := by
    induction levels generalizing awards with
    | nil => exact ⟨[], List.Sublist.slnil, (List.append_nil awards).symm⟩
    | cons level rest ih =>
      obtain ⟨groups, sub, later⟩ := ih (awardRank awards level)
      refine ⟨clusters (level.filter (isOpen awards)) ++ groups, ?_, ?_⟩
      · rw [List.flatten_append, List.flatten_cons, flatten_clusters]
        exact List.filter_sublist.append sub
      · rw [List.foldl_cons, later, awardRank, List.flatMap_append, List.append_assoc]
  obtain ⟨groups, sub, awarded⟩ := folded (ranks claims) []
  have level : (ranks claims).flatten.Perm claims := by
    rw [ranks, List.flatten_splitBy]
    exact List.mergeSort_perm claims Claim.precedes
  refine ⟨groups, sub.subperm.trans level.subperm, ?_⟩
  rw [List.nil_append] at awarded
  rw [resolve, awarded]
  exact List.mergeSort_perm ..

/-- Each award of a contest is one that some of its claims get as a cluster. -/
theorem exists_cluster_of_mem_resolve {claims : List (Claim α)} {award : Award α}
    (awarded : award ∈ resolve claims) :
    ∃ cluster, cluster ⊆ claims ∧ award ∈ awardCluster cluster := by
  obtain ⟨groups, among, perm⟩ := exists_clusters claims
  obtain ⟨cluster, inGroups, ofCluster⟩ := List.mem_flatMap.mp (perm.mem_iff.mp awarded)
  refine ⟨cluster, fun claim inCluster => among.subset ?_, ofCluster⟩
  exact List.mem_flatten.mpr ⟨cluster, inGroups, inCluster⟩

private theorem sublist_grants_awardCluster (cluster : List (Claim α)) :
    ((awardCluster cluster).filterMap Award.grant?).Sublist cluster := by
  rw [awardCluster_eq]
  split
  · exact List.nil_sublist cluster
  · have granted : ((leftmost 0 cluster).map .grant).filterMap Award.grant? =
        leftmost 0 cluster := by
      rw [List.filterMap_map]
      exact List.filterMap_some
    rw [granted]
    exact sublist_leftmost 0 cluster

/-- What is granted was claimed, and no claim is granted twice. -/
theorem subperm_grants (claims : List (Claim α)) :
    ((resolve claims).filterMap Award.grant?).Subperm claims := by
  obtain ⟨groups, among, perm⟩ := exists_clusters claims
  have granted : ((groups.flatMap awardCluster).filterMap Award.grant?).Sublist groups.flatten := by
    rw [List.filterMap_flatMap, ← List.flatMap_id]
    exact List.Sublist.flatMap_right groups fun cluster _ => sublist_grants_awardCluster cluster
  exact (perm.filterMap Award.grant?).subperm.trans (granted.subperm.trans among)

theorem mem_of_grant {claims : List (Claim α)} {winner : Claim α}
    (granted : .grant winner ∈ resolve claims) : winner ∈ claims :=
  (subperm_grants claims).subset (List.mem_filterMap.mpr ⟨_, granted, rfl⟩)

theorem exists_claim_of_ambiguous {claims : List (Claim α)} {extent : Extent} {rules : List Nat}
    (awarded : .ambiguous extent rules ∈ resolve claims) :
    rules ≠ [] ∧ ∀ id ∈ rules, ∃ claim ∈ claims, claim.rule = id := by
  obtain ⟨cluster, among, ofCluster⟩ := exists_cluster_of_mem_resolve awarded
  rw [awardCluster_eq] at ofCluster
  split at ofCluster
  · rename_i several
    rw [List.mem_singleton, Award.ambiguous.injEq] at ofCluster
    rw [← ofCluster.2] at several
    refine ⟨List.ne_nil_of_length_pos (Nat.zero_lt_of_lt several), fun id listed => ?_⟩
    rw [ofCluster.2] at listed
    obtain ⟨claim, inCluster, named⟩ := List.mem_map.mp (mem_ascending.mp listed)
    exact ⟨claim, among inCluster, named⟩
  · simp at ofCluster

/-- The awards of a contest follow each other without overlap. -/
theorem pairwise_resolve {claims : List (Claim α)} (proper : AllProper claims) :
    (resolve claims).Pairwise fun a b => a.extent.stop ≤ b.extent.start := by
  have decided := decided_resolve proper
  have sorted : (resolve claims).Pairwise fun a b => a.extent.start ≤ b.extent.start := by
    have pairwise : (resolve claims).Pairwise fun a b =>
        decide (a.extent.start ≤ b.extent.start) = true := by
      apply List.pairwise_mergeSort
      · intro a b c first second
        simp only [decide_eq_true_eq] at first second ⊢
        exact Nat.le_trans first second
      · intro a b
        simp only [Bool.or_eq_true, decide_eq_true_eq]
        omega
    exact pairwise.imp of_decide_eq_true
  apply (sorted.and decided.apart).imp_of_mem
  intro a b inA inB both
  have aProper := decided.proper a inA
  have bProper := decided.proper b inB
  have apart := both.2
  rw [← Bool.not_eq_true, Extent.overlaps_iff] at apart
  rw [Extent.Proper] at aProper bProper
  omega

/-- Awards that follow each other from a position on, up to a count of statements. -/
structure Spread (count next : Nat) (awards : List (Award α)) : Prop where
  bounded : ∀ award ∈ awards, next ≤ award.extent.start ∧ award.extent.Proper ∧
    award.extent.stop ≤ count
  apart : awards.Pairwise fun a b => a.extent.stop ≤ b.extent.start

theorem Spread.tail {count next : Nat} {award : Award α} {rest : List (Award α)}
    (spread : Spread count next (award :: rest)) : Spread count award.extent.stop rest := by
  have ⟨later, apart⟩ := List.pairwise_cons.mp spread.apart
  refine ⟨fun other member => ⟨later other member, ?_⟩, apart⟩
  exact (spread.bounded other (List.mem_cons_of_mem _ member)).2

theorem spread_resolve {claims : List (Claim α)} {count : Nat} (proper : AllProper claims)
    (inside : ∀ claim ∈ claims, claim.extent.stop ≤ count) : Spread count 0 (resolve claims) := by
  have decided := decided_resolve proper
  refine ⟨fun award awarded => ?_, pairwise_resolve proper⟩
  obtain ⟨claim, member, stop⟩ := decided.bounded award awarded
  exact ⟨Nat.zero_le _, decided.proper award awarded, stop ▸ inside claim member⟩

end Contest

end Codemod
