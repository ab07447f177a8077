import Codemod.Proofs.Contest.Renaming
import Mathlib.Logic.Relation

/-!
# The groups behind the awards

Rank by rank, the claims that no award of a higher rank overlaps are divided into groups, and the
awards of the rank are made on those groups. Each step adds to what the earlier ones left, so what
it keeps is true of the groups of a whole contest.
-/

namespace Codemod

variable {α : Type}

namespace Claim

variable {a b c : Claim α}

/-- The first claim is longer, or as long and of a higher priority. -/
def Outranks (a b : Claim α) : Prop :=
  b.extent.length < a.extent.length ∨
    b.extent.length = a.extent.length ∧ b.priority < a.priority

theorem not_atLeast_iff : ¬a.AtLeast b ↔ b.Outranks a := by
  simp only [AtLeast, Outranks]
  omega

theorem Outranks.atLeast (outranks : a.Outranks b) : a.AtLeast b := by
  simp only [AtLeast, Outranks] at *
  omega

theorem outranks_of_atLeast (atLeast : a.AtLeast b) (apart : a.sameRank b = false) :
    a.Outranks b := by
  rw [← Bool.not_eq_true, Contest.sameRank_iff] at apart
  simp only [AtLeast, Outranks] at *
  omega

theorem Outranks.trans_atLeast (first : a.Outranks b) (second : b.AtLeast c) : a.Outranks c := by
  simp only [AtLeast, Outranks] at *
  omega

theorem AtLeast.trans_outranks (first : a.AtLeast b) (second : b.Outranks c) : a.Outranks c := by
  simp only [AtLeast, Outranks] at *
  omega

theorem sameRank_iff_atLeast : a.sameRank b = true ↔ a.AtLeast b ∧ b.AtLeast a := by
  simp only [Contest.sameRank_iff, AtLeast]
  omega

end Claim

namespace Contest

/-- Two claims of a list overlap. -/
def Meet (claims : List (Claim α)) (a b : Claim α) : Prop :=
  a ∈ claims ∧ b ∈ claims ∧ a.extent.overlaps b.extent = true

private theorem Linked.reaches {motive : Claim α → Prop} {reach : Nat}
    (ahead : List (Claim α)) {claims : List (Claim α)} (linked : Linked reach claims)
    (ordered : Ordered (ahead ++ claims)) (proper : AllProper claims)
    (farthest : ∃ last ∈ ahead, last.extent.stop = reach)
    (passes : ∀ a b, Meet (ahead ++ claims) a b → motive a → motive b)
    (holds : ∀ claim ∈ ahead, motive claim) : ∀ claim ∈ claims, motive claim := by
  induction claims generalizing reach ahead with
  | nil => simp
  | cons claim rest ih =>
    obtain ⟨last, inAhead, stop⟩ := farthest
    have later := (List.pairwise_append.mp ordered).2.2 last inAhead claim List.mem_cons_self
    have claimProper := proper claim List.mem_cons_self
    have meet : Meet (ahead ++ claim :: rest) last claim :=
      ⟨List.mem_append_left _ inAhead, List.mem_append_right _ List.mem_cons_self,
        Extent.overlaps_iff.mpr ⟨Nat.lt_of_le_of_lt later claimProper, stop ▸ linked.1⟩⟩
    have here := passes last claim meet (holds last inAhead)
    refine List.forall_mem_cons.mpr ⟨here, ?_⟩
    -- the claim that ends last so far is the same one or the one just reached
    have next : ∃ other ∈ ahead ++ [claim],
        other.extent.stop = max reach claim.extent.stop := by
      by_cases beyond : reach ≤ claim.extent.stop
      · exact ⟨claim, by simp, (Nat.max_eq_right beyond).symm⟩
      · exact ⟨last, by simp [inAhead], by omega⟩
    apply ih (ahead ++ [claim]) linked.2 (by simpa using ordered) ?_ next (by simpa using passes)
    · exact List.forall_mem_append.mpr ⟨holds, by simpa using here⟩
    · exact fun other member => proper other (List.mem_cons_of_mem claim member)

/-- Overlap leads from each claim of a cluster to every other one. -/
theorem IsCluster.connected {cluster : List (Claim α)} (isCluster : IsCluster cluster)
    (ordered : Ordered cluster) (proper : AllProper cluster) {a b : Claim α}
    (aMember : a ∈ cluster) (bMember : b ∈ cluster) :
    Relation.ReflTransGen (Meet cluster) a b := by
  cases cluster with
  | nil => exact isCluster.elim
  | cons first rest =>
    have reached : ∀ claim ∈ first :: rest,
        Relation.ReflTransGen (Meet (first :: rest)) first claim := by
      refine List.forall_mem_cons.mpr ⟨.refl, ?_⟩
      apply Linked.reaches (motive := Relation.ReflTransGen (Meet (first :: rest)) first)
        [first] isCluster ordered
      · exact fun claim member => proper claim (List.mem_cons_of_mem first member)
      · exact ⟨first, List.mem_singleton_self first, rfl⟩
      · exact fun _ _ meet before => before.tail meet
      · simpa using Relation.ReflTransGen.refl
    have : Std.Symm (Meet (first :: rest)) := ⟨fun a b meet =>
      ⟨meet.2.1, meet.1, Extent.overlaps_comm a.extent b.extent ▸ meet.2.2⟩⟩
    exact (Std.Symm.symm _ _ (reached a aMember)).trans (reached b bMember)

/-- An award made on a group of a higher rank overlaps the claim. -/
def Blocked (groups : List (List (Claim α))) (claim : Claim α) : Prop :=
  ∃ group ∈ groups, (∀ other ∈ group, other.Outranks claim) ∧
    ∃ award ∈ awardCluster group, award.extent.overlaps claim.extent = true

/-- The claims of one rank in two groups lie apart. -/
def Separate (group other : List (Claim α)) : Prop :=
  ∀ a ∈ group, ∀ b ∈ other, a.sameRank b = true → a.extent.overlaps b.extent = false

/-- The groups on which the awards for some claims are made. -/
structure Grouping (claims : List (Claim α)) (groups : List (List (Claim α))) : Prop where
  proper : AllProper claims
  rank : ∀ group ∈ groups, IsRank group
  cluster : ∀ group ∈ groups, IsCluster group
  among : ∀ group ∈ groups, group ⊆ claims
  separate : groups.Pairwise Separate
  grouped : ∀ claim ∈ claims, (∃ group ∈ groups, claim ∈ group) ∨ Blocked groups claim
  unblocked : ∀ group ∈ groups, ∀ claim ∈ group, ¬Blocked groups claim

private theorem separate_of_outranks {group other : List (Claim α)}
    (below : ∀ a ∈ group, ∀ b ∈ other, a.Outranks b) : Separate group other := by
  intro a aMember b bMember level
  exact absurd (Claim.sameRank_iff_atLeast.mp level).2
    (Claim.not_atLeast_iff.mpr (below a aMember b bMember))

private theorem blocked_append {groups more : List (List (Claim α))} {claim : Claim α} :
    Blocked (groups ++ more) claim ↔ Blocked groups claim ∨ Blocked more claim := by
  simp only [Blocked, List.mem_append, or_and_right, exists_or]

section Rank

variable {seen level : List (Claim α)} {groups : List (List (Claim α))}

/-- The groups of one rank are the clusters of its open claims. -/
def fresh (groups : List (List (Claim α))) (level : List (Claim α)) : List (List (Claim α)) :=
  clusters (level.filter (isOpen (groups.flatMap awardCluster)))

private theorem sublist_of_mem_fresh {group : List (Claim α)} (new : group ∈ fresh groups level) :
    group.Sublist level :=
  (sublist_of_mem_clusters new).trans List.filter_sublist

private theorem isOpen_of_mem_fresh {group : List (Claim α)} (new : group ∈ fresh groups level)
    {claim : Claim α} (inGroup : claim ∈ group) :
    isOpen (groups.flatMap awardCluster) claim = true :=
  (List.mem_filter.mp ((sublist_of_mem_clusters new).subset inGroup)).2

private theorem separate_fresh (grouping : Grouping seen groups) (rank : IsRank level)
    (below : ∀ a ∈ seen, ∀ b ∈ level, a.Outranks b) :
    (groups ++ fresh groups level).Pairwise Separate := by
  refine List.pairwise_append.mpr ⟨grouping.separate, ?_, ?_⟩
  · apply (pairwise_ahead_clusters (rank.ordered.sublist List.filter_sublist)).imp
    intro group other ahead a aMember b bMember _
    have apart := ahead a aMember b bMember
    rw [← Bool.not_eq_true, Extent.overlaps_iff]
    omega
  · intro group old other new
    exact separate_of_outranks fun a aMember b bMember =>
      below a (grouping.among group old aMember) b ((sublist_of_mem_fresh new).subset bMember)

private theorem grouped_fresh (grouping : Grouping seen groups)
    (below : ∀ a ∈ seen, ∀ b ∈ level, a.Outranks b) {claim : Claim α} (inLevel : claim ∈ level) :
    (∃ group ∈ fresh groups level, claim ∈ group) ∨ Blocked groups claim := by
  by_cases isOpened : isOpen (groups.flatMap awardCluster) claim = true
  · have flat : claim ∈ (fresh groups level).flatten := by
      rw [fresh, flatten_clusters]
      exact List.mem_filter.mpr ⟨inLevel, isOpened⟩
    exact .inl (List.mem_flatten.mp flat)
  · rw [isOpen_iff] at isOpened
    push Not at isOpened
    obtain ⟨award, awarded, meets⟩ := isOpened
    obtain ⟨group, old, ofGroup⟩ := List.mem_flatMap.mp awarded
    refine .inr ⟨group, old, fun other inGroup => ?_, award, ofGroup, Bool.ne_false_iff.mp meets⟩
    exact below other (grouping.among group old inGroup) claim inLevel

private theorem unblocked_fresh {claim : Claim α}
    (above : ∀ other ∈ level, claim.AtLeast other) : ¬Blocked (fresh groups level) claim := by
  rintro ⟨group, new, outranks, _⟩
  obtain ⟨other, inGroup⟩ := (isCluster_of_mem_clusters new).ne_nil
  exact Claim.not_atLeast_iff.mpr (outranks other inGroup)
    (above other ((sublist_of_mem_fresh new).subset inGroup))

private theorem Grouping.awardRank (grouping : Grouping seen groups) (rank : IsRank level)
    (below : ∀ a ∈ seen, ∀ b ∈ level, a.Outranks b) :
    Grouping (seen ++ level) (groups ++ fresh groups level) := by
  refine ⟨List.forall_mem_append.mpr ⟨grouping.proper, rank.proper⟩, ?_, ?_, ?_,
    separate_fresh grouping rank below, ?_, ?_⟩
  · refine List.forall_mem_append.mpr ⟨grouping.rank, fun group new => ?_⟩
    exact rank.sublist (sublist_of_mem_fresh new)
  · exact List.forall_mem_append.mpr ⟨grouping.cluster, fun _ => isCluster_of_mem_clusters⟩
  · refine List.forall_mem_append.mpr ⟨fun group old => ?_, fun group new => ?_⟩
    · exact List.subset_append_of_subset_left level (grouping.among group old)
    · exact List.subset_append_of_subset_right seen (sublist_of_mem_fresh new).subset
  · refine List.forall_mem_append.mpr ⟨fun claim inSeen => ?_, fun claim inLevel => ?_⟩
    · rcases grouping.grouped claim inSeen with ⟨group, old, inGroup⟩ | blocked
      · exact .inl ⟨group, List.mem_append_left _ old, inGroup⟩
      · exact .inr (blocked_append.mpr (.inl blocked))
    · rcases grouped_fresh grouping below inLevel with ⟨group, new, inGroup⟩ | blocked
      · exact .inl ⟨group, List.mem_append_right _ new, inGroup⟩
      · exact .inr (blocked_append.mpr (.inl blocked))
  · refine List.forall_mem_append.mpr ⟨fun group old claim inGroup => ?_,
      fun group new claim inGroup => ?_⟩ <;> rw [blocked_append, not_or]
    · refine ⟨grouping.unblocked group old claim inGroup, unblocked_fresh ?_⟩
      exact fun other inLevel =>
        (below claim (grouping.among group old inGroup) other inLevel).atLeast
    · have inLevel := (sublist_of_mem_fresh new).subset inGroup
      refine ⟨?_, unblocked_fresh (rank.level claim inLevel)⟩
      -- it was open, so the awards made before it lie apart from it
      rintro ⟨other, old, _, award, ofOther, meets⟩
      have apart := isOpen_iff.mp (isOpen_of_mem_fresh new inGroup) award
        (List.mem_flatMap.mpr ⟨other, old, ofOther⟩)
      rw [meets] at apart
      contradiction

end Rank

/-- Ranks decided one after the other make their awards on groups of all their claims. -/
theorem Grouping.foldl_awardRank {seen : List (Claim α)} {groups : List (List (Claim α))}
    (grouping : Grouping seen groups) {levels : List (List (Claim α))}
    (each : ∀ level ∈ levels, IsRank level)
    (descending : (seen :: levels).Pairwise fun above below =>
      ∀ a ∈ above, ∀ b ∈ below, a.Outranks b) :
    ∃ all, Grouping (seen ++ levels.flatten) all ∧
      levels.foldl Contest.awardRank (groups.flatMap awardCluster) = all.flatMap awardCluster := by
  induction levels generalizing seen groups with
  | nil => exact ⟨groups, by simpa using grouping, rfl⟩
  | cons level rest ih =>
    obtain ⟨fromSeen, later⟩ := List.pairwise_cons.mp descending
    obtain ⟨fromLevel, restDescending⟩ := List.pairwise_cons.mp later
    have next := grouping.awardRank (each level List.mem_cons_self)
      (fromSeen level List.mem_cons_self)
    obtain ⟨all, whole, awarded⟩ := ih next
      (fun other member => each other (List.mem_cons_of_mem level member))
      (List.pairwise_cons.mpr ⟨fun other member => List.forall_mem_append.mpr
        ⟨fromSeen other (List.mem_cons_of_mem level member), fromLevel other member⟩,
        restDescending⟩)
    refine ⟨all, ?_, ?_⟩
    · rwa [List.flatten_cons, ← List.append_assoc]
    · rwa [List.flatMap_append] at awarded

/-- The awards are those the groups get as clusters. -/
def MadeOn (awards : List (Award α)) (groups : List (List (Claim α))) : Prop :=
  ∀ award, award ∈ awards ↔ ∃ group ∈ groups, award ∈ awardCluster group

/-- The awards of a contest are made on groups of its claims. -/
theorem exists_grouping {claims : List (Claim α)} (proper : AllProper claims) :
    ∃ groups, Grouping claims groups ∧ MadeOn (resolve claims) groups := by
  have nothing : Grouping ([] : List (Claim α)) [] :=
    ⟨by simp [AllProper], by simp, by simp, by simp, .nil, by simp, by simp⟩
  have descending := ((pairwise_ranks claims).and (pairwise_apart_ranks claims)).imp
    fun {above below} both a inAbove b inBelow =>
      Claim.outranks_of_atLeast (both.1 a inAbove b inBelow) (both.2 a inAbove b inBelow)
  obtain ⟨groups, grouping, awarded⟩ := nothing.foldl_awardRank
    (fun level member => isRank_of_mem_ranks proper member)
    (List.pairwise_cons.mpr ⟨by simp, descending⟩)
  have mem_iff : ∀ claim, claim ∈ [] ++ (ranks claims).flatten ↔ claim ∈ claims := by
    intro claim
    rw [List.nil_append, ranks, List.flatten_splitBy, List.mem_mergeSort]
  refine ⟨groups, ?_, fun award => ?_⟩
  · refine ⟨proper, grouping.rank, grouping.cluster, ?_, grouping.separate, ?_, grouping.unblocked⟩
    · exact fun group inGroups claim inGroup =>
        (mem_iff claim).mp (grouping.among group inGroups inGroup)
    · exact fun claim member => grouping.grouped claim ((mem_iff claim).mpr member)
  · rw [List.flatMap_nil] at awarded
    rw [resolve, List.mem_mergeSort, awarded, List.mem_flatMap]

end Contest

end Codemod
