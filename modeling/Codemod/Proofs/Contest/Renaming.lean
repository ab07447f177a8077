import Codemod.Proofs.Contest.Resolution
import Mathlib.Data.List.Forall2
import Mathlib.Data.List.Nodup
import Mathlib.Data.List.Pairwise
import Mathlib.Data.List.Permutation

/-!
# Renaming the rules of a contest

A contest looks at rules only to tell them apart. So its outcome does not depend on the order in
which claims are listed, and where rules are renamed it names them by their new names.
-/

namespace Codemod

/-- The claim of a renamed rule, with another payload. -/
def Claim.rename {α β : Type} (id : Nat → Nat) (change : α → β) (claim : Claim α) : Claim β :=
  ⟨id claim.rule, claim.priority, claim.extent, change claim.payload⟩

@[simp] theorem Claim.extent_rename {α β : Type} (id : Nat → Nat) (change : α → β)
    (claim : Claim α) : (claim.rename id change).extent = claim.extent := rfl

def Award.rename {α β : Type} (id : Nat → Nat) (change : α → β) : Award α → Award β
  | .grant claim => .grant (claim.rename id change)
  | .ambiguous extent rules => .ambiguous extent (ascending (rules.map id))

@[simp] theorem Award.extent_rename {α β : Type} (id : Nat → Nat) (change : α → β)
    (award : Award α) : (award.rename id change).extent = award.extent := by
  cases award <;> rfl

theorem sorted_ascending (numbers : List Nat) :
    (ascending numbers).Pairwise fun a b => a ≤ b := by
  have sorted : (ascending numbers).Pairwise fun a b => decide (a ≤ b) = true := by
    apply List.pairwise_mergeSort
    · intro a b c first second
      simp only [decide_eq_true_eq] at first second ⊢
      exact Nat.le_trans first second
    · intro a b
      simp only [Bool.or_eq_true, decide_eq_true_eq]
      omega
  exact sorted.imp of_decide_eq_true

theorem nodup_ascending (numbers : List Nat) : (ascending numbers).Nodup :=
  (List.mergeSort_perm _ _).nodup_iff.mpr (nodup_distinct numbers)

private theorem ascending_eq_of_mem_iff {numbers sorted : List Nat} (unique : sorted.Nodup)
    (increasing : sorted.Pairwise fun a b => a ≤ b)
    (same : ∀ number, number ∈ sorted ↔ number ∈ numbers) : ascending numbers = sorted := by
  have perm : (ascending numbers).Perm sorted := by
    rw [List.perm_ext_iff_of_nodup (nodup_ascending numbers) unique]
    intro number
    rw [mem_ascending, same]
  exact perm.eq_of_pairwise (fun a b _ _ => Nat.le_antisymm) (sorted_ascending numbers) increasing

private theorem ascending_congr {numbers others : List Nat}
    (same : ∀ number, number ∈ numbers ↔ number ∈ others) :
    ascending numbers = ascending others := by
  apply ascending_eq_of_mem_iff (nodup_ascending others) (sorted_ascending others)
  intro number
  rw [mem_ascending, same]

@[simp] theorem ascending_ascending (numbers : List Nat) :
    ascending (ascending numbers) = ascending numbers :=
  ascending_congr fun _ => mem_ascending

private theorem ascending_map_ascending (id : Nat → Nat) (numbers : List Nat) :
    ascending ((ascending numbers).map id) = ascending (numbers.map id) := by
  apply ascending_congr
  intro number
  simp only [List.mem_map, mem_ascending]

private theorem length_ascending_map {id : Nat → Nat} (injective : Function.Injective id)
    (numbers : List Nat) : (ascending (numbers.map id)).length = (ascending numbers).length := by
  have unique : ((ascending numbers).map id).Nodup :=
    List.Nodup.map injective (nodup_ascending numbers)
  have perm : (ascending (numbers.map id)).Perm ((ascending numbers).map id) := by
    rw [List.perm_ext_iff_of_nodup (nodup_ascending _) unique]
    intro number
    simp only [mem_ascending, List.mem_map]
  rw [perm.length_eq, List.length_map]

theorem one_lt_length_ascending {numbers : List Nat} :
    1 < (ascending numbers).length ↔ ∃ a ∈ numbers, ∃ b ∈ numbers, a ≠ b := by
  have unique := nodup_ascending numbers
  simp only [← @mem_ascending numbers]
  generalize ascending numbers = sorted at unique ⊢
  rcases sorted with _ | ⟨a, _ | ⟨b, rest⟩⟩
  · simp
  · simp
  · have differ : a ≠ b := fun same => (List.nodup_cons.mp unique).1 (same ▸ List.mem_cons_self)
    simp only [List.length_cons, Nat.lt_add_left_iff_pos, Nat.zero_lt_succ, true_iff]
    exact ⟨a, List.mem_cons_self, b, List.mem_cons_of_mem a List.mem_cons_self, differ⟩

namespace Contest

private theorem forall₂_perm_of_flatten {γ κ : Type} (key : γ → κ) {lists others : List (List γ)}
    (shape : others.map (List.map key) = lists.map (List.map key))
    (apart : lists.Pairwise fun first second => ∀ a ∈ first, ∀ b ∈ second, key a ≠ key b)
    (perm : others.flatten.Perm lists.flatten) : List.Forall₂ List.Perm others lists := by
  classical
  induction lists generalizing others with
  | nil =>
    rw [List.map_nil, List.map_eq_nil_iff] at shape
    subst shape
    exact .nil
  | cons list rest ih =>
    obtain ⟨other, more, rfl, sameKeys, sameRest⟩ := List.map_eq_cons_iff.mp shape
    obtain ⟨ahead, restApart⟩ := List.pairwise_cons.mp apart
    simp only [List.flatten_cons] at perm
    -- the items of the first list are those whose key occurs in it
    let here (item : γ) : Bool := key item ∈ list.map key
    have inList : ∀ item ∈ list, here item = true := fun item member =>
      decide_eq_true (List.mem_map_of_mem member)
    have inOther : ∀ item ∈ other, here item = true := fun item member =>
      decide_eq_true (sameKeys ▸ List.mem_map_of_mem member)
    have notInRest : ∀ item ∈ rest.flatten, ¬here item = true := by
      intro item member found
      obtain ⟨second, inLists, inSecond⟩ := List.mem_flatten.mp member
      obtain ⟨twin, inFirst, same⟩ := List.mem_map.mp (of_decide_eq_true found)
      exact ahead second inLists twin inFirst item inSecond same
    have notInMore : ∀ item ∈ more.flatten, ¬here item = true := by
      intro item member
      have keys : more.flatten.map key = rest.flatten.map key := by
        rw [List.map_flatten, List.map_flatten, sameRest]
      have listed : key item ∈ rest.flatten.map key := keys ▸ List.mem_map_of_mem member
      obtain ⟨twin, inRest, same⟩ := List.mem_map.mp listed
      have absent := notInRest twin inRest
      simp only [here, same] at absent ⊢
      exact absent
    have first : other.Perm list := by
      have filtered := perm.filter here
      rwa [List.filter_append, List.filter_append, List.filter_eq_self.mpr inOther,
        List.filter_eq_self.mpr inList, List.filter_eq_nil_iff.mpr notInMore,
        List.filter_eq_nil_iff.mpr notInRest, List.append_nil, List.append_nil] at filtered
    have remaining : more.flatten.Perm rest.flatten :=
      (List.perm_append_left_iff list).mp ((first.symm.append_right _).trans perm)
    exact .cons first (ih sameRest restApart remaining)

private theorem map_splitBy_loop {γ δ : Type} {split : γ → γ → Bool} {cut : δ → δ → Bool}
    {change : γ → δ} (agrees : ∀ a b, split a b = cut (change a) (change b)) (items : List γ)
    (last : γ) (group : List γ) (groups : List (List γ)) :
    (List.splitBy.loop split items last group groups).map (List.map change) =
      List.splitBy.loop cut (items.map change) (change last) (group.map change)
        (groups.map (List.map change)) := by
  induction items generalizing last group groups with
  | nil => simp [List.splitBy.loop]
  | cons item rest ih =>
    simp only [List.splitBy.loop, List.map_cons, ← agrees]
    cases split last item with
    | true => exact ih item (last :: group) groups
    | false => simpa using ih item [] ((last :: group).reverse :: groups)

private theorem map_splitBy {γ δ : Type} {split : γ → γ → Bool} {cut : δ → δ → Bool}
    {change : γ → δ} (agrees : ∀ a b, split a b = cut (change a) (change b)) (items : List γ) :
    (items.splitBy split).map (List.map change) = (items.map change).splitBy cut := by
  cases items with
  | nil => rfl
  | cons item rest => exact map_splitBy_loop agrees rest item [] []

variable {α β : Type}

/-- What the order of a contest compares before it comes to the rules. -/
def standing (claim : Claim α) : Nat × Int × Nat :=
  (claim.extent.length, claim.priority, claim.extent.start)

private def Before (a b : Nat × Int × Nat) : Prop :=
  b.1 < a.1 ∨ b.1 = a.1 ∧ (b.2.1 < a.2.1 ∨ b.2.1 = a.2.1 ∧ a.2.2 ≤ b.2.2)

private theorem before_of_precedes {a b : Claim α} (before : a.precedes b = true) :
    Before (standing a) (standing b) := by
  rw [Claim.precedes] at before
  simp only [Before, standing]
  grind

private theorem before_antisymm {a b : Nat × Int × Nat} (first : Before a b) (second : Before b a) :
    a = b := by
  obtain ⟨length, priority, start⟩ := a
  obtain ⟨length', priority', start'⟩ := b
  simp only [Before] at first second
  grind

private theorem before_sorted (claims : List (Claim α)) :
    ((claims.mergeSort Claim.precedes).map standing).Pairwise Before :=
  List.pairwise_map.mpr ((List.pairwise_mergeSort precedes_trans precedes_total claims).imp
    before_of_precedes)

private theorem precedes_refl (claim : Claim α) : claim.precedes claim = true := by
  simpa using precedes_total claim claim

private theorem sameRank_of_between {a b c d : Claim α} (first : a.precedes b = true)
    (second : b.precedes c = true) (third : c.precedes d = true) (level : a.sameRank d = true) :
    b.sameRank c = true := by
  rw [sameRank_iff] at level ⊢
  rw [Claim.precedes] at first second third
  grind

private theorem pairwise_apart_of_isChain {lists : List (List (Claim α))}
    (sorted : lists.flatten.Pairwise fun a b => a.precedes b = true)
    (cut : lists.IsChain fun first second => ∃ (ha : first ≠ []) (hb : second ≠ []),
      (first.getLast ha).sameRank (second.head hb) = false) :
    lists.Pairwise fun above below => ∀ a ∈ above, ∀ b ∈ below, a.sameRank b = false := by
  induction lists with
  | nil => exact .nil
  | cons list rest ih =>
    rw [List.flatten_cons, List.pairwise_append] at sorted
    obtain ⟨here, below, ahead⟩ := sorted
    refine List.pairwise_cons.mpr ⟨?_, ih below cut.tail⟩
    intro other inRest a inList b inOther
    cases rest with
    | nil => contradiction
    | cons next more =>
      obtain ⟨some_list, some_next, differs⟩ := (List.isChain_cons_cons.mp cut).1
      have toLast := here.rel_getLast_of_rel_getLast_getLast inList (precedes_refl _)
      rw [List.flatten_cons, List.pairwise_append] at below
      have fromHead : (next.head some_next).precedes b = true := by
        rcases List.mem_cons.mp inRest with rfl | inMore
        · exact below.1.rel_head_of_rel_head_head inOther (precedes_refl _)
        · exact below.2.2 _ (List.head_mem some_next) b
            (List.mem_flatten.mpr ⟨other, inMore, inOther⟩)
      have between := ahead _ (List.getLast_mem some_list) _
        (List.mem_flatten.mpr ⟨next, List.mem_cons_self, List.head_mem some_next⟩)
      by_contra level
      rw [Bool.not_eq_false] at level
      rw [sameRank_of_between toLast between fromHead level] at differs
      contradiction

theorem pairwise_apart_ranks (claims : List (Claim α)) :
    (ranks claims).Pairwise fun above below => ∀ a ∈ above, ∀ b ∈ below, a.sameRank b = false := by
  apply pairwise_apart_of_isChain
  · rw [ranks, List.flatten_splitBy]
    exact List.pairwise_mergeSort precedes_trans precedes_total claims
  · exact List.isChain_getLast_head_splitBy Claim.sameRank _

variable {id : Nat → Nat} {change : α → β} {claims : List (Claim α)} {others : List (Claim β)}

private theorem standings_eq (perm : others.Perm (claims.map (Claim.rename id change))) :
    (others.mergeSort Claim.precedes).map standing =
      (claims.mergeSort Claim.precedes).map standing := by
  have listed := (List.mergeSort_perm others Claim.precedes).map standing
  have sorted := (List.mergeSort_perm claims Claim.precedes).map standing
  have same := perm.map standing
  rw [List.map_map] at same
  exact (listed.trans (same.trans sorted.symm)).eq_of_pairwise (fun _ _ _ _ => before_antisymm)
    (before_sorted others) (before_sorted claims)

/-- Length and priority of a claim. -/
private def level (claim : Claim α) : Nat × Int :=
  (claim.extent.length, claim.priority)

private def sameLevel (a b : Nat × Int) : Bool :=
  a.1 == b.1 && a.2 == b.2

private theorem levels_eq (perm : others.Perm (claims.map (Claim.rename id change))) :
    (ranks others).map (List.map level) = (ranks claims).map (List.map level) := by
  have split {γ : Type} (claims : List (Claim γ)) : (ranks claims).map (List.map level) =
      ((claims.mergeSort Claim.precedes).map level).splitBy sameLevel :=
    @map_splitBy _ _ Claim.sameRank sameLevel level (fun _ _ => rfl) _
  have sorted := congrArg (List.map fun a => (a.1, a.2.1)) (standings_eq perm)
  rw [List.map_map, List.map_map] at sorted
  rw [split, split]
  exact congrArg (List.splitBy sameLevel) sorted

/-- Claims that were renamed fall into the same ranks. -/
theorem forall₂_ranks (perm : others.Perm (claims.map (Claim.rename id change))) :
    List.Forall₂ List.Perm (ranks others)
      ((ranks claims).map (List.map (Claim.rename id change))) := by
  apply forall₂_perm_of_flatten level
  · rw [levels_eq perm, List.map_map]
    apply List.map_congr_left
    intro list _
    rw [Function.comp_apply, List.map_map]
    rfl
  · refine List.pairwise_map.mpr ((pairwise_apart_ranks claims).imp ?_)
    intro above below apart image inAbove other inBelow same
    obtain ⟨a, aMember, rfl⟩ := List.mem_map.mp inAbove
    obtain ⟨b, bMember, rfl⟩ := List.mem_map.mp inBelow
    have differs := apart a aMember b bMember
    rw [← Bool.not_eq_true, sameRank_iff] at differs
    exact differs (Prod.ext_iff.mp same)
  · rw [ranks, ranks, List.flatten_splitBy, ← List.map_flatten, List.flatten_splitBy]
    exact (List.mergeSort_perm others _).trans
      (perm.trans ((List.mergeSort_perm claims _).map _).symm)

private theorem map_growCluster {f : Claim α → Claim β}
    (keeps : ∀ claim, (f claim).extent = claim.extent) (cluster : List (Claim α)) (reach : Nat)
    (claims : List (Claim α)) : growCluster (cluster.map f) reach (claims.map f) =
      (growCluster cluster reach claims).map (List.map f) := by
  induction claims generalizing cluster reach with
  | nil => rfl
  | cons claim rest ih =>
    simp only [List.map_cons, growCluster, keeps]
    split
    · simpa using ih (cluster ++ [claim]) (max reach claim.extent.stop)
    · simpa using ih [claim] claim.extent.stop

private theorem map_clusters {f : Claim α → Claim β}
    (keeps : ∀ claim, (f claim).extent = claim.extent)
    (claims : List (Claim α)) : clusters (claims.map f) = (clusters claims).map (List.map f) := by
  cases claims with
  | nil => rfl
  | cons claim rest =>
    simp only [List.map_cons, clusters, keeps]
    exact map_growCluster keeps [claim] claim.extent.stop rest

private theorem map_extent_clusters {claims : List (Claim α)} {others : List (Claim β)}
    (extents : others.map (·.extent) = claims.map (·.extent)) :
    (clusters others).map (List.map (·.extent)) = (clusters claims).map (List.map (·.extent)) := by
  -- both are told by the clusters of claims that are nothing but these extents
  let bare (extent : Extent) : Claim Unit := ⟨0, 0, extent, ()⟩
  have told {γ : Type} (claims : List (Claim γ)) : (clusters claims).map (List.map (·.extent)) =
      (clusters ((claims.map (·.extent)).map bare)).map (List.map (·.extent)) := by
    have keeps : ∀ claim : Claim γ, ((bare ∘ (·.extent)) claim).extent = claim.extent :=
      fun _ => rfl
    rw [List.map_map, map_clusters keeps, List.map_map]
    apply List.map_congr_left
    intro cluster _
    rw [Function.comp_apply, List.map_map]
    rfl
  rw [told, told claims, extents]

private theorem map_leftmost {f : Claim α → Claim β}
    (keeps : ∀ claim, (f claim).extent = claim.extent) (reach : Nat) (claims : List (Claim α)) :
    leftmost reach (claims.map f) = (leftmost reach claims).map f := by
  induction claims generalizing reach with
  | nil => rfl
  | cons claim rest ih =>
    simp only [List.map_cons, leftmost, keeps]
    split
    · rw [ih, List.map_cons]
    · exact ih reach

private theorem IsRank.rename (rank : IsRank claims) (id : Nat → Nat) (change : α → β) :
    IsRank (claims.map (Claim.rename id change)) := by
  refine ⟨?_, List.pairwise_map.mpr rank.ordered, ?_⟩
  · intro image member
    obtain ⟨claim, inClaims, rfl⟩ := List.mem_map.mp member
    exact rank.proper claim inClaims
  · intro image member other inOthers
    obtain ⟨a, aMember, rfl⟩ := List.mem_map.mp member
    obtain ⟨b, bMember, rfl⟩ := List.mem_map.mp inOthers
    exact rank.level a aMember b bMember

private theorem IsRank.same_level (rank : IsRank claims) {a b : Claim α} (aMember : a ∈ claims)
    (bMember : b ∈ claims) : a.extent.length = b.extent.length ∧ a.priority = b.priority := by
  have up := rank.level a aMember b bMember
  have down := rank.level b bMember a aMember
  rw [Claim.AtLeast] at up down
  omega

private theorem IsRank.extent_eq (rank : IsRank claims) {a b : Claim α} (aMember : a ∈ claims)
    (bMember : b ∈ claims) (start : a.extent.start = b.extent.start) : a.extent = b.extent := by
  have sameLength := (rank.same_level aMember bMember).1
  have aProper := rank.proper a aMember
  have bProper := rank.proper b bMember
  rw [Extent.Proper] at aProper bProper
  rw [Extent.length, Extent.length] at sameLength
  cases same : a.extent
  cases same' : b.extent
  simp only [same, same', Extent.mk.injEq] at *
  omega

/-- Claims of one rank have the same extents in whatever order by start they are listed. -/
theorem extents_eq_of_perm {first second : List (Claim α)} (rank : IsRank first)
    (ordered : Ordered second) (perm : second.Perm first) :
    second.map (·.extent) = first.map (·.extent) := by
  have firstOrdered : (first.map (·.extent)).Pairwise fun a b => a.start ≤ b.start :=
    List.pairwise_map.mpr rank.ordered
  have secondOrdered : (second.map (·.extent)).Pairwise fun a b => a.start ≤ b.start :=
    List.pairwise_map.mpr ordered
  refine (perm.map fun claim => claim.extent).eq_of_pairwise ?_ secondOrdered firstOrdered
  intro extent other inSecond inFirst le ge
  obtain ⟨a, among, rfl⟩ := List.mem_map.mp inSecond
  obtain ⟨b, bMember, rfl⟩ := List.mem_map.mp inFirst
  exact rank.extent_eq (perm.mem_iff.mp among) bMember (Nat.le_antisymm le ge)

private theorem forall₂_clusters {first second : List (Claim α)} (rank : IsRank first)
    (ordered : Ordered second) (perm : second.Perm first) :
    List.Forall₂ List.Perm (clusters second) (clusters first) := by
  apply forall₂_perm_of_flatten (·.extent)
  · exact map_extent_clusters (extents_eq_of_perm rank ordered perm)
  · refine (pairwise_ahead_clusters rank.ordered).imp_of_mem ?_
    intro cluster other inClusters _ ahead a aMember b bMember same
    have stop := ahead a aMember b bMember
    have proper := rank.proper a ((sublist_of_mem_clusters inClusters).subset aMember)
    rw [Extent.Proper] at proper
    rw [← same] at stop
    omega
  · rw [flatten_clusters, flatten_clusters]
    exact perm

private theorem hull_eq_of_perm {first second : List (Claim α)} (perm : second.Perm first) :
    hull second = hull first := by
  cases first with
  | nil => rw [perm.eq_nil]
  | cons claim rest =>
    have inFirst : claim ∈ claim :: rest := List.mem_cons_self
    have inSecond := perm.mem_iff.mpr inFirst
    obtain ⟨⟨a, aMember, aStart⟩, _⟩ := hull_start inSecond
    obtain ⟨⟨b, bMember, bStart⟩, _⟩ := hull_start inFirst
    obtain ⟨⟨c, cMember, cStop⟩, _⟩ := hull_stop inSecond
    obtain ⟨⟨d, dMember, dStop⟩, _⟩ := hull_stop inFirst
    have aBound := (hull_start (perm.mem_iff.mp aMember)).2
    have bBound := (hull_start (perm.mem_iff.mpr bMember)).2
    have cBound := (hull_stop (perm.mem_iff.mp cMember)).2
    have dBound := (hull_stop (perm.mem_iff.mpr dMember)).2
    cases same : hull second
    cases same' : hull (claim :: rest)
    simp only [same, same', Extent.mk.injEq] at *
    omega

/-- A rule that claims one extent twice at one priority puts the same there. -/
def Once (change : α → β) (claims : List (Claim α)) : Prop :=
  ∀ a ∈ claims, ∀ b ∈ claims, a.rule = b.rule → a.priority = b.priority → a.extent = b.extent →
    change a.payload = change b.payload

private theorem Once.subset {part : List (Claim α)} (once : Once change claims)
    (sub : part ⊆ claims) : Once change part :=
  fun a aMember b bMember => once a (sub aMember) b (sub bMember)

private theorem eq_map_rename_of_perm {images : List (Claim β)} (once : Once change claims)
    (rank : IsRank claims) (single : ∀ a ∈ claims, ∀ b ∈ claims, a.rule = b.rule)
    (ordered : Ordered images) (perm : images.Perm (claims.map (Claim.rename id change))) :
    images = claims.map (Claim.rename id change) := by
  have renamedOrdered := (rank.rename id change).ordered
  refine perm.eq_of_pairwise ?_ ordered renamedOrdered
  intro image other inImages inOthers le ge
  obtain ⟨a, aMember, rfl⟩ := List.mem_map.mp (perm.mem_iff.mp inImages)
  obtain ⟨b, bMember, rfl⟩ := List.mem_map.mp inOthers
  have rule := single a aMember b bMember
  have priority := (rank.same_level aMember bMember).2
  have extent := rank.extent_eq aMember bMember (Nat.le_antisymm le ge)
  simp only [Claim.rename, Claim.mk.injEq]
  exact ⟨congrArg id rule, priority, extent, once a aMember b bMember rule priority extent⟩

/-- A cluster of renamed claims gets the same awards under the new names. -/
theorem awardCluster_rename {images : List (Claim β)} (injective : Function.Injective id)
    (once : Once change claims) (rank : IsRank claims) (ordered : Ordered images)
    (perm : images.Perm (claims.map (Claim.rename id change))) :
    awardCluster images = (awardCluster claims).map (Award.rename id change) := by
  have names : (claims.map (Claim.rename id change)).map (·.rule) =
      (claims.map (·.rule)).map id := by
    rw [List.map_map, List.map_map]
    rfl
  have rules : ascending (images.map (·.rule)) = ascending ((claims.map (·.rule)).map id) := by
    rw [← names]
    exact ascending_congr fun rule => (perm.map (·.rule)).mem_iff
  have hulls : hull images = hull claims := by
    rw [hull_eq_of_perm perm]
    simp only [hull, List.map_map]
    rfl
  simp only [awardCluster]
  rw [rules, length_ascending_map injective]
  split
  · rw [hulls, List.map_singleton, Award.rename, ascending_map_ascending]
  · rename_i few
    have single : ∀ a ∈ claims, ∀ b ∈ claims, a.rule = b.rule := by
      intro a aMember b bMember
      by_contra differ
      exact few (one_lt_length_ascending.mpr
        ⟨_, List.mem_map_of_mem aMember, _, List.mem_map_of_mem bMember, differ⟩)
    rw [eq_map_rename_of_perm once rank single ordered perm]
    rw [map_leftmost (Claim.extent_rename id change), List.map_map, List.map_map]
    rfl

private theorem flatMap_eq_of_forall₂ {γ δ ε : Type} {related : γ → δ → Prop} {items : List γ}
    {others : List δ} {f : γ → List ε} {g : δ → List ε} (each : List.Forall₂ related items others)
    (agree : ∀ item ∈ items, ∀ other ∈ others, related item other → f item = g other) :
    items.flatMap f = others.flatMap g := by
  induction each with
  | nil => rfl
  | cons first _ ih =>
    rw [List.flatMap_cons, List.flatMap_cons]
    rw [agree _ List.mem_cons_self _ List.mem_cons_self first]
    rw [ih fun item inItems other inOthers =>
      agree item (List.mem_cons_of_mem _ inItems) other (List.mem_cons_of_mem _ inOthers)]

private theorem isOpen_rename (awards : List (Award α)) (claim : Claim α) :
    isOpen (awards.map (Award.rename id change)) (claim.rename id change) =
      isOpen awards claim := by
  simp only [isOpen, List.any_map]
  congr 2
  funext award
  simp only [Function.comp_apply, Award.extent_rename, Claim.rename]

private theorem awardRank_rename {images : List (Claim β)} {awards : List (Award α)}
    (injective : Function.Injective id) (once : Once change claims) (rank : IsRank claims)
    (ordered : Ordered images) (perm : images.Perm (claims.map (Claim.rename id change))) :
    awardRank (awards.map (Award.rename id change)) images =
      (awardRank awards claims).map (Award.rename id change) := by
  have openSub : (claims.filter (isOpen awards)).Sublist claims := List.filter_sublist
  have openRank := rank.sublist openSub
  have openOrdered : Ordered (images.filter (isOpen (awards.map (Award.rename id change)))) :=
    ordered.sublist List.filter_sublist
  have openPerm := perm.filter (isOpen (awards.map (Award.rename id change)))
  rw [List.filter_map] at openPerm
  have same : isOpen (awards.map (Award.rename id change)) ∘ Claim.rename id change =
      isOpen awards := funext fun claim => isOpen_rename awards claim
  rw [same] at openPerm
  have fall := forall₂_clusters (openRank.rename id change) openOrdered openPerm
  rw [map_clusters (Claim.extent_rename id change), List.forall₂_map_right_iff] at fall
  rw [awardRank, awardRank, List.map_append, List.map_flatMap]
  congr 1
  apply flatMap_eq_of_forall₂ fall
  intro image inImages cluster inClusters clusterPerm
  have sub := sublist_of_mem_clusters inClusters
  exact awardCluster_rename injective (once.subset (sub.trans openSub).subset)
    (openRank.sublist sub) (openOrdered.sublist (sublist_of_mem_clusters inImages)) clusterPerm

private theorem foldl_awardRank_rename {levels : List (List (Claim α))}
    {images : List (List (Claim β))} {awards : List (Award α)} (injective : Function.Injective id)
    (once : ∀ claims ∈ levels, Once change claims) (rank : ∀ claims ∈ levels, IsRank claims)
    (ordered : ∀ claims ∈ images, Ordered claims)
    (fall : List.Forall₂ (fun image claims => image.Perm (claims.map (Claim.rename id change)))
      images levels) :
    images.foldl awardRank (awards.map (Award.rename id change)) =
      (levels.foldl awardRank awards).map (Award.rename id change) := by
  induction fall generalizing awards with
  | nil => rfl
  | cons first _ ih =>
    rw [List.foldl_cons, List.foldl_cons]
    rw [awardRank_rename injective (once _ List.mem_cons_self) (rank _ List.mem_cons_self)
      (ordered _ List.mem_cons_self) first]
    apply ih
    · exact fun claims member => once claims (List.mem_cons_of_mem _ member)
    · exact fun claims member => rank claims (List.mem_cons_of_mem _ member)
    · exact fun claims member => ordered claims (List.mem_cons_of_mem _ member)

private theorem ascending_of_mem_awardCluster {cluster : List (Claim α)} {extent : Extent}
    {rules : List Nat} (member : .ambiguous extent rules ∈ awardCluster cluster) :
    ascending rules = rules := by
  simp only [awardCluster] at member
  split at member
  · simp only [List.mem_singleton, Award.ambiguous.injEq] at member
    rw [member.2, ascending_ascending]
  · simp at member

theorem ascending_of_ambiguous {extent : Extent} {rules : List Nat}
    (member : .ambiguous extent rules ∈ resolve claims) : ascending rules = rules := by
  obtain ⟨cluster, _, ofCluster⟩ := exists_cluster_of_mem_resolve member
  exact ascending_of_mem_awardCluster ofCluster

/-- A contest of renamed claims, in whatever order they are listed, has the same outcome under the
new names. -/
theorem resolve_rename (injective : Function.Injective id) (proper : AllProper claims)
    (once : Once change claims) (perm : others.Perm (claims.map (Claim.rename id change))) :
    resolve others = (resolve claims).map (Award.rename id change) := by
  have othersProper : AllProper others := by
    intro image member
    obtain ⟨claim, inClaims, rfl⟩ := List.mem_map.mp (perm.mem_iff.mp member)
    exact proper claim inClaims
  have fall := forall₂_ranks perm
  rw [List.forall₂_map_right_iff] at fall
  have folded := @foldl_awardRank_rename α β id change (ranks claims) (ranks others) [] injective
    ?_ (fun _ => isRank_of_mem_ranks proper)
    (fun _ member => (isRank_of_mem_ranks othersProper member).ordered) fall
  · rw [List.map_nil] at folded
    rw [resolve, resolve, folded]
    refine (List.map_mergeSort ?_).symm
    intro a _ b _
    simp only [Award.extent_rename]
  · intro claims' member
    apply once.subset
    intro claim inLevel
    have sub := List.sublist_flatten_of_mem member
    rw [ranks, List.flatten_splitBy] at sub
    exact List.mem_mergeSort.mp (sub.subset inLevel)

end Contest

/-- What an award tells: of a granted claim its rule, priority and extent. -/
def Award.outline {α : Type} : Award α → Award Unit
  | .grant claim => .grant (claim.rename id fun _ => ())
  | .ambiguous extent rules => .ambiguous extent rules

namespace Contest

variable {α : Type}

private theorem map_outline_resolve {claims : List (Claim α)} {outlines : List (Claim Unit)}
    (proper : AllProper claims) (perm : outlines.Perm (claims.map (Claim.rename id fun _ => ()))) :
    (resolve claims).map Award.outline = resolve outlines := by
  have once : Once (fun _ : α => ()) claims := fun _ _ _ _ _ _ _ => rfl
  rw [resolve_rename Function.injective_id proper once perm]
  apply List.map_congr_left
  intro award member
  cases award with
  | grant claim => rfl
  | ambiguous extent rules =>
    rw [Award.rename, List.map_id, ascending_of_ambiguous member]
    rfl

/-- A contest tells the same in whatever order its claims were found. -/
theorem outline_resolve_of_perm {claims others : List (Claim α)} (proper : AllProper claims)
    (perm : others.Perm claims) :
    (resolve others).map Award.outline = (resolve claims).map Award.outline := by
  have othersProper : AllProper others := fun claim member =>
    proper claim (perm.mem_iff.mp member)
  rw [map_outline_resolve proper (perm.map _), map_outline_resolve othersProper (List.Perm.refl _)]

/-- Two rules tie over three statements, one claims a statement twice, and one is outranked. -/
def rivals : List (Claim String) :=
  [⟨1, 0, ⟨1, 3⟩, "late"⟩, ⟨0, 0, ⟨0, 2⟩, "early"⟩, ⟨2, 0, ⟨4, 5⟩, "first"⟩,
    ⟨2, 0, ⟨4, 5⟩, "second"⟩, ⟨3, -1, ⟨4, 5⟩, "weak"⟩]

theorem outline_resolve_reverse_rivals :
    AllProper rivals ∧ rivals.reverse.Perm rivals ∧
      (resolve rivals.reverse).map Award.outline =
        [.ambiguous ⟨0, 3⟩ [0, 1], .grant ⟨2, 0, ⟨4, 5⟩, ()⟩] ∧
      (resolve rivals.reverse).map Award.outline = (resolve rivals).map Award.outline := by
  have proper : AllProper rivals := by decide
  have perm : rivals.reverse.Perm rivals := List.reverse_perm rivals
  exact ⟨proper, perm, by cbv, outline_resolve_of_perm proper perm⟩

end Contest

/-- The claims of one rule on the same statements, with related payloads. -/
structure Claim.Resembles {α β : Type} (payloads : α → β → Prop) (claim : Claim α)
    (twin : Claim β) : Prop where
  rule_eq : twin.rule = claim.rule
  priority_eq : twin.priority = claim.priority
  extent_eq : twin.extent = claim.extent
  payload : payloads claim.payload twin.payload

inductive Award.Resembles {α β : Type} (payloads : α → β → Prop) : Award α → Award β → Prop where
  | grant {claim : Claim α} {twin : Claim β} (alike : claim.Resembles payloads twin) :
      Resembles payloads (.grant claim) (.grant twin)
  | ambiguous (extent : Extent) (rules : List Nat) :
      Resembles payloads (.ambiguous extent rules) (.ambiguous extent rules)

namespace Contest

variable {α β : Type} {payloads : α → β → Prop} {claims : List (Claim α)} {twins : List (Claim β)}

private theorem exists_pairs (alike : List.Forall₂ (Claim.Resembles payloads) claims twins) :
    ∃ pairs : List (Claim (α × β)), claims = pairs.map (Claim.rename id Prod.fst) ∧
      twins = pairs.map (Claim.rename id Prod.snd) ∧
        ∀ pair ∈ pairs, payloads pair.payload.1 pair.payload.2 := by
  induction alike with
  | nil => exact ⟨[], rfl, rfl, by simp⟩
  | @cons claim twin _ _ first _ ih =>
    obtain ⟨pairs, rfl, rfl, related⟩ := ih
    obtain ⟨_, _, _, payload⟩ := claim
    obtain ⟨rule, priority, extent, other⟩ := twin
    obtain ⟨rfl, rfl, rfl, here⟩ := first
    refine ⟨⟨rule, priority, extent, (payload, other)⟩ :: pairs, rfl, rfl, ?_⟩
    exact List.forall_mem_cons.mpr ⟨here, related⟩

/-- A contest looks at payloads only to hand them on. -/
theorem resembles_resolve (proper : AllProper claims) (once : Once id claims)
    (twinOnce : Once id twins) (alike : List.Forall₂ (Claim.Resembles payloads) claims twins) :
    List.Forall₂ (Award.Resembles payloads) (resolve claims) (resolve twins) := by
  obtain ⟨pairs, rfl, rfl, related⟩ := exists_pairs alike
  have pairsProper : AllProper pairs := fun pair member =>
    proper (pair.rename id Prod.fst) (List.mem_map_of_mem member)
  have pairsOnce : Once Prod.fst pairs := fun a aMember b bMember =>
    once (a.rename id Prod.fst) (List.mem_map_of_mem aMember) (b.rename id Prod.fst)
      (List.mem_map_of_mem bMember)
  have alsoOnce : Once Prod.snd pairs := fun a aMember b bMember =>
    twinOnce (a.rename id Prod.snd) (List.mem_map_of_mem aMember) (b.rename id Prod.snd)
      (List.mem_map_of_mem bMember)
  rw [resolve_rename Function.injective_id pairsProper pairsOnce (List.Perm.refl _),
    resolve_rename Function.injective_id pairsProper alsoOnce (List.Perm.refl _),
    List.forall₂_map_left_iff, List.forall₂_map_right_iff, List.forall₂_same]
  intro award member
  cases award with
  | grant pair =>
    have inPairs := mem_of_grant member
    exact .grant ⟨rfl, rfl, rfl, related pair inPairs⟩
  | ambiguous extent rules => exact .ambiguous extent _

end Contest

end Codemod
