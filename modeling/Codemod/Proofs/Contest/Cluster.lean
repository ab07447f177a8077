import Codemod.Contest

/-!
# Clusters of claims

A cluster is a run of claims, ordered by start, each of which starts before the farthest end of
those ahead of it. So a cluster leaves no gap: whatever overlaps its hull overlaps one of its
claims. Clusters of one rank lie apart from each other, and each of their claims overlaps an award.
-/

namespace Codemod

/-- The claim is behind the award: it is what was granted, or one of those left ambiguous. -/
def Award.Backs {α : Type} (award : Award α) (claim : Claim α) : Prop :=
  match award with
  | .grant winner => winner = claim
  | .ambiguous extent rules =>
    claim.rule ∈ rules ∧ 1 < rules.length ∧
      extent.start ≤ claim.extent.start ∧ claim.extent.stop ≤ extent.stop

namespace Contest

variable {α : Type}

/-- No claim starts before an earlier one of the list. -/
def Ordered (claims : List (Claim α)) : Prop :=
  claims.Pairwise fun a b => a.extent.start ≤ b.extent.start

def AllProper (claims : List (Claim α)) : Prop :=
  ∀ claim ∈ claims, claim.extent.Proper

instance (claims : List (Claim α)) : Decidable (AllProper claims) :=
  inferInstanceAs (Decidable (∀ claim ∈ claims, claim.extent.Proper))

/-- The farthest end among a given one and those of some claims. -/
def farthest (reach : Nat) (claims : List (Claim α)) : Nat :=
  claims.foldl (fun reach claim => max reach claim.extent.stop) reach

/-- Each claim starts before the farthest end of those ahead of it. -/
def Linked (reach : Nat) : List (Claim α) → Prop
  | [] => True
  | claim :: rest => claim.extent.start < reach ∧ Linked (max reach claim.extent.stop) rest

def IsCluster : List (Claim α) → Prop
  | [] => False
  | first :: rest => Linked first.extent.stop rest

private theorem linked_append (reach : Nat) (claims more : List (Claim α)) :
    Linked reach (claims ++ more) ↔ Linked reach claims ∧ Linked (farthest reach claims) more := by
  induction claims generalizing reach with
  | nil => simp [Linked, farthest]
  | cons claim rest ih => simp only [List.cons_append, Linked, ih, and_assoc]; rfl

private theorem farthest_append (reach : Nat) (claims more : List (Claim α)) :
    farthest reach (claims ++ more) = farthest (farthest reach claims) more :=
  List.foldl_append

private theorem le_farthest (reach : Nat) (claims : List (Claim α)) :
    reach ≤ farthest reach claims := by
  induction claims generalizing reach with
  | nil => exact Nat.le_refl _
  | cons claim rest ih => exact Nat.le_trans (Nat.le_max_left reach claim.extent.stop) (ih _)

private theorem stop_le_farthest (reach : Nat) {claims : List (Claim α)} {claim : Claim α}
    (member : claim ∈ claims) : claim.extent.stop ≤ farthest reach claims := by
  induction claims generalizing reach with
  | nil => simp at member
  | cons first rest ih =>
    rcases List.mem_cons.mp member with rfl | member
    · exact Nat.le_trans (Nat.le_max_right reach claim.extent.stop) (le_farthest _ rest)
    · exact ih _ member

private theorem flatten_growCluster (cluster : List (Claim α)) (reach : Nat)
    (claims : List (Claim α)) : (growCluster cluster reach claims).flatten = cluster ++ claims := by
  induction claims generalizing cluster reach with
  | nil => simp [growCluster]
  | cons claim rest ih =>
    rw [growCluster]
    split
    · rw [ih, List.append_assoc]
      rfl
    · rw [List.flatten_cons, ih]
      rfl

@[simp] theorem flatten_clusters (claims : List (Claim α)) :
    (clusters claims).flatten = claims := by
  cases claims with
  | nil => rfl
  | cons claim rest => exact flatten_growCluster [claim] claim.extent.stop rest

private theorem isCluster_of_mem_growCluster {first : Claim α} {more claims : List (Claim α)}
    (linked : Linked first.extent.stop more) {cluster : List (Claim α)}
    (member : cluster ∈ growCluster (first :: more) (farthest first.extent.stop more) claims) :
    IsCluster cluster := by
  induction claims generalizing first more with
  | nil =>
    rw [growCluster, List.mem_singleton] at member
    subst member
    exact linked
  | cons claim rest ih =>
    rw [growCluster] at member
    split at member
    · rename_i within
      have longer : Linked first.extent.stop (more ++ [claim]) :=
        (linked_append _ _ _).mpr ⟨linked, within, trivial⟩
      apply ih longer
      rw [farthest_append]
      exact member
    · rcases List.mem_cons.mp member with rfl | member
      · exact linked
      · exact @ih claim [] trivial member

theorem isCluster_of_mem_clusters {claims cluster : List (Claim α)}
    (member : cluster ∈ clusters claims) : IsCluster cluster := by
  cases claims with
  | nil => simp [clusters] at member
  | cons claim rest => exact @isCluster_of_mem_growCluster α claim [] rest trivial cluster member

/-- The claims of the first list end before those of the second start. -/
def Ahead (cluster other : List (Claim α)) : Prop :=
  ∀ a ∈ cluster, ∀ b ∈ other, a.extent.stop ≤ b.extent.start

private theorem pairwise_ahead_growCluster {cluster : List (Claim α)} {reach : Nat}
    {claims : List (Claim α)} (ordered : Ordered claims)
    (reached : ∀ claim ∈ cluster, claim.extent.stop ≤ reach) :
    (growCluster cluster reach claims).Pairwise Ahead := by
  induction claims generalizing cluster reach with
  | nil => simp [growCluster]
  | cons claim rest ih =>
    obtain ⟨later, restOrdered⟩ := List.pairwise_cons.mp ordered
    rw [growCluster]
    split
    · apply ih restOrdered
      intro other member
      rcases List.mem_append.mp member with member | member
      · exact Nat.le_trans (reached other member) (Nat.le_max_left _ _)
      · rw [List.mem_singleton.mp member]
        exact Nat.le_max_right _ _
    · rename_i beyond
      refine List.pairwise_cons.mpr ⟨?_, ih restOrdered fun other member => ?_⟩
      · intro other member a inCluster b inOther
        have among : b ∈ claim :: rest := by
          have flat := List.mem_flatten.mpr ⟨other, member, inOther⟩
          rwa [flatten_growCluster] at flat
        have start : claim.extent.start ≤ b.extent.start := by
          rcases List.mem_cons.mp among with rfl | among
          · exact Nat.le_refl _
          · exact later b among
        have stop := reached a inCluster
        omega
      · exact List.mem_singleton.mp member ▸ Nat.le_refl _

theorem pairwise_ahead_clusters {claims : List (Claim α)} (ordered : Ordered claims) :
    (clusters claims).Pairwise Ahead := by
  cases claims with
  | nil => exact List.Pairwise.nil
  | cons claim rest =>
    apply pairwise_ahead_growCluster (List.pairwise_cons.mp ordered).2
    intro other member
    exact List.mem_singleton.mp member ▸ Nat.le_refl _

theorem sublist_of_mem_clusters {claims cluster : List (Claim α)}
    (member : cluster ∈ clusters claims) : cluster.Sublist claims := by
  have sub := List.sublist_flatten_of_mem member
  rwa [flatten_clusters] at sub

theorem hull_start {cluster : List (Claim α)} {claim : Claim α} (member : claim ∈ cluster) :
    (∃ a ∈ cluster, a.extent.start = (hull cluster).start) ∧
      (hull cluster).start ≤ claim.extent.start := by
  have listed : claim.extent.start ∈ cluster.map (·.extent.start) := List.mem_map_of_mem member
  obtain ⟨least, some_least⟩ := Option.isSome_iff_exists.mp (List.isSome_min?_of_mem listed)
  obtain ⟨attained, bound⟩ := List.min?_eq_some_iff.mp some_least
  have start : (hull cluster).start = least := by simp [hull, some_least]
  rw [start]
  exact ⟨List.mem_map.mp attained, bound _ listed⟩

theorem hull_stop {cluster : List (Claim α)} {claim : Claim α} (member : claim ∈ cluster) :
    (∃ a ∈ cluster, a.extent.stop = (hull cluster).stop) ∧
      claim.extent.stop ≤ (hull cluster).stop := by
  have listed : claim.extent.stop ∈ cluster.map (·.extent.stop) := List.mem_map_of_mem member
  obtain ⟨most, some_most⟩ := Option.isSome_iff_exists.mp (List.isSome_max?_of_mem listed)
  obtain ⟨attained, bound⟩ := List.max?_eq_some_iff.mp some_most
  have stop : (hull cluster).stop = most := by simp [hull, some_most]
  rw [stop]
  exact ⟨List.mem_map.mp attained, bound _ listed⟩

private theorem Linked.covers {floor reach : Nat} (ahead : List (Claim α)) {claims : List (Claim α)}
    (linked : Linked reach claims)
    (covered : ∀ low high, low ≤ high → floor < high → low < reach →
      ∃ claim ∈ ahead, claim.extent.start < high ∧ low < claim.extent.stop)
    {low high : Nat} (le : low ≤ high) (above : floor < high)
    (below : low < farthest reach claims) :
    ∃ claim ∈ ahead ++ claims, claim.extent.start < high ∧ low < claim.extent.stop := by
  induction claims generalizing reach ahead with
  | nil => simpa using covered low high le above below
  | cons claim rest ih =>
    have step : ∀ low high, low ≤ high → floor < high → low < max reach claim.extent.stop →
        ∃ other ∈ ahead ++ [claim], other.extent.start < high ∧ low < other.extent.stop := by
      intro low high le above below
      by_cases inside : low < reach
      · obtain ⟨found, member, meets⟩ := covered low high le above inside
        exact ⟨found, List.mem_append_left _ member, meets⟩
      · -- what lies beyond the reach so far can only meet the claim that was added
        have within := linked.1
        exact ⟨claim, by simp, by omega, by omega⟩
    obtain ⟨found, member, meets⟩ := ih (ahead ++ [claim]) linked.2 step below
    exact ⟨found, by simpa using member, meets⟩

/-- What meets the hull of a cluster meets one of its claims. So does a cut inside the hull, for
which both bounds are the same. -/
theorem IsCluster.covers_hull {cluster : List (Claim α)} (isCluster : IsCluster cluster)
    (ordered : Ordered cluster) {low high : Nat} (le : low ≤ high)
    (above : (hull cluster).start < high) (below : low < (hull cluster).stop) :
    ∃ claim ∈ cluster, claim.extent.start < high ∧ low < claim.extent.stop := by
  cases cluster with
  | nil => exact isCluster.elim
  | cons first rest =>
    have inCluster : first ∈ first :: rest := List.mem_cons_self
    obtain ⟨⟨a, aMember, aStart⟩, _⟩ := hull_start inCluster
    obtain ⟨⟨b, bMember, bStop⟩, _⟩ := hull_stop inCluster
    have floor : first.extent.start < high := by
      rcases List.mem_cons.mp aMember with rfl | aMember
      · omega
      · have := (List.pairwise_cons.mp ordered).1 a aMember
        omega
    have reach : b.extent.stop ≤ farthest first.extent.stop rest := by
      rcases List.mem_cons.mp bMember with rfl | bMember
      · exact le_farthest _ rest
      · exact stop_le_farthest _ bMember
    apply Linked.covers [first] isCluster ?_ le floor (by omega)
    intro other _ _ above below
    exact ⟨first, List.mem_singleton_self first, above, below⟩

end Contest

end Codemod
