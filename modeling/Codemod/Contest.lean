import Codemod.Distinct
import Codemod.Extent

/-!
# Contests

Several rules may claim overlapping stretches of one list of siblings. Claims are ranked by length
and then by priority, and a claim only sees what higher ranks left open. Overlapping claims of one
rank form a cluster: one rule takes its leftmost claims there, several rules leave the whole cluster
ambiguous, and the cluster blocks what it overlaps either way.
-/

namespace Codemod

structure Claim (α : Type) where
  rule : Nat
  priority : Int
  extent : Extent
  payload : α
deriving DecidableEq, Repr

inductive Award (α : Type) where
  | grant (claim : Claim α)
  | ambiguous (extent : Extent) (rules : List Nat)
deriving DecidableEq, Repr

namespace Claim

/-- The order of a contest: longer, then of higher priority, then further left, then the earlier
rule. -/
def precedes (a b : Claim α) : Bool :=
  if a.extent.length ≠ b.extent.length then b.extent.length < a.extent.length
  else if a.priority ≠ b.priority then b.priority < a.priority
  else if a.extent.start ≠ b.extent.start then a.extent.start < b.extent.start
  else a.rule ≤ b.rule

def sameRank (a b : Claim α) : Bool :=
  a.extent.length == b.extent.length && a.priority == b.priority

end Claim

namespace Award

def extent : Award α → Extent
  | .grant claim => claim.extent
  | .ambiguous extent _ => extent

end Award

namespace Contest

/-- Adds claims to a cluster as long as they start before its reach. -/
def growCluster (cluster : List (Claim α)) (reach : Nat) : List (Claim α) → List (List (Claim α))
  | [] => [cluster]
  | claim :: rest =>
    if claim.extent.start < reach then
      growCluster (cluster ++ [claim]) (max reach claim.extent.stop) rest
    else cluster :: growCluster [claim] claim.extent.stop rest

/-- Splits claims ordered by start into runs connected by overlap. -/
def clusters : List (Claim α) → List (List (Claim α))
  | [] => []
  | claim :: rest => growCluster [claim] claim.extent.stop rest

/-- The claims that start no earlier than the last one taken ends. -/
def leftmost (reach : Nat) : List (Claim α) → List (Claim α)
  | [] => []
  | claim :: rest =>
    if reach ≤ claim.extent.start then claim :: leftmost claim.extent.stop rest
    else leftmost reach rest

/-- The least extent that covers the claims of a cluster. -/
def hull (cluster : List (Claim α)) : Extent :=
  let start := (cluster.map (·.extent.start)).min?.getD 0
  ⟨start, (cluster.map (·.extent.stop)).max?.getD start⟩

def awardCluster (cluster : List (Claim α)) : List (Award α) :=
  let rules := ascending (cluster.map (·.rule))
  if 1 < rules.length then [.ambiguous (hull cluster) rules]
  else (leftmost 0 cluster).map .grant

def isOpen (awards : List (Award α)) (claim : Claim α) : Bool :=
  !awards.any fun award => award.extent.overlaps claim.extent

/-- Decides the claims of one rank after those of higher ranks. -/
def awardRank (awards : List (Award α)) (claims : List (Claim α)) : List (Award α) :=
  awards ++ (clusters (claims.filter (isOpen awards))).flatMap awardCluster

/-- The claims of each rank, highest rank first. -/
def ranks (claims : List (Claim α)) : List (List (Claim α)) :=
  (claims.mergeSort Claim.precedes).splitBy Claim.sameRank

/-- The outcome of a contest, ordered by start. -/
def resolve (claims : List (Claim α)) : List (Award α) :=
  ((ranks claims).foldl awardRank []).mergeSort fun a b => a.extent.start ≤ b.extent.start

end Contest

end Codemod
