import Codemod.Proofs.Catalog.Loaded
import Codemod.Proofs.Engine.Passes
import Mathlib.Data.List.Nodup

/-!
# How awards tile a block

The awards of a block and the gaps between them cover each of its statements once and in order. So
a visit of the block neither drops a statement nor visits one twice.
-/

namespace Codemod

namespace Extent

/-- The positions an extent covers, in order. -/
def positions (extent : Extent) : List Nat :=
  List.range' extent.start extent.length

theorem mem_positions {extent : Extent} {position : Nat} :
    position ∈ extent.positions ↔ position ∈ extent := by
  rw [positions, List.mem_range'_1, mem_iff, length]
  omega

theorem slice_eq_filterMap {α : Type} (extent : Extent) (items : List α) :
    extent.slice items = extent.positions.filterMap (items[·]?) := by
  obtain ⟨start, stop⟩ := extent
  simp only [slice, positions, length]
  generalize stop - start = count
  induction count generalizing start with
  | zero => simp
  | succ count ih =>
    rw [List.range'_succ, List.filterMap_cons, ← ih]
    by_cases inside : start < items.length
    · rw [List.drop_eq_getElem_cons inside, List.getElem?_eq_getElem inside]
      rfl
    · have beyond := Nat.le_of_not_lt inside
      rw [List.drop_eq_nil_of_le beyond, List.drop_eq_nil_of_le (Nat.le_succ_of_le beyond),
        List.getElem?_eq_none beyond]
      simp

private theorem positions_append {start middle stop : Nat} (le : start ≤ middle)
    (ge : middle ≤ stop) :
    positions ⟨start, middle⟩ ++ positions ⟨middle, stop⟩ = positions ⟨start, stop⟩ := by
  have first : middle = start + (middle - start) := (Nat.add_sub_cancel' le).symm
  have whole : middle - start + (stop - middle) = stop - start := by omega
  simp only [positions, length]
  conv_lhs => enter [2, 1]; rw [first]
  rw [List.range'_append_1, whole]

end Extent

/-- A part of a block: what one award covers, or what lies ahead of the next one. -/
inductive Segment (α : Type) where
  | gap (extent : Extent)
  | awarded (award : Award α)

def Segment.extent {α : Type} : Segment α → Extent
  | .gap extent => extent
  | .awarded award => award.extent

/-- The parts of a block from a statement on, where awards are taken in the order given. -/
def segments {α : Type} (count : Nat) : Nat → List (Award α) → List (Segment α)
  | next, [] => [.gap ⟨next, count⟩]
  | next, award :: rest =>
    .gap ⟨next, award.extent.start⟩ :: .awarded award :: segments count award.extent.stop rest

theorem mem_of_awarded_mem_segments {α : Type} {count next : Nat} {award : Award α}
    {awards : List (Award α)} (member : .awarded award ∈ segments count next awards) :
    award ∈ awards := by
  induction awards generalizing next with
  | nil => simp [segments] at member
  | cons first rest ih =>
    simp only [segments, List.mem_cons, reduceCtorEq, Segment.awarded.injEq, false_or] at member ⊢
    exact member.imp_right ih

namespace Contest.Spread

variable {α : Type} {count next : Nat} {award : Award α} {awards rest : List (Award α)}

private theorem forward (spread : Spread count next awards) (within : next ≤ count) :
    ∀ segment ∈ segments count next awards, segment.extent.start ≤ segment.extent.stop := by
  induction awards generalizing next with
  | nil => simpa [segments, Segment.extent] using within
  | cons award rest ih =>
    obtain ⟨later, proper, inside⟩ := spread.bounded award List.mem_cons_self
    simp only [segments, List.forall_mem_cons]
    exact ⟨later, Nat.le_of_lt proper, ih spread.tail inside⟩

/-- The segments cover what remains of a block, in order. -/
theorem positions_eq (spread : Spread count next awards) (within : next ≤ count) :
    (segments count next awards).flatMap (·.extent.positions) = Extent.positions ⟨next, count⟩ := by
  induction awards generalizing next with
  | nil => simp [segments, Segment.extent]
  | cons award rest ih =>
    obtain ⟨later, proper, inside⟩ := spread.bounded award List.mem_cons_self
    have ordered := Nat.le_of_lt proper
    rw [segments, List.flatMap_cons, List.flatMap_cons, ih spread.tail inside]
    simp only [Segment.extent]
    rw [Extent.positions_append ordered inside,
      Extent.positions_append later (Nat.le_trans ordered inside)]

end Contest.Spread

private theorem eq_of_nodup_flatMap {γ δ : Type} {parts : γ → List δ} {items : List γ}
    (unique : (items.flatMap parts).Nodup) {a b : γ} (aMember : a ∈ items) (bMember : b ∈ items)
    {part : δ} (ofA : part ∈ parts a) (ofB : part ∈ parts b) : a = b := by
  have apart := (List.nodup_flatMap.mp unique).2
  have symmetric : Std.Symm (Function.onFun List.Disjoint parts) := ⟨fun _ _ disjoint _ inB inA =>
    disjoint inA inB⟩
  by_contra differ
  exact apart.forall aMember bMember differ ofA ofB

namespace Contest

variable {α : Type} {claims : List (Claim α)}

theorem within_of_mem_resolve {outer : Extent}
    (within : ∀ claim ∈ claims, claim.extent.Within outer) {award : Award α}
    (awarded : award ∈ resolve claims) : award.extent.Within outer := by
  obtain ⟨cluster, among, ofCluster⟩ := exists_cluster_of_mem_resolve awarded
  rcases awardCluster_cases ofCluster with ⟨winner, inCluster, rfl⟩ | ⟨rules, rfl, _⟩
  · exact within winner (among inCluster)
  · cases cluster with
    | nil => simp [awardCluster_eq, leftmost, ascending, distinct, addAllNew] at ofCluster
    | cons first rest =>
      obtain ⟨a, aMember, start⟩ := (hull_start (List.mem_cons_self (a := first))).1
      obtain ⟨b, bMember, stop⟩ := (hull_stop (List.mem_cons_self (a := first))).1
      exact ⟨start ▸ (within a (among aMember)).1, stop ▸ (within b (among bMember)).2⟩

end Contest

namespace Pass

variable {pass : Pass} {path : List Nat} {scope : Option Nat} {statements : List Tree}

/-- Visits a part of a block: the statements of a gap are traversed one after the other, and an
award is settled or else its statements are traversed. -/
def visitSegment (pass : Pass) (path : List Nat) (statements : List Tree)
    (traversed : List (Traced Tree)) : Segment Match → Traced (List Tree)
  | .gap extent => Traced.all (extent.positions.filterMap (traversed[·]?))
  | .awarded award => pass.settleOrTraverse path statements traversed award

private theorem assemble_eq_collect {traversed : List (Traced Tree)} {count : Nat}
    (length_eq : traversed.length = count) (next : Nat) (awards : List (Award Match)) :
    pass.assemble path statements traversed next awards =
      Traced.collect (pass.visitSegment path statements traversed)
        (segments count next awards) := by
  induction awards generalizing next with
  | nil =>
    rw [assemble, ← Extent.slice_eq_drop length_eq, Extent.slice_eq_filterMap]
    apply Traced.eq_of_value_trace <;> simp [segments, visitSegment]
  | cons award rest ih =>
    rw [assemble_cons, ih, Extent.slice_eq_filterMap]
    apply Traced.eq_of_value_trace <;> simp [segments, visitSegment]

/-- The visit of a block goes through its statements once and in order, part by part. -/
structure Tiles (pass : Pass) (path : List Nat) (scope : Option Nat) (statements : List Tree)
    (parts : List (Segment Match)) : Prop where
  visits : pass.visitBlock path scope statements (pass.traverseAll path scope 0 statements) = (do
    let _ ← pass.blockClaims path scope statements
    Traced.collect (pass.visitSegment path statements (pass.traverseAll path scope 0 statements))
      parts)
  forward : ∀ part ∈ parts, part.extent.start ≤ part.extent.stop
  positions : parts.flatMap (·.extent.positions) = List.range statements.length
  once : ∀ index < statements.length, ∃! part, part ∈ parts ∧ index ∈ part.extent

theorem tiles_visitBlock (sound : pass.Sound) (path : List Nat) (scope : Option Nat)
    (statements : List Tree) :
    pass.Tiles path scope statements (segments statements.length 0
      (Contest.resolve (pass.blockClaims path scope statements).value)) := by
  have bounds : ∀ claim ∈ (pass.blockClaims path scope statements).value,
      claim.extent.Proper ∧ claim.extent.stop ≤ statements.length :=
    fun _ => bounds_of_mem_blockClaims sound
  have spread := Contest.spread_resolve (fun claim member => (bounds claim member).1)
    fun claim member => (bounds claim member).2
  have positions := spread.positions_eq (Nat.zero_le statements.length)
  rw [Extent.positions, Extent.length, Nat.sub_zero, ← List.range_eq_range'] at positions
  refine ⟨?_, spread.forward (Nat.zero_le _), positions, ?_⟩
  · rw [visitBlock]
    apply Traced.eq_of_value_trace <;>
      simp [assemble_eq_collect (length_traverseAll pass path scope 0 statements)]
  · intro index inside
    have covered := positions ▸ List.mem_range.mpr inside
    obtain ⟨segment, member, covers⟩ := List.mem_flatMap.mp covered
    refine ⟨segment, ⟨member, Extent.mem_positions.mp covers⟩, ?_⟩
    rintro other ⟨otherMember, otherCovers⟩
    exact eq_of_nodup_flatMap (positions ▸ List.nodup_range) otherMember member
      (Extent.mem_positions.mpr otherCovers) covers

/-- The awards of a contest lie apart on what was claimed, and those of a block tile it. -/
theorem awards_tile :
    (∀ (α : Type) (claims : List (Claim α)), Contest.AllProper claims →
      (∀ award ∈ Contest.resolve claims, award.extent.Proper) ∧
      (Contest.resolve claims).Pairwise (fun a b => a.extent.start < b.extent.start ∧
        ∀ position ∈ a.extent, position ∉ b.extent) ∧
      ∀ winner, .grant winner ∈ Contest.resolve claims → winner ∈ claims) ∧
    (∀ (α : Type) (claims : List (Claim α)) (count : Nat),
      (∀ claim ∈ claims, claim.extent.Within ⟨0, count⟩) →
        ∀ award ∈ Contest.resolve claims, award.extent.Within ⟨0, count⟩) ∧
    ∀ (language : Language) (calls : List Builder.Call) (platform : Platform) (mode : Mode)
      (path : List Nat) (scope : Option Nat) (statements : List Tree),
      let catalog := Catalog.load language calls
      let pass : Pass := ⟨catalog, catalog.candidates, platform, mode⟩
      pass.Tiles path scope statements (segments statements.length 0
        (Contest.resolve (pass.blockClaims path scope statements).value)) := by
  refine ⟨fun α claims proper => ?_, fun α claims count within award awarded => ?_, ?_⟩
  · have decided := Contest.decided_resolve proper
    refine ⟨decided.proper, ?_, fun _ => Contest.mem_of_grant⟩
    apply (Contest.pairwise_resolve proper).imp_of_mem
    intro a b inAwards _ ahead
    refine ⟨Nat.lt_of_lt_of_le (decided.proper a inAwards) ahead, ?_⟩
    rintro position ⟨_, before⟩ ⟨after, _⟩
    exact Nat.not_lt.mpr after (Nat.lt_of_lt_of_le before ahead)
  · exact Contest.within_of_mem_resolve within awarded
  · intro language calls platform mode path scope statements catalog pass
    have sound : pass.Sound := sound_of_coherent (Catalog.coherent_load language calls) rfl
    exact tiles_visitBlock sound path scope statements

/-- A rule that makes one statement of two. -/
def joinDraft : RuleDraft :=
  { name := "join"
    pattern := .window [.leaf Tree.nameKind "a", .leaf Tree.nameKind "b"]
    template := .ofShape (.node (.leaf Tree.nameKind "c")) }

theorem joined_block_tiles :
    let catalog := Catalog.load ({} : Roles).language [.add joinDraft]
    let pass : Pass := ⟨catalog, catalog.candidates, {}, .replace⟩
    let statements : List Tree :=
      [.leaf Tree.nameKind "x", .leaf Tree.nameKind "a", .leaf Tree.nameKind "b"]
    let claims := (pass.blockClaims [] none statements).value
    let awards := Contest.resolve claims
    Contest.AllProper claims ∧ (∀ claim ∈ claims, claim.extent.Within ⟨0, 3⟩) ∧
      awards.map Award.extent = [⟨1, 3⟩] ∧ (∀ award ∈ awards, award.extent.Proper) ∧
      (∀ award ∈ awards, award.extent.Within ⟨0, 3⟩) ∧
      ∃! segment, segment ∈ segments 3 0 awards ∧ 0 ∈ segment.extent := by
  intro catalog pass statements claims awards
  have proper : Contest.AllProper claims := by decide +kernel
  have within : ∀ claim ∈ claims, claim.extent.Within ⟨0, 3⟩ := by decide +kernel
  obtain ⟨apart, inside, tiles⟩ := awards_tile
  have tiled := tiles ({} : Roles).language [.add joinDraft] {} .replace [] none statements
  exact ⟨proper, within, by decide +kernel, (apart Match claims proper).1,
    inside Match claims 3 within, tiled.once 0 (by decide)⟩

end Pass

end Codemod
