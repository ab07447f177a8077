import Codemod.Proofs.Guard.Leaves
import Codemod.Rule.Basic

/-!
# Conjunctions of guards

The verdict of a guard is that of its leaves in order, so that grouping is of no account and order
only for which refusal is told. Requirements added to a rule one after another are one conjunction.
Without custom guards, more facts about the platform never turn a match down that was accepted.
-/

namespace Codemod

/-- A verdict comes of others, given in order, as that of a conjunction. -/
structure Verdict.SettledBy (verdict : Verdict) (verdicts : List Verdict) : Prop where
  accepts : verdict = .accept ↔ ∀ each ∈ verdicts, each = .accept
  fails : verdict.isUnsatisfied = true ↔ ∃ each ∈ verdicts, each.isUnsatisfied = true
  /-- The first definite refusal is told. -/
  failure : ∀ each, verdicts.find? isUnsatisfied = some each → verdict = each
  /-- Where there is none the first refusal is told. -/
  refusal : verdicts.find? isUnsatisfied = none →
    ∀ each, verdicts.find? (· ≠ .accept) = some each → verdict = each

private theorem Verdict.settledBy_together (verdicts : List Verdict) :
    (together verdicts).SettledBy verdicts where
  accepts := together_eq_accept_iff
  fails := by rw [isUnsatisfied_together, List.any_eq_true]
  failure _ found := together_of_unsatisfied found
  refusal undecided _ found := together_of_refused undecided found

/-- As much is known of the platform and perhaps more: the version is no lower and no capability is
missing. -/
structure Facts.Raises (known facts : Facts) : Prop where
  version : ∀ version, facts.version = some version →
    ∃ higher, known.version = some higher ∧ version ≤ higher
  capabilities : facts.capabilities ⊆ known.capabilities
  receiverType : known.receiverType = facts.receiverType

namespace Guard

variable {bindings : Bindings} {facts known : Facts}

private theorem leavesAll_append (guards others : List Guard) :
    leavesAll (guards ++ others) = leavesAll guards ++ leavesAll others := by
  induction guards with
  | nil => rfl
  | cons guard rest ih => rw [List.cons_append, leavesAll, leavesAll, ih, List.append_assoc]

private theorem leaves_conjoin (required : Option Guard) (guard : Guard) :
    (conjoin required guard).leaves = leavesAll (required.toList ++ [guard]) := by
  cases required with
  | none => simp [conjoin, leavesAll]
  | some other =>
    cases other with
    | all guards => simp [conjoin, leaves, leavesAll_append, leavesAll]
    | _ => rfl

private theorem leavesAll_withGuard (draft : RuleDraft) (guards : List Guard) :
    leavesAll (guards.foldl RuleDraft.withGuard draft).guard.toList =
      leavesAll (draft.guard.toList ++ guards) := by
  induction guards generalizing draft with
  | nil => rw [List.foldl_nil, List.append_nil]
  | cons guard rest ih =>
    have first : leavesAll (draft.withGuard guard).guard.toList =
        leavesAll (draft.guard.toList ++ [guard]) := by
      rw [RuleDraft.withGuard, Option.toList_some, leavesAll, leavesAll, List.append_nil,
        leaves_conjoin]
    rw [List.foldl_cons, ih, leavesAll_append, first, ← leavesAll_append, List.append_assoc,
      List.singleton_append]

private theorem evaluate_withGuard (draft : RuleDraft) (guards : List Guard) :
    (guards.foldl RuleDraft.withGuard draft).guard.elim .accept (evaluate bindings facts) =
      (all (draft.guard.toList ++ guards)).evaluate bindings facts := by
  rw [evaluate_eq_together, leaves, ← leavesAll_withGuard]
  cases (guards.foldl RuleDraft.withGuard draft).guard with
  | none => rfl
  | some guard =>
    rw [Option.elim_some, Option.toList_some, leavesAll, leavesAll, List.append_nil,
      evaluate_eq_together]

private theorem leaf_accepts_of_raises (more : known.Raises facts) {leaf : Guard}
    (isLeaf : ∀ guards, leaf ≠ .all guards) (builtIn : leaf.isCustom = false)
    (accepts : leaf.evaluate bindings facts = .accept) :
    leaf.evaluate bindings known = .accept := by
  cases leaf with
  | minVersion required =>
    obtain ⟨version, declared, enough⟩ := minVersion_accepts_iff.mp accepts
    obtain ⟨higher, raised, above⟩ := more.version version declared
    exact minVersion_accepts_iff.mpr ⟨higher, raised, Nat.le_trans enough above⟩
  | capability name =>
    exact capability_accepts_iff.mpr (more.capabilities (capability_accepts_iff.mp accepts))
  | receiverType type =>
    rw [receiverType_accepts_iff] at accepts ⊢
    rw [more.receiverType, accepts]
  | captureType capture types => exact accepts
  | unreferenced name within => exact accepts
  | custom guard => contradiction
  | all guards => exact absurd rfl (isLeaf guards)

private theorem accepts_of_raises (more : known.Raises facts) {guard : Guard}
    (builtIn : ∀ leaf ∈ guard.leaves, leaf.isCustom = false)
    (accepts : guard.evaluate bindings facts = .accept) :
    guard.evaluate bindings known = .accept := by
  rw [evaluate_eq_accept_iff] at accepts ⊢
  intro leaf member
  have isLeaf : ∀ guards, leaf ≠ .all guards := by
    rintro guards rfl
    exact all_notMem_leaves guard member
  exact leaf_accepts_of_raises more isLeaf (builtIn leaf member) (accepts leaf member)

/-- The verdict of a guard comes of those of its leaves in order. It stays the same when they are
grouped in another way, and its upshot does when they are reordered; requirements of a rule are
one conjunction; and without custom guards no match is turned down for what is known beyond that for
which it was accepted. -/
theorem conjunction_verdict (bindings : Bindings) (facts : Facts) :
    (∀ guard : Guard, (∀ inner, .all inner ∉ guard.leaves) ∧
      (guard.evaluate bindings facts).SettledBy (guard.leaves.map (evaluate bindings facts))) ∧
    (∀ guard other : Guard, guard.leaves = other.leaves →
      guard.evaluate bindings facts = other.evaluate bindings facts) ∧
    (∀ guard other : Guard, guard.leaves.Perm other.leaves →
      (guard.evaluate bindings facts).upshot = (other.evaluate bindings facts).upshot) ∧
    (∀ (draft : RuleDraft) (guards : List Guard),
      (guards.foldl RuleDraft.withGuard draft).guard.elim .accept (evaluate bindings facts) =
        (all (draft.guard.toList ++ guards)).evaluate bindings facts) ∧
    ∀ guard : Guard, (∀ leaf ∈ guard.leaves, leaf.isCustom = false) →
      ∀ known : Facts, known.Raises facts → guard.evaluate bindings facts = .accept →
        guard.evaluate bindings known = .accept := by
  refine ⟨?_, ?_, ?_, ?_, ?_⟩
  · intro guard
    refine ⟨fun inner => all_notMem_leaves guard, ?_⟩
    rw [evaluate_eq_together]
    exact Verdict.settledBy_together _
  · intro guard other regrouped
    rw [evaluate_eq_together, evaluate_eq_together, regrouped]
  · intro guard other reordered
    rw [evaluate_eq_together, evaluate_eq_together]
    apply Verdict.upshot_together_of_mem_iff
    intro verdict
    exact (reordered.map _).mem_iff
  · exact evaluate_withGuard
  · intro guard builtIn known more accepts
    exact accepts_of_raises more builtIn accepts

/-- A number in a place where a version and a capability are needed. -/
def numberInPlace : Guard :=
  .all [.minVersion 28, .all [.captureType "x" ["Int"], .capability "io"]]

def typedCapture (type : String) : Bindings :=
  ⟨[("x", .node { Tree.leaf Tree.nameKind "x" with type := some type })]⟩

theorem numberInPlace_decided :
    let reversed : Guard := .all [.capability "io", .captureType "x" ["Int"], .minVersion 28]
    let bare : Facts := ⟨none, [], none⟩
    let known : Facts := ⟨some 28, ["io"], none⟩
    let raised : Facts := ⟨some 30, ["net", "io"], none⟩
    numberInPlace.evaluate (typedCapture "String") bare = .unsatisfied "?x has type String" ∧
      numberInPlace.leaves.Perm reversed.leaves ∧
      (numberInPlace.evaluate (typedCapture "Int") bare).upshot =
        (reversed.evaluate (typedCapture "Int") bare).upshot ∧
      raised.Raises known ∧ numberInPlace.evaluate (typedCapture "Int") raised = .accept := by
  intro reversed bare known raised
  have settled := ((conjunction_verdict (typedCapture "String") bare).1 numberInPlace).2
  have reordered : numberInPlace.leaves.Perm reversed.leaves := List.reverse_perm reversed.leaves
  have more : raised.Raises known := by
    refine ⟨?_, by simp [raised, known], rfl⟩
    rintro version ⟨⟩
    exact ⟨30, rfl, by decide⟩
  refine ⟨settled.failure _ (by decide +kernel), reordered, ?_, more, ?_⟩
  · exact (conjunction_verdict (typedCapture "Int") bare).2.2.1 _ _ reordered
  · refine (conjunction_verdict (typedCapture "Int") known).2.2.2.2 numberInPlace ?_ raised more
      (by decide +kernel)
    simp [numberInPlace, leaves, leavesAll, isCustom]

end Guard

end Codemod
