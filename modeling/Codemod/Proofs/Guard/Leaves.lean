import Codemod.Proofs.Guard.Verdicts

/-!
# Leaves of a guard

A guard is a conjunction of its leaves: what it says is what they say together, however they are
grouped.
-/

namespace Codemod.Guard

mutual

/-- The guards at the ends of all conjunctions, in order. -/
def leaves : Guard → List Guard
  | .all guards => leavesAll guards
  | guard => [guard]

def leavesAll : List Guard → List Guard
  | [] => []
  | guard :: rest => leaves guard ++ leavesAll rest

end

mutual

/-- A guard says what its leaves say together. -/
theorem evaluate_eq_together (bindings : Bindings) (facts : Facts) :
    ∀ guard : Guard, guard.evaluate bindings facts =
      .together (guard.leaves.map (evaluate bindings facts))
  | .all guards => by
    rw [evaluate, leaves]
    exact evaluateAll_eq_both bindings facts guards none (by simp)
  | .minVersion _ | .capability _ | .receiverType _ | .captureType _ _ | .unreferenced _ _
  | .custom _ => by
    simp only [leaves, List.map_singleton, Verdict.together_cons]
    exact (Verdict.both_accept _).symm

theorem evaluateAll_eq_both (bindings : Bindings) (facts : Facts) :
    ∀ (guards : List Guard) (pending : Option Refusal),
      (∀ reason, pending = some reason → reason.isReportable = true) →
        evaluateAll bindings facts pending guards = (Verdict.ofPending pending).both
          (.together ((leavesAll guards).map (evaluate bindings facts)))
  | [], pending, _ => by
    rw [leavesAll, List.map_nil, Verdict.together, List.foldr_nil, Verdict.both_accept]
    cases pending <;> rfl
  | guard :: rest, pending, reportable => by
    rw [leavesAll, List.map_append, Verdict.together_append,
      ← evaluate_eq_together bindings facts guard, evaluateAll]
    split
    · rename_i accepted
      rw [accepted, Verdict.accept_both, evaluateAll_eq_both bindings facts rest _ reportable]
    · rename_i why refused
      have definite : (guard.evaluate bindings facts).isUnsatisfied = true := by rw [refused]; rfl
      rw [Verdict.both_of_unsatisfied definite, refused]
      exact (Verdict.both_eq_second (Verdict.isUnsatisfied_ofPending reportable) rfl).symm
    · rename_i reason undecided refused
      have isReportable : reason.isReportable = true := by
        cases reason with
        | unsatisfied why => exact absurd rfl (undecided why)
        | _ => rfl
      have still : ∀ other, pending.or (some reason) = some other → other.isReportable = true := by
        cases pending <;> simp_all
      rw [refused, ← Verdict.both_assoc, Verdict.ofPending_both_refuse isReportable,
        evaluateAll_eq_both bindings facts rest _ still]

end

variable {bindings others : Bindings} {facts known : Facts}

theorem evaluate_eq_accept_iff (bindings : Bindings) (facts : Facts) (guard : Guard) :
    guard.evaluate bindings facts = .accept ↔
      ∀ leaf ∈ guard.leaves, leaf.evaluate bindings facts = .accept := by
  rw [evaluate_eq_together, Verdict.together_eq_accept_iff, List.forall_mem_map]

/-- A conjunction fails for good when one of its leaves does. -/
theorem isUnsatisfied_of_leaf {leaf : Guard} {bindings : Bindings} {facts : Facts}
    (fails : (leaf.evaluate bindings facts).isUnsatisfied = true) (guard : Guard)
    (member : leaf ∈ guard.leaves) : (guard.evaluate bindings facts).isUnsatisfied = true := by
  rw [evaluate_eq_together, Verdict.isUnsatisfied_together, List.any_map, List.any_eq_true]
  exact ⟨leaf, member, fails⟩

theorem evaluate_congr (guard : Guard) (agree : ∀ leaf ∈ guard.leaves,
    leaf.evaluate bindings facts = leaf.evaluate others known) :
    guard.evaluate bindings facts = guard.evaluate others known := by
  rw [evaluate_eq_together, evaluate_eq_together, List.map_congr_left agree]

mutual

theorem receiverType_mem_leaves {type : String} :
    ∀ guard : Guard, guard.pinnedReceiver = some type → .receiverType type ∈ guard.leaves
  | .all guards, pinned => receiverType_mem_leavesAll guards pinned
  | .receiverType _, pinned => by
    rw [pinnedReceiver, Option.some.injEq] at pinned
    simp [leaves, pinned]
  | .minVersion _, pinned | .capability _, pinned | .captureType _ _, pinned
  | .unreferenced _ _, pinned | .custom _, pinned => by simp [pinnedReceiver] at pinned

private theorem receiverType_mem_leavesAll {type : String} :
    ∀ guards : List Guard, pinnedReceiverAny guards = some type →
      .receiverType type ∈ leavesAll guards
  | [], pinned => by simp [pinnedReceiverAny] at pinned
  | guard :: rest, pinned => by
    rw [pinnedReceiverAny, Option.or_eq_some_iff] at pinned
    rw [leavesAll, List.mem_append]
    rcases pinned with here | ⟨_, later⟩
    · exact .inl (receiverType_mem_leaves guard here)
    · exact .inr (receiverType_mem_leavesAll rest later)

end

mutual

theorem all_notMem_leaves {inner : List Guard} : ∀ guard : Guard, .all inner ∉ guard.leaves
  | .all guards => all_notMem_leavesAll guards
  | .minVersion _ | .capability _ | .receiverType _ | .captureType _ _ | .unreferenced _ _
  | .custom _ => by simp [leaves]

private theorem all_notMem_leavesAll {inner : List Guard} :
    ∀ guards : List Guard, .all inner ∉ leavesAll guards
  | [] => List.not_mem_nil
  | guard :: rest => by
    rw [leavesAll, List.mem_append]
    exact not_or_intro (all_notMem_leaves guard) (all_notMem_leavesAll rest)

end

/-- The leaf asks for a static type. -/
def readsType : Guard → Bool
  | .receiverType _ | .captureType _ _ => true
  | _ => false

def readsVersion : Guard → Bool
  | .minVersion _ => true
  | _ => false

/-- The leaf is a test supplied from outside. -/
def isCustom : Guard → Bool
  | .custom _ => true
  | _ => false

mutual

theorem cancels_eq_false (bindings : Bindings) (facts : Facts) : ∀ guard : Guard,
    (∀ leaf ∈ guard.leaves, leaf.isCustom = false) → guard.cancels bindings facts = false
  | .all guards, builtIn => cancelsAny_eq_false bindings facts guards builtIn
  | .custom _, builtIn => nomatch builtIn _ (List.mem_singleton_self _)
  | .minVersion _, _ | .capability _, _ | .receiverType _, _ | .captureType _ _, _
  | .unreferenced _ _, _ => rfl

private theorem cancelsAny_eq_false (bindings : Bindings) (facts : Facts) : ∀ guards : List Guard,
    (∀ leaf ∈ leavesAll guards, leaf.isCustom = false) →
      cancelsAny bindings facts guards = false
  | [], _ => by rw [cancelsAny]
  | guard :: rest, builtIn => by
    rw [leavesAll, List.forall_mem_append] at builtIn
    rw [cancelsAny, cancels_eq_false bindings facts guard builtIn.1,
      cancelsAny_eq_false bindings facts rest builtIn.2, Bool.and_false, Bool.or_false]

end

theorem minVersion_accepts_iff {bindings : Bindings} {facts : Facts} {required : Nat} :
    (minVersion required).evaluate bindings facts = .accept ↔
      ∃ version, facts.version = some version ∧ required ≤ version := by
  rw [evaluate]
  cases h : facts.version with
  | none => simp
  | some version => by_cases enough : required ≤ version <;> simp [enough]

theorem capability_accepts_iff {bindings : Bindings} {facts : Facts} {name : String} :
    (capability name).evaluate bindings facts = .accept ↔ name ∈ facts.capabilities := by
  rw [evaluate]
  by_cases known : name ∈ facts.capabilities <;> simp [known]

theorem receiverType_accepts_iff {bindings : Bindings} {facts : Facts} {type : String} :
    (receiverType type).evaluate bindings facts = .accept ↔ facts.receiverType = some type := by
  rw [evaluate]
  cases h : facts.receiverType with
  | none => simp
  | some known => by_cases same : known = type <;> simp [same, Verdict.unsatisfied]

end Codemod.Guard
