import Codemod.Proofs.Pass.Steps
import Mathlib.Data.List.Forall2

/-!
# Surveys

A survey goes the way of a replacing pass up to the first replacement. So either the two are equal,
event by event, and nothing is pending; or the pass replaces something and the survey finds
something pending.
-/

namespace Codemod

/-- A replacing computation and the survey of it. -/
def Agree {α : Type} (pass survey : Traced α) : Prop :=
  (pass = survey ∧ pass.trace.Idle) ∨
    (pass.trace.applied ≠ [] ∧ Engine.pending survey.trace ≠ 0)

namespace Agree

variable {α β : Type}

private theorem refl {traced : Traced α} (idle : traced.trace.Idle) : Agree traced traced :=
  .inl ⟨rfl, idle⟩

private theorem bind {pass survey : Traced α} {next look : α → Traced β} (first : Agree pass survey)
    (second : ∀ value, Agree (next value) (look value)) :
    Agree (pass >>= next) (survey >>= look) := by
  rw [Agree, Engine.pending]
  simp only [Traced.trace_bind, Trace.applied_append, Trace.diagnostics, List.filterMap_append,
    List.countP_append]
  rcases first with ⟨rfl, idle⟩ | ⟨replaces, pending⟩
  · rcases second pass.value with ⟨same, quiet⟩ | ⟨replaces, pending⟩
    · left
      have same : (pass >>= next) = (pass >>= look) := by
        apply Traced.eq_of_value_trace <;> simp [same]
      exact ⟨same, Trace.idle_append.mpr ⟨idle, quiet⟩⟩
    · right
      refine ⟨by simp [replaces], ?_⟩
      rw [Engine.pending, Trace.diagnostics] at pending
      omega
  · right
    refine ⟨by simp [replaces], ?_⟩
    rw [Engine.pending, Trace.diagnostics] at pending
    omega

private theorem all {passes surveys : List (Traced α)} (each : List.Forall₂ Agree passes surveys) :
    Agree (Traced.all passes) (Traced.all surveys) := by
  induction each with
  | nil => exact refl Trace.idle_nil
  | cons first _ ih =>
    apply first.bind
    intro value
    apply ih.bind
    intro values
    exact refl Trace.idle_nil

/-- A pass that applies nothing is its own survey, and finds nothing pending. -/
theorem eq_of_quiet {pass survey : Traced α} (agree : Agree pass survey)
    (quiet : pass.trace.applied = []) : pass = survey ∧ pass.trace.Idle := by
  rcases agree with same | ⟨replaces, _⟩
  · exact same
  · exact absurd quiet replaces

end Agree

private theorem Trace.Idle.pending_eq_zero {trace : Trace} (idle : trace.Idle) :
    Engine.pending trace = 0 := by
  apply List.countP_eq_zero.mpr
  intro diagnostic member
  obtain ⟨event, inTrace, told⟩ := List.mem_filterMap.mp member
  have quiet := idle event inTrace
  cases event with
  | diagnosed other =>
    cases told
    simpa [Event.isIdle] using quiet
  | _ => contradiction

theorem Agree.pending_iff {α : Type} {pass survey : Traced α} (agree : Agree pass survey) :
    Engine.pending survey.trace = 0 ↔ pass.trace.applied = [] := by
  rcases agree with ⟨rfl, idle⟩ | ⟨replaces, pending⟩
  · exact iff_of_true idle.pending_eq_zero idle.applied_eq_nil
  · exact iff_of_false pending replaces

namespace Pass

/-- The same pass in another mode. -/
def inMode (pass : Pass) (mode : Mode) : Pass :=
  { pass with mode }

variable {pass : Pass}

private theorem agree_carryOut (pass : Pass) (found : Match) (claimed : List Tree)
    (location : Location) : Agree ((pass.inMode .replace).carryOut found claimed location)
      ((pass.inMode .survey).carryOut found claimed location) := by
  cases filled : replacement found location.span with
  | error error =>
    rw [carryOut_failed _ claimed filled, carryOut_failed _ claimed filled]
    apply Agree.refl
    simp [Event.isIdle, ofFillError_ne_passLimitExceeded]
  | ok trees =>
    cases same : Tree.sameAll trees claimed with
    | true =>
      rw [carryOut_unchanged _ filled same, carryOut_unchanged _ filled same]
      apply Agree.refl
      simp [Event.isIdle]
    | false =>
      right
      rw [carryOut_replace rfl filled same, carryOut_survey rfl filled same]
      simp [Trace.applied, Event.applied?, Engine.pending, Trace.diagnostics, Event.diagnostic?]

private theorem agree_settleTree (pass : Pass) (path : List Nat) (tree : Tree)
    (claims : List (Claim Match)) : Agree ((pass.inMode .replace).settleTree path tree claims)
      ((pass.inMode .survey).settleTree path tree claims) := by
  unfold settleTree
  simp only
  split
  · exact .refl Trace.idle_nil
  · apply Agree.refl
    simp [report, Event.isIdle]
  · rename_i winner _ _
    apply (agree_carryOut pass winner.payload [tree] ⟨path, none, tree.span⟩).bind
    intro outcome
    exact .refl Trace.idle_nil

private theorem agree_settleAward (pass : Pass) (path : List Nat) (statements : List Tree)
    (award : Award Match) : Agree ((pass.inMode .replace).settleAward path statements award)
      ((pass.inMode .survey).settleAward path statements award) := by
  cases award with
  | ambiguous extent rules =>
    apply Agree.refl
    simp [settleAward, report, Event.isIdle]
  | grant winner => exact agree_carryOut pass winner.payload _ _

private theorem agree_tryComposite (path : List Nat) (scope : Option Nat) (tree : Tree)
    {traversed surveyed : Traced Tree} (below : Agree traversed surveyed) :
    Agree ((pass.inMode .replace).tryComposite path scope tree traversed)
      ((pass.inMode .survey).tryComposite path scope tree surveyed) := by
  rw [tryComposite]
  have claims := Agree.refl (idle_treeClaims pass true scope 0 ⟨path, none, tree.span⟩ tree)
  apply claims.bind
  intro claims
  apply (agree_settleTree pass path tree claims).bind
  intro settled
  cases settled with
  | none => exact below
  | some replaced => exact .refl Trace.idle_nil

private theorem agree_trySimple (path : List Nat) (scope : Option Nat) (tree : Tree) :
    Agree ((pass.inMode .replace).trySimple path scope tree)
      ((pass.inMode .survey).trySimple path scope tree) := by
  rw [trySimple]
  have claims := Agree.refl (idle_treeClaims pass false scope 0 ⟨path, none, tree.span⟩ tree)
  apply claims.bind
  intro claims
  apply (agree_settleTree pass path tree claims).bind
  intro settled
  exact .refl Trace.idle_nil

theorem forall₂_slice {α β : Type} {related : α → β → Prop} {items : List α} {others : List β}
    (each : List.Forall₂ related items others) (extent : Extent) :
    List.Forall₂ related (extent.slice items) (extent.slice others) :=
  List.forall₂_take extent.length (List.forall₂_drop extent.start each)

private theorem agree_assemble (path : List Nat) (statements : List Tree)
    {traversed surveyed : List (Traced Tree)} (each : List.Forall₂ Agree traversed surveyed)
    (next : Nat) (awards : List (Award Match)) :
    Agree ((pass.inMode .replace).assemble path statements traversed next awards)
      ((pass.inMode .survey).assemble path statements surveyed next awards) := by
  induction awards generalizing next with
  | nil =>
    rw [assemble, assemble]
    exact .all (List.forall₂_drop next each)
  | cons award rest ih =>
    rw [assemble_cons, assemble_cons]
    apply (Agree.all (forall₂_slice each ⟨next, award.extent.start⟩)).bind
    intro before
    refine Agree.bind (Agree.bind ?_ ?_) fun after => .refl Trace.idle_nil
    · apply (agree_settleAward pass path statements award).bind
      intro settled
      cases settled with
      | none => exact .all (forall₂_slice each award.extent)
      | some replaced => exact .refl Trace.idle_nil
    · intro here
      apply (ih award.extent.stop).bind
      intro after
      exact .refl Trace.idle_nil

private theorem agree_visitChildren (path : List Nat) (scope : Option Nat) (kind : String)
    (children : List Tree) {traversed surveyed : List (Traced Tree)}
    (each : List.Forall₂ Agree traversed surveyed) :
    Agree ((pass.inMode .replace).visitChildren path scope kind children traversed)
      ((pass.inMode .survey).visitChildren path scope kind children surveyed) := by
  rw [visitChildren]
  show Agree (if pass.language.isBlock kind then _ else _)
    (if pass.language.isBlock kind then _ else _)
  split
  · have claims := Agree.refl (idle_blockClaims pass path scope children)
    apply claims.bind
    intro claims
    exact agree_assemble path children each 0 (Contest.resolve claims)
  · apply Agree.all
    obtain ⟨length, agree⟩ := List.forall₂_iff_get.mp each
    apply List.forall₂_iff_get.mpr
    refine ⟨by simp [length], ?_⟩
    intro index inside other
    simp only [List.get_eq_getElem, List.getElem_mapIdx, List.getElem_zip]
    simp only [List.length_mapIdx, List.length_zip] at inside other
    exact agree_tryComposite _ _ _ (agree index (by omega) (by omega))

private theorem forall₂_traverseAll {children : List Tree}
    (each : ∀ child ∈ children, ∀ path scope,
      Agree ((pass.inMode .replace).traverse path scope child)
        ((pass.inMode .survey).traverse path scope child))
    (path : List Nat) (scope : Option Nat) (index : Nat) :
    List.Forall₂ Agree ((pass.inMode .replace).traverseAll path scope index children)
      ((pass.inMode .survey).traverseAll path scope index children) := by
  induction children generalizing index with
  | nil => exact .nil
  | cons child rest ih =>
    have first := each child List.mem_cons_self (path ++ [index]) scope
    exact .cons first (ih (fun other member => each other (List.mem_cons_of_mem child member)) _)

private theorem agree_traverse (path : List Nat) (scope : Option Nat) (tree : Tree) :
    Agree ((pass.inMode .replace).traverse path scope tree)
      ((pass.inMode .survey).traverse path scope tree) := by
  induction tree using Tree.induct generalizing path scope with
  | step kind text type span children ih =>
    rw [traverse_eq, traverse_eq]
    have each := forall₂_traverseAll (fun child member path scope => ih child member path scope)
      path (pass.innerScope scope ⟨kind, text, type, span, children⟩) 0
    apply (agree_visitChildren path _ kind children each).bind
    intro visited
    exact agree_trySimple path scope _

/-- A replacing pass over a tree and the survey of it agree. -/
theorem agree_run (pass : Pass) (root : Tree) :
    Agree ((pass.inMode .replace).run root) ((pass.inMode .survey).run root) :=
  agree_tryComposite [] pass.platform.minVersion root (agree_traverse [] _ root)

end Pass

end Codemod
