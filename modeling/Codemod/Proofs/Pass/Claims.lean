import Codemod.Engine.Run
import Codemod.Proofs.Match.Anchor

/-!
# Claims of a pass

A claim on a place is a match there whose guard accepts, and every such match of a rule that is
tried makes a claim. Finding claims puts nothing in place.
-/

namespace Codemod

/-- An event that neither puts a replacement in place nor finds one pending. -/
def Event.isIdle : Event → Bool
  | .applied _ _ => false
  | .diagnosed diagnostic => decide (diagnostic.kind ≠ .passLimitExceeded)
  | _ => true

namespace Trace

def Idle (trace : Trace) : Prop :=
  ∀ event ∈ trace, event.isIdle = true

@[simp] theorem idle_nil : Idle [] := by
  intro event member
  contradiction

@[simp] theorem idle_cons (event : Event) (trace : Trace) :
    Idle (event :: trace) ↔ event.isIdle = true ∧ Idle trace :=
  List.forall_mem_cons

@[simp] theorem idle_append {first second : Trace} :
    Idle (first ++ second) ↔ Idle first ∧ Idle second :=
  List.forall_mem_append

theorem idle_flatMap {items : List α} {trace : α → Trace} :
    Idle (items.flatMap trace) ↔ ∀ item ∈ items, Idle (trace item) := by
  simp only [Idle]
  simp only [List.mem_flatMap]
  grind

@[simp] theorem applied_nil : applied [] = [] := rfl

@[simp] theorem applied_append (first second : Trace) :
    applied (first ++ second) = first.applied ++ second.applied :=
  List.filterMap_append

theorem Idle.applied_eq_nil {trace : Trace} (idle : trace.Idle) : trace.applied = [] := by
  apply List.filterMap_eq_nil_iff.mpr
  intro event member
  have quiet := idle event member
  cases event with
  | applied rule location => contradiction
  | _ => rfl

end Trace

namespace Pass

/-- The guard of a rule, if it has one, accepts a match at an anchor under a version. -/
def Admits (pass : Pass) (rule : Rule) (bindings : Bindings) (anchor : Tree)
    (scope : Option Nat) : Prop :=
  ∀ guard, rule.guard = some guard →
    guard.evaluate bindings (pass.factsAt scope anchor) = .accept

variable {pass : Pass}

private theorem value_accepts {rule : Rule} {bindings : Bindings} {anchor : Tree}
    {scope : Option Nat} {location : Location} :
    (pass.accepts rule bindings anchor scope location).value = true ↔
      pass.Admits rule bindings anchor scope := by
  rw [accepts, Admits]
  cases rule.guard with
  | none => simp
  | some guard =>
    simp only [Option.some.injEq, forall_eq']
    cases guard.cancels bindings (pass.factsAt scope anchor) <;>
      cases guard.evaluate bindings (pass.factsAt scope anchor) <;> simp

/-- Besides that a rule matched, asking its guard tells of stops, refusals and diagnostics only. -/
theorem filterMap_accepts {β : Type} {view : Event → Option β}
    (stops : view .stopRequested = none)
    (refusals : ∀ rule location refusal, view (.refused rule location refusal) = none)
    (diagnoses : ∀ diagnostic, view (.diagnosed diagnostic) = none) (pass : Pass) (rule : Rule)
    (bindings : Bindings) (anchor : Tree) (scope : Option Nat) (location : Location) :
    (pass.accepts rule bindings anchor scope location).trace.filterMap view =
      (view (.matched rule)).toList := by
  have refused (refusal : Refusal) : (refuse rule location refusal).trace.filterMap view = [] := by
    cases refusal <;> simp [refuse, report, refusals, diagnoses]
  rw [accepts]
  cases rule.guard with
  | none =>
    cases matched : view (.matched rule) <;> simp [matched]
  | some guard =>
    simp only [Traced.trace_bind, Traced.trace_emit, List.filterMap_append]
    cases guard.cancels bindings (pass.factsAt scope anchor)
    all_goals
      cases guard.evaluate bindings (pass.factsAt scope anchor)
      all_goals cases matched : view (.matched rule) <;> simp [matched, stops, refused]

private theorem idle_refuse (rule : Rule) (location : Location) (refusal : Refusal) :
    (refuse rule location refusal).trace.Idle := by
  simp only [refuse]
  cases refusal <;> simp [report, Event.isIdle]

private theorem idle_accepts (pass : Pass) (rule : Rule) (bindings : Bindings) (anchor : Tree)
    (scope : Option Nat) (location : Location) :
    (pass.accepts rule bindings anchor scope location).trace.Idle := by
  rw [accepts]
  cases rule.guard with
  | none => simp [Event.isIdle]
  | some guard =>
    simp only [Traced.trace_bind, Traced.trace_emit, Trace.idle_append]
    refine ⟨by simp [Event.isIdle], ?_⟩
    cases guard.cancels bindings (pass.factsAt scope anchor) <;>
      cases guard.evaluate bindings (pass.factsAt scope anchor) <;>
        simp [idle_refuse, Event.isIdle]

private theorem mem_claim {rule : Rule} {found : Option (Bindings × Extent)} {anchor : Tree}
    {scope : Option Nat} {locate : Extent → Location} {claim : Claim Match} :
    claim ∈ (pass.claim rule found anchor scope locate).value ↔
      ∃ bindings extent, found = some (bindings, extent) ∧
        pass.Admits rule bindings anchor scope ∧
        claim = ⟨rule.id, rule.priority, extent, ⟨rule, bindings⟩⟩ := by
  simp only [Pass.claim]
  cases found with
  | none => simp
  | some pair =>
    obtain ⟨bindings, extent⟩ := pair
    simp only [Traced.value_bind, Option.some.injEq, Prod.mk.injEq]
    split
    · rename_i accepted
      have admits := value_accepts.mp accepted
      rw [Traced.value_pure, List.mem_singleton]
      constructor
      · intro same
        exact ⟨bindings, extent, ⟨rfl, rfl⟩, admits, same⟩
      · rintro ⟨_, _, ⟨rfl, rfl⟩, _, same⟩
        exact same
    · rename_i refused
      simp only [Traced.value_pure, List.not_mem_nil, false_iff]
      rintro ⟨_, _, ⟨rfl, rfl⟩, admits, _⟩
      exact refused (value_accepts.mpr admits)

theorem idle_claim (pass : Pass) (rule : Rule) (found : Option (Bindings × Extent)) (anchor : Tree)
    (scope : Option Nat) (locate : Extent → Location) :
    (pass.claim rule found anchor scope locate).trace.Idle := by
  simp only [Pass.claim]
  cases found with
  | none => simp [Event.isIdle]
  | some pair =>
    simp only [Traced.trace_bind, Traced.trace_emit, Trace.idle_append]
    refine ⟨by simp [Event.isIdle], idle_accepts pass rule _ anchor scope _, ?_⟩
    split <;> simp

theorem mem_treeClaims {composite : Bool} {scope : Option Nat} {position : Nat}
    {location : Location} {tree : Tree} {claim : Claim Match} :
    claim ∈ (pass.treeClaims composite scope position location tree).value ↔
      ∃ rule ∈ pass.lookup tree, rule.pattern.isWindow = false ∧
        rule.pattern.composite = composite ∧ ∃ bindings,
          rule.pattern.matchNode pass.language tree = some bindings ∧
          pass.Admits rule bindings tree scope ∧
          claim = ⟨rule.id, rule.priority, .single position, ⟨rule, bindings⟩⟩ := by
  rw [treeClaims]
  simp only [Traced.value_collect, List.mem_flatMap, List.mem_filter, mem_claim, Bool.and_eq_true,
    Bool.not_eq_true', beq_iff_eq, Option.map_eq_some_iff]
  constructor
  · rintro ⟨rule, ⟨tried, single, kind⟩, _, _, ⟨bindings, matched, same⟩, admits, rfl⟩
    cases same
    exact ⟨rule, tried, single, kind, _, matched, admits, rfl⟩
  · rintro ⟨rule, tried, single, kind, bindings, matched, admits, rfl⟩
    exact ⟨rule, ⟨tried, single, kind⟩, bindings, _, ⟨bindings, matched, rfl⟩, admits, rfl⟩

theorem idle_treeClaims (pass : Pass) (composite : Bool) (scope : Option Nat) (position : Nat)
    (location : Location) (tree : Tree) :
    (pass.treeClaims composite scope position location tree).trace.Idle := by
  rw [treeClaims]
  simp only [Traced.trace_collect, Trace.idle_flatMap]
  intro rule _
  exact idle_claim pass rule _ _ scope _

theorem mem_windowClaims {path : List Nat} {scope : Option Nat} {statements : List Tree}
    {start : Nat} {first : Tree} {claim : Claim Match} :
    claim ∈ (pass.windowClaims path scope statements start first).value ↔
      ∃ rule ∈ pass.lookup first, rule.pattern.isWindow = true ∧ ∃ bindings extent,
        rule.pattern.matchWindow pass.language statements start = some (bindings, extent) ∧
        pass.Admits rule bindings first scope ∧
        claim = ⟨rule.id, rule.priority, extent, ⟨rule, bindings⟩⟩ := by
  rw [windowClaims]
  simp only [Traced.value_collect, List.mem_flatMap, List.mem_filter, mem_claim, and_assoc]

private theorem idle_windowClaims (pass : Pass) (path : List Nat) (scope : Option Nat)
    (statements : List Tree) (start : Nat) (first : Tree) :
    (pass.windowClaims path scope statements start first).trace.Idle := by
  rw [windowClaims]
  simp only [Traced.trace_collect, Trace.idle_flatMap]
  intro rule _
  exact idle_claim pass rule _ _ scope _

/-- The claims on a block are those of its statements and those of the windows that start there. -/
theorem mem_blockClaims {path : List Nat} {scope : Option Nat} {statements : List Tree}
    {claim : Claim Match} :
    claim ∈ (pass.blockClaims path scope statements).value ↔
      ∃ (index : Nat) (statement : Tree), statements[index]? = some statement ∧
        (claim ∈ (pass.treeClaims true scope index ⟨path ++ [index], none, statement.span⟩
            statement).value ∨
          claim ∈ (pass.windowClaims path scope statements index statement).value) := by
  rw [blockClaims]
  simp only [Traced.value_collect, List.mem_flatMap, Traced.value_bind, Traced.value_pure,
    List.mem_append, Prod.exists, List.mem_zipIdx_iff_getElem?]
  constructor
  · rintro ⟨statement, index, here, claimed⟩
    exact ⟨index, statement, here, claimed⟩
  · rintro ⟨index, statement, here, claimed⟩
    exact ⟨statement, index, here, claimed⟩

theorem idle_blockClaims (pass : Pass) (path : List Nat) (scope : Option Nat)
    (statements : List Tree) : (pass.blockClaims path scope statements).trace.Idle := by
  rw [blockClaims]
  simp only [Traced.trace_collect, Trace.idle_flatMap]
  rintro ⟨statement, index⟩ _
  simp [idle_treeClaims, idle_windowClaims]

end Pass

end Codemod
