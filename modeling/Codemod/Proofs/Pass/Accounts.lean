import Codemod.Proofs.Pass.Reports
import Codemod.Proofs.Statistics

/-!
# What a pass accounts for

A claim is made for a rule that matched, a contest grants no claim twice, and what is granted is
applied at most once. So no pass applies a rule more often than it matched, and a survey applies
nothing at all.
-/

namespace Codemod

namespace Trace

@[simp] theorem matchedRules_append (first second : Trace) :
    matchedRules (first ++ second) = first.matchedRules ++ second.matchedRules :=
  List.filterMap_append

@[simp] theorem appliedRules_append (first second : Trace) :
    appliedRules (first ++ second) = first.appliedRules ++ second.appliedRules :=
  List.filterMap_append

private theorem matchedRules_flatMap {α : Type} (items : List α) (told : α → Trace) :
    matchedRules (items.flatMap told) = items.flatMap fun item => (told item).matchedRules :=
  List.filterMap_flatMap

theorem map_applied {α : Type} (trace : Trace) {view : Applied → α} {look : Rule → α}
    (same : ∀ rule location, view ⟨rule.id, rule.name, location⟩ = look rule) :
    trace.applied.map view = trace.appliedRules.map look := by
  rw [applied, appliedRules, List.map_filterMap, List.map_filterMap]
  congr 1
  funext event
  cases event with
  | applied rule location => exact congrArg some (same rule location)
  | _ => rfl

theorem flatMap_imports (trace : Trace) :
    trace.flatMap Event.imports = trace.appliedRules.flatMap (·.template.imports) := by
  induction trace with
  | nil => rfl
  | cons event rest ih =>
    rw [List.flatMap_cons, ih]
    cases event <;> rfl

theorem appliedRules_eq_nil_iff {trace : Trace} : trace.appliedRules = [] ↔ trace.applied = [] := by
  have ids : trace.applied.map (·.rule) = trace.appliedRules.map (·.id) :=
    trace.map_applied fun _ _ => rfl
  rw [← List.map_eq_nil_iff (f := fun rule : Rule => rule.id), ← ids, List.map_eq_nil_iff]

end Trace

namespace Pass

variable {pass : Pass} {path : List Nat} {scope : Option Nat}

/-- Claims are made for rules of the catalog that matched. -/
structure Claimed (pass : Pass) (claims : Traced (List (Claim Match))) : Prop where
  isRule : ∀ rule ∈ claims.trace.matchedRules, pass.catalog.rules[rule.id]? = some rule
  matched : (claims.value.map (·.payload.rule)).Sublist claims.trace.matchedRules

private theorem matchedRules_accepts (pass : Pass) (rule : Rule) (bindings : Bindings)
    (anchor : Tree) (scope : Option Nat) (location : Location) :
    (pass.accepts rule bindings anchor scope location).trace.matchedRules = [rule] :=
  filterMap_accepts rfl (fun _ _ _ => rfl) (fun _ => rfl) pass rule bindings anchor scope location

private theorem claimed_claim {rule : Rule} (isRule : pass.catalog.rules[rule.id]? = some rule)
    (found : Option (Bindings × Extent)) (anchor : Tree) (scope : Option Nat)
    (locate : Extent → Location) :
    pass.Claimed (pass.claim rule found anchor scope locate) := by
  simp only [Pass.claim]
  cases found with
  | none => constructor <;> simp [Trace.matchedRules, Event.matchedRule?]
  | some pair =>
    obtain ⟨bindings, extent⟩ := pair
    have told := matchedRules_accepts pass rule bindings anchor scope (locate extent)
    constructor
    · simp only [Traced.trace_bind, Trace.matchedRules_append, told]
      split <;> simp [Trace.matchedRules, Event.matchedRule?, isRule]
    · simp only [Traced.trace_bind, Traced.value_bind, Trace.matchedRules_append, told]
      split <;> simp [Trace.matchedRules, Event.matchedRule?]

private theorem Claimed.collect {α : Type} {items : List α} {step : α → Traced (List (Claim Match))}
    (each : ∀ item ∈ items, pass.Claimed (step item)) :
    pass.Claimed (Traced.collect step items) := by
  constructor
  · rw [Traced.trace_collect, Trace.matchedRules_flatMap]
    intro rule member
    obtain ⟨item, listed, told⟩ := List.mem_flatMap.mp member
    exact (each item listed).isRule rule told
  · rw [Traced.value_collect, Traced.trace_collect, Trace.matchedRules_flatMap, List.map_flatMap]
    exact List.Sublist.flatMap_right items fun item listed => (each item listed).matched

private theorem Claimed.append {first second : Traced (List (Claim Match))}
    (ahead : pass.Claimed first) (behind : pass.Claimed second) :
    pass.Claimed (do
      let claims ← first
      let more ← second
      pure (claims ++ more)) := by
  constructor
  · simp only [Traced.trace_bind, Traced.trace_pure, List.append_nil, Trace.matchedRules_append,
      List.forall_mem_append]
    exact ⟨ahead.isRule, behind.isRule⟩
  · simp only [Traced.trace_bind, Traced.trace_pure, List.append_nil, Trace.matchedRules_append,
      Traced.value_bind, Traced.value_pure, List.map_append]
    exact ahead.matched.append behind.matched

private theorem claimed_treeClaims (sound : pass.Sound) (composite : Bool) (scope : Option Nat)
    (position : Nat) (location : Location) (tree : Tree) :
    pass.Claimed (pass.treeClaims composite scope position location tree) := by
  apply Claimed.collect
  intro rule tried
  exact claimed_claim (sound.getElem?_id (List.mem_of_mem_filter tried)) _ _ _ _

private theorem claimed_blockClaims (sound : pass.Sound) (path : List Nat) (scope : Option Nat)
    (statements : List Tree) : pass.Claimed (pass.blockClaims path scope statements) := by
  apply Claimed.collect
  rintro ⟨statement, index⟩ _
  apply (claimed_treeClaims sound true scope index _ statement).append
  apply Claimed.collect
  intro rule tried
  exact claimed_claim (sound.getElem?_id (List.mem_of_mem_filter tried)) _ _ _ _

/-- The rules whose claims a contest grants. -/
def grantedRules (awards : List (Award Match)) : List Rule :=
  (awards.filterMap Award.grant?).map (·.payload.rule)

private theorem subperm_grantedRules (claims : List (Claim Match)) :
    (grantedRules (Contest.resolve claims)).Subperm (claims.map (·.payload.rule)) := by
  obtain ⟨part, perm, sub⟩ := Contest.subperm_grants claims
  exact ⟨part.map (·.payload.rule), perm.map _, sub.map _⟩

/-- Settling awards applies at most the rules that they grant a claim, and nothing in a survey. -/
structure Settled (pass : Pass) (awards : List (Award Match)) (trace : Trace) : Prop where
  silent : trace.matchedRules = []
  granted : trace.appliedRules.Sublist (grantedRules awards)
  surveyed : pass.mode = .survey → trace.appliedRules = []

private theorem Settled.of_nothing {awards : List (Award Match)} {trace : Trace}
    (silent : trace.matchedRules = []) (nothing : trace.appliedRules = []) :
    pass.Settled awards trace :=
  ⟨silent, nothing ▸ List.nil_sublist _, fun _ => nothing⟩

private theorem Settled.append {awards more : List (Award Match)} {first second : Trace}
    (ahead : pass.Settled awards first) (behind : pass.Settled more second) :
    pass.Settled (awards ++ more) (first ++ second) := by
  constructor
  · rw [Trace.matchedRules_append, ahead.silent, behind.silent, List.append_nil]
  · rw [Trace.appliedRules_append, grantedRules, List.filterMap_append, List.map_append]
    exact ahead.granted.append behind.granted
  · intro survey
    rw [Trace.appliedRules_append, ahead.surveyed survey, behind.surveyed survey, List.append_nil]

private theorem settled_carryOut (pass : Pass) (winner : Claim Match) (claimed : List Tree)
    (location : Location) :
    pass.Settled [.grant winner] (pass.carryOut winner.payload claimed location).trace := by
  cases filled : replacement winner.payload location.span with
  | error error =>
    rw [carryOut_failed pass claimed filled]
    exact .of_nothing rfl rfl
  | ok trees =>
    cases same : Tree.sameAll trees claimed with
    | true =>
      rw [carryOut_unchanged pass filled same]
      exact .of_nothing rfl rfl
    | false =>
      cases mode : pass.mode with
      | survey =>
        rw [carryOut_survey mode filled same]
        exact .of_nothing rfl rfl
      | replace =>
        rw [carryOut_replace mode filled same]
        exact ⟨rfl, List.Sublist.refl _, fun survey => by simp [mode] at survey⟩

private theorem settled_settleAward (pass : Pass) (path : List Nat) (statements : List Tree)
    (award : Award Match) :
    pass.Settled [award] (pass.settleAward path statements award).trace := by
  cases award with
  | ambiguous extent rules => exact .of_nothing rfl rfl
  | grant winner => exact settled_carryOut pass winner _ _

private theorem settled_awards (pass : Pass) (path : List Nat) (statements : List Tree)
    (awards : List (Award Match)) : pass.Settled awards
      (awards.flatMap fun award => (pass.settleAward path statements award).trace) := by
  induction awards with
  | nil => exact .of_nothing rfl rfl
  | cons award rest ih => exact (settled_settleAward pass path statements award).append ih

private theorem settled_settleTree (pass : Pass) (path : List Nat) (tree : Tree)
    (claims : List (Claim Match)) :
    pass.Settled (Contest.resolve claims) (pass.settleTree path tree claims).trace := by
  rw [settleTree]
  cases Contest.resolve claims with
  | nil => exact .of_nothing rfl rfl
  | cons award rest =>
    cases award with
    | ambiguous extent rules => exact .of_nothing rfl rfl
    | grant winner =>
      have first := (settled_carryOut pass winner [tree] ⟨path, none, tree.span⟩).append
        (Settled.of_nothing rfl rfl : pass.Settled rest [])
      simpa using first

/-- Every rule that matched is one of the catalog, each was applied at most as often as it matched,
and a survey applies nothing. -/
structure Balanced (pass : Pass) (trace : Trace) : Prop where
  isRule : ∀ rule ∈ trace.matchedRules, pass.catalog.rules[rule.id]? = some rule
  matched : trace.appliedRules.Subperm trace.matchedRules
  surveyed : pass.mode = .survey → trace.appliedRules = []

private theorem balanced_nil (pass : Pass) : pass.Balanced [] :=
  ⟨List.forall_mem_nil _, List.Subperm.refl _, fun _ => rfl⟩

namespace Balanced

private theorem append {first second : Trace} (ahead : pass.Balanced first)
    (behind : pass.Balanced second) : pass.Balanced (first ++ second) := by
  constructor
  · rw [Trace.matchedRules_append]
    exact List.forall_mem_append.mpr ⟨ahead.isRule, behind.isRule⟩
  · rw [Trace.matchedRules_append, Trace.appliedRules_append]
    exact ahead.matched.append behind.matched
  · intro survey
    rw [Trace.appliedRules_append, ahead.surveyed survey, behind.surveyed survey, List.append_nil]

private theorem flatMap {α : Type} {items : List α} {told : α → Trace}
    (each : ∀ item ∈ items, pass.Balanced (told item)) :
    pass.Balanced (items.flatMap told) :=
  Trace.flatMap_induct (balanced_nil pass) append each

private theorem of_perm {told other : Trace} (balanced : pass.Balanced other)
    (perm : told.Perm other) : pass.Balanced told := by
  have matches_perm := perm.filterMap Event.matchedRule?
  have applied_perm := perm.filterMap Event.appliedRule?
  refine ⟨fun rule member => balanced.isRule rule (matches_perm.mem_iff.mp member), ?_, ?_⟩
  · exact applied_perm.subperm.trans (balanced.matched.trans matches_perm.symm.subperm)
  · exact fun survey => List.Perm.eq_nil (balanced.surveyed survey ▸ applied_perm)

/-- What is applied was granted, what is granted was claimed, and what is claimed has matched. -/
theorem of_settled {claims : Traced (List (Claim Match))} {trace : Trace}
    (claimed : pass.Claimed claims) (idle : claims.trace.Idle)
    (settled : pass.Settled (Contest.resolve claims.value) trace) :
    pass.Balanced (claims.trace ++ trace) := by
  have nothing := Trace.appliedRules_eq_nil_iff.mpr idle.applied_eq_nil
  constructor
  · rw [Trace.matchedRules_append, settled.silent, List.append_nil]
    exact claimed.isRule
  · rw [Trace.matchedRules_append, Trace.appliedRules_append, settled.silent, nothing,
      List.append_nil, List.nil_append]
    exact settled.granted.subperm.trans
      ((subperm_grantedRules claims.value).trans claimed.matched.subperm)
  · intro survey
    rw [Trace.appliedRules_append, nothing, settled.surveyed survey, List.append_nil]

end Balanced

private theorem balanced_decideTree (sound : pass.Sound) (composite : Bool) (path : List Nat)
    (scope : Option Nat) (tree : Tree) :
    pass.Balanced (pass.decideTree composite path scope tree).trace := by
  rw [decideTree, Traced.trace_bind]
  apply Balanced.of_settled (claimed_treeClaims sound composite scope 0 _ tree)
  · exact idle_treeClaims pass composite scope 0 _ tree
  · exact settled_settleTree pass path tree _

private theorem balanced_tryComposite (sound : pass.Sound) (path : List Nat) (scope : Option Nat)
    (tree : Tree) {traversed : Traced Tree} (below : pass.Balanced traversed.trace) :
    pass.Balanced (pass.tryComposite path scope tree traversed).trace := by
  rw [tryComposite_eq, Traced.trace_bind]
  apply (balanced_decideTree sound true path scope tree).append
  split
  · exact balanced_nil pass
  · exact below

variable {root tree : Tree} {steps : List (Traced Tree)}

private theorem balanced_visitBlock (sound : pass.Sound)
    (each : ∀ step ∈ steps, pass.Balanced step.trace) :
    pass.Balanced (pass.visitBlock path (pass.innerScope (pass.scopeAt root path) tree)
      tree.children steps).trace := by
  obtain ⟨visited, part, told⟩ :=
    perm_assemble (awarded_resolve sound root path tree) steps
  rw [visitBlock, Traced.trace_bind]
  have settled := Balanced.of_settled
    (claimed_blockClaims sound path (pass.innerScope (pass.scopeAt root path) tree) tree.children)
    (idle_blockClaims pass path _ tree.children) (settled_awards pass path tree.children _)
  have within : pass.Balanced (visited.flatMap Traced.trace) :=
    .flatMap fun step member => each step (part.subset member)
  refine (settled.append within).of_perm ?_
  rw [List.append_assoc]
  exact told.append_left _

private theorem balanced_visitChildren (sound : pass.Sound)
    (each : ∀ step ∈ steps, pass.Balanced step.trace) :
    pass.Balanced (pass.visitChildren path (pass.innerScope (pass.scopeAt root path) tree)
      tree.kind tree.children steps).trace := by
  rw [visitChildren]
  split
  · exact balanced_visitBlock sound each
  · rw [visitOperands, Traced.trace_all]
    apply Balanced.flatMap
    intro visit member
    obtain ⟨index, here⟩ := List.mem_iff_getElem?.mp member
    obtain ⟨child, inner, _, is_step, rfl⟩ := exists_of_operand here
    exact balanced_tryComposite sound _ _ child (each inner (List.mem_of_getElem? is_step))

private theorem balanced_traverse (sound : pass.Sound) (reached : root.at? path = some tree) :
    pass.Balanced (pass.traverse path (pass.scopeAt root path) tree).trace := by
  apply traverse_induct (motive := fun _ _ step => pass.Balanced step.trace) ?_ reached
  intro path tree reached each
  have visited : ∀ step ∈ pass.traverseAll path (pass.innerScope (pass.scopeAt root path) tree) 0
      tree.children, pass.Balanced step.trace := by
    intro step member
    obtain ⟨index, here⟩ := List.mem_iff_getElem?.mp member
    obtain ⟨child, _, balanced⟩ := each index step here
    exact balanced
  rw [Traced.trace_bind, trace_trySimple]
  exact (balanced_visitChildren sound visited).append
    (balanced_decideTree sound false path _ _)

/-- A whole pass accounts for what it applies. -/
theorem balanced_run (sound : pass.Sound) (root : Tree) :
    pass.Balanced (pass.run root).trace := by
  rw [run_eq]
  exact balanced_tryComposite sound [] _ root (balanced_traverse sound rfl)

end Pass

/-- No import is added and no application is counted. -/
structure Trace.AddsNothing (trace : Trace) : Prop where
  imports_eq : trace.imports = []
  counts : ∀ name, Tally.get trace.statistics.appliedCounts name = 0

theorem Trace.addsNothing_iff {trace : Trace} : trace.AddsNothing ↔ trace.applied = [] := by
  rw [← appliedRules_eq_nil_iff]
  constructor
  · intro nothing
    apply List.eq_nil_iff_forall_not_mem.mpr
    intro rule member
    have uncounted := nothing.counts rule.name
    rw [get_appliedCounts, List.count_eq_zero] at uncounted
    exact uncounted (List.mem_map_of_mem member)
  · intro nothing
    constructor
    · rw [imports, flatMap_imports, nothing]
      rfl
    · intro name
      rw [get_appliedCounts, nothing]
      rfl

namespace Pass

variable {pass : Pass} {path : List Nat} {scope : Option Nat} {tree : Tree}

private theorem carryOut_eq_none_iff (replacing : pass.mode = .replace) (found : Match)
    (claimed : List Tree) (location : Location) :
    (pass.carryOut found claimed location).value = none ↔
      (pass.carryOut found claimed location).trace.AddsNothing := by
  rw [Trace.addsNothing_iff]
  rcases carryOut_cases replacing found claimed location with
    ⟨nothing, idle⟩ | ⟨_, _, _, replaced, applied⟩
  · exact iff_of_true nothing idle.applied_eq_nil
  · simp [replaced, applied]

theorem settleAward_eq_none_iff (replacing : pass.mode = .replace) (path : List Nat)
    (statements : List Tree) (award : Award Match) :
    (pass.settleAward path statements award).value = none ↔
      (pass.settleAward path statements award).trace.AddsNothing := by
  cases award with
  | ambiguous extent rules =>
    rw [Trace.addsNothing_iff]
    exact iff_of_true rfl rfl
  | grant winner => exact carryOut_eq_none_iff replacing _ _ _

theorem decideTree_eq_none_iff (replacing : pass.mode = .replace) (composite : Bool)
    (path : List Nat) (scope : Option Nat) (tree : Tree) :
    (pass.decideTree composite path scope tree).value = none ↔
      (pass.decideTree composite path scope tree).trace.AddsNothing := by
  have idle := idle_treeClaims pass composite scope 0 ⟨path, none, tree.span⟩ tree
  rw [Trace.addsNothing_iff, decideTree, Traced.trace_bind, Trace.applied_append,
    idle.applied_eq_nil, List.nil_append, Traced.value_bind]
  rcases settleTree_cases replacing path tree _ with
    ⟨nothing, quiet⟩ | ⟨winner, claimed, trees, filled, _, replaced, applied⟩
  · exact iff_of_true nothing quiet
  · obtain ⟨rule, _, isNode, _, bindings, _, _, rfl⟩ := mem_treeClaims.mp claimed
    rw [replacement, if_neg (by simp [isNode])] at filled
    cases made : rule.template.instantiateNode bindings tree.span with
    | error error =>
      simp only [made] at filled
      contradiction
    | ok new =>
      simp only [made] at filled
      cases filled
      simp [replaced, applied]

end Pass

end Codemod
