import Codemod.Proofs.Pass.Simulation
import Mathlib.Data.List.Flatten
import Mathlib.Data.List.Perm.Subperm

/-!
# What a pass reports

Finding claims reports guards that did not decide, and settling them reports what did not come of
them; each rule that is tried and each award that is settled reports at most one thing. A pass over
a tree reports what its claims and awards do and what the traversals of its children do, each at
most once.
-/

namespace Codemod

/-- A guard did not decide, as opposed to a contest or a template that failed. -/
def DiagnosticKind.isRefusal : DiagnosticKind → Bool
  | .unprovenCapability | .unresolvedType => true
  | _ => false

private theorem isRefusal_ofFillError (error : FillError) :
    (DiagnosticKind.ofFillError error).isRefusal = false := by
  cases error <;> rfl

/-- A guard did not decide on what a rule matched at a location. -/
structure Diagnostic.Refuses (diagnostic : Diagnostic) (id : Nat) (location : Location) :
    Prop where
  kind : diagnostic.kind.isRefusal = true
  rules_eq : diagnostic.rules = [id]
  location_eq : diagnostic.location = location

/-- What some rules claimed at a location did not come about, or is pending. -/
structure Diagnostic.Settles (diagnostic : Diagnostic) (claims : List (Claim Match))
    (location : Location) : Prop where
  kind : diagnostic.kind.isRefusal = false
  ne_nil : diagnostic.rules ≠ []
  claimed : ∀ id ∈ diagnostic.rules, ∃ claim ∈ claims, claim.rule = id
  location_eq : diagnostic.location = location

namespace Trace

@[simp] theorem diagnostics_nil : diagnostics [] = [] := rfl

@[simp] theorem diagnostics_append (first second : Trace) :
    diagnostics (first ++ second) = first.diagnostics ++ second.diagnostics :=
  List.filterMap_append

theorem diagnostics_flatMap {α : Type} (items : List α) (told : α → Trace) :
    diagnostics (items.flatMap told) = items.flatMap fun item => (told item).diagnostics :=
  List.filterMap_flatMap

theorem flatMap_induct {α : Type} {holds : Trace → Prop} (nil : holds [])
    (append : ∀ {first second : Trace}, holds first → holds second → holds (first ++ second))
    {items : List α} {told : α → Trace} (each : ∀ item ∈ items, holds (told item)) :
    holds (items.flatMap told) := by
  induction items with
  | nil => exact nil
  | cons item rest ih =>
    exact append (each item List.mem_cons_self)
      (ih fun other member => each other (List.mem_cons_of_mem item member))

/-- At most one diagnostic, and of a certain sort. -/
structure TellsOnce (trace : Trace) (sort : Diagnostic → Prop) : Prop where
  single : trace.diagnostics.length ≤ 1
  told : ∀ diagnostic ∈ trace.diagnostics, sort diagnostic

theorem TellsOnce.mono {trace : Trace} {sort wider : Diagnostic → Prop}
    (once : trace.TellsOnce sort) (widens : ∀ diagnostic, sort diagnostic → wider diagnostic) :
    trace.TellsOnce wider :=
  ⟨once.single, fun diagnostic member => widens diagnostic (once.told diagnostic member)⟩

private theorem tellsOnce_of_eq_nil {trace : Trace} {sort : Diagnostic → Prop}
    (silent : trace.diagnostics = []) : trace.TellsOnce sort := by
  constructor <;> simp [silent]

private theorem tellsOnce_of_eq_singleton {trace : Trace} {sort : Diagnostic → Prop}
    {diagnostic : Diagnostic} (told : trace.diagnostics = [diagnostic])
    (sorted : sort diagnostic) : trace.TellsOnce sort := by
  constructor <;> simp [told, sorted]

end Trace

namespace Pass

variable {pass : Pass} {path : List Nat} {scope : Option Nat}

private theorem tellsOnce_refuse (rule : Rule) (location : Location) (refusal : Refusal) :
    (refuse rule location refusal).trace.TellsOnce (·.Refuses rule.id location) := by
  cases refusal with
  | unprovenCapability => exact Trace.tellsOnce_of_eq_singleton rfl ⟨rfl, rfl, rfl⟩
  | unresolvedType => exact Trace.tellsOnce_of_eq_singleton rfl ⟨rfl, rfl, rfl⟩
  | unsatisfied why => exact Trace.tellsOnce_of_eq_nil rfl

private theorem diagnostics_accepts (pass : Pass) (rule : Rule) (bindings : Bindings)
    (anchor : Tree) (scope : Option Nat) (location : Location) :
    (pass.accepts rule bindings anchor scope location).trace.diagnostics = [] ∨
      ∃ refusal, (pass.accepts rule bindings anchor scope location).trace.diagnostics =
        (refuse rule location refusal).trace.diagnostics := by
  rw [accepts]
  cases rule.guard with
  | none => exact .inl rfl
  | some guard =>
    simp only [Traced.trace_bind, Traced.trace_emit, Trace.diagnostics_append]
    cases verdict : guard.evaluate bindings (pass.factsAt scope anchor) with
    | accept =>
      left
      cases guard.cancels bindings (pass.factsAt scope anchor) <;> rfl
    | refuse refusal =>
      right
      refine ⟨refusal, ?_⟩
      cases guard.cancels bindings (pass.factsAt scope anchor) <;>
        simp [Trace.diagnostics, Event.diagnostic?, List.filterMap_cons]

theorem tellsOnce_claim (pass : Pass) (rule : Rule) (found : Option (Bindings × Extent))
    (anchor : Tree) (scope : Option Nat) (locate : Extent → Location) :
    (pass.claim rule found anchor scope locate).trace.TellsOnce fun diagnostic =>
      ∃ bindings extent, found = some (bindings, extent) ∧
        diagnostic.Refuses rule.id (locate extent) := by
  cases found with
  | none => exact Trace.tellsOnce_of_eq_nil rfl
  | some pair =>
    obtain ⟨bindings, extent⟩ := pair
    have told : (pass.claim rule (some (bindings, extent)) anchor scope locate).trace.diagnostics =
        (pass.accepts rule bindings anchor scope (locate extent)).trace.diagnostics := by
      simp only [Pass.claim, Traced.trace_bind, Traced.trace_emit, Trace.diagnostics_append]
      split <;> simp [Trace.diagnostics, Event.diagnostic?]
    rcases diagnostics_accepts pass rule bindings anchor scope (locate extent) with
      silent | ⟨refusal, refused⟩
    · exact Trace.tellsOnce_of_eq_nil (told.trans silent)
    · obtain ⟨single, sorted⟩ := tellsOnce_refuse rule (locate extent) refusal
      rw [← refused, ← told] at single sorted
      exact ⟨single, fun diagnostic member => ⟨bindings, extent, rfl, sorted diagnostic member⟩⟩

theorem refuses_of_mem_treeClaims {composite : Bool} {position : Nat} {location : Location}
    {tree : Tree} {diagnostic : Diagnostic} (told : diagnostic ∈
      (pass.treeClaims composite scope position location tree).trace.diagnostics) :
    ∃ rule ∈ pass.lookup tree, rule.pattern.isWindow = false ∧
      rule.pattern.composite = composite ∧ diagnostic.Refuses rule.id location := by
  rw [treeClaims, Traced.trace_collect, Trace.diagnostics_flatMap] at told
  obtain ⟨rule, tried, told⟩ := List.mem_flatMap.mp told
  simp only [List.mem_filter, Bool.and_eq_true, Bool.not_eq_true', beq_iff_eq] at tried
  obtain ⟨_, _, _, refuses⟩ := (tellsOnce_claim pass rule _ tree scope _).told diagnostic told
  exact ⟨rule, tried.1, tried.2.1, tried.2.2, refuses⟩

theorem refuses_of_mem_windowClaims {statements : List Tree} {start : Nat} {first : Tree}
    {diagnostic : Diagnostic} (told : diagnostic ∈
      (pass.windowClaims path scope statements start first).trace.diagnostics) :
    ∃ rule ∈ pass.lookup first, rule.pattern.isWindow = true ∧ ∃ bindings extent,
      rule.pattern.matchWindow pass.language statements start = some (bindings, extent) ∧
        diagnostic.Refuses rule.id (blockLocation path statements extent true) := by
  rw [windowClaims, Traced.trace_collect, Trace.diagnostics_flatMap] at told
  obtain ⟨rule, tried, told⟩ := List.mem_flatMap.mp told
  rw [List.mem_filter] at tried
  exact ⟨rule, tried.1, tried.2, (tellsOnce_claim pass rule _ first scope _).told diagnostic told⟩

theorem trace_blockClaims (pass : Pass) (path : List Nat) (scope : Option Nat)
    (statements : List Tree) : (pass.blockClaims path scope statements).trace =
      statements.zipIdx.flatMap fun item =>
        (pass.treeClaims true scope item.2 ⟨path ++ [item.2], none, item.1.span⟩ item.1).trace ++
          (pass.windowClaims path scope statements item.2 item.1).trace := by
  simp only [blockClaims, Traced.trace_collect, Traced.trace_bind, Traced.trace_pure,
    List.append_nil]

/-- A rule of the catalog made a claim, a composite one or one of the others. -/
structure MadeBy (pass : Pass) (composite : Bool) (claim : Claim Match) : Prop where
  named : claim.rule = claim.payload.rule.id
  isRule : pass.catalog.rules[claim.payload.rule.id]? = some claim.payload.rule
  sort : claim.payload.rule.pattern.composite = composite

theorem madeBy_of_mem_treeClaims (sound : pass.Sound) {composite : Bool} {position : Nat}
    {location : Location} {tree : Tree} {claim : Claim Match}
    (claimed : claim ∈ (pass.treeClaims composite scope position location tree).value) :
    pass.MadeBy composite claim := by
  obtain ⟨rule, tried, _, sort, _, _, _, rfl⟩ := mem_treeClaims.mp claimed
  exact ⟨rfl, sound.getElem?_id tried, sort⟩

theorem madeBy_of_mem_blockClaims (sound : pass.Sound) {statements : List Tree}
    {claim : Claim Match} (claimed : claim ∈ (pass.blockClaims path scope statements).value) :
    pass.MadeBy true claim := by
  obtain ⟨_, statement, _, single | window⟩ := mem_blockClaims.mp claimed
  · exact madeBy_of_mem_treeClaims sound single
  · obtain ⟨rule, tried, isWindow, _, _, _, _, rfl⟩ := mem_windowClaims.mp window
    exact ⟨rfl, sound.getElem?_id tried, (sound.compiled tried).composite_of_isWindow isWindow⟩

/-- A match that is carried out comes to nothing, is diagnosed once or is applied. -/
theorem reports_carryOut (pass : Pass) (found : Match) (claimed : List Tree)
    (location : Location) :
    ((pass.carryOut found claimed location).trace.diagnostics = [] ∨
        ∃ kind : DiagnosticKind, kind.isRefusal = false ∧
          (pass.carryOut found claimed location).trace.diagnostics =
            [⟨kind, [found.rule.id], location⟩]) ∧
      (pass.carryOut found claimed location).trace.applied ⊆ [entryOf found location] := by
  cases filled : replacement found location.span with
  | error error =>
    rw [carryOut_failed pass claimed filled]
    exact ⟨.inr ⟨_, isRefusal_ofFillError error, rfl⟩, List.nil_subset _⟩
  | ok trees =>
    cases same : Tree.sameAll trees claimed with
    | true =>
      rw [carryOut_unchanged pass filled same]
      exact ⟨.inl rfl, List.nil_subset _⟩
    | false =>
      cases mode : pass.mode with
      | replace =>
        rw [carryOut_replace mode filled same]
        exact ⟨.inl rfl, List.Subset.refl _⟩
      | survey =>
        rw [carryOut_survey mode filled same]
        exact ⟨.inr ⟨_, rfl, rfl⟩, List.nil_subset _⟩

private theorem tellsOnce_carryOut {composite : Bool} {claims : List (Claim Match)}
    {winner : Claim Match} (claimed : winner ∈ claims) (made : pass.MadeBy composite winner)
    (trees : List Tree) (location : Location) :
    (pass.carryOut winner.payload trees location).trace.TellsOnce (·.Settles claims location) := by
  rcases (reports_carryOut pass winner.payload trees location).1 with silent | ⟨kind, other, told⟩
  · exact Trace.tellsOnce_of_eq_nil silent
  · apply Trace.tellsOnce_of_eq_singleton told
    refine ⟨other, List.cons_ne_nil _ _, fun id listed => ?_, rfl⟩
    exact ⟨winner, claimed, made.named.trans (List.mem_singleton.mp listed).symm⟩

private theorem tellsOnce_report {claims : List (Claim Match)} {extent : Extent} {rules : List Nat}
    (awarded : .ambiguous extent rules ∈ Contest.resolve claims) (location : Location) :
    (report .ambiguousMatch rules location).trace.TellsOnce (·.Settles claims location) := by
  obtain ⟨some_rule, listed⟩ := Contest.exists_claim_of_ambiguous awarded
  exact Trace.tellsOnce_of_eq_singleton rfl ⟨rfl, some_rule, listed, rfl⟩

theorem tellsOnce_settleTree (path : List Nat) (tree : Tree) {composite : Bool}
    {claims : List (Claim Match)} (made : ∀ claim ∈ claims, pass.MadeBy composite claim) :
    (pass.settleTree path tree claims).trace.TellsOnce
      (·.Settles claims ⟨path, none, tree.span⟩) := by
  rw [settleTree]
  cases awards : Contest.resolve claims with
  | nil => exact Trace.tellsOnce_of_eq_nil rfl
  | cons award rest =>
    have awarded : award ∈ Contest.resolve claims := awards ▸ List.mem_cons_self
    cases award with
    | ambiguous extent rules =>
      simpa using tellsOnce_report awarded ⟨path, none, tree.span⟩
    | grant winner =>
      have claimed := Contest.mem_of_grant awarded
      simpa using tellsOnce_carryOut claimed (made winner claimed) [tree] ⟨path, none, tree.span⟩

theorem exists_of_mem_applied_settleTree {tree : Tree} {claims : List (Claim Match)}
    {entry : Applied} (told : entry ∈ (pass.settleTree path tree claims).trace.applied) :
    ∃ winner ∈ claims, entry = entryOf winner.payload ⟨path, none, tree.span⟩ := by
  rw [settleTree] at told
  cases awards : Contest.resolve claims with
  | nil => simp [awards] at told
  | cons award rest =>
    have awarded : award ∈ Contest.resolve claims := awards ▸ List.mem_cons_self
    rw [awards] at told
    cases award with
    | ambiguous extent rules => simp [report, Trace.applied, Event.applied?] at told
    | grant winner =>
      simp at told
      have only := (reports_carryOut pass winner.payload [tree] ⟨path, none, tree.span⟩).2 told
      exact ⟨winner, Contest.mem_of_grant awarded, List.mem_singleton.mp only⟩

theorem tellsOnce_settleAward (path : List Nat) (statements : List Tree) {composite : Bool}
    {claims : List (Claim Match)} (made : ∀ claim ∈ claims, pass.MadeBy composite claim)
    {award : Award Match} (awarded : award ∈ Contest.resolve claims) :
    (pass.settleAward path statements award).trace.TellsOnce fun diagnostic =>
      ∃ window, diagnostic.Settles claims (blockLocation path statements award.extent window) := by
  cases award with
  | ambiguous extent rules =>
    apply (tellsOnce_report awarded _).mono fun diagnostic settles => ⟨_, settles⟩
  | grant winner =>
    have claimed := Contest.mem_of_grant awarded
    apply (tellsOnce_carryOut claimed (made winner claimed) _ _).mono
    exact fun diagnostic settles => ⟨_, settles⟩

theorem exists_of_mem_applied_settleAward {statements : List Tree} {award : Award Match}
    {entry : Applied} (told : entry ∈ (pass.settleAward path statements award).trace.applied) :
    ∃ winner, award = .grant winner ∧ entry = entryOf winner.payload
      (blockLocation path statements winner.extent winner.payload.rule.pattern.isWindow) := by
  cases award with
  | ambiguous extent rules => simp [settleAward, report, Trace.applied, Event.applied?] at told
  | grant winner =>
    exact ⟨winner, rfl, List.mem_singleton.mp ((reports_carryOut pass _ _ _).2 told)⟩

theorem trace_trySimple (pass : Pass) (path : List Nat) (scope : Option Nat) (tree : Tree) :
    (pass.trySimple path scope tree).trace = (pass.decideTree false path scope tree).trace := by
  rw [trySimple_eq, Traced.trace_bind, Traced.trace_pure, List.append_nil]

theorem sublist_tryComposite (pass : Pass) (path : List Nat) (scope : Option Nat) (tree : Tree)
    (traversed : Traced Tree) : (pass.tryComposite path scope tree traversed).trace.Sublist
      ((pass.decideTree true path scope tree).trace ++ traversed.trace) := by
  rw [tryComposite_eq, Traced.trace_bind]
  apply List.Sublist.append_left
  split
  · exact List.nil_sublist _
  · exact List.Sublist.refl _

private theorem exists_trace_settleOrTraverse (pass : Pass) (path : List Nat)
    (statements : List Tree) (steps : List (Traced Tree)) (award : Award Match) :
    ∃ visited : List (Traced Tree), visited.Sublist (award.extent.slice steps) ∧
      (pass.settleOrTraverse path statements steps award).trace =
        (pass.settleAward path statements award).trace ++ visited.flatMap Traced.trace := by
  rw [settleOrTraverse, Traced.trace_bind]
  split
  · exact ⟨[], List.nil_sublist _, rfl⟩
  · exact ⟨award.extent.slice steps, List.Sublist.refl _, by rw [Traced.trace_all]⟩

private theorem perm_regroup {α : Type} (before settled within rest after : List α) :
    (before ++ ((settled ++ within) ++ (rest ++ after))).Perm
      ((settled ++ rest) ++ (before ++ (within ++ after))) := by
  simp only [List.append_assoc]
  calc
    List.Perm (before ++ (settled ++ (within ++ (rest ++ after))))
        (settled ++ (before ++ (within ++ (rest ++ after)))) := List.perm_append_comm_assoc ..
    List.Perm _ (settled ++ (before ++ (rest ++ (within ++ after)))) :=
      ((List.perm_append_comm_assoc ..).append_left before).append_left settled
    List.Perm _ (settled ++ (rest ++ (before ++ (within ++ after)))) :=
      (List.perm_append_comm_assoc ..).append_left settled

/-- Putting a block together tells what settling its awards tells and what the traversals of the
statements that it visits tell. -/
theorem perm_assemble {root block : Tree} {next : Nat} {awards : List (Award Match)}
    (awarded : pass.Awarded root path block next awards) (steps : List (Traced Tree)) :
    ∃ visited : List (Traced Tree), visited.Sublist (steps.drop next) ∧
      (pass.assemble path block.children steps next awards).trace.Perm
        (awards.flatMap (fun award => (pass.settleAward path block.children award).trace) ++
          visited.flatMap Traced.trace) := by
  induction awards generalizing next with
  | nil =>
    rw [assemble, Traced.trace_all]
    exact ⟨steps.drop next, List.Sublist.refl _, List.Perm.refl _⟩
  | cons award rest ih =>
    obtain ⟨later, proper, _⟩ := awarded.bounded award List.mem_cons_self
    obtain ⟨within, part, here⟩ :=
      exists_trace_settleOrTraverse pass path block.children steps award
    obtain ⟨after, remaining, onward⟩ := ih awarded.tail
    let before := Extent.slice ⟨next, award.extent.start⟩ steps
    have split : steps.drop next = before ++
        (award.extent.slice steps ++ steps.drop award.extent.stop) := by
      rw [Extent.slice_append_drop award.extent steps (Nat.le_of_lt proper)]
      exact (Extent.slice_append_drop ⟨next, award.extent.start⟩ steps later).symm
    refine ⟨before ++ (within ++ after), ?_, ?_⟩
    · rw [split]
      exact (part.append remaining).append_left before
    · rw [assemble_cons]
      simp only [Traced.trace_bind, Traced.trace_pure, Traced.trace_all, List.append_nil,
        List.flatMap_append, List.flatMap_cons, here]
      exact ((onward.append_left _).append_left _).trans (perm_regroup _ _ _ _ _)

theorem subperm_assemble {root block : Tree} {next : Nat} {awards : List (Award Match)}
    (awarded : pass.Awarded root path block next awards) (steps : List (Traced Tree)) :
    (pass.assemble path block.children steps next awards).trace.Subperm
      (awards.flatMap (fun award => (pass.settleAward path block.children award).trace) ++
        (steps.drop next).flatMap Traced.trace) := by
  obtain ⟨visited, part, told⟩ := perm_assemble awarded steps
  exact told.subperm.trans ((part.flatMap Traced.trace).append_left _).subperm

end Pass

end Codemod
