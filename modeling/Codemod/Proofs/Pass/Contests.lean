import Codemod.Proofs.Pass.Coverage
import Codemod.Proofs.Pass.Parts

/-!
# The contests of a pass

A pass holds a contest on each tree that is tried on its own and on each block. Besides what it finds
out about its rules, a pass only tells which of these contests were tied and what came of the
winners of the others.
-/

namespace Codemod

/-- An event that belongs to the search for claims. -/
structure Event.IsFinding (event : Event) : Prop where
  unapplied : event.applied? = none
  refusal : ∀ diagnostic, event.diagnostic? = some diagnostic → diagnostic.kind.isRefusal = true

namespace Pass

variable {pass : Pass} {root tree : Tree} {path : List Nat} {scope : Option Nat}

/-- The claims of a contest that a pass over a root holds, with the location of each stretch. -/
inductive Holds (pass : Pass) (root : Tree) :
    List (Claim Match) → (Extent → Bool → Location) → Prop where
  /-- Composite rules are tried on a tree as it was, the others on one rebuilt in its place. -/
  | tree {composite : Bool} {path : List Nat} {scope : Option Nat} {site tree : Tree}
      (reached : root.at? path = some site) (original : composite = true → tree = site) :
      Holds pass root (pass.treeClaims composite scope 0 ⟨path, none, tree.span⟩ tree).value
        fun _ _ => ⟨path, none, tree.span⟩
  | block {path : List Nat} {block : Tree} (reached : root.at? path = some block)
      (isBlock : pass.language.isBlock block.kind = true) :
      Holds pass root (pass.claimsAt root path block) (blockLocation path block.children)

/-- All that a pass tells of its contests has a property, and so has all that it finds out. -/
structure ContestsTell (pass : Pass) (root : Tree) (holds : Event → Prop) : Prop where
  findings : ∀ event : Event, event.IsFinding → holds event
  ties : ∀ claims locate, pass.Holds root claims locate → ∀ extent rules,
    .ambiguous extent rules ∈ Contest.resolve claims →
      holds (.diagnosed ⟨.ambiguousMatch, rules, locate extent (pass.anyWindow rules)⟩)
  winners : ∀ claims locate, pass.Holds root claims locate → ∀ winner,
    .grant winner ∈ Contest.resolve claims → ∀ claimed,
      ∀ event ∈ (pass.carryOut winner.payload claimed
        (locate winner.extent winner.payload.rule.pattern.isWindow)).trace, holds event

private theorem isFinding_of_idle {trace : Trace} (idle : trace.Idle)
    (refusals : ∀ diagnostic ∈ trace.diagnostics, diagnostic.kind.isRefusal = true) :
    ∀ event ∈ trace, event.IsFinding := by
  intro event told
  constructor
  · exact List.filterMap_eq_nil_iff.mp idle.applied_eq_nil event told
  · intro diagnostic is_diagnostic
    exact refusals diagnostic (List.mem_filterMap.mpr ⟨event, told, is_diagnostic⟩)

private theorem isFinding_treeClaims {composite : Bool} {position : Nat} {location : Location} :
    ∀ event ∈ (pass.treeClaims composite scope position location tree).trace,
      event.IsFinding := by
  refine isFinding_of_idle (idle_treeClaims _ _ _ _ _ _) fun diagnostic told => ?_
  obtain ⟨_, _, _, _, refuses⟩ := refuses_of_mem_treeClaims told
  exact refuses.kind

private theorem isFinding_blockClaims {statements : List Tree} :
    ∀ event ∈ (pass.blockClaims path scope statements).trace, event.IsFinding := by
  refine isFinding_of_idle (idle_blockClaims _ _ _ _) fun diagnostic told => ?_
  rw [trace_blockClaims, Trace.diagnostics_flatMap] at told
  obtain ⟨item, _, told⟩ := List.mem_flatMap.mp told
  rw [Trace.diagnostics_append] at told
  rcases List.mem_append.mp told with single | window
  · obtain ⟨_, _, _, _, refuses⟩ := refuses_of_mem_treeClaims single
    exact refuses.kind
  · obtain ⟨_, _, _, _, _, _, refuses⟩ := refuses_of_mem_windowClaims window
    exact refuses.kind

namespace ContestsTell

variable {holds : Event → Prop}

private theorem decideTree (contests : pass.ContestsTell root holds) {composite : Bool}
    {site : Tree}
    (reached : root.at? path = some site) (original : composite = true → tree = site) :
    ∀ event ∈ (pass.decideTree composite path scope tree).trace, holds event := by
  have held : pass.Holds root
      (pass.treeClaims composite scope 0 ⟨path, none, tree.span⟩ tree).value
      fun _ _ => ⟨path, none, tree.span⟩ := .tree reached original
  intro event told
  rw [Pass.decideTree, Traced.trace_bind] at told
  rcases List.mem_append.mp told with finding | settled
  · exact contests.findings event (isFinding_treeClaims event finding)
  · rw [settleTree] at settled
    split at settled
    · contradiction
    · rename_i extent rules rest awards
      have awarded : .ambiguous extent rules ∈ Contest.resolve _ := awards ▸ List.mem_cons_self
      have tie := contests.ties _ _ held extent rules awarded
      simp only [report, Traced.trace_bind, Traced.trace_emit, Traced.trace_pure, List.append_nil,
        List.mem_singleton] at settled
      exact settled ▸ tie
    · rename_i winner rest awards
      have awarded : .grant winner ∈ Contest.resolve _ := awards ▸ List.mem_cons_self
      simp only [Traced.trace_bind, Traced.trace_pure, List.append_nil] at settled
      exact contests.winners _ _ held winner awarded [tree] event settled

private theorem settleAward (contests : pass.ContestsTell root holds) {block : Tree}
    (reached : root.at? path = some block) (isBlock : pass.language.isBlock block.kind = true)
    {award : Award Match} (awarded : award ∈ Contest.resolve (pass.claimsAt root path block)) :
    ∀ event ∈ (pass.settleAward path block.children award).trace, holds event := by
  have held := Holds.block reached isBlock
  intro event told
  cases award with
  | ambiguous extent rules =>
    simp only [Pass.settleAward, report, Traced.trace_bind, Traced.trace_emit, Traced.trace_pure,
      List.append_nil, List.mem_singleton] at told
    exact told ▸ contests.ties _ _ held extent rules awarded
  | grant winner => exact contests.winners _ _ held winner awarded _ event told

/-- All that a pass tells has a property when all that it tells of its contests has it. -/
theorem run (contests : pass.ContestsTell root holds) (sound : pass.Sound) :
    ∀ event ∈ (pass.run root).trace, holds event := by
  refine PartsTell.run ⟨?_, ?_, ?_⟩ sound
  · intro composite path scope site tree reached original
    exact contests.decideTree reached original
  · intro path scope block _ _ event told
    exact contests.findings event (isFinding_blockClaims event told)
  · intro path block reached isBlock award awarded
    exact contests.settleAward reached isBlock awarded

end ContestsTell

/-- A match that is carried out is only diagnosed when its replacement fails or is pending. -/
theorem mem_diagnostics_carryOut {found : Match} {claimed : List Tree} {location : Location}
    {diagnostic : Diagnostic}
    (told : diagnostic ∈ (pass.carryOut found claimed location).trace.diagnostics) :
    (∃ error, replacement found location.span = .error error ∧
        diagnostic = ⟨.ofFillError error, [found.rule.id], location⟩) ∨
      diagnostic = ⟨.passLimitExceeded, [found.rule.id], location⟩ := by
  cases filled : replacement found location.span with
  | error error =>
    rw [carryOut_failed pass claimed filled] at told
    exact .inl ⟨error, rfl, List.mem_singleton.mp told⟩
  | ok trees =>
    right
    cases same : Tree.sameAll trees claimed with
    | true =>
      rw [carryOut_unchanged pass filled same] at told
      contradiction
    | false =>
      cases mode : pass.mode with
      | replace =>
        rw [carryOut_replace mode filled same] at told
        contradiction
      | survey =>
        rw [carryOut_survey mode filled same] at told
        exact List.mem_singleton.mp told

end Pass

end Codemod
