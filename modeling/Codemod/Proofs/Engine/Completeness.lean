import Codemod.Proofs.Catalog.Lookup
import Codemod.Proofs.Engine.FixedPoint
import Codemod.Proofs.Pass.Coverage

/-!
# Nothing is missed

When a run reaches a fixed point, every match that is left in its tree is answered in its
competition: by code that is as it should be, or by a report.
-/

namespace Codemod

namespace Pass

variable {pass : Pass} {root tree : Tree} {path : List Nat} {found : Match}

/-- Every match on a tree takes part in one of the competitions. -/
theorem exists_contends (reached : root.at? path = some tree)
    (matches_at : pass.MatchesAt root found tree ⟨path, none, tree.span⟩) :
    ∃ competition position, pass.Contends root competition (claimOf found (.single position)) [tree]
      ⟨path, none, tree.span⟩ := by
  cases kind : found.rule.pattern.composite with
  | false => exact ⟨_, 0, .simple reached kind matches_at⟩
  | true =>
    by_cases alone : pass.Standalone root path
    · exact ⟨_, 0, .composite reached alone kind matches_at⟩
    · rw [Standalone] at alone
      push Not at alone
      obtain ⟨above, index, block, rfl, reachedBlock, isBlock⟩ := alone
      rw [Tree.at?_concat reachedBlock] at reached
      rw [Bool.ne_false_iff] at isBlock
      exact ⟨_, index, .statement reachedBlock isBlock reached kind matches_at⟩

private theorem visitBlock_eq {scope : Option Nat} {statements : List Tree}
    {traversed : List (Traced Tree)} {awards : List (Award Match)}
    (resolved : Contest.resolve (pass.blockClaims path scope statements).value = awards) :
    pass.visitBlock path scope statements traversed =
      (pass.blockClaims path scope statements >>= fun _ =>
        pass.assemble path statements traversed 0 awards) := by
  rw [visitBlock, ← resolved]
  rfl

end Pass

namespace Engine

private theorem offers_replacing {engine : Engine} (coherent : engine.catalog.Coherent)
    (lookup : engine.lookup = engine.catalog.candidates)
    (laidOut : engine.catalog.language.CallsByLayout)
    (plain : ∀ rule ∈ engine.catalog.rules, rule.pattern.shape.Plain) (unit : CompilationUnit) :
    (engine.replacing unit).Offers := by
  intro rule isRule term tree bound bindings scope isRoot unified admits
  have offered : rule ∈ engine.catalog.candidates tree :=
    coherent.candidate_of_match laidOut isRule (plain rule isRule) isRoot unified rfl admits
  rw [← lookup] at offered
  exact offered

/-- At a fixed point every match, on a tree or over the statements of a block, is answered. -/
theorem fixedPoint_answers_matches (roles : Roles) (apart : roles.call ≠ roles.block)
    (calls : List Builder.Call)
    (plain : ∀ rule ∈ (Catalog.load roles.language calls).rules, rule.pattern.shape.Plain)
    (maxPasses : Nat) (unit : CompilationUnit) (stop : Nat → Bool)
    (fixed : (run { catalog := .load roles.language calls, maxPasses } unit stop).report.outcome =
      .fixedPoint) :
    let engine : Engine := { catalog := .load roles.language calls, maxPasses }
    let report := (engine.run unit stop).report
    let pass := engine.replacing unit
    (∀ path tree found, report.root.at? path = some tree →
      pass.MatchesAt report.root found tree ⟨path, none, tree.span⟩ →
        ∃ competition position, pass.Contends report.root competition
            (Pass.claimOf found (.single position)) [tree] ⟨path, none, tree.span⟩ ∧
          pass.Answered report.root report.diagnostics competition
            (Pass.claimOf found (.single position))) ∧
      ∀ path block found extent, report.root.at? path = some block →
        roles.language.isBlock block.kind = true →
          pass.MatchesOver report.root found block extent
              ⟨path, some extent, Pass.extentSpan block.children extent⟩ →
            pass.Answered report.root report.diagnostics (.block path)
              (Pass.claimOf found extent) := by
  intro engine report pass
  have coherent := Catalog.coherent_load roles.language calls
  have sameLanguage : pass.language = roles.language := Catalog.language_load roles.language calls
  have sound : pass.Sound := sound_replacing coherent rfl unit
  have laidOut : pass.language.CallsByLayout := sameLanguage ▸ Roles.callsByLayout apart
  have offers : pass.Offers := offers_replacing coherent rfl laidOut plain unit
  have finished : report.outcome ≠ .cancelled := by
    rw [fixed]
    decide
  obtain ⟨diagnostics, ⟨settled, _⟩ | ⟨_, limited⟩⟩ := run_verdict sound finished
  · rw [← settled.run_eq_survey] at diagnostics
    rw [diagnostics]
    constructor
    · intro path tree found reached matches_at
      obtain ⟨competition, position, contends⟩ := Pass.exists_contends reached matches_at
      exact ⟨competition, position, contends,
        Pass.answered_of_quiet rfl sound offers settled contends⟩
    · intro path block found extent reached isBlock matches_over
      rw [← sameLanguage] at isBlock
      exact Pass.answered_of_quiet rfl sound offers settled (.window reached isBlock matches_over)
  · rw [limited] at fixed
    contradiction

/-- Leaves three statements as they are. -/
def keepDraft : RuleDraft :=
  { name := "keep"
    pattern := .window [.branch "open" [.hole (.capturing "v" .identifier)],
      .branch "close" [.hole (.referringTo "v")], .branch "block" [.hole (.referringTo "v")]]
    template := .ofShape (.window [.branch "open" [.hole (.referringTo "v")],
      .branch "close" [.hole (.referringTo "v")], .branch "block" [.hole (.referringTo "v")]]) }

/-- A rival for the last two of them. -/
def rivalDraft : RuleDraft :=
  { name := "rival"
    pattern := .window [.branch "close" [.hole (.capturing "v" .identifier)],
      .branch "block" [.hole (.referringTo "v")]]
    template := .ofShape (.window [.branch "close" [.hole (.referringTo "v")]]) }

/-- A rival for the last one. -/
def unwrapDraft : RuleDraft :=
  { name := "unwrap", pattern := .node (.branch "block" [.hole (.capturing "v" .identifier)])
    template := .ofShape (.node (.hole (.referringTo "v"))) }

def keptCalls : List Builder.Call := [.add keepDraft, .add rivalDraft, .add unwrapDraft]

def keptEngine : Engine :=
  { catalog := .load ({} : Roles).language keptCalls, maxPasses := 4 }

def keptUnit : CompilationUnit :=
  { name := "unit"
    root := .branch "block" [.branch "open" [.leaf Tree.nameKind "x"],
      .branch "close" [.leaf Tree.nameKind "x"], .branch "block" [.leaf Tree.nameKind "x"]] }

/-- What a rule of the three captures in the unit. -/
def keptMatch (draft : RuleDraft) (id : Nat) (root : String) : Match :=
  { rule :=
      { id, name := draft.name, pattern := ⟨draft.pattern, ⟨[("v", .identifier)]⟩, true⟩
        guard := none, template := draft.template, priority := 0, trigger := ⟨none, root⟩
        span := .generated }
    bindings := ⟨[("v", .node (.leaf Tree.nameKind "x"))]⟩ }

def rivalMatch : Match := keptMatch rivalDraft 1 "close"

def unwrapMatch : Match := keptMatch unwrapDraft 2 "block"

private theorem settled_kept : keptEngine.Settled keptUnit keptUnit.root := by
  let pass := keptEngine.replacing keptUnit
  let keep := Pass.claimOf (keptMatch keepDraft 0 "open") ⟨0, 3⟩
  let claims := [keep, Pass.claimOf rivalMatch ⟨1, 3⟩, Pass.claimOf unwrapMatch ⟨2, 3⟩]
  have claimed : (pass.blockClaims [] (pass.innerScope none keptUnit.root)
      keptUnit.root.children).value = claims := by
    with_unfolding_all rfl
  -- The claims are listed in the order of the contest, so sorting leaves them alone.
  have ordered : claims.Pairwise fun a b => a.precedes b = true := by decide +kernel
  have resolved : Contest.resolve (pass.blockClaims [] (pass.innerScope none keptUnit.root)
      keptUnit.root.children).value = [.grant keep] := by
    rw [claimed, Contest.resolve, Contest.ranks, List.mergeSort_of_pairwise ordered]
    with_unfolding_all rfl
  have isBlock : pass.language.isBlock keptUnit.root.kind = true := rfl
  have unlimited : pass.platform.minVersion = none := rfl
  change (pass.run keptUnit.root).trace.applied = []
  rw [Pass.run, unlimited, Pass.traverse_eq, Pass.visitChildren, if_pos isBlock,
    Pass.visitBlock_eq resolved]
  decide +kernel

theorem keep_answered :
    let report := (keptEngine.run keptUnit fun _ => false).report
    let pass := keptEngine.replacing keptUnit
    let block : Tree := .branch "block" [.leaf Tree.nameKind "x"]
    report.outcome = .fixedPoint ∧
      (pass.MatchesAt report.root unwrapMatch block ⟨[2], none, block.span⟩ ∧
        ∃ competition position, pass.Contends report.root competition
            (Pass.claimOf unwrapMatch (.single position)) [block] ⟨[2], none, block.span⟩ ∧
          pass.Answered report.root report.diagnostics competition
            (Pass.claimOf unwrapMatch (.single position))) ∧
      pass.MatchesOver report.root rivalMatch report.root ⟨1, 3⟩
          ⟨[], some ⟨1, 3⟩, Pass.extentSpan report.root.children ⟨1, 3⟩⟩ ∧
        pass.Answered report.root report.diagnostics (.block [])
          (Pass.claimOf rivalMatch ⟨1, 3⟩) := by
  intro report pass block
  have plain : ∀ rule ∈ keptEngine.catalog.rules, rule.pattern.shape.Plain := by decide +kernel
  have sound : pass.Sound := sound_replacing (Catalog.coherent_load _ _) rfl keptUnit
  have same : report.root = keptUnit.root := (settled_kept.run sound rfl).2.1
  have fixed : report.outcome = .fixedPoint := (settled_kept.run sound rfl).2.2.1
  have answers := fixedPoint_answers_matches {} (by decide) keptCalls plain 4 keptUnit
    (fun _ => false) fixed
  have unwraps : pass.MatchesAt report.root unwrapMatch block ⟨[2], none, block.span⟩ := by
    have isRule : keptEngine.catalog.rules[2]? = some unwrapMatch.rule := rfl
    exact
      { isRule := List.mem_of_getElem? isRule
        matched := rfl
        admits := fun guard isGuard => nomatch isGuard }
  have rivals : pass.MatchesOver report.root rivalMatch report.root ⟨1, 3⟩
      ⟨[], some ⟨1, 3⟩, Pass.extentSpan report.root.children ⟨1, 3⟩⟩ := by
    have isRule : keptEngine.catalog.rules[1]? = some rivalMatch.rule := rfl
    rw [same]
    exact
      { isRule := List.mem_of_getElem? isRule
        matched := rfl
        admits := ⟨.branch "close" [.leaf Tree.nameKind "x"], rfl,
          fun guard isGuard => nomatch isGuard⟩ }
  have reached : report.root.at? [2] = some block := by
    rw [same]
    rfl
  have isBlock : ({} : Roles).language.isBlock report.root.kind = true := by
    rw [same]
    rfl
  exact ⟨fixed, ⟨unwraps, answers.1 [2] block unwrapMatch reached unwraps⟩, rivals,
    answers.2 [] report.root rivalMatch ⟨1, 3⟩ rfl isBlock rivals⟩

end Engine

end Codemod
