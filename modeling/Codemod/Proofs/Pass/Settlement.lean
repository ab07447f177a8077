import Codemod.Proofs.Contest.Resolution
import Codemod.Proofs.Pass.Rewriting

/-!
# What comes of a claim

Carrying out a match fails, changes nothing, reports a pending replacement or puts one in place,
and says so by one event each. A replacement that is put in place is a rewriting step at its site.
-/

namespace Codemod

namespace Pass

variable {pass : Pass} {found : Match} {claimed trees : List Tree} {location : Location}

theorem carryOut_failed (pass : Pass) (claimed : List Tree) {error : FillError}
    (failed : replacement found location.span = .error error) :
    pass.carryOut found claimed location =
      ⟨none, [.instantiated found.rule, .failed found.rule location error,
        .diagnosed ⟨.ofFillError error, [found.rule.id], location⟩]⟩ := by
  rw [carryOut]
  rw [failed]
  rfl

theorem carryOut_unchanged (pass : Pass) (filled : replacement found location.span = .ok trees)
    (same : Tree.sameAll trees claimed = true) :
    pass.carryOut found claimed location =
      ⟨none, [.instantiated found.rule, .unchanged found.rule location]⟩ := by
  rw [carryOut]
  simp only [filled, same, if_true]
  rfl

theorem carryOut_replace (replacing : pass.mode = .replace)
    (filled : replacement found location.span = .ok trees)
    (differs : Tree.sameAll trees claimed = false) :
    pass.carryOut found claimed location =
      ⟨some trees, [.instantiated found.rule, .applied found.rule location]⟩ := by
  rw [carryOut]
  simp only [filled, differs, replacing]
  rfl

theorem carryOut_survey (surveying : pass.mode = .survey)
    (filled : replacement found location.span = .ok trees)
    (differs : Tree.sameAll trees claimed = false) :
    pass.carryOut found claimed location =
      ⟨some claimed, [.instantiated found.rule,
        .diagnosed ⟨.passLimitExceeded, [found.rule.id], location⟩]⟩ := by
  rw [carryOut]
  simp only [filled, differs, surveying]
  rfl

theorem ofFillError_ne_passLimitExceeded (error : FillError) :
    DiagnosticKind.ofFillError error ≠ .passLimitExceeded := by
  cases error <;> simp [DiagnosticKind.ofFillError]

/-- What is reported as applied when a match is carried out. -/
def entryOf (found : Match) (location : Location) : Applied :=
  ⟨found.rule.id, found.rule.name, location⟩

/-- Either nothing comes of a match or its replacement is put in place. -/
theorem carryOut_cases (replacing : pass.mode = .replace) (found : Match) (claimed : List Tree)
    (location : Location) :
    ((pass.carryOut found claimed location).value = none ∧
        (pass.carryOut found claimed location).trace.Idle) ∨
      ∃ trees, replacement found location.span = .ok trees ∧
        Tree.sameAll trees claimed = false ∧
        (pass.carryOut found claimed location).value = some trees ∧
        (pass.carryOut found claimed location).trace.applied = [entryOf found location] := by
  cases filled : replacement found location.span with
  | error error =>
    left
    rw [carryOut_failed pass claimed filled]
    simp [Event.isIdle, ofFillError_ne_passLimitExceeded]
  | ok trees =>
    cases same : Tree.sameAll trees claimed with
    | true =>
      left
      rw [carryOut_unchanged pass filled same]
      simp [Event.isIdle]
    | false =>
      right
      rw [carryOut_replace replacing filled same]
      exact ⟨trees, rfl, same, rfl, rfl⟩

theorem replacement_node {span : Span} (single : found.rule.pattern.isWindow = false)
    (filled : replacement found span = .ok trees) :
    ∃ new, found.rule.template.instantiateNode found.bindings span = .ok new ∧ trees = [new] := by
  rw [replacement] at filled
  rw [if_neg (by simp [single])] at filled
  cases instantiated : found.rule.template.instantiateNode found.bindings span with
  | error error =>
    rw [instantiated] at filled
    contradiction
  | ok new =>
    rw [instantiated] at filled
    cases filled
    exact ⟨new, rfl, rfl⟩

private theorem replacement_window {span : Span} (window : found.rule.pattern.isWindow = true)
    (filled : replacement found span = .ok trees) :
    found.rule.template.instantiate found.bindings span = .ok trees := by
  rw [replacement] at filled
  rwa [if_pos window] at filled

variable {root : Tree}

theorem performs_of_treeClaim (sound : pass.Sound) {composite : Bool} {position : Nat}
    {path : List Nat} {place : Location} {site tree : Tree} {claim : Claim Match}
    (reached : root.at? path = some site) (rebuilt : ∃ children, tree = site.withChildren children)
    (claimed : claim ∈ (pass.treeClaims composite (pass.scopeAt root path) position place
      tree).value)
    (filled : replacement claim.payload tree.span = .ok trees)
    (differs : Tree.sameAll trees [tree] = false) :
    ∃ new, trees = [new] ∧
      pass.Performs root path (entryOf claim.payload ⟨path, none, tree.span⟩) tree new := by
  obtain ⟨rule, tried, single, _, bindings, matched, admits, rfl⟩ := mem_treeClaims.mp claimed
  obtain ⟨new, instantiated, rfl⟩ := replacement_node single filled
  have changed : new.same tree = false := by
    simpa using differs
  have applies : pass.Applies root (entryOf ⟨rule, bindings⟩ ⟨path, none, tree.span⟩)
      ⟨rule, bindings⟩ tree [] tree new :=
    { isRule := sound.getElem?_id tried
      located := single.symm
      rewrites := .node single matched instantiated changed
      admits }
  obtain ⟨children, rfl⟩ := rebuilt
  exact ⟨new, rfl, _, _, [], site, [], applies, reached, (List.append_nil path).symm,
    .here site children⟩

private theorem extentSpan_eq {statements : List Tree} {extent : Extent} {first last : Tree}
    (starts : statements[extent.start]? = some first)
    (ends : statements[extent.stop - 1]? = some last) :
    extentSpan statements extent = first.span.merge last.span := by
  rw [extentSpan]
  rw [starts, ends]

theorem extentSpan_single {statements : List Tree} {index : Nat} {statement : Tree}
    (here : statements[index]? = some statement) :
    extentSpan statements (.single index) = statement.span := by
  rw [extentSpan_eq here here]
  rw [Span.merge]
  by_cases generated : statement.span.isGenerated <;> simp [generated]

theorem slice_single {statements : List Tree} {index : Nat} {statement : Tree}
    (here : statements[index]? = some statement) :
    Extent.slice (.single index) statements = [statement] := by
  simp [Extent.slice, Extent.length, Extent.single, List.take_one, here]

private theorem getElem?_append_drop {α : Type} (done items : List α) (start offset : Nat) :
    (done ++ items.drop start)[done.length + offset]? = items[start + offset]? := by
  rw [List.getElem?_append_right (Nat.le_add_right _ _), Nat.add_sub_cancel_left,
    List.getElem?_drop]

private theorem rewrites_window {language : Language} {tree first : Tree} {extent : Extent}
    (isBlock : language.isBlock tree.kind = true)
    (matched : found.rule.pattern.matchWindow language tree.children extent.start =
      some (found.bindings, extent))
    (proper : extent.Proper) (inside : extent.stop ≤ tree.children.length)
    (here : tree.children[extent.start]? = some first)
    (filled : found.rule.template.instantiate found.bindings
      (extentSpan tree.children extent) = .ok trees)
    (differs : Tree.sameAll trees (extent.slice tree.children) = false) (done : List Tree) :
    Rewrites language found first [] (tree.withChildren (done ++ tree.children.drop extent.start))
      (tree.withChildren (done ++ trees ++ tree.children.drop extent.stop)) := by
  obtain ⟨kind, text, type, span, children⟩ := tree
  simp only [Tree.withChildren] at *
  rw [Extent.Proper] at proper
  have within : extent.stop - 1 < children.length := by omega
  have fits : extent.start + extent.length = extent.stop := by
    rw [Extent.length]
    omega
  have starts : (done ++ children.drop extent.start)[done.length]? = some first :=
    (getElem?_append_drop done children extent.start 0).trans here
  have ends : (done ++ children.drop extent.start)[done.length + extent.length - 1]? =
      some children[extent.stop - 1] := by
    have last : done.length + extent.length - 1 = done.length + (extent.length - 1) := by omega
    have stop : extent.start + (extent.length - 1) = extent.stop - 1 := by omega
    rw [last, getElem?_append_drop, stop]
    exact List.getElem?_eq_getElem within
  have sameAfter : (done ++ children.drop extent.start).drop done.length =
      children.drop extent.start := List.drop_left
  have shifted := Pattern.matchWindow_of_drop matched (by simp) sameAfter
  have slice : Extent.slice ⟨done.length, done.length + extent.length⟩
      (done ++ children.drop extent.start) = extent.slice children := by
    simp [Extent.slice, Extent.length]
  have front : (done ++ children.drop extent.start).take done.length = done := List.take_left
  have back : (done ++ children.drop extent.start).drop (done.length + extent.length) =
      children.drop extent.stop := by
    rw [← List.drop_drop, sameAfter, List.drop_drop, fits]
  rw [extentSpan_eq here (List.getElem?_eq_getElem within)] at filled
  have rewrites : Rewrites language found first []
      ⟨kind, text, type, span, done ++ children.drop extent.start⟩ _ :=
    .window isBlock shifted starts ends filled (slice ▸ differs)
  simp only [Tree.withChildren, front, back] at rewrites
  exact rewrites

/-- A window stands below its block, so the version its block declares counts for it. -/
theorem versionAt_window {path : List Nat} {block : Tree} (reached : root.at? path = some block)
    (extent : Extent) (span : Span) : pass.versionAt root ⟨path, some extent, span⟩ =
      pass.innerScope (pass.scopeAt root path) block := by
  simp only [versionAt, Location.around, reached, Option.toList_some,
    Language.versionAround_concat]
  rfl

theorem performs_of_windowClaim (sound : pass.Sound) {path : List Nat} {block first : Tree}
    {start : Nat} {claim : Claim Match} (reached : root.at? path = some block)
    (isBlock : pass.language.isBlock block.kind = true)
    (here : block.children[start]? = some first)
    (claimed : claim ∈ (pass.windowClaims path (pass.innerScope (pass.scopeAt root path) block)
      block.children start first).value)
    (filled : replacement claim.payload (extentSpan block.children claim.extent) = .ok trees)
    (differs : Tree.sameAll trees (claim.extent.slice block.children) = false) (done : List Tree) :
    pass.Performs root path
      (entryOf claim.payload ⟨path, some claim.extent, extentSpan block.children claim.extent⟩)
      (block.withChildren (done ++ block.children.drop claim.extent.start))
      (block.withChildren (done ++ trees ++ block.children.drop claim.extent.stop)) := by
  obtain ⟨rule, tried, window, bindings, extent, matched, admits, rfl⟩ :=
    mem_windowClaims.mp claimed
  obtain ⟨rfl, proper, inside, _⟩ := Pattern.matchWindow_root (sound.compiled tried) matched
  have applies : pass.Applies root
      (entryOf ⟨rule, bindings⟩ ⟨path, some extent, extentSpan block.children extent⟩)
      ⟨rule, bindings⟩ first [] (block.withChildren (done ++ block.children.drop extent.start))
      (block.withChildren (done ++ trees ++ block.children.drop extent.stop)) :=
    { isRule := sound.getElem?_id tried
      located := window.symm
      rewrites := rewrites_window isBlock matched proper inside here
        (replacement_window window filled) differs done
      admits := versionAt_window reached extent _ ▸ admits }
  exact ⟨_, first, [], block, [], applies, reached, (List.append_nil path).symm,
    .here block (done ++ block.children.drop extent.start)⟩

end Pass

end Codemod
