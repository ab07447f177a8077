import Codemod.Proofs.Catalog.Admission
import Codemod.Proofs.Engine.Locations
import Codemod.Proofs.Match.Filling
import Codemod.Proofs.Pass.Contests

/-!
# Which replacements fail

Whether the replacement for a match can be made is known when the rule is loaded: it fails at the
first name that the template uses and the pattern does not bind. All that is left to a match is
whether a sequence that takes the place of one node has just one tree.
-/

namespace Codemod

namespace Pass

variable {language : Language} {rule : Rule} {bindings : Bindings}

private theorem replacement_eq_error (admitted : rule.Admitted language)
    (captured : Captured language rule.pattern.captures bindings) {name : String}
    (first : (rule.template.unboundIn rule.pattern).head? = some name) (span : Span) :
    replacement ⟨rule, bindings⟩ span = .error (.unboundName name) := by
  have failed := Template.instantiate_eq_error captured first span
  rw [replacement]
  split
  · exact failed
  · rename_i single
    have fits := admitted.node_template (Bool.eq_false_iff.mpr single)
    rw [Template.instantiateNode, failed]
    cases shaped : rule.template.shape with
    | node term => rfl
    | window terms =>
      rw [shaped] at fits
      contradiction

private theorem exists_replacement_window (window : rule.pattern.isWindow = true)
    (captured : Captured language rule.pattern.captures bindings)
    (bound : rule.template.unboundIn rule.pattern = []) (span : Span) :
    ∃ trees, replacement ⟨rule, bindings⟩ span = .ok trees := by
  rw [replacement, if_pos window]
  exact Template.exists_instantiate captured bound span

private theorem exists_replacement_node (admitted : rule.Admitted language)
    (single : rule.pattern.isWindow = false)
    (captured : Captured language rule.pattern.captures bindings)
    (bound : rule.template.unboundIn rule.pattern = []) (span : Span) :
    ∃ trees, rule.template.instantiate bindings span = .ok trees ∧
      replacement ⟨rule, bindings⟩ span =
        if trees.length = 1 then .ok trees else .error (.shapeMismatch trees.length) := by
  obtain ⟨trees, filled⟩ := Template.exists_instantiate captured bound span
  refine ⟨trees, filled, ?_⟩
  have fits := admitted.node_template single
  rw [replacement, if_neg (by simp [single]), Template.instantiateNode, filled]
  cases shaped : rule.template.shape with
  | window terms =>
    rw [shaped] at fits
    contradiction
  | node term =>
    cases trees with
    | nil => rfl
    | cons tree rest => cases rest <;> rfl

/-- What comes of the replacement for a match of a rule, by what is known of the rule and of the
sequence that its template is a hole for. -/
structure Comes (rule : Rule) (bindings : Bindings) (outcome : Except FillError (List Tree)) :
    Prop where
  unbound : ∀ name rest, rule.template.unboundIn rule.pattern = name :: rest →
    outcome = .error (.unboundName name)
  window : rule.template.unboundIn rule.pattern = [] → rule.pattern.isWindow = true →
    ∃ trees, outcome = .ok trees
  node : rule.template.unboundIn rule.pattern = [] → rule.pattern.isWindow = false →
    (∀ trees, rule.template.splice? bindings = some trees → trees.length = 1) →
      ∃ tree, outcome = .ok [tree]
  mismatch : rule.template.unboundIn rule.pattern = [] → rule.pattern.isWindow = false →
    ∀ trees, rule.template.splice? bindings = some trees → trees.length ≠ 1 →
      outcome = .error (.shapeMismatch trees.length)

private theorem comes_replacement (admitted : rule.Admitted language)
    (plain : rule.pattern.shape.Plain)
    (binds : rule.pattern.Binds language bindings) (span : Span) :
    Comes rule bindings (replacement ⟨rule, bindings⟩ span) := by
  have captured := binds.captured admitted.compiled plain
  refine ⟨?_, ?_, ?_, ?_⟩
  · intro name rest unbound
    exact replacement_eq_error admitted captured (by rw [unbound, List.head?_cons]) span
  · exact fun bound window => exists_replacement_window window captured bound span
  · intro bound single fits
    obtain ⟨trees, filled, made⟩ :=
      exists_replacement_node admitted single captured bound span
    have length := Template.length_of_instantiate (admitted.node_template single) filled
    have one : trees.length = 1 := by
      rw [length]
      split
      · rename_i sequence spliced
        exact fits sequence spliced
      · rfl
    obtain ⟨tree, rfl⟩ := List.length_eq_one_iff.mp one
    exact ⟨tree, made⟩
  · intro bound single sequence spliced several
    obtain ⟨trees, filled, made⟩ :=
      exists_replacement_node admitted single captured bound span
    have length := Template.length_of_instantiate (admitted.node_template single) filled
    rw [spliced] at length
    rw [made, if_neg (length ▸ several), length]

variable {pass : Pass} {root : Tree}

/-- A match that a pass has found for a rule of its catalog. -/
structure Found (pass : Pass) (found : Match) : Prop where
  isRule : found.rule ∈ pass.catalog.rules
  binds : found.rule.pattern.Binds pass.language found.bindings

private theorem found_of_mem_treeClaims (sound : pass.Sound) {composite : Bool} {scope : Option Nat}
    {position : Nat} {location : Location} {tree : Tree} {claim : Claim Match}
    (claimed : claim ∈ (pass.treeClaims composite scope position location tree).value) :
    pass.Found claim.payload := by
  obtain ⟨rule, tried, _, _, bindings, matched, _, rfl⟩ := mem_treeClaims.mp claimed
  exact ⟨sound.lookup_mem tree rule tried, .inl ⟨tree, matched⟩⟩

private theorem found_of_mem_blockClaims (sound : pass.Sound) {path : List Nat} {scope : Option Nat}
    {statements : List Tree} {claim : Claim Match}
    (claimed : claim ∈ (pass.blockClaims path scope statements).value) :
    pass.Found claim.payload := by
  obtain ⟨index, statement, _, single | window⟩ := mem_blockClaims.mp claimed
  · exact found_of_mem_treeClaims sound single
  · obtain ⟨rule, tried, _, bindings, extent, matched, _, rfl⟩ := mem_windowClaims.mp window
    exact ⟨sound.lookup_mem statement rule tried, .inr ⟨statements, index, extent, matched⟩⟩

private theorem found_of_grant (sound : pass.Sound) {claims : List (Claim Match)}
    {locate : Extent → Bool → Location} (held : pass.Holds root claims locate)
    {winner : Claim Match} (awarded : .grant winner ∈ Contest.resolve claims) :
    pass.Found winner.payload := by
  have claimed := Contest.mem_of_grant awarded
  cases held with
  | tree _ _ => exact found_of_mem_treeClaims sound claimed
  | block _ _ => exact found_of_mem_blockClaims sound claimed

/-- What is applied has been made, and what is diagnosed as unbound has failed with that name. -/
structure Explained (pass : Pass) (event : Event) : Prop where
  applied : ∀ entry, event.applied? = some entry → ∃ found, pass.Found found ∧
    entry.rule = found.rule.id ∧ ∃ span trees, replacement found span = .ok trees
  unbound : ∀ diagnostic, event.diagnostic? = some diagnostic →
    ∀ name, diagnostic.kind = .unboundName name → ∃ found, pass.Found found ∧
      diagnostic.rules = [found.rule.id] ∧
        ∃ span, replacement found span = .error (.unboundName name)

private theorem explained_carryOut {found : Match} (isFound : pass.Found found)
    {claimed : List Tree} {location : Location} :
    ∀ event ∈ (pass.carryOut found claimed location).trace, pass.Explained event := by
  intro event told
  constructor
  · intro entry is_entry
    have listed : entry ∈ (pass.carryOut found claimed location).trace.applied :=
      List.mem_filterMap.mpr ⟨event, told, is_entry⟩
    obtain rfl := List.mem_singleton.mp ((reports_carryOut pass found claimed location).2 listed)
    refine ⟨found, isFound, rfl, location.span, ?_⟩
    cases filled : replacement found location.span with
    | ok trees => exact ⟨trees, rfl⟩
    | error error =>
      rw [carryOut_failed pass claimed filled] at listed
      contradiction
  · intro diagnostic is_diagnostic name kind
    have reported := mem_diagnostics_carryOut
      (List.mem_filterMap.mpr ⟨event, told, is_diagnostic⟩)
    rcases reported with ⟨error, failed, rfl⟩ | rfl
    · refine ⟨found, isFound, rfl, location.span, ?_⟩
      cases error with
      | unboundName other =>
        cases kind
        exact failed
      | shapeMismatch produced => contradiction
    · contradiction

theorem explained_run (sound : pass.Sound) :
    ∀ event ∈ (pass.run root).trace, pass.Explained event := by
  refine ContestsTell.run ⟨?_, ?_, ?_⟩ sound
  · intro event finding
    constructor
    · intro entry is_entry
      rw [finding.unapplied] at is_entry
      contradiction
    · intro diagnostic is_diagnostic name kind
      have refusal := finding.refusal diagnostic is_diagnostic
      rw [kind] at refusal
      contradiction
  · intro claims locate _ extent rules _
    constructor
    · intro entry is_entry
      contradiction
    · intro diagnostic is_diagnostic name kind
      cases is_diagnostic
      contradiction
  · intro claims locate held winner awarded claimed
    exact explained_carryOut (found_of_grant sound held awarded)

end Pass

/-- What is reported of a rule is what its template can come to: without unbound names no name is
reported as unbound, and with some of them nothing is applied. -/
structure Rule.ReportedAsLoaded (rule : Rule) (applied : List Applied)
    (diagnostics : List Diagnostic) : Prop where
  applied : ∀ entry ∈ applied, entry.rule = rule.id → rule.template.unboundIn rule.pattern = []
  unbound : ∀ diagnostic ∈ diagnostics, ∀ name, diagnostic.kind = .unboundName name →
    rule.id ∈ diagnostic.rules → (rule.template.unboundIn rule.pattern).head? = some name

namespace Pass

private theorem eq_of_found {pass : Pass} (coherent : pass.catalog.Coherent) {rule : Rule}
    (isRule : rule ∈ pass.catalog.rules) {found : Match} (isFound : pass.Found found)
    (same : found.rule.id = rule.id) : found.rule = rule := by
  have here := (coherent.rules.getElem?_id isFound.isRule).1
  rw [same, (coherent.rules.getElem?_id isRule).1] at here
  exact (Option.some.inj here).symm

theorem reportedAsLoaded_run {pass : Pass} (coherent : pass.catalog.Coherent)
    (lookup : pass.lookup = pass.catalog.candidates)
    (admitted : ∀ rule ∈ pass.catalog.rules, rule.Admitted pass.language) {rule : Rule}
    (isRule : rule ∈ pass.catalog.rules) (plain : rule.pattern.shape.Plain) (root : Tree) :
    rule.ReportedAsLoaded (pass.run root).trace.applied (pass.run root).trace.diagnostics := by
  have sound := sound_of_coherent coherent lookup
  constructor
  · intro entry listed named
    obtain ⟨event, told, is_entry⟩ := List.mem_filterMap.mp listed
    obtain ⟨found, isFound, by_rule, span, trees, filled⟩ :=
      (explained_run sound event told).applied entry is_entry
    obtain rfl := eq_of_found coherent isRule isFound (by_rule.symm.trans named)
    have comes := comes_replacement (admitted _ isRule) plain isFound.binds span
    cases unbound : found.rule.template.unboundIn found.rule.pattern with
    | nil => rfl
    | cons name rest =>
      have failed := comes.unbound name rest unbound
      rw [filled] at failed
      contradiction
  · intro diagnostic listed name kind named
    obtain ⟨event, told, is_diagnostic⟩ := List.mem_filterMap.mp listed
    obtain ⟨found, isFound, rules, span, failed⟩ :=
      (explained_run sound event told).unbound diagnostic is_diagnostic name kind
    rw [rules, List.mem_singleton] at named
    obtain rfl := eq_of_found coherent isRule isFound named.symm
    have comes := comes_replacement (admitted _ isRule) plain isFound.binds span
    cases unbound : found.rule.template.unboundIn found.rule.pattern with
    | cons first rest =>
      have known := comes.unbound first rest unbound
      rw [failed] at known
      cases known
      rfl
    | nil =>
      exfalso
      cases window : found.rule.pattern.isWindow with
      | true =>
        obtain ⟨trees, filled⟩ := comes.window unbound window
        rw [failed] at filled
        contradiction
      | false =>
        by_cases fits : ∀ trees, found.rule.template.splice? found.bindings = some trees →
            trees.length = 1
        · obtain ⟨tree, filled⟩ := comes.node unbound window fits
          rw [failed] at filled
          contradiction
        · push Not at fits
          obtain ⟨trees, spliced, several⟩ := fits
          have mismatch := comes.mismatch unbound window trees spliced several
          rw [failed] at mismatch
          cases mismatch

theorem reportedAsLoaded_load {language : Language} {calls : List Builder.Call} {pass : Pass}
    (loaded : pass.catalog = Catalog.load language calls)
    (lookup : pass.lookup = pass.catalog.candidates) {rule : Rule}
    (isRule : rule ∈ (Catalog.load language calls).rules) (plain : rule.pattern.shape.Plain)
    (root : Tree) :
    rule.ReportedAsLoaded (pass.run root).trace.applied (pass.run root).trace.diagnostics := by
  have speaks : pass.language = language := by
    rw [Pass.language, loaded, Catalog.language_load]
  have admitted := Catalog.admitted_load language calls
  have coherent := Catalog.coherent_load language calls
  rw [← loaded] at isRule admitted coherent
  exact reportedAsLoaded_run coherent lookup (speaks ▸ admitted) isRule plain root

end Pass

/-- Whether the replacement for a match of a rule can be made is decided when the rule is loaded, but
for the length of a sequence that takes the place of one node. So no name of a rule without unbound
names is ever reported as unbound, and no rule with some is ever applied. -/
theorem Engine.failures_decided_at_load (language : Language) (calls : List Builder.Call)
    (rule : Rule) (isRule : rule ∈ (Catalog.load language calls).rules)
    (plain : rule.pattern.shape.Plain) :
    let catalog := Catalog.load language calls
    (∀ bindings, rule.pattern.Binds language bindings → ∀ span,
      Pass.Comes rule bindings (Pass.replacement ⟨rule, bindings⟩ span)) ∧
    (∀ platform mode root,
      let pass : Pass := ⟨catalog, catalog.candidates, platform, mode⟩
      rule.ReportedAsLoaded (pass.run root).trace.applied (pass.run root).trace.diagnostics) ∧
    ∀ maxPasses unit stop,
      let engine : Engine := { catalog, maxPasses }
      let report := (engine.run unit stop).report
      rule.ReportedAsLoaded report.applied report.diagnostics := by
  intro catalog
  refine ⟨fun bindings binds => ?_, fun platform mode root => ?_,
    fun maxPasses unit stop => ⟨?_, ?_⟩⟩
  · exact Pass.comes_replacement (Catalog.admitted_load language calls rule isRule) plain binds
  · exact Pass.reportedAsLoaded_load rfl rfl isRule plain root
  · exact forall_applied_run
      (fun root => (Pass.reportedAsLoaded_load rfl rfl isRule plain root).applied) stop
  · exact forall_diagnostics_run
      (fun mode root => (Pass.reportedAsLoaded_load rfl rfl isRule plain root).unbound) stop

/-- A rule that puts what is in a block in its place. -/
def flattenDraft : RuleDraft where
  name := "flatten"
  pattern := .node (.branch "block" [.hole (.capturing "body" .sequence)])
  template := .ofShape (.node (.hole (.capturing "body" .sequence)))

/-- The rule that the draft makes. -/
def flattenRule : Rule :=
  { id := 0, name := flattenDraft.name, guard := flattenDraft.guard
    pattern := ⟨flattenDraft.pattern, ⟨[("body", .sequence)]⟩, true⟩
    template := flattenDraft.template, priority := flattenDraft.priority
    trigger := ⟨none, "block"⟩, span := flattenDraft.span }

theorem Engine.flattening_fails_for_two :
    let language := ({} : Roles).language
    let catalog := Catalog.load language [.add flattenDraft]
    let statements := [Tree.leaf Tree.nameKind "first", .leaf Tree.nameKind "second"]
    ∃ bindings, flattenRule.pattern.matchNode language (.branch "block" statements) =
        some bindings ∧
      flattenRule ∈ catalog.rules ∧ flattenRule.pattern.shape.Plain ∧
      Pass.replacement ⟨flattenRule, bindings⟩ .generated = .error (.shapeMismatch 2) ∧
      ∀ maxPasses unit stop,
        let engine : Engine := { catalog, maxPasses }
        let report := (engine.run unit stop).report
        flattenRule.ReportedAsLoaded report.applied report.diagnostics := by
  intro language catalog statements
  have rules : catalog.rules = [flattenRule] := rfl
  have isRule : flattenRule ∈ catalog.rules := rules ▸ List.mem_cons_self
  have plain : flattenRule.pattern.shape.Plain := by decide
  have matched : flattenRule.pattern.matchNode language (.branch "block" statements) =
      some ⟨[("body", .sequence statements)]⟩ := rfl
  obtain ⟨comes, -, reported⟩ := failures_decided_at_load language _ flattenRule isRule plain
  exact ⟨_, matched, isRule, plain,
    (comes _ (.inl ⟨_, matched⟩) .generated).mismatch rfl rfl statements rfl (by decide), reported⟩

end Codemod
