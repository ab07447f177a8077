import Codemod.Proofs.Contest.Renaming
import Codemod.Proofs.Pass.Mirror
import Mathlib.Data.List.Perm.Basic

/-!
# Translated rules

A translation gives rules other ids. It may change the guard of a rule, but neither what the guard
accepts nor what the rule matches and puts in place. A pass whose rules claim in translation what
the rules of another pass claim mirrors that pass.
-/

namespace Codemod

namespace Rule

/-- What the guard of a rule says about a match. -/
def verdict (rule : Rule) (bindings : Bindings) (facts : Facts) : Verdict :=
  match rule.guard with
  | none => .accept
  | some guard => guard.evaluate bindings facts

/-- Whether the guard of a rule asks the engine to stop. -/
def cancels (rule : Rule) (bindings : Bindings) (facts : Facts) : Bool :=
  match rule.guard with
  | none => false
  | some guard => guard.cancels bindings facts

end Rule

private theorem Traced.collect_map {α β γ : Type} (step : β → Traced (List γ)) (change : α → β)
    (items : List α) : collect step (items.map change) = collect (fun item => step (change item))
      items := by
  rw [collect, collect, List.map_map]
  rfl

namespace Pass

def requestStop (cancels : Bool) : Traced Unit :=
  if cancels then .emit .stopRequested else pure ()

private theorem requestStop_bind {α : Type} (cancels : Bool) (rest : Traced α) :
    (requestStop cancels >>= fun _ => rest) =
      if cancels then (Traced.emit .stopRequested >>= fun _ => rest) else rest := by
  cases cancels <;> rfl

/-- What a match comes to once its guard was asked. -/
def judge (rule : Rule) (location : Location) (cancels : Bool) (verdict : Verdict) :
    Traced Bool := do
  .emit (.matched rule)
  requestStop cancels
  match verdict with
  | .accept => pure true
  | .refuse refusal => do
    refuse rule location refusal
    pure false

theorem accepts_eq (pass : Pass) (rule : Rule) (bindings : Bindings) (anchor : Tree)
    (scope : Option Nat) (location : Location) :
    pass.accepts rule bindings anchor scope location =
      judge rule location (rule.cancels bindings (pass.factsAt scope anchor))
        (rule.verdict bindings (pass.factsAt scope anchor)) := by
  simp only [accepts, judge, Rule.cancels, Rule.verdict]
  cases rule.guard with
  | none => rfl
  | some guard =>
    exact congrArg (Traced.emit (.matched rule) >>= ·)
      (funext fun _ => (requestStop_bind _ _).symm)

/-- The claims of the rules of one sort that are tried on a tree, where each looks for its pattern
in a given way. -/
def claimsWith (pass : Pass) (sort : Pattern → Bool) (find : Pattern → Option (Bindings × Extent))
    (anchor : Tree) (scope : Option Nat) (locate : Extent → Location) :
    Traced (List (Claim Match)) :=
  Traced.collect (fun rule => pass.claim rule (find rule.pattern) anchor scope locate)
    ((pass.lookup anchor).filter fun rule => sort rule.pattern)

theorem treeClaims_eq (pass : Pass) (composite : Bool) (scope : Option Nat) (position : Nat)
    (location : Location) (tree : Tree) :
    pass.treeClaims composite scope position location tree =
      pass.claimsWith (fun pattern => !pattern.isWindow && pattern.composite == composite)
        (fun pattern => (pattern.matchNode pass.language tree).map (·, .single position)) tree scope
        fun _ => location := rfl

theorem windowClaims_eq (pass : Pass) (path : List Nat) (scope : Option Nat)
    (statements : List Tree) (start : Nat) (first : Tree) :
    pass.windowClaims path scope statements start first =
      pass.claimsWith Pattern.isWindow
        (fun pattern => pattern.matchWindow pass.language statements start) first scope
        fun extent => blockLocation path statements extent true := rfl

/-- The ways to look for a pattern: at a tree itself, or over the statements from it on. -/
inductive LooksAt (language : Language) (anchor : Tree) :
    (Pattern → Option (Bindings × Extent)) → Prop where
  | node (position : Nat) : LooksAt language anchor fun pattern =>
      (pattern.matchNode language anchor).map (·, .single position)
  | window {statements : List Tree} {start : Nat} (here : statements[start]? = some anchor) :
      LooksAt language anchor fun pattern => pattern.matchWindow language statements start

end Pass

/-- What becomes of rules and their ids. -/
structure Translation where
  rule : Rule → Rule
  id : Nat → Nat
  injective : Function.Injective id
  id_rule : ∀ original, (rule original).id = id original.id
  name_rule : ∀ original, (rule original).name = original.name
  pattern_rule : ∀ original, (rule original).pattern = original.pattern
  template_rule : ∀ original, (rule original).template = original.template
  priority_rule : ∀ original, (rule original).priority = original.priority
  verdict_rule : ∀ original bindings facts,
    (rule original).verdict bindings facts = original.verdict bindings facts

namespace Translation

variable (t : Translation)

def found (found : Match) : Match :=
  ⟨t.rule found.rule, found.bindings⟩

def event : Event → Event
  | .searched rule => .searched (t.rule rule)
  | .matched rule => .matched (t.rule rule)
  | .stopRequested => .stopRequested
  | .refused rule location refusal => .refused (t.rule rule) location refusal
  | .diagnosed ⟨kind, rules, location⟩ => .diagnosed ⟨kind, ascending (rules.map t.id), location⟩
  | .instantiated rule => .instantiated (t.rule rule)
  | .failed rule location error => .failed (t.rule rule) location error
  | .unchanged rule location => .unchanged (t.rule rule) location
  | .applied rule location => .applied (t.rule rule) location

def traced {α : Type} (traced : Traced α) : Traced α :=
  ⟨traced.value, traced.trace.map t.event⟩

end Translation

/-- An event other than a request to stop. Its rules are listed in increasing order. -/
def Event.Listed : Event → Prop
  | .diagnosed diagnostic => ascending diagnostic.rules = diagnostic.rules
  | .stopRequested => False
  | _ => True

@[simp] theorem ascending_singleton (number : Nat) : ascending [number] = [number] := by
  simp [ascending, distinct, addAllNew, addNew]

/-- Translated events tell the same. -/
structure TraceRelation.Keeps (relation : TraceRelation) (t : Translation) : Prop where
  event : ∀ event : Event, event.Listed → relation.same [event] [t.event event]
  stop : ∀ (rule : Rule) (bindings : Bindings) (facts : Facts),
    relation.same (Pass.requestStop (rule.cancels bindings facts)).trace
      (Pass.requestStop ((t.rule rule).cancels bindings facts)).trace

namespace TraceRelation.Keeps

variable {relation : TraceRelation} {t : Translation}

private theorem trace (keeps : relation.Keeps t) {trace : Trace}
    (listed : ∀ event ∈ trace, event.Listed) : relation.same trace (trace.map t.event) := by
  have each := relation.flatMap fun event member => keeps.event event (listed event member)
  rwa [List.flatMap_singleton', ← List.map_eq_flatMap] at each

private theorem traced {α : Type} (keeps : relation.Keeps t) {traced : Traced α}
    (listed : ∀ event ∈ traced.trace, event.Listed) :
    Traced.Related relation Eq traced (t.traced traced) :=
  ⟨rfl, keeps.trace listed⟩

end TraceRelation.Keeps

namespace Pass

variable {relation : TraceRelation} {t : Translation} {pass image : Pass}

private theorem replacement_found (t : Translation) (found : Match) (span : Span) :
    replacement (t.found found) span = replacement found span := by
  simp only [replacement, Translation.found, t.pattern_rule, t.template_rule]

private theorem carryOut_found (mode : image.mode = pass.mode) (found : Match) (claimed : List Tree)
    (location : Location) :
    image.carryOut (t.found found) claimed location =
      t.traced (pass.carryOut found claimed location) := by
  have same := replacement_found t found location.span
  have id : (t.found found).rule.id = t.id found.rule.id := t.id_rule found.rule
  cases filled : replacement found location.span with
  | error error =>
    rw [filled] at same
    rw [carryOut_failed image claimed same, carryOut_failed pass claimed filled, id]
    simp [Translation.traced, Translation.event, Translation.found]
  | ok trees =>
    rw [filled] at same
    cases equal : Tree.sameAll trees claimed with
    | true =>
      rw [carryOut_unchanged image same equal, carryOut_unchanged pass filled equal]
      rfl
    | false =>
      cases kind : pass.mode with
      | replace =>
        rw [kind] at mode
        rw [carryOut_replace mode same equal, carryOut_replace kind filled equal]
        rfl
      | survey =>
        rw [kind] at mode
        rw [carryOut_survey mode same equal, carryOut_survey kind filled equal, id]
        simp [Translation.traced, Translation.event, Translation.found]

private theorem listed_carryOut (pass : Pass) (found : Match) (claimed : List Tree)
    (location : Location) :
    ∀ event ∈ (pass.carryOut found claimed location).trace, event.Listed := by
  cases filled : replacement found location.span with
  | error error => simp [carryOut_failed pass claimed filled, Event.Listed]
  | ok trees =>
    cases equal : Tree.sameAll trees claimed with
    | true => simp [carryOut_unchanged pass filled equal, Event.Listed]
    | false =>
      cases kind : pass.mode with
      | replace => simp [carryOut_replace kind filled equal, Event.Listed]
      | survey => simp [carryOut_survey kind filled equal, Event.Listed]

private theorem related_carryOut (keeps : relation.Keeps t) (mode : image.mode = pass.mode)
    (found : Match) (claimed : List Tree) (location : Location) : Traced.Related relation Eq
      (pass.carryOut found claimed location) (image.carryOut (t.found found) claimed location) := by
  rw [carryOut_found mode]
  exact keeps.traced (listed_carryOut pass found claimed location)

private theorem related_report (keeps : relation.Keeps t) (kind : DiagnosticKind) {rules : List Nat}
    (listed : ascending rules = rules) (location : Location) : Traced.Related relation Eq
      (report kind rules location) (report kind (ascending (rules.map t.id)) location) :=
  ⟨rfl, keeps.event (.diagnosed ⟨kind, rules, location⟩) listed⟩

private theorem related_settleTree (keeps : relation.Keeps t) (mode : image.mode = pass.mode)
    (path : List Nat) (tree : Tree) {claims others : List (Claim Match)}
    (same : Contest.resolve others =
      (Contest.resolve claims).map (Award.rename t.id t.found)) :
    Traced.Related relation Eq (pass.settleTree path tree claims)
      (image.settleTree path tree others) := by
  simp only [settleTree]
  rw [same]
  cases resolved : Contest.resolve claims with
  | nil => exact .pure rfl
  | cons award rest =>
    cases award with
    | ambiguous extent rules =>
      have listed := Contest.ascending_of_ambiguous (resolved ▸ List.mem_cons_self)
      apply (related_report keeps .ambiguousMatch listed _).bind_eq
      intro _
      exact .pure rfl
    | grant winner =>
      apply (related_carryOut keeps mode winner.payload [tree] _).bind_eq
      intro outcome
      exact .pure rfl

/-- The rules of one pass claim in translation what those of another claim. -/
structure Translates (relation : TraceRelation) (t : Translation) (pass image : Pass) :
    Prop where
  language_eq : image.language = pass.language
  platform_eq : image.platform = pass.platform
  mode_eq : image.mode = pass.mode
  rules_eq : ∀ id, image.catalog.rules[t.id id]? = pass.catalog.rules[id]?.map t.rule
  claims : ∀ (sort : Pattern → Bool) (find : Pattern → Option (Bindings × Extent)) (anchor : Tree)
    (scope : Option Nat) (locate : Extent → Location), LooksAt pass.language anchor find →
      Traced.Related relation
        (fun claims others => others.Perm (claims.map (Claim.rename t.id t.found)))
        (pass.claimsWith sort find anchor scope locate)
        (image.claimsWith sort find anchor scope locate)

namespace Translates

private theorem any_isWindow (translates : Translates relation t pass image) (rules : List Nat) :
    ((ascending (rules.map t.id)).any fun id =>
        (image.catalog.rules[id]?).any (·.pattern.isWindow)) =
      rules.any fun id => (pass.catalog.rules[id]?).any (·.pattern.isWindow) := by
  have each (id : Nat) : (image.catalog.rules[t.id id]?).any (·.pattern.isWindow) =
      (pass.catalog.rules[id]?).any (·.pattern.isWindow) := by
    rw [translates.rules_eq, Option.any_map]
    simp only [t.pattern_rule]
  rw [Bool.eq_iff_iff, List.any_eq_true, List.any_eq_true]
  simp only [mem_ascending, List.mem_map]
  constructor
  · rintro ⟨_, ⟨id, member, rfl⟩, window⟩
    exact ⟨id, member, each id ▸ window⟩
  · rintro ⟨id, member, window⟩
    exact ⟨t.id id, ⟨id, member, rfl⟩, (each id).symm ▸ window⟩

private theorem settlesAlike (translates : Translates relation t pass image)
    (keeps : relation.Keeps t)
    (path : List Nat) (statements : List Tree) {claims : List (Claim Match)} {award : Award Match}
    (member : award ∈ Contest.resolve claims) :
    SettlesAlike relation pass image path statements award (award.rename t.id t.found) := by
  refine ⟨Award.extent_rename t.id t.found award, ?_⟩
  cases award with
  | ambiguous extent rules =>
    simp only [Award.rename, settleAward]
    rw [translates.any_isWindow]
    have listed := Contest.ascending_of_ambiguous member
    apply (related_report keeps .ambiguousMatch listed _).bind_eq
    intro _
    exact .pure rfl
  | grant winner =>
    have window : (t.found winner.payload).rule.pattern = winner.payload.rule.pattern :=
      t.pattern_rule winner.payload.rule
    simp only [Award.rename, settleAward, Claim.rename]
    rw [window]
    exact related_carryOut keeps translates.mode_eq winner.payload _ _

private theorem treeClaims (translates : Translates relation t pass image) (composite : Bool)
    (scope : Option Nat) (position : Nat) (location : Location) (tree : Tree) :
    Traced.Related relation
      (fun claims others => others.Perm (claims.map (Claim.rename t.id t.found)))
      (pass.treeClaims composite scope position location tree)
      (image.treeClaims composite scope position location tree) := by
  rw [treeClaims_eq, treeClaims_eq, translates.language_eq]
  exact translates.claims _ _ tree scope _ (.node position)

private theorem windowClaims (translates : Translates relation t pass image) (path : List Nat)
    (scope : Option Nat) {statements : List Tree} {start : Nat} {first : Tree}
    (here : statements[start]? = some first) :
    Traced.Related relation
      (fun claims others => others.Perm (claims.map (Claim.rename t.id t.found)))
      (pass.windowClaims path scope statements start first)
      (image.windowClaims path scope statements start first) := by
  rw [windowClaims_eq, windowClaims_eq, translates.language_eq]
  exact translates.claims _ _ first scope _ (.window here)

end Translates

private theorem related_collect {α β : Type} {change : β → β} {steps looks : α → Traced (List β)}
    {items : List α} (each : ∀ item ∈ items, Traced.Related relation
      (fun values others => others.Perm (values.map change)) (steps item) (looks item)) :
    Traced.Related relation (fun values others => others.Perm (values.map change))
      (Traced.collect steps items) (Traced.collect looks items) := by
  constructor
  · simp only [Traced.value_collect, List.map_flatMap]
    exact List.Perm.flatMap_left items fun item member => (each item member).1
  · rw [Traced.trace_collect, Traced.trace_collect]
    exact relation.flatMap fun item member => (each item member).2

private theorem Translates.blockClaims (translates : Translates relation t pass image)
    (path : List Nat) (scope : Option Nat) (statements : List Tree) :
    Traced.Related relation
      (fun claims others => others.Perm (claims.map (Claim.rename t.id t.found)))
      (pass.blockClaims path scope statements) (image.blockClaims path scope statements) := by
  apply related_collect
  rintro ⟨statement, index⟩ member
  have here := List.mk_mem_zipIdx_iff_getElem?.mp member
  apply (translates.treeClaims true scope index _ statement).bind
  intro singles
  apply (translates.windowClaims path scope here).bind
  intro windows
  apply Traced.Related.pure
  rw [List.map_append]
  exact singles.append windows

private theorem Sound.eq_of_id (sound : pass.Sound) {first second : Tree} {rule other : Rule}
    (tried : rule ∈ pass.lookup first) (alsoTried : other ∈ pass.lookup second)
    (same : rule.id = other.id) : rule = other := by
  have here := sound.getElem?_id tried
  have there := sound.getElem?_id alsoTried
  rw [same, there] at here
  exact (Option.some.inj here).symm

theorem once_treeClaims (sound : pass.Sound) (change : Match → Match) (composite : Bool)
    (scope : Option Nat) (position : Nat) (location : Location) (tree : Tree) :
    Contest.Once change (pass.treeClaims composite scope position location tree).value := by
  intro a aMember b bMember sameRule _ _
  obtain ⟨rule, tried, _, _, bindings, matched, _, rfl⟩ := mem_treeClaims.mp aMember
  obtain ⟨other, alsoTried, _, _, others, alsoMatched, _, rfl⟩ := mem_treeClaims.mp bMember
  obtain rfl := sound.eq_of_id tried alsoTried sameRule
  rw [matched] at alsoMatched
  cases alsoMatched
  rfl

/-- What the pattern of a rule captures from a statement on. -/
private def capturedFrom (pass : Pass) (rule : Rule) (statements : List Tree) (start : Nat)
    (statement : Tree) : Option Bindings :=
  if rule.pattern.isWindow then
    (rule.pattern.matchWindow pass.language statements start).map Prod.fst
  else rule.pattern.matchNode pass.language statement

private theorem captured_of_mem_blockClaims (sound : pass.Sound) {path : List Nat}
    {scope : Option Nat} {statements : List Tree} {claim : Claim Match}
    (claimed : claim ∈ (pass.blockClaims path scope statements).value) :
    ∃ statement, statements[claim.extent.start]? = some statement ∧
      claim.payload.rule ∈ pass.lookup statement ∧ claim.rule = claim.payload.rule.id ∧
        pass.capturedFrom claim.payload.rule statements claim.extent.start statement =
          some claim.payload.bindings := by
  obtain ⟨index, statement, here, single | window⟩ := mem_blockClaims.mp claimed
  · obtain ⟨rule, tried, isNode, _, bindings, matched, _, rfl⟩ := mem_treeClaims.mp single
    exact ⟨statement, here, tried, rfl, by simp [capturedFrom, isNode, matched]⟩
  · obtain ⟨rule, tried, isWindow, bindings, extent, matched, _, rfl⟩ := mem_windowClaims.mp window
    have compiled := sound.compiled tried
    obtain ⟨rfl, _⟩ := Pattern.matchWindow_root compiled matched
    exact ⟨statement, here, tried, rfl, by simp [capturedFrom, isWindow, matched]⟩

theorem once_blockClaims (sound : pass.Sound) (change : Match → Match) (path : List Nat)
    (scope : Option Nat) (statements : List Tree) :
    Contest.Once change (pass.blockClaims path scope statements).value := by
  intro a aMember b bMember sameRule _ sameExtent
  obtain ⟨statement, here, tried, aRule, captured⟩ := captured_of_mem_blockClaims sound aMember
  obtain ⟨other, there, alsoTried, bRule, alsoCaptured⟩ :=
    captured_of_mem_blockClaims sound bMember
  rw [← sameExtent, here] at there
  cases there
  have rules : a.payload.rule = b.payload.rule :=
    sound.eq_of_id tried alsoTried (aRule.symm.trans (sameRule.trans bRule))
  rw [← rules, ← sameExtent, captured] at alsoCaptured
  have bindings := Option.some.inj alsoCaptured
  obtain ⟨_, _, _, _, _⟩ := a
  obtain ⟨_, _, _, _, _⟩ := b
  simp_all

/-- A pass mirrors one whose rules it translates. -/
theorem Translates.mirrors (translates : Translates relation t pass image)
    (keeps : relation.Keeps t) (sound : pass.Sound) : Mirrors relation pass image := by
  refine ⟨translates.language_eq, translates.platform_eq, ?_, ?_⟩
  · intro composite path scope tree
    apply (translates.treeClaims composite scope 0 ⟨path, none, tree.span⟩ tree).bind
    intro perm
    apply related_settleTree keeps translates.mode_eq path tree
    exact Contest.resolve_rename t.injective
      (allProper_treeClaims pass composite scope 0 ⟨path, none, tree.span⟩ tree)
      (once_treeClaims sound t.found composite scope 0 ⟨path, none, tree.span⟩ tree) perm
  · intro path scope statements
    have related := translates.blockClaims path scope statements
    refine ⟨?_, related.2⟩
    dsimp only
    have proper : Contest.AllProper (pass.blockClaims path scope statements).value :=
      fun _ member => (bounds_of_mem_blockClaims sound member).1
    rw [Contest.resolve_rename t.injective proper
      (once_blockClaims sound t.found path scope statements) related.1]
    rw [List.forall₂_map_right_iff, List.forall₂_same]
    intro award member
    exact translates.settlesAlike keeps path statements member

private theorem related_judge (keeps : relation.Keeps t) (rule : Rule) (location : Location)
    (bindings : Bindings) (facts : Facts) : Traced.Related relation Eq
      (judge rule location (rule.cancels bindings facts) (rule.verdict bindings facts))
      (judge (t.rule rule) location ((t.rule rule).cancels bindings facts)
        ((t.rule rule).verdict bindings facts)) := by
  rw [t.verdict_rule]
  refine Traced.Related.bind_eq ⟨rfl, keeps.event (.matched rule) trivial⟩ fun _ => ?_
  refine Traced.Related.bind_eq ⟨rfl, keeps.stop rule bindings facts⟩ fun _ => ?_
  cases rule.verdict bindings facts with
  | accept => exact .pure rfl
  | refuse refusal =>
    refine Traced.Related.bind_eq ?_ fun _ => .pure rfl
    refine Traced.Related.bind_eq ⟨rfl, keeps.event (.refused rule location refusal) trivial⟩ ?_
    intro _
    have reported (kind : DiagnosticKind) := related_report keeps kind
      (ascending_singleton rule.id) location
    simp only [List.map_singleton, ascending_singleton, ← t.id_rule] at reported
    cases refusal with
    | unprovenCapability => exact reported .unprovenCapability
    | unresolvedType => exact reported .unresolvedType
    | unsatisfied why => exact .pure rfl

/-- A translated rule claims what the rule claims. -/
theorem related_claim (keeps : relation.Keeps t) (language : image.language = pass.language)
    (platform : image.platform = pass.platform) (rule : Rule)
    (found : Option (Bindings × Extent)) (anchor : Tree) (scope : Option Nat)
    (locate : Extent → Location) : Traced.Related relation
      (fun claims others => others = claims.map (Claim.rename t.id t.found))
      (pass.claim rule found anchor scope locate)
      (image.claim (t.rule rule) found anchor scope locate) := by
  have facts : image.factsAt scope anchor = pass.factsAt scope anchor := by
    simp only [factsAt, language, platform]
  refine Traced.Related.bind ⟨rfl, keeps.event (.searched rule) trivial⟩ fun _ => ?_
  cases found with
  | none => exact .pure rfl
  | some pair =>
    obtain ⟨bindings, extent⟩ := pair
    simp only [accepts_eq, facts]
    apply (related_judge keeps rule (locate extent) bindings (pass.factsAt scope anchor)).bind
    intro same
    rw [← same]
    split
    · apply Traced.Related.pure
      simp [Claim.rename, Translation.found, t.id_rule, t.priority_rule]
    · exact .pure rfl

/-- When the rules that are tried are the translated ones, so are the claims. -/
theorem related_claimsWith (keeps : relation.Keeps t) (language : image.language = pass.language)
    (platform : image.platform = pass.platform) (sort : Pattern → Bool)
    (find : Pattern → Option (Bindings × Extent)) {anchor : Tree}
    (tried : image.lookup anchor = (pass.lookup anchor).map t.rule) (scope : Option Nat)
    (locate : Extent → Location) : Traced.Related relation
      (fun claims others => others.Perm (claims.map (Claim.rename t.id t.found)))
      (pass.claimsWith sort find anchor scope locate)
      (image.claimsWith sort find anchor scope locate) := by
  have sorts : (fun rule => sort rule.pattern) ∘ t.rule = fun rule => sort rule.pattern := by
    funext rule
    rw [Function.comp_apply, t.pattern_rule]
  rw [claimsWith, claimsWith, tried, List.filter_map, sorts, Traced.collect_map]
  apply related_collect
  intro rule _
  simp only [t.pattern_rule]
  have related := related_claim keeps language platform rule (find rule.pattern) anchor scope locate
  exact ⟨.of_eq related.1, related.2⟩

end Pass

end Codemod
