import Codemod.Proofs.Pass.Parts
import Codemod.Proofs.Statistics.Printed

/-!
# What a pass times

A rule is timed when it is tried on a tree, whether it matches or not, and when its template is
filled in. Only rules of the catalog are tried, and only claims that were made are carried out, so
that a pass times no other rules.
-/

namespace Codemod

/-- The rule whose search or application an event times. -/
def Event.timedRule? : Event → Option Rule
  | .searched rule | .instantiated rule => some rule
  | _ => none

namespace Trace

/-- The rules that were timed, in order and each as often as it was. -/
def timedRules (trace : Trace) : List Rule :=
  trace.filterMap Event.timedRule?

@[simp] theorem timedRules_append (first second : Trace) :
    timedRules (first ++ second) = first.timedRules ++ second.timedRules :=
  List.filterMap_append

private theorem timedRules_flatMap {α : Type} (items : List α) (told : α → Trace) :
    timedRules (items.flatMap told) = items.flatMap fun item => (told item).timedRules :=
  List.filterMap_flatMap

private theorem timed_count_iff (sums : Statistics) (event : Event) (name : String) :
    (event.count sums).Timed name ↔
      sums.Timed name ∨ ∃ rule, event.timedRule? = some rule ∧ rule.name = name := by
  cases event with
  | searched rule =>
    simp only [Event.count, Event.timedRule?, Statistics.Timed, Tally.add, Assoc.keys_alter,
      mem_addNew, Option.some.injEq, exists_eq_left', eq_comm (a := rule.name)]
    exact or_right_comm
  | instantiated rule =>
    simp only [Event.count, Event.timedRule?, Statistics.Timed, Tally.add, Assoc.keys_alter,
      mem_addNew, Option.some.injEq, exists_eq_left', eq_comm (a := rule.name)]
    exact or_assoc.symm
  | _ => simp [Event.count, Event.timedRule?, Statistics.Timed]

private theorem timed_statistics_iff (trace : Trace) (name : String) :
    trace.statistics.Timed name ↔ ∃ rule ∈ trace.timedRules, rule.name = name := by
  have folded (sums : Statistics) : (trace.foldl Event.count sums).Timed name ↔
      sums.Timed name ∨ ∃ rule ∈ trace.timedRules, rule.name = name := by
    induction trace generalizing sums with
    | nil => simp [timedRules]
    | cons event rest ih =>
      rw [List.foldl_cons, ih, timed_count_iff, or_assoc, ← List.singleton_append,
        timedRules_append]
      simp [timedRules, or_and_right, exists_or]
  rw [statistics, folded]
  exact or_iff_right (Statistics.not_timed_empty name)

end Trace

namespace Pass

variable {pass : Pass} {root : Tree}

private theorem timedRules_accepts (pass : Pass) (rule : Rule) (bindings : Bindings) (anchor : Tree)
    (scope : Option Nat) (location : Location) :
    (pass.accepts rule bindings anchor scope location).trace.timedRules = [] :=
  filterMap_accepts rfl (fun _ _ _ => rfl) (fun _ => rfl) pass rule bindings anchor scope location

private theorem timedRules_claim (pass : Pass) (rule : Rule) (found : Option (Bindings × Extent))
    (anchor : Tree) (scope : Option Nat) (locate : Extent → Location) :
    (pass.claim rule found anchor scope locate).trace.timedRules = [rule] := by
  simp only [claim]
  cases found with
  | none => rfl
  | some pair =>
    obtain ⟨bindings, extent⟩ := pair
    have untimed := timedRules_accepts pass rule bindings anchor scope (locate extent)
    simp only [Traced.trace_bind, Trace.timedRules_append, untimed]
    split <;> rfl

private theorem timedRules_collect {rules : List Rule} {step : Rule → Traced (List (Claim Match))}
    (each : ∀ rule ∈ rules, (step rule).trace.timedRules = [rule]) :
    (Traced.collect step rules).trace.timedRules = rules := by
  rw [Traced.trace_collect, Trace.timedRules_flatMap, List.flatMap_congr each]
  exact List.flatMap_singleton' rules

private theorem timedRules_treeClaims (pass : Pass) (composite : Bool) (scope : Option Nat)
    (position : Nat) (location : Location) (tree : Tree) :
    (pass.treeClaims composite scope position location tree).trace.timedRules =
      (pass.lookup tree).filter fun rule =>
        !rule.pattern.isWindow && rule.pattern.composite == composite :=
  timedRules_collect fun rule _ => timedRules_claim pass rule _ tree scope _

private theorem timedRules_windowClaims (pass : Pass) (path : List Nat) (scope : Option Nat)
    (statements : List Tree) (start : Nat) (first : Tree) :
    (pass.windowClaims path scope statements start first).trace.timedRules =
      (pass.lookup first).filter (·.pattern.isWindow) :=
  timedRules_collect fun rule _ => timedRules_claim pass rule _ first scope _

private theorem mem_rules_of_timed_treeClaims (sound : pass.Sound) {composite : Bool}
    {scope : Option Nat} {position : Nat} {location : Location} {tree : Tree} :
    ∀ rule ∈ (pass.treeClaims composite scope position location tree).trace.timedRules,
      rule ∈ pass.catalog.rules := by
  intro rule timed
  rw [timedRules_treeClaims] at timed
  exact sound.lookup_mem tree rule (List.mem_of_mem_filter timed)

private theorem mem_rules_of_timed_blockClaims (sound : pass.Sound) {path : List Nat}
    {scope : Option Nat} {statements : List Tree} :
    ∀ rule ∈ (pass.blockClaims path scope statements).trace.timedRules,
      rule ∈ pass.catalog.rules := by
  intro rule timed
  rw [trace_blockClaims, Trace.timedRules_flatMap] at timed
  obtain ⟨⟨statement, index⟩, _, timed⟩ := List.mem_flatMap.mp timed
  rw [Trace.timedRules_append] at timed
  rcases List.mem_append.mp timed with single | window
  · exact mem_rules_of_timed_treeClaims sound rule single
  · rw [timedRules_windowClaims] at window
    exact sound.lookup_mem statement rule (List.mem_of_mem_filter window)

private theorem timedRules_carryOut (pass : Pass) (found : Match) (claimed : List Tree)
    (location : Location) :
    (pass.carryOut found claimed location).trace.timedRules = [found.rule] := by
  cases filled : replacement found location.span with
  | error error =>
    rw [carryOut_failed pass claimed filled]
    rfl
  | ok trees =>
    cases same : Tree.sameAll trees claimed with
    | true =>
      rw [carryOut_unchanged pass filled same]
      rfl
    | false =>
      cases mode : pass.mode with
      | survey =>
        rw [carryOut_survey mode filled same]
        rfl
      | replace =>
        rw [carryOut_replace mode filled same]
        rfl

private theorem exists_of_timed_settleTree {path : List Nat} {tree : Tree}
    {claims : List (Claim Match)} : ∀ rule ∈ (pass.settleTree path tree claims).trace.timedRules,
      ∃ winner ∈ claims, winner.payload.rule = rule := by
  intro rule timed
  rw [settleTree] at timed
  split at timed
  · contradiction
  · contradiction
  · rename_i winner rest awards
    have awarded : .grant winner ∈ Contest.resolve claims := awards ▸ List.mem_cons_self
    simp only [Traced.trace_bind, Traced.trace_pure, List.append_nil, timedRules_carryOut,
      List.mem_singleton] at timed
    exact ⟨winner, Contest.mem_of_grant awarded, timed.symm⟩

private theorem exists_of_timed_settleAward {path : List Nat} {statements : List Tree}
    {claims : List (Claim Match)} {award : Award Match} (awarded : award ∈ Contest.resolve claims) :
    ∀ rule ∈ (pass.settleAward path statements award).trace.timedRules,
      ∃ winner ∈ claims, winner.payload.rule = rule := by
  intro rule timed
  cases award with
  | ambiguous extent rules => contradiction
  | grant winner =>
    rw [settleAward, timedRules_carryOut, List.mem_singleton] at timed
    exact ⟨winner, Contest.mem_of_grant awarded, timed.symm⟩

/-- An event that times a rule times one of the catalog. -/
def TimesOwn (pass : Pass) (event : Event) : Prop :=
  ∀ rule, event.timedRule? = some rule → rule ∈ pass.catalog.rules

private theorem timesOwn_iff {trace : Trace} : (∀ event ∈ trace, pass.TimesOwn event) ↔
    ∀ rule ∈ trace.timedRules, rule ∈ pass.catalog.rules := by
  constructor
  · intro own rule timed
    obtain ⟨event, told, is_rule⟩ := List.mem_filterMap.mp timed
    exact own event told rule is_rule
  · intro own event told rule is_rule
    exact own rule (List.mem_filterMap.mpr ⟨event, told, is_rule⟩)

private theorem partsTell_timesOwn (sound : pass.Sound) (root : Tree) :
    pass.PartsTell root pass.TimesOwn := by
  constructor
  · intro composite path scope site tree _ _
    rw [timesOwn_iff, decideTree, Traced.trace_bind, Trace.timedRules_append,
      List.forall_mem_append]
    refine ⟨mem_rules_of_timed_treeClaims sound, fun rule timed => ?_⟩
    obtain ⟨winner, claimed, rfl⟩ := exists_of_timed_settleTree rule timed
    exact List.mem_of_getElem? (madeBy_of_mem_treeClaims sound claimed).isRule
  · intro path scope block _ _
    exact timesOwn_iff.mpr (mem_rules_of_timed_blockClaims sound)
  · intro path block _ _ award awarded
    rw [timesOwn_iff]
    intro rule timed
    obtain ⟨winner, claimed, rfl⟩ := exists_of_timed_settleAward awarded rule timed
    exact List.mem_of_getElem? (madeBy_of_mem_blockClaims sound claimed).isRule

/-- A pass times rules of its catalog only. -/
theorem exists_rule_of_timed (sound : pass.Sound) {name : String}
    (timed : (pass.run root).trace.statistics.Timed name) :
    ∃ rule ∈ pass.catalog.rules, rule.name = name := by
  obtain ⟨rule, told, named⟩ := (Trace.timed_statistics_iff _ name).mp timed
  have own := (partsTell_timesOwn sound root).run sound
  exact ⟨rule, timesOwn_iff.mp own rule told, named⟩

end Pass

end Codemod
