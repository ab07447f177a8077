import Codemod.Proofs.Guard.Leaves
import Codemod.Proofs.Match.Resemblance
import Codemod.Proofs.Pass.Relocation
import Codemod.Proofs.Pass.Translation

/-!
# Passes over trees that resemble each other

A pass that treats trees alike which resemble each other goes over them alike: it makes the same
claims, settles them in the same way, leads to trees that resemble each other, and tells the same up
to where things are.
-/

namespace Codemod

/-- A resemblance of trees together with the paths that lead to them, the versions that hold there
and how their locations are told. -/
structure Correspondence extends Resemblance where
  paths : List Nat → List Nat → Prop
  scopes : Option Nat → Option Nat → Prop
  left : Location → Location
  right : Location → Location
  path_concat : ∀ {path twinPath}, paths path twinPath →
    ∀ index, paths (path ++ [index]) (twinPath ++ [index])
  located : ∀ {path twinPath span twinSpan}, paths path twinPath → spans span twinSpan →
    ∀ statements, left ⟨path, statements, span⟩ = right ⟨twinPath, statements, twinSpan⟩

namespace Correspondence

variable (c : Correspondence)

def told : TraceRelation :=
  .relocated c.left c.right

def likeness : Pass.Likeness :=
  ⟨c.told, c.trees, c.paths, c.scopes⟩

/-- Locations that are told alike, on spans that go together. -/
structure Places (location twin : Location) : Prop where
  span : c.spans location.span twin.span
  told : c.left location = c.right twin

end Correspondence

/-- Matches of one rule with bindings that resemble each other. -/
structure Match.Resembles (r : Resemblance) (found twin : Match) : Prop where
  rule_eq : twin.rule = found.rule
  bindings : found.bindings.Resembles r twin.bindings

private theorem Traced.Related.collect {α β γ δ : Type} {relation : TraceRelation}
    {values : α → β → Prop}
    {step : γ → Traced (List α)} {look : δ → Traced (List β)} {items : List γ} {others : List δ}
    (each : List.Forall₂ (fun item other =>
      Related relation (List.Forall₂ values) (step item) (look other)) items others) :
    Related relation (List.Forall₂ values) (Traced.collect step items)
      (Traced.collect look others) := by
  have steps : List.Forall₂ (Related relation (List.Forall₂ values)) (items.map step)
      (others.map look) := by
    rwa [List.forall₂_map_left_iff, List.forall₂_map_right_iff]
  apply (Related.all steps).bind_of
  intro results images alike
  exact .pure (List.rel_flatten alike)

namespace Rule

variable {rule : Rule} {bindings others : Bindings} {facts known : Facts}

/-- What a rule requires, with all conjunctions taken apart. -/
def leaves (rule : Rule) : List Guard :=
  rule.guard.elim [] Guard.leaves

theorem all_notMem_leaves {inner : List Guard} : .all inner ∉ rule.leaves := by
  rw [leaves]
  cases rule.guard with
  | none => exact List.not_mem_nil
  | some guard => exact guard.all_notMem_leaves

theorem verdict_congr (agree : ∀ leaf ∈ rule.leaves,
    leaf.evaluate bindings facts = leaf.evaluate others known) :
    rule.verdict bindings facts = rule.verdict others known := by
  rw [leaves] at agree
  rw [verdict, verdict]
  cases required : rule.guard with
  | none => rfl
  | some guard =>
    rw [required] at agree
    exact guard.evaluate_congr agree

theorem cancels_eq_false (builtIn : ∀ leaf ∈ rule.leaves, leaf.isCustom = false) :
    rule.cancels bindings facts = false := by
  rw [leaves] at builtIn
  rw [cancels]
  cases required : rule.guard with
  | none => rfl
  | some guard =>
    rw [required] at builtIn
    exact guard.cancels_eq_false bindings facts builtIn

end Rule

namespace Guard

variable {r : Resemblance} {bindings others : Bindings}

private theorem checkAbsent_eq (resembles : bindings.Resembles r others) (name : String)
    {needle twin : Tree} (alike : r.trees needle twin) (within : List String) :
    checkAbsent bindings name needle within = checkAbsent others name twin within := by
  induction within with
  | nil => rfl
  | cons other rest ih =>
    have here := resembles other
    rw [checkAbsent, checkAbsent, ih]
    generalize Assoc.find? bindings other = found at here ⊢
    generalize Assoc.find? others other = image at here ⊢
    cases here with
    | none => rfl
    | @some capture twinCapture captured =>
      have occurs : capture.trees.any (·.contains needle) =
          twinCapture.trees.any (·.contains twin) :=
        any_eq_of_forall₂ captured.trees fun _ _ same =>
          Tree.contains_congr (r.same same) (r.same alike)
      simp only [occurs]

/-- Whether a tree occurs somewhere is the same for trees that resemble each other. -/
theorem checkUnreferenced_eq (resembles : bindings.Resembles r others) (name : String)
    (within : List String) :
    checkUnreferenced bindings name within = checkUnreferenced others name within := by
  have here := resembles name
  rw [checkUnreferenced, checkUnreferenced]
  generalize Assoc.find? bindings name = found at here ⊢
  generalize Assoc.find? others name = image at here ⊢
  cases here with
  | none => rfl
  | some captured =>
    cases captured with
    | node alike => exact checkAbsent_eq resembles name alike within
    | sequence alike => rfl

end Guard

namespace Pass

/-- The pass treats trees that correspond to each other alike. -/
structure Indifferent (c : Correspondence) (pass : Pass) : Prop where
  overlooks : pass.language.Overlooks c.toResemblance
  lookup : ∀ {tree twin}, c.trees tree twin → pass.lookup twin = pass.lookup tree
  scope : ∀ {scope twinScope tree twin}, c.scopes scope twinScope → c.trees tree twin →
    c.scopes (pass.innerScope scope tree) (pass.innerScope twinScope twin)
  verdict : ∀ {scope twinScope anchor twin rule bindings others}, rule ∈ pass.lookup anchor →
    c.scopes scope twinScope → c.trees anchor twin →
    bindings.Resembles c.toResemblance others →
    rule.verdict bindings (pass.factsAt scope anchor) =
      rule.verdict others (pass.factsAt twinScope twin)
  cancels : ∀ {scope twinScope anchor twin rule bindings others}, rule ∈ pass.lookup anchor →
    c.scopes scope twinScope → c.trees anchor twin →
    bindings.Resembles c.toResemblance others →
    rule.cancels bindings (pass.factsAt scope anchor) =
      rule.cancels others (pass.factsAt twinScope twin)

variable {c : Correspondence} {pass : Pass} {scope twinScope : Option Nat}
  {path twinPath : List Nat} {location twinLocation : Location}

private theorem related_emit {event image : Event}
    (same : event.relocate c.left = image.relocate c.right) :
    Traced.Related c.told Eq (.emit event) (.emit image) :=
  ⟨rfl, congrArg (fun event => [event]) same⟩

private theorem related_reportAt (told : c.left location = c.right twinLocation)
    (kind : DiagnosticKind)
    (rules : List Nat) : Traced.Related c.told Eq (report kind rules location)
      (report kind rules twinLocation) := by
  apply related_emit
  rw [Event.relocate, Event.relocate, Diagnostic.relocate, Diagnostic.relocate, told]

private theorem related_judgeAt (told : c.left location = c.right twinLocation) (rule : Rule)
    (cancels : Bool) (verdict : Verdict) : Traced.Related c.told Eq
      (judge rule location cancels verdict) (judge rule twinLocation cancels verdict) := by
  refine Traced.Related.bind_unit (related_emit rfl) ?_
  refine Traced.Related.bind_unit ?_ ?_
  · cases cancels with
    | true => exact related_emit rfl
    | false => exact .pure rfl
  · cases verdict with
    | accept => exact .pure rfl
    | refuse refusal =>
      refine Traced.Related.bind_unit ?_ (.pure rfl)
      refine Traced.Related.bind_unit (related_emit ?_) ?_
      · rw [Event.relocate, Event.relocate, told]
      · cases refusal with
        | unprovenCapability => exact related_reportAt told .unprovenCapability [rule.id]
        | unresolvedType => exact related_reportAt told .unresolvedType [rule.id]
        | unsatisfied why => exact .pure rfl

/-- What patterns find at corresponding places. -/
def FindsAlike (c : Correspondence) : Option (Bindings × Extent) → Option (Bindings × Extent) →
    Prop :=
  Option.Rel fun first second => first.1.Resembles c.toResemblance second.1 ∧ first.2 = second.2

/-- Claims that only differ in what was captured. -/
def ClaimsAlike (c : Correspondence) : List (Claim Match) → List (Claim Match) → Prop :=
  List.Forall₂ (Claim.Resembles (Match.Resembles c.toResemblance))

namespace Indifferent

variable {anchor twin : Tree}

private theorem related_claim (indifferent : Indifferent c pass) {rule : Rule}
    (tried : rule ∈ pass.lookup anchor) (anchors : c.trees anchor twin)
    (scopes : c.scopes scope twinScope) {found other : Option (Bindings × Extent)}
    (finds : FindsAlike c found other) {locate look : Extent → Location}
    (told : ∀ extent, c.left (locate extent) = c.right (look extent)) :
    Traced.Related c.told (ClaimsAlike c) (pass.claim rule found anchor scope locate)
      (pass.claim rule other twin twinScope look) := by
  refine Traced.Related.bind_unit (related_emit rfl) ?_
  cases finds with
  | none => exact .pure .nil
  | @some first second here =>
    obtain ⟨bindings, extent⟩ := first
    obtain ⟨others, _⟩ := second
    obtain ⟨resembles, rfl⟩ := here
    simp only [accepts_eq, indifferent.verdict tried scopes anchors resembles,
      indifferent.cancels tried scopes anchors resembles]
    apply (related_judgeAt (told extent) rule _ _).bind_of
    rintro accepted _ rfl
    split
    · exact .pure (.cons ⟨rfl, rfl, rfl, rfl, resembles⟩ .nil)
    · exact .pure .nil

private theorem related_claimsWith (indifferent : Indifferent c pass)
    (anchors : c.trees anchor twin) (scopes : c.scopes scope twinScope) (sort : Pattern → Bool)
    {find look : Pattern → Option (Bindings × Extent)}
    (finds : ∀ pattern, FindsAlike c (find pattern) (look pattern))
    {locate place : Extent → Location}
    (told : ∀ extent, c.left (locate extent) = c.right (place extent)) :
    Traced.Related c.told (ClaimsAlike c) (pass.claimsWith sort find anchor scope locate)
      (pass.claimsWith sort look twin twinScope place) := by
  rw [claimsWith, claimsWith, indifferent.lookup anchors]
  apply Traced.Related.collect
  rw [List.forall₂_same]
  intro rule member
  exact indifferent.related_claim (List.mem_of_mem_filter member) anchors scopes
    (finds rule.pattern) told

private theorem related_treeClaims (indifferent : Indifferent c pass)
    (anchors : c.trees anchor twin)
    (scopes : c.scopes scope twinScope) (composite : Bool) (position : Nat)
    (told : c.left location = c.right twinLocation) : Traced.Related c.told (ClaimsAlike c)
      (pass.treeClaims composite scope position location anchor)
      (pass.treeClaims composite twinScope position twinLocation twin) := by
  rw [treeClaims_eq, treeClaims_eq]
  apply indifferent.related_claimsWith anchors scopes
  · intro pattern
    apply rel_option_map (pattern.rel_matchNode indifferent.overlooks anchors)
    intro bindings others resembles
    exact ⟨resembles, rfl⟩
  · exact fun _ => told

end Indifferent

section Blocks

variable {statements twins : List Tree}

private theorem spans_extentSpan (alike : List.Forall₂ c.trees statements twins) (extent : Extent) :
    c.spans (extentSpan statements extent) (extentSpan twins extent) := by
  have first := rel_getElem? alike extent.start
  have last := rel_getElem? alike (extent.stop - 1)
  rw [extentSpan, extentSpan]
  generalize statements[extent.start]? = start at first ⊢
  generalize twins[extent.start]? = twinStart at first ⊢
  generalize statements[extent.stop - 1]? = stop at last ⊢
  generalize twins[extent.stop - 1]? = twinStop at last ⊢
  cases first with
  | none => exact c.generated
  | some first =>
    cases last with
    | none => exact c.generated
    | some last => exact c.merge (c.span first) (c.span last)

private theorem places_blockLocation (paths : c.paths path twinPath)
    (alike : List.Forall₂ c.trees statements twins) (extent : Extent) (window : Bool) :
    c.Places (blockLocation path statements extent window)
      (blockLocation twinPath twins extent window) := by
  have spans := spans_extentSpan alike extent
  cases window with
  | true => exact ⟨spans, c.located paths spans (some extent)⟩
  | false => exact ⟨spans, c.located (c.path_concat paths extent.start) spans none⟩

private theorem forall₂_zipIdx {α β : Type} {related : α → β → Prop} {items : List α}
    {others : List β} (each : List.Forall₂ related items others) (index : Nat) :
    List.Forall₂ (fun item other => related item.1 other.1 ∧ item.2 = other.2)
      (items.zipIdx index) (others.zipIdx index) := by
  induction each generalizing index with
  | nil => exact .nil
  | cons first _ ih => exact .cons ⟨first, rfl⟩ (ih (index + 1))

private theorem Indifferent.related_windowClaims (indifferent : Indifferent c pass)
    (paths : c.paths path twinPath) (scopes : c.scopes scope twinScope)
    (alike : List.Forall₂ c.trees statements twins) {first twin : Tree}
    (anchors : c.trees first twin) (start : Nat) : Traced.Related c.told (ClaimsAlike c)
      (pass.windowClaims path scope statements start first)
      (pass.windowClaims twinPath twinScope twins start twin) := by
  rw [windowClaims_eq, windowClaims_eq]
  apply indifferent.related_claimsWith anchors scopes
  · exact fun pattern => pattern.rel_matchWindow indifferent.overlooks alike start
  · exact fun extent => (places_blockLocation paths alike extent true).told

private theorem Indifferent.related_blockClaims (indifferent : Indifferent c pass)
    (paths : c.paths path twinPath) (scopes : c.scopes scope twinScope)
    (alike : List.Forall₂ c.trees statements twins) : Traced.Related c.told (ClaimsAlike c)
      (pass.blockClaims path scope statements) (pass.blockClaims twinPath twinScope twins) := by
  apply Traced.Related.collect
  apply (forall₂_zipIdx alike 0).imp
  rintro ⟨statement, index⟩ ⟨twin, _⟩ ⟨anchors, rfl⟩
  have told := c.located (c.path_concat paths index) (c.span anchors) none
  apply (indifferent.related_treeClaims anchors scopes true index told).bind_of
  intro singles others here
  apply (indifferent.related_windowClaims paths scopes alike anchors index).bind_of
  intro windows more there
  exact .pure (List.rel_append here there)

end Blocks

section Settling

variable {found twin : Match} {claimed twins : List Tree}

private theorem rel_replacement (resembles : found.Resembles c.toResemblance twin)
    {span twinSpan : Span} (spans : c.spans span twinSpan) : ExceptRel (List.Forall₂ c.trees)
      (replacement found span) (replacement twin twinSpan) := by
  rw [replacement, replacement, resembles.rule_eq]
  split
  · exact Template.rel_instantiate resembles.bindings spans _
  · apply (Template.rel_instantiateNode resembles.bindings spans _).bind
    intro tree other alike
    exact .ok (.cons alike .nil)

private theorem related_carryOutAt (resembles : found.Resembles c.toResemblance twin)
    (alike : List.Forall₂ c.trees claimed twins) (places : c.Places location twinLocation) :
    Traced.Related c.told (Option.Rel (List.Forall₂ c.trees))
      (pass.carryOut found claimed location) (pass.carryOut twin twins twinLocation) := by
  have filled := rel_replacement resembles places.span
  rw [carryOut, carryOut, resembles.rule_eq]
  refine Traced.Related.bind_unit (related_emit rfl) ?_
  generalize replacement found location.span = produced at filled ⊢
  generalize replacement twin twinLocation.span = other at filled ⊢
  cases filled with
  | error error =>
    refine Traced.Related.bind_unit (related_emit ?_) ?_
    · rw [Event.relocate, Event.relocate, places.told]
    · exact (related_reportAt places.told _ _).bind_unit (.pure .none)
  | ok here =>
    simp only [Tree.sameAll_congr (c.sameAll here) (c.sameAll alike)]
    split
    · refine Traced.Related.bind_unit (related_emit ?_) (.pure .none)
      rw [Event.relocate, Event.relocate, places.told]
    · split
      · exact (related_reportAt places.told _ _).bind_unit (.pure (.some alike))
      · refine Traced.Related.bind_unit (related_emit ?_) (.pure (.some here))
        rw [Event.relocate, Event.relocate, places.told]

private theorem related_settleTreeAt {tree other : Tree} (alike : c.trees tree other)
    (paths : c.paths path twinPath) {claims others : List (Claim Match)}
    (awards : List.Forall₂ (Award.Resembles (Match.Resembles c.toResemblance))
      (Contest.resolve claims) (Contest.resolve others)) :
    Traced.Related c.told (Option.Rel c.trees) (pass.settleTree path tree claims)
      (pass.settleTree twinPath other others) := by
  have told := c.located paths (c.span alike) none
  rw [settleTree, settleTree]
  generalize Contest.resolve claims = decided at awards ⊢
  generalize Contest.resolve others = twinDecided at awards ⊢
  cases awards with
  | nil => exact .pure .none
  | cons first _ =>
    cases first with
    | ambiguous extent rules => exact (related_reportAt told _ _).bind_unit (.pure .none)
    | grant resembles =>
      apply (related_carryOutAt resembles.payload (.cons alike .nil) ⟨c.span alike, told⟩).bind_of
      intro outcome image rel
      cases rel with
      | none => exact .pure .none
      | some trees =>
        cases trees with
        | nil => exact .pure .none
        | cons first _ => exact .pure (.some first)

private theorem settlesLike_of_resembles {statements twins : List Tree}
    (paths : c.paths path twinPath)
    (alike : List.Forall₂ c.trees statements twins) {award other : Award Match}
    (resembles : award.Resembles (Match.Resembles c.toResemblance) other) :
    SettlesLike c.likeness pass pass path twinPath statements twins award other := by
  cases resembles with
  | ambiguous extent rules =>
    refine ⟨rfl, ?_⟩
    have places := places_blockLocation paths alike extent
      (rules.any fun id => (pass.catalog.rules[id]?).any (·.pattern.isWindow))
    exact (related_reportAt places.told _ _).bind_unit (.pure .none)
  | @grant claim twin same =>
    refine ⟨same.extent_eq, ?_⟩
    simp only [settleAward, same.extent_eq, same.payload.rule_eq]
    exact related_carryOutAt same.payload (forall₂_slice alike claim.extent)
      (places_blockLocation paths alike claim.extent _)

end Settling

/-- A pass that treats trees alike which correspond to each other goes over them alike. -/
theorem Indifferent.simulates (indifferent : Indifferent c pass) (sound : pass.Sound) :
    Simulates c.likeness pass pass where
  isBlock alike := congrArg pass.language.isBlock (c.kind_eq alike)
  children := c.children
  rebuilt := c.rebuilt
  path := c.path_concat
  scope := indifferent.scope
  tree := by
    intro path twinPath scope twinScope tree twin composite paths scopes alike
    have told := c.located paths (c.span alike) none
    apply (indifferent.related_treeClaims alike scopes composite 0 told).bind
    intro claims
    apply related_settleTreeAt alike paths
    exact Contest.resembles_resolve
      (allProper_treeClaims pass composite scope 0 ⟨path, none, tree.span⟩ tree)
      (once_treeClaims sound id composite scope 0 ⟨path, none, tree.span⟩ tree)
      (once_treeClaims sound id composite twinScope 0 ⟨twinPath, none, twin.span⟩ twin) claims
  block := by
    intro path twinPath scope twinScope statements twins paths scopes alike
    obtain ⟨claims, told⟩ := indifferent.related_blockClaims paths scopes alike
    refine ⟨?_, told⟩
    have awards := Contest.resembles_resolve
      (fun _ member => (bounds_of_mem_blockClaims sound member).1)
      (once_blockClaims sound id path scope statements)
      (once_blockClaims sound id twinPath twinScope twins) claims
    exact awards.imp fun _ _ => settlesLike_of_resembles paths alike

end Pass

end Codemod
