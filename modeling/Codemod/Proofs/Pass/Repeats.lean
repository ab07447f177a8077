import Codemod.Proofs.Pass.Exclusion
import Codemod.Proofs.Pass.Reports

/-!
# Diagnostics are not repeated

A pass tells nothing twice about one place. A guard that does not decide is told apart from a
contest or a template that fails by its kind, rules are tried once at each place, and at a tree that
is visited before and after its children the composite rules are told apart from the others.
-/

namespace Codemod

/-- The same is told about the same place. -/
def Diagnostic.Repeats (a b : Diagnostic) : Prop :=
  a.kind = b.kind ∧ a.rules = b.rules ∧ a.location.SamePlace b.location

private theorem Diagnostic.Repeats.symm {a b : Diagnostic} (repeats : a.Repeats b) : b.Repeats a :=
  ⟨repeats.1.symm, repeats.2.1.symm, repeats.2.2.symm⟩

/-- A diagnostic names rules of the catalog, only composite ones or only others. -/
structure Diagnostic.OfSort (diagnostic : Diagnostic) (catalog : Catalog) (composite : Bool) :
    Prop where
  ne_nil : diagnostic.rules ≠ []
  sort : ∀ id ∈ diagnostic.rules, ∃ rule, catalog.rules[id]? = some rule ∧
    rule.pattern.composite = composite

private theorem Diagnostic.OfSort.not_repeats {catalog : Catalog} {a b : Diagnostic}
    (composite : a.OfSort catalog true) (simple : b.OfSort catalog false) : ¬a.Repeats b := by
  intro repeats
  obtain ⟨id, listed⟩ := List.exists_mem_of_ne_nil a.rules composite.ne_nil
  obtain ⟨rule, here, isComposite⟩ := composite.sort id listed
  obtain ⟨other, there, isSimple⟩ := simple.sort id (repeats.2.1 ▸ listed)
  cases here.symm.trans there
  rw [isComposite] at isSimple
  contradiction

private theorem Diagnostic.Refuses.not_repeats {a b : Diagnostic} {id : Nat} {location : Location}
    (refuses : a.Refuses id location) (other : b.kind.isRefusal = false) : ¬a.Repeats b := by
  intro repeats
  have kind := refuses.kind
  rw [repeats.1, other] at kind
  contradiction

/-- The location is that of a statement of the block at a path, or of a stretch that starts with
it. -/
inductive Location.StartsAt (path : List Nat) : Nat → Location → Prop where
  | statement (index : Nat) (span : Span) : StartsAt path index ⟨path ++ [index], none, span⟩
  | stretch (extent : Extent) (span : Span) : StartsAt path extent.start ⟨path, some extent, span⟩

private theorem Location.StartsAt.eq_of_samePlace {path : List Nat} {first second : Nat}
    {a b : Location}
    (here : a.StartsAt path first) (there : b.StartsAt path second) (same : a.SamePlace b) :
    first = second := by
  obtain ⟨samePath, sameStatements⟩ := same
  cases here <;> cases there <;> simp_all

/-- Nothing is told twice about one place, and all that is told lies in some region. -/
structure Trace.Tidy (region : Diagnostic → Prop) (trace : Trace) : Prop where
  distinct : trace.diagnostics.Pairwise fun a b => ¬a.Repeats b
  within : ∀ diagnostic ∈ trace.diagnostics, region diagnostic

namespace Trace

variable {region first second : Diagnostic → Prop} {trace more : Trace}

private theorem TellsOnce.tidy (once : trace.TellsOnce region) : trace.Tidy region := by
  refine ⟨?_, once.told⟩
  have single := once.single
  cases told : trace.diagnostics with
  | nil => exact .nil
  | cons diagnostic rest =>
    rw [told, List.length_cons] at single
    have nothing : rest = [] := List.eq_nil_of_length_eq_zero (by omega)
    rw [nothing]
    exact List.pairwise_singleton _ diagnostic

namespace Tidy

private theorem mono (tidy : trace.Tidy first)
    (widens : ∀ diagnostic, first diagnostic → region diagnostic) : trace.Tidy region :=
  ⟨tidy.distinct, fun diagnostic told => widens diagnostic (tidy.within diagnostic told)⟩

private theorem append (ahead : trace.Tidy first) (behind : more.Tidy second)
    (apart : ∀ a b, first a → second b → ¬a.Repeats b) :
    Tidy (fun diagnostic => first diagnostic ∨ second diagnostic) (trace ++ more) := by
  constructor
  · rw [diagnostics_append, List.pairwise_append]
    refine ⟨ahead.distinct, behind.distinct, fun a early b late => ?_⟩
    exact apart a b (ahead.within a early) (behind.within b late)
  · intro diagnostic told
    rw [diagnostics_append] at told
    rcases List.mem_append.mp told with early | late
    · exact .inl (ahead.within diagnostic early)
    · exact .inr (behind.within diagnostic late)

private theorem flatMap {α : Type} {items : List α} {told : α → Trace}
    {regions : α → Diagnostic → Prop} (each : ∀ item ∈ items, (told item).Tidy (regions item))
    (apart : items.Pairwise fun a b => ∀ x y, regions a x → regions b y → ¬x.Repeats y) :
    Tidy (fun diagnostic => ∃ item ∈ items, regions item diagnostic) (items.flatMap told) := by
  constructor
  · rw [diagnostics_flatMap, List.pairwise_flatMap]
    refine ⟨fun item member => (each item member).distinct, apart.imp_of_mem ?_⟩
    intro a b isFirst isSecond differ x ofFirst y ofSecond
    exact differ x y ((each a isFirst).within x ofFirst) ((each b isSecond).within y ofSecond)
  · intro diagnostic listed
    rw [diagnostics_flatMap] at listed
    obtain ⟨item, member, listed⟩ := List.mem_flatMap.mp listed
    exact ⟨item, member, (each item member).within diagnostic listed⟩

private theorem of_subperm (tidy : more.Tidy region) (sub : trace.Subperm more) :
    trace.Tidy region := by
  constructor
  · obtain ⟨listed, perm, sublist⟩ := sub
    have kept := List.Pairwise.sublist (sublist.filterMap Event.diagnostic?) tidy.distinct
    refine ((perm.filterMap Event.diagnostic?).pairwise_iff ?_).mp kept
    intro a b differ repeats
    exact differ repeats.symm
  · intro diagnostic told
    exact tidy.within diagnostic (List.filterMap_subset _ sub.subset told)

end Tidy

end Trace

private theorem pairwise_zipIdx {α : Type} (items : List α) :
    items.zipIdx.Pairwise fun a b => a.2 < b.2 := by
  rw [List.pairwise_iff_getElem]
  intro first second _ _ before
  simpa using before

namespace Pass

/-- No two of the rules that a pass tries on a tree are the same. -/
def TriesOnce (pass : Pass) : Prop :=
  ∀ tree, (pass.lookup tree).Pairwise fun a b => a.id ≠ b.id

variable {pass : Pass} {root tree : Tree} {path : List Nat} {scope : Option Nat}

private theorem refusesOnce_claim (pass : Pass) (rule : Rule) (found : Option (Bindings × Extent))
    (anchor : Tree) (scope : Option Nat) (locate : Extent → Location) :
    (pass.claim rule found anchor scope locate).trace.TellsOnce fun diagnostic =>
      ∃ location, diagnostic.Refuses rule.id location := by
  apply (tellsOnce_claim pass rule found anchor scope locate).mono
  rintro diagnostic ⟨_, extent, _, refuses⟩
  exact ⟨locate extent, refuses⟩

private theorem tidy_refusals {rules : List Rule} (differ : rules.Pairwise fun a b => a.id ≠ b.id)
    {told : Rule → Trace} (each : ∀ rule ∈ rules,
      (told rule).TellsOnce fun diagnostic => ∃ location, diagnostic.Refuses rule.id location) :
    Trace.Tidy (fun diagnostic => ∃ rule ∈ rules, ∃ location,
      diagnostic.Refuses rule.id location) (rules.flatMap told) := by
  apply Trace.Tidy.flatMap fun rule member => (each rule member).tidy
  apply differ.imp
  intro a b distinct x y refuses also repeats
  obtain ⟨_, refuses⟩ := refuses
  obtain ⟨_, also⟩ := also
  have same := repeats.2.1
  rw [refuses.rules_eq, also.rules_eq, List.cons.injEq] at same
  exact distinct same.1

private theorem tidy_treeClaims (once : pass.TriesOnce) (composite : Bool) (scope : Option Nat)
    (position : Nat) (location : Location) (tree : Tree) :
    (pass.treeClaims composite scope position location tree).trace.Tidy fun diagnostic =>
      ∃ rule ∈ pass.lookup tree, rule.pattern.composite = composite ∧
        diagnostic.Refuses rule.id location := by
  constructor
  · rw [treeClaims, Traced.trace_collect]
    apply (tidy_refusals ((once tree).sublist List.filter_sublist) ?_).distinct
    exact fun rule _ => refusesOnce_claim pass rule _ tree scope _
  · intro diagnostic told
    obtain ⟨rule, tried, _, sort, refuses⟩ := refuses_of_mem_treeClaims told
    exact ⟨rule, tried, sort, refuses⟩

private theorem tidy_windowClaims (once : pass.TriesOnce) (path : List Nat) (scope : Option Nat)
    (statements : List Tree) (start : Nat) (tree : Tree) :
    (pass.windowClaims path scope statements start tree).trace.Tidy fun diagnostic =>
      ∃ rule ∈ pass.lookup tree, rule.pattern.isWindow = true ∧ ∃ bindings extent,
        rule.pattern.matchWindow pass.language statements start = some (bindings, extent) ∧
          diagnostic.Refuses rule.id (blockLocation path statements extent true) := by
  refine ⟨?_, fun diagnostic => refuses_of_mem_windowClaims⟩
  rw [windowClaims, Traced.trace_collect]
  apply (tidy_refusals ((once tree).sublist List.filter_sublist) ?_).distinct
  exact fun rule _ => refusesOnce_claim pass rule _ tree scope _

private theorem ofSort_of_refuses (sound : pass.Sound) {diagnostic : Diagnostic} {rule : Rule}
    {location : Location} (tried : rule ∈ pass.lookup tree)
    (refuses : diagnostic.Refuses rule.id location) :
    diagnostic.OfSort pass.catalog rule.pattern.composite := by
  constructor
  · simp [refuses.rules_eq]
  · intro id listed
    rw [refuses.rules_eq, List.mem_singleton] at listed
    exact ⟨rule, listed ▸ sound.getElem?_id tried, rfl⟩

private theorem ofSort_of_settles {diagnostic : Diagnostic} {composite : Bool}
    {claims : List (Claim Match)} {location : Location}
    (made : ∀ claim ∈ claims, pass.MadeBy composite claim)
    (settles : diagnostic.Settles claims location) :
    diagnostic.OfSort pass.catalog composite := by
  refine ⟨settles.ne_nil, fun id listed => ?_⟩
  obtain ⟨claim, claimed, rfl⟩ := settles.claimed id listed
  have maker := made claim claimed
  exact ⟨claim.payload.rule, maker.named ▸ maker.isRule, maker.sort⟩

/-- Rules of one sort are told of at the tree at a path. -/
structure ToldAt (pass : Pass) (composite : Bool) (path : List Nat) (diagnostic : Diagnostic) :
    Prop where
  sort : diagnostic.OfSort pass.catalog composite
  path_eq : diagnostic.location.path = path
  statements_eq : diagnostic.location.statements = none

private theorem tidy_decideTree (sound : pass.Sound) (once : pass.TriesOnce) (composite : Bool) :
    (pass.decideTree composite path scope tree).trace.Tidy (pass.ToldAt composite path) := by
  have made (claim : Claim Match) := @madeBy_of_mem_treeClaims pass scope sound composite 0
    ⟨path, none, tree.span⟩ tree claim
  have claiming := tidy_treeClaims once composite scope 0 ⟨path, none, tree.span⟩ tree
  have settling := (tellsOnce_settleTree path tree made).tidy
  have both := claiming.append settling
    fun a b ⟨_, _, _, refuses⟩ settles => refuses.not_repeats settles.kind
  rw [decideTree, Traced.trace_bind]
  apply both.mono
  rintro diagnostic (⟨rule, tried, rfl, refuses⟩ | settles)
  · have located := refuses.location_eq
    exact ⟨ofSort_of_refuses sound tried refuses, by rw [located], by rw [located]⟩
  · have located := settles.location_eq
    exact ⟨ofSort_of_settles made settles, by rw [located], by rw [located]⟩

/-- Something below the tree at a path is meant, or a stretch of its statements. -/
def Under (path : List Nat) (diagnostic : Diagnostic) : Prop :=
  diagnostic.location.Below path ∧
    (diagnostic.location.path = path → diagnostic.location.statements ≠ none)

/-- Something below the tree at a path is meant, or the tree itself as the rules that are tried last
find it. -/
def Inside (pass : Pass) (path : List Nat) (diagnostic : Diagnostic) : Prop :=
  diagnostic.location.Below path ∧ (diagnostic.location.path = path →
    diagnostic.location.statements = none → diagnostic.OfSort pass.catalog false)

/-- Composite rules are told of at a statement of the block at a path, or at a stretch that starts
with it. -/
structure ToldFrom (pass : Pass) (path : List Nat) (index : Nat) (diagnostic : Diagnostic) :
    Prop where
  sort : diagnostic.OfSort pass.catalog true
  starts : diagnostic.location.StartsAt path index

private theorem ToldFrom.under {index : Nat} {diagnostic : Diagnostic}
    (told : pass.ToldFrom path index diagnostic) : Under path diagnostic := by
  have starts := told.starts
  rw [Under]
  generalize diagnostic.location = location at starts
  cases starts with
  | statement => exact ⟨List.prefix_append path [index], by simp⟩
  | stretch => exact ⟨List.prefix_refl path, by simp⟩

private theorem under_of_below {index : Nat} {diagnostic : Diagnostic}
    (below : diagnostic.location.Below (path ++ [index])) : Under path diagnostic := by
  refine ⟨(List.prefix_append path [index]).trans below, fun here => ?_⟩
  rw [Location.Below, here] at below
  exact absurd below Location.not_below_child

private theorem ToldFrom.not_repeats {a b : Diagnostic} {start index : Nat}
    (told : pass.ToldFrom path start a) (inside : pass.Inside (path ++ [index]) b) :
    ¬a.Repeats b := by
  intro repeats
  obtain ⟨below, simple⟩ := inside
  have ⟨samePath, sameStatements⟩ := repeats.2.2
  have starts := told.starts
  rw [Location.Below, ← samePath] at below
  rw [← samePath, ← sameStatements] at simple
  generalize a.location = location at starts below simple
  cases starts with
  | statement =>
    have same := below.eq_of_length (by simp)
    exact told.sort.not_repeats (simple same.symm rfl) repeats
  | stretch => exact Location.not_below_child below

private theorem ToldAt.not_repeats {a b : Diagnostic} (told : pass.ToldAt true path a)
    (inside : pass.Inside path b) : ¬a.Repeats b := by
  intro repeats
  obtain ⟨samePath, sameStatements⟩ := repeats.2.2
  rw [told.path_eq] at samePath
  rw [told.statements_eq] at sameStatements
  exact told.sort.not_repeats (inside.2 samePath.symm sameStatements.symm) repeats

private theorem tidy_steps {steps : List (Traced Tree)} {regions : List Nat → Diagnostic → Prop}
    (below : ∀ path diagnostic, regions path diagnostic → diagnostic.location.Below path)
    (each : ∀ (index : Nat) (step : Traced Tree), steps[index]? = some step →
      step.trace.Tidy (regions (path ++ [index]))) :
    Trace.Tidy (fun diagnostic => ∃ index, regions (path ++ [index]) diagnostic)
      (steps.flatMap Traced.trace) := by
  have numbered : ∀ item ∈ steps.zipIdx, item.1.trace.Tidy (regions (path ++ [item.2])) := by
    intro (step, index) member
    exact each index step (List.mem_zipIdx_iff_getElem?.mp member)
  have apart : steps.zipIdx.Pairwise fun a b => ∀ x y, regions (path ++ [a.2]) x →
      regions (path ++ [b.2]) y → ¬x.Repeats y := by
    apply (pairwise_zipIdx steps).imp
    intro (_, first) (_, second) before x y ofFirst ofSecond repeats
    have here := below _ x ofFirst
    have there := below _ y ofSecond
    rw [Location.Below, repeats.2.2.1] at here
    have same := (List.prefix_of_prefix_length_le here there (by simp)).eq_of_length (by simp)
    simp at same
    omega
  have all := Trace.Tidy.flatMap numbered apart
  rw [← List.zipIdx_map_fst 0 steps, List.flatMap_map]
  exact all.mono fun _ ⟨(_, index), _, told⟩ => ⟨index, told⟩

private theorem startsAt_blockLocation (path : List Nat) (statements : List Tree) (extent : Extent)
    (window : Bool) : (blockLocation path statements extent window).StartsAt path extent.start := by
  cases window with
  | true => exact .stretch extent _
  | false => exact .statement extent.start _

private theorem tidy_claimsFrom (sound : pass.Sound) (once : pass.TriesOnce) (path : List Nat)
    (scope : Option Nat) (statements : List Tree) (statement : Tree) (index : Nat) :
    Trace.Tidy (fun diagnostic => diagnostic.kind.isRefusal = true ∧
        pass.ToldFrom path index diagnostic)
      ((pass.treeClaims true scope index ⟨path ++ [index], none, statement.span⟩
          statement).trace ++ (pass.windowClaims path scope statements index statement).trace) := by
  have single := tidy_treeClaims once true scope index ⟨path ++ [index], none, statement.span⟩
    statement
  have window := tidy_windowClaims once path scope statements index statement
  have both := single.append window (by
    rintro a b ⟨_, _, _, refuses⟩ ⟨_, _, _, _, _, _, also⟩ repeats
    have same := repeats.2.2.2
    rw [refuses.location_eq, also.location_eq] at same
    contradiction)
  apply both.mono
  rintro diagnostic
    (⟨rule, tried, sort, refuses⟩ | ⟨rule, tried, isWindow, _, extent, matched, refuses⟩)
  · refine ⟨refuses.kind, sort ▸ ofSort_of_refuses sound tried refuses, ?_⟩
    rw [refuses.location_eq]
    exact .statement index statement.span
  · have compiled := sound.compiled tried
    obtain ⟨rfl, _⟩ := Pattern.matchWindow_root compiled matched
    have sort := compiled.composite_of_isWindow isWindow
    refine ⟨refuses.kind, sort ▸ ofSort_of_refuses sound tried refuses, ?_⟩
    rw [refuses.location_eq]
    exact startsAt_blockLocation path statements extent true

private theorem tidy_blockClaims (sound : pass.Sound) (once : pass.TriesOnce) (path : List Nat)
    (scope : Option Nat) (statements : List Tree) :
    (pass.blockClaims path scope statements).trace.Tidy fun diagnostic =>
      diagnostic.kind.isRefusal = true ∧ ∃ index, pass.ToldFrom path index diagnostic := by
  have each : ∀ item ∈ statements.zipIdx, _ := fun item _ =>
    tidy_claimsFrom sound once path scope statements item.1 item.2
  have apart : statements.zipIdx.Pairwise fun a b => ∀ x y : Diagnostic,
      x.kind.isRefusal = true ∧ pass.ToldFrom path a.2 x →
        y.kind.isRefusal = true ∧ pass.ToldFrom path b.2 y → ¬x.Repeats y := by
    apply (pairwise_zipIdx statements).imp
    intro first second before x y ofFirst ofSecond repeats
    have same := ofFirst.2.starts.eq_of_samePlace ofSecond.2.starts repeats.2.2
    exact absurd same (Nat.ne_of_lt before)
  rw [trace_blockClaims]
  apply (Trace.Tidy.flatMap each apart).mono
  rintro diagnostic ⟨item, _, kind, told⟩
  exact ⟨kind, item.2, told⟩

/-- Awards lie apart, so they are settled at different places. -/
theorem tidy_awards (sound : pass.Sound) (root : Tree) (path : List Nat) (block : Tree) :
    Trace.Tidy (fun diagnostic => diagnostic.kind.isRefusal = false ∧
        ∃ index, pass.ToldFrom path index diagnostic)
      ((Contest.resolve (pass.claimsAt root path block)).flatMap fun award =>
        (pass.settleAward path block.children award).trace) := by
  have awarded := awarded_resolve sound root path block
  have made (claim : Claim Match) := @madeBy_of_mem_blockClaims pass path
    (pass.innerScope (pass.scopeAt root path) block) sound block.children claim
  have each : ∀ award ∈ Contest.resolve (pass.claimsAt root path block),
      (pass.settleAward path block.children award).trace.Tidy fun diagnostic =>
        diagnostic.kind.isRefusal = false ∧ pass.ToldFrom path award.extent.start diagnostic := by
    intro award member
    apply (tellsOnce_settleAward path block.children made member).tidy.mono
    rintro diagnostic ⟨window, settles⟩
    refine ⟨settles.kind, ofSort_of_settles made settles, ?_⟩
    rw [settles.location_eq]
    exact startsAt_blockLocation path block.children award.extent window
  apply (Trace.Tidy.flatMap each ?_).mono
  · rintro diagnostic ⟨award, _, kind, told⟩
    exact ⟨kind, award.extent.start, told⟩
  · apply awarded.apart.imp_of_mem
    intro first second isFirst _ ahead x y ofFirst ofSecond repeats
    have same := ofFirst.2.starts.eq_of_samePlace ofSecond.2.starts repeats.2.2
    have proper := (awarded.bounded first isFirst).2.1
    rw [Extent.Proper] at proper
    omega

private theorem tidy_visitBlock (sound : pass.Sound) (once : pass.TriesOnce) {block : Tree}
    {steps : List (Traced Tree)} (each : ∀ (index : Nat) (step : Traced Tree),
      steps[index]? = some step → step.trace.Tidy (pass.Inside (path ++ [index]))) :
    (pass.visitBlock path (pass.innerScope (pass.scopeAt root path) block) block.children
      steps).trace.Tidy (Under path) := by
  have claiming := tidy_blockClaims sound once path
    (pass.innerScope (pass.scopeAt root path) block) block.children
  have traversed := tidy_steps (fun _ _ inside => inside.1) each
  have settled := (tidy_awards sound root path block).append traversed
    fun a b ⟨_, _, told⟩ ⟨_, inside⟩ => told.not_repeats inside
  have assembled := settled.of_subperm
    (subperm_assemble (awarded_resolve sound root path block) steps)
  have both := claiming.append assembled (by
    rintro a b ⟨refusal, _, told⟩ (⟨other, _⟩ | ⟨_, inside⟩)
    · intro repeats
      rw [repeats.1, other] at refusal
      contradiction
    · exact told.not_repeats inside)
  rw [visitBlock, Traced.trace_bind]
  apply both.mono
  rintro diagnostic (⟨_, _, told⟩ | ⟨_, _, told⟩ | ⟨_, inside⟩)
  · exact told.under
  · exact told.under
  · exact under_of_below inside.1

private theorem tidy_tryComposite (sound : pass.Sound) (once : pass.TriesOnce)
    {traversed : Traced Tree} (tidy : traversed.trace.Tidy (pass.Inside path)) :
    (pass.tryComposite path scope tree traversed).trace.Tidy (·.location.Below path) := by
  have decided : (pass.decideTree true path scope tree).trace.Tidy (pass.ToldAt true path) :=
    tidy_decideTree sound once true
  have both := (decided.append tidy fun a b => ToldAt.not_repeats).of_subperm
    (sublist_tryComposite pass path scope tree traversed).subperm
  apply both.mono
  rintro diagnostic (told | inside)
  · exact told.path_eq ▸ List.prefix_refl _
  · exact inside.1

private theorem tidy_trySimple (sound : pass.Sound) (once : pass.TriesOnce) {below : Trace}
    (tidy : below.Tidy (Under path)) :
    Trace.Tidy (pass.Inside path) (below ++ (pass.trySimple path scope tree).trace) := by
  have decided : (pass.decideTree false path scope tree).trace.Tidy (pass.ToldAt false path) :=
    tidy_decideTree sound once false
  have both := tidy.append decided fun a b under told repeats => under.2
    (repeats.2.2.1.trans told.path_eq) (repeats.2.2.2.trans told.statements_eq)
  rw [trace_trySimple]
  apply both.mono
  rintro diagnostic (⟨inside, stretch⟩ | told)
  · exact ⟨inside, fun here single => absurd single (stretch here)⟩
  · exact ⟨told.path_eq ▸ List.prefix_refl _, fun _ _ => told.sort⟩

private theorem tidy_visitChildren (sound : pass.Sound) (once : pass.TriesOnce)
    {steps : List (Traced Tree)} (each : ∀ (index : Nat) (step : Traced Tree),
      steps[index]? = some step → step.trace.Tidy (pass.Inside (path ++ [index]))) :
    (pass.visitChildren path (pass.innerScope (pass.scopeAt root path) tree) tree.kind
      tree.children steps).trace.Tidy (Under path) := by
  rw [visitChildren]
  split
  · exact tidy_visitBlock sound once each
  · rw [visitOperands, Traced.trace_all]
    apply (@tidy_steps path _ (fun path diagnostic => diagnostic.location.Below path)
      (fun _ _ below => below) ?_).mono
    · rintro diagnostic ⟨_, below⟩
      exact under_of_below below
    · intro index visit here
      obtain ⟨child, inner, _, is_step, rfl⟩ := exists_of_operand here
      exact tidy_tryComposite sound once (each index inner is_step)

private theorem tidy_traverse (sound : pass.Sound) (once : pass.TriesOnce)
    (reached : root.at? path = some tree) :
    (pass.traverse path (pass.scopeAt root path) tree).trace.Tidy (pass.Inside path) := by
  apply traverse_induct (motive := fun path _ step => step.trace.Tidy (pass.Inside path)) ?_ reached
  intro path tree reached each
  rw [Traced.trace_bind]
  apply tidy_trySimple sound once
  apply tidy_visitChildren sound once
  intro index step here
  obtain ⟨_, _, tidy⟩ := each index step here
  exact tidy

/-- What a pass reports as a diagnostic it reports once. -/
theorem distinct_run (sound : pass.Sound) (once : pass.TriesOnce) (root : Tree) :
    (pass.run root).trace.diagnostics.Pairwise fun a b => ¬a.Repeats b := by
  rw [run_eq]
  exact (tidy_tryComposite sound once (tidy_traverse sound once rfl)).distinct

end Pass

end Codemod
