import Codemod.Proofs.Pass.Steps

/-!
# Exclusive claims

What a composite rule claims in a pass is its own: no other application of the pass reaches into it.
Applications below different siblings lie apart by their paths, and those over one block by the
extents of its awards.
-/

namespace Codemod

namespace Location

/-- The location reaches into what stands at another one: its path leads there, or both are
stretches of one block that overlap. -/
def ReachesInto (location target : Location) : Prop :=
  match target.statements with
  | none => target.path <+: location.path
  | some extent =>
    (∃ index rest, location.path = target.path ++ index :: rest ∧
        extent.start ≤ index ∧ index < extent.stop) ∨
      (location.path = target.path ∧ ∃ stretch, location.statements = some stretch ∧
        stretch.overlaps extent = true)

/-- The locations differ at most in their spans. -/
def SamePlace (a b : Location) : Prop :=
  a.path = b.path ∧ a.statements = b.statements

/-- The location lies in the tree at a path. -/
def Below (path : List Nat) (location : Location) : Prop :=
  path <+: location.path

/-- The location lies in one of the children in an extent, or is a stretch of them. -/
inductive Among (path : List Nat) (extent : Extent) : Location → Prop where
  | child {index : Nat} {rest : List Nat} {statements : Option Extent} {span : Span}
      (starts : extent.start ≤ index) (stops : index < extent.stop) :
      Among path extent ⟨path ++ index :: rest, statements, span⟩
  | stretch {part : Extent} {span : Span} (starts : extent.start ≤ part.start)
      (proper : part.Proper) (stops : part.stop ≤ extent.stop) :
      Among path extent ⟨path, some part, span⟩

variable {path : List Nat} {first second : Extent} {a b : Location}

theorem SamePlace.symm (same : a.SamePlace b) : b.SamePlace a :=
  ⟨same.1.symm, same.2.symm⟩

private theorem Among.mono (among : Among path first a) (starts : second.start ≤ first.start)
    (stops : first.stop ≤ second.stop) : Among path second a := by
  cases among with
  | child from_first to_first =>
    exact .child (Nat.le_trans starts from_first) (Nat.lt_of_lt_of_le to_first stops)
  | stretch from_first proper to_first =>
    exact .stretch (Nat.le_trans starts from_first) proper (Nat.le_trans to_first stops)

private theorem Among.below (among : Among path first a) : Below path a := by
  cases among with
  | child => exact List.prefix_append path _
  | stretch => exact List.prefix_refl path

private theorem Below.among {index : Nat} (below : Below (path ++ [index]) a) :
    Among path (.single index) a := by
  obtain ⟨place, statements, span⟩ := a
  obtain ⟨rest, rfl⟩ := below
  rw [List.append_assoc]
  exact .child (Nat.le_refl index) (Nat.lt_succ_self index)

theorem not_below_child {index : Nat} {rest : List Nat} : ¬path ++ index :: rest <+: path := by
  intro below
  have length := below.length_le
  rw [List.length_append, List.length_cons] at length
  omega

private theorem Among.not_reachesInto (among : Among path first a) (others : Among path second b)
    (apart : first.stop ≤ second.start ∨ second.stop ≤ first.start) : ¬a.ReachesInto b := by
  intro reaches
  cases among with
  | child starts stops =>
    cases others with
    | @child _ _ statements _ from_second to_second =>
      cases statements <;> simp [ReachesInto] at reaches <;> omega
    | stretch from_second _ to_second =>
      simp [ReachesInto] at reaches
      omega
  | stretch starts proper stops =>
    cases others with
    | @child _ _ statements _ from_second to_second =>
      cases statements <;> simp [ReachesInto, not_below_child] at reaches
    | stretch from_second properToo to_second =>
      simp [ReachesInto, Extent.overlaps_iff] at reaches
      rw [Extent.Proper] at proper properToo
      omega

private theorem Among.not_samePlace (among : Among path first a) (others : Among path second b)
    (apart : first.stop ≤ second.start) : ¬a.SamePlace b := by
  rintro ⟨samePath, sameStatements⟩
  cases among with
  | child starts stops =>
    cases others with
    | child from_second to_second =>
      simp at samePath
      omega
    | stretch => simp at samePath
  | stretch starts proper stops =>
    cases others with
    | child => simp at samePath
    | stretch from_second properToo to_second =>
      cases sameStatements
      rw [Extent.Proper] at proper
      omega

end Location

/-- Two applications at different places, neither of which reaches into what the other one claims
for a composite rule. -/
structure Exclusive (catalog : Catalog) (a b : Applied) : Prop where
  differ : ¬a.location.SamePlace b.location
  first : ∀ rule, catalog.rules[a.rule]? = some rule → rule.pattern.composite = true →
    ¬b.location.ReachesInto a.location
  second : ∀ rule, catalog.rules[b.rule]? = some rule → rule.pattern.composite = true →
    ¬a.location.ReachesInto b.location

private theorem Exclusive.symm {catalog : Catalog} {a b : Applied}
    (exclusive : Exclusive catalog a b) : Exclusive catalog b a :=
  ⟨fun same => exclusive.differ same.symm, exclusive.second, exclusive.first⟩

theorem exclusive_of_getElem? {catalog : Catalog} {applied : List Applied}
    (exclusive : applied.Pairwise (Exclusive catalog)) {first second : Nat} {a b : Applied}
    (apart : first ≠ second) (here : applied[first]? = some a)
    (there : applied[second]? = some b) : Exclusive catalog a b := by
  obtain ⟨_, rfl⟩ := List.getElem?_eq_some_iff.mp here
  obtain ⟨_, rfl⟩ := List.getElem?_eq_some_iff.mp there
  rw [List.pairwise_iff_getElem] at exclusive
  rcases Nat.lt_or_gt_of_ne apart with before | after
  · exact exclusive first second _ _ before
  · exact (exclusive second first _ _ after).symm

/-- Applications that lie in some region and are exclusive of each other. -/
structure Exclude (catalog : Catalog) (region : Location → Prop) (applied : List Applied) :
    Prop where
  within : ∀ entry ∈ applied, region entry.location
  exclusive : applied.Pairwise (Exclusive catalog)

namespace Exclude

variable {catalog : Catalog} {path : List Nat} {applied more : List Applied}

private theorem nil (catalog : Catalog) (region : Location → Prop) : Exclude catalog region [] :=
  ⟨by simp, .nil⟩

private theorem single {region : Location → Prop} {entry : Applied}
    (within : region entry.location) : Exclude catalog region [entry] :=
  ⟨by simpa using within, List.pairwise_singleton _ _⟩

private theorem mono {region wider : Location → Prop} (exclude : Exclude catalog region applied)
    (widens : ∀ location, region location → wider location) : Exclude catalog wider applied :=
  ⟨fun entry member => widens _ (exclude.within entry member), exclude.exclusive⟩

private theorem append {start middle stop : Nat} (le : start ≤ middle) (ge : middle ≤ stop)
    (ahead : Exclude catalog (Location.Among path ⟨start, middle⟩) applied)
    (behind : Exclude catalog (Location.Among path ⟨middle, stop⟩) more) :
    Exclude catalog (Location.Among path ⟨start, stop⟩) (applied ++ more) := by
  refine ⟨?_, List.pairwise_append.mpr ⟨ahead.exclusive, behind.exclusive, ?_⟩⟩
  · intro entry member
    rcases List.mem_append.mp member with early | late
    · exact (ahead.within entry early).mono (Nat.le_refl start) ge
    · exact (behind.within entry late).mono le (Nat.le_refl stop)
  · intro a early b late
    have lies := ahead.within a early
    have follows := behind.within b late
    exact ⟨lies.not_samePlace follows (Nat.le_refl middle),
      fun _ _ _ => follows.not_reachesInto lies (.inr (Nat.le_refl middle)),
      fun _ _ _ => lies.not_reachesInto follows (.inl (Nat.le_refl middle))⟩

/-- A tree comes after its children, and a rule that is not composite claims nothing of them. -/
theorem concat {extent : Extent} (below : Exclude catalog (Location.Among path extent) applied)
    {entry : Applied} {span : Span} (here : entry.location = ⟨path, none, span⟩)
    (simple : ∀ rule, catalog.rules[entry.rule]? = some rule → rule.pattern.composite = false) :
    Exclude catalog (Location.Below path) (applied ++ [entry]) := by
  refine ⟨?_, List.pairwise_append.mpr ⟨below.exclusive, List.pairwise_singleton _ _, ?_⟩⟩
  · intro other member
    rcases List.mem_append.mp member with early | last
    · exact (below.within other early).below
    · rw [List.mem_singleton.mp last, here]
      exact List.prefix_refl path
  · intro a early b last
    rw [List.mem_singleton.mp last]
    have lies := below.within a early
    refine ⟨?_, ?_, ?_⟩
    · rintro ⟨samePath, sameStatements⟩
      rw [here] at samePath sameStatements
      generalize a.location = location at *
      cases lies with
      | child => simp at samePath
      | stretch => simp at sameStatements
    · intro rule isRule composite reaches
      rw [here] at reaches
      generalize a.location = location at *
      cases lies with
      | @child _ _ statements =>
        cases statements <;> simp [Location.ReachesInto, Location.not_below_child] at reaches
      | stretch => simp [Location.ReachesInto] at reaches
    · intro rule isRule composite
      rw [simple rule isRule] at composite
      contradiction

end Exclude

namespace Pass

variable {pass : Pass} {root : Tree} {path : List Nat} {tree : Tree}

/-- The applications of a computation lie in some region and are exclusive of each other. -/
def Excludes (pass : Pass) (region : Location → Prop) {α : Type} (traced : Traced α) : Prop :=
  Exclude pass.catalog region traced.trace.applied

private theorem applied_of_settleTree (replacing : pass.mode = .replace) (composite : Bool)
    (scope : Option Nat) (place : Location) {claims : List (Claim Match)}
    (made : claims = (pass.treeClaims composite scope 0 place tree).value) :
    ((pass.settleTree path tree claims).value = none ∧
        (pass.settleTree path tree claims).trace.applied = []) ∨
      ∃ found new, found.rule ∈ pass.lookup tree ∧ found.rule.pattern.composite = composite ∧
        (pass.settleTree path tree claims).value = some new ∧
        (pass.settleTree path tree claims).trace.applied =
          [entryOf found ⟨path, none, tree.span⟩] := by
  rcases settleTree_cases replacing path tree claims with
    quiet | ⟨winner, claimed, trees, filled, _, replaced, applied⟩
  · exact .inl quiet
  · rw [made] at claimed
    obtain ⟨rule, tried, single, kind, bindings, _, _, rfl⟩ := mem_treeClaims.mp claimed
    obtain ⟨new, _, rfl⟩ := replacement_node single filled
    exact .inr ⟨⟨rule, bindings⟩, new, tried, kind, replaced, applied⟩

theorem excludes_tryComposite (replacing : pass.mode = .replace) (scope : Option Nat)
    {traversed : Traced Tree} (below : pass.Excludes (Location.Below path) traversed) :
    pass.Excludes (Location.Below path) (pass.tryComposite path scope tree traversed) := by
  have claiming := idle_treeClaims pass true scope 0 ⟨path, none, tree.span⟩ tree
  rw [Excludes, tryComposite]
  simp only [Traced.trace_bind, Trace.applied_append, claiming.applied_eq_nil, List.nil_append]
  rcases applied_of_settleTree replacing _ scope _ rfl with
    ⟨nothing, quiet⟩ | ⟨found, new, _, _, replaced, applied⟩
  · rw [nothing, quiet]
    exact below
  · rw [replaced, applied]
    exact .single (List.prefix_refl path)

private theorem excludes_trySimple (replacing : pass.mode = .replace) (sound : pass.Sound)
    (scope : Option Nat) {extent : Extent} {applied : List Applied}
    (below : Exclude pass.catalog (Location.Among path extent) applied) :
    Exclude pass.catalog (Location.Below path)
      (applied ++ (pass.trySimple path scope tree).trace.applied) := by
  have claiming := idle_treeClaims pass false scope 0 ⟨path, none, tree.span⟩ tree
  rw [trySimple]
  simp only [Traced.trace_bind, Traced.trace_pure, List.append_nil, Trace.applied_append,
    claiming.applied_eq_nil, List.nil_append]
  rcases applied_of_settleTree replacing _ scope _ rfl with
    ⟨_, quiet⟩ | ⟨found, new, tried, simple, _, here⟩
  · rw [quiet, List.append_nil]
    exact below.mono fun _ among => among.below
  · rw [here]
    apply below.concat rfl
    intro rule isRule
    have known := sound.getElem?_id tried
    cases known.symm.trans isRule
    exact simple

private theorem excludes_all {steps : List (Traced Tree)} {start : Nat}
    (each : ∀ (offset : Nat) (step : Traced Tree), steps[offset]? = some step →
      pass.Excludes (Location.Below (path ++ [start + offset])) step) :
    pass.Excludes (Location.Among path ⟨start, start + steps.length⟩) (Traced.all steps) := by
  induction steps generalizing start with
  | nil => exact .nil _ _
  | cons step rest ih =>
    have head := (each 0 step rfl).mono fun _ below => below.among
    have tail := @ih (start + 1) fun offset other after => by
      have := each (offset + 1) other after
      rwa [Nat.add_comm offset 1, ← Nat.add_assoc] at this
    have both := head.append (Nat.le_succ start) (Nat.le_add_right (start + 1) rest.length) tail
    simpa [Excludes, Traced.all, Nat.add_assoc, Nat.add_comm 1] using both

private theorem excludes_slice {steps : List (Traced Tree)} {extent : Extent}
    (each : ∀ (index : Nat) (step : Traced Tree), steps[index]? = some step →
      pass.Excludes (Location.Below (path ++ [index])) step)
    (ordered : extent.start ≤ extent.stop) :
    pass.Excludes (Location.Among path extent) (Traced.all (extent.slice steps)) := by
  have covered : pass.Excludes _ (Traced.all (extent.slice steps)) :=
    excludes_all fun _ step here => each _ step (Extent.getElem?_of_slice here)
  apply covered.mono
  intro location among
  apply among.mono (Nat.le_refl extent.start)
  have covers : extent.start + extent.length = extent.stop := Nat.add_sub_cancel' ordered
  rw [← covers]
  exact Nat.add_le_add_left (List.length_take_le _ _) extent.start

private theorem excludes_drop {steps : List (Traced Tree)} {count next : Nat}
    (length_eq : steps.length = count)
    (each : ∀ (index : Nat) (step : Traced Tree), steps[index]? = some step →
      pass.Excludes (Location.Below (path ++ [index])) step)
    (within : next ≤ count) :
    pass.Excludes (Location.Among path ⟨next, count⟩) (Traced.all (steps.drop next)) := by
  rw [← Extent.slice_eq_drop length_eq next]
  exact excludes_slice each within

private theorem excludes_children {steps : List (Traced Tree)} {count : Nat}
    (length_eq : steps.length = count)
    (each : ∀ (index : Nat) (step : Traced Tree), steps[index]? = some step →
      pass.Excludes (Location.Below (path ++ [index])) step) :
    pass.Excludes (Location.Among path ⟨0, count⟩) (Traced.all steps) :=
  excludes_drop length_eq each (Nat.zero_le count)

private theorem among_blockLocation {statements : List Tree} {extent : Extent}
    (proper : extent.Proper) (window : Bool) :
    Location.Among path extent (blockLocation path statements extent window) := by
  cases window with
  | true => exact .stretch (Nat.le_refl _) proper (Nat.le_refl _)
  | false => exact .child (Nat.le_refl _) proper

private theorem excludes_settleOrTraverse (replacing : pass.mode = .replace)
    {statements : List Tree} {steps : List (Traced Tree)}
    (each : ∀ (index : Nat) (step : Traced Tree), steps[index]? = some step →
      pass.Excludes (Location.Below (path ++ [index])) step)
    {award : Award Match} (proper : award.extent.Proper) :
    pass.Excludes (Location.Among path award.extent)
      (pass.settleOrTraverse path statements steps award) := by
  have traversed := excludes_slice each (Nat.le_of_lt proper)
  rw [Excludes, settleOrTraverse]
  simp only [Traced.trace_bind, Trace.applied_append]
  cases award with
  | ambiguous extent rules => exact traversed
  | grant winner =>
    rcases carryOut_cases replacing winner.payload (winner.extent.slice statements)
      (blockLocation path statements winner.extent winner.payload.rule.pattern.isWindow) with
      ⟨nothing, idle⟩ | ⟨trees, _, _, replaced, applied⟩
    · rw [settleAward, nothing, idle.applied_eq_nil]
      exact traversed
    · rw [settleAward, replaced, applied]
      exact .single (among_blockLocation proper _)

private theorem excludes_assemble (replacing : pass.mode = .replace) {block : Tree}
    {steps : List (Traced Tree)} (length_eq : steps.length = block.children.length)
    (each : ∀ (index : Nat) (step : Traced Tree), steps[index]? = some step →
      pass.Excludes (Location.Below (path ++ [index])) step)
    {next : Nat} (within : next ≤ block.children.length) {awards : List (Award Match)}
    (awarded : pass.Awarded root path block next awards) :
    pass.Excludes (Location.Among path ⟨next, block.children.length⟩)
      (pass.assemble path block.children steps next awards) := by
  induction awards generalizing next with
  | nil =>
    rw [assemble]
    exact excludes_drop length_eq each within
  | cons award rest ih =>
    obtain ⟨later, proper, inside⟩ := awarded.bounded award List.mem_cons_self
    have first : pass.Excludes (Location.Among path ⟨next, award.extent.start⟩) _ :=
      excludes_slice each later
    have second : pass.Excludes (Location.Among path award.extent)
        (pass.settleOrTraverse path block.children steps award) :=
      excludes_settleOrTraverse replacing each proper
    have third := ih inside awarded.tail
    have ordered := Nat.le_of_lt proper
    have onward := second.append ordered inside third
    have whole := first.append later (Nat.le_trans ordered inside) onward
    rw [assemble_cons]
    simpa [Excludes] using whole

private theorem excludes_visitChildren (replacing : pass.mode = .replace) (sound : pass.Sound)
    {steps : List (Traced Tree)} (length_eq : steps.length = tree.children.length)
    (each : ∀ (index : Nat) (step : Traced Tree), steps[index]? = some step →
      pass.Excludes (Location.Below (path ++ [index])) step) :
    pass.Excludes (Location.Among path ⟨0, tree.children.length⟩)
      (pass.visitChildren path (pass.innerScope (pass.scopeAt root path) tree) tree.kind
        tree.children steps) := by
  rw [visitChildren]
  split
  · have claiming := idle_blockClaims pass path (pass.innerScope (pass.scopeAt root path) tree)
      tree.children
    have assembled := excludes_assemble replacing length_eq each (Nat.zero_le _)
      (awarded_resolve sound root path tree)
    rw [Excludes, visitBlock]
    simp only [Traced.trace_bind, Trace.applied_append, claiming.applied_eq_nil, List.nil_append]
    exact assembled
  · rw [visitOperands]
    apply excludes_children
    · rw [List.length_mapIdx, List.length_zip, length_eq, Nat.min_self]
    · intro index step here
      obtain ⟨child, inner, _, is_step, rfl⟩ := exists_of_operand here
      exact excludes_tryComposite replacing _ (each index inner is_step)

theorem excludes_traverse (replacing : pass.mode = .replace) (sound : pass.Sound)
    (reached : root.at? path = some tree) :
    pass.Excludes (Location.Below path) (pass.traverse path (pass.scopeAt root path) tree) := by
  apply traverse_induct (motive := fun path _ => pass.Excludes (Location.Below path)) ?_ reached
  intro path tree reached each
  rw [Excludes]
  simp only [Traced.trace_bind, Trace.applied_append]
  apply excludes_trySimple replacing sound
  apply excludes_visitChildren replacing sound (length_traverseAll _ _ _ _ _)
  intro index step here
  obtain ⟨_, _, excludes⟩ := each index step here
  exact excludes

/-- What one pass applies is exclusive of each other. -/
theorem exclusive_run (replacing : pass.mode = .replace) (sound : pass.Sound) (root : Tree) :
    (pass.run root).trace.applied.Pairwise (Exclusive pass.catalog) := by
  rw [run_eq]
  exact (excludes_tryComposite replacing _ (excludes_traverse replacing sound rfl)).exclusive

end Pass

end Codemod
